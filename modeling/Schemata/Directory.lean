/-!
# Files held in memory

The program reads its sources with a function that it is given. A `Directory` yields one that needs
no system: it holds files under their paths, and fails as a system would. A path is looked up by
walking along its parts, the texts between its slashes, from one `Place` to the next:
`Directory.step` is one step of the walk and `Directory.lookup` all of it. What lies above the
directory is not known, apart from the fact that it consists of directories. `Directory.run` is the
program on such files.
-/

namespace Schemata

/-- Why a source could not be read. -/
inductive ReadError where
  | missing
  | notDirectory
  | isDirectory
  | nameTooLong
  | notUtf8
  /-- Any other reason, in the words of the system. -/
  | other (reason : String)
  deriving DecidableEq, Repr

/-- The text of the error. -/
def ReadError.message : ReadError → String
  | missing => "No such file or directory (os error 2)"
  | notDirectory => "Not a directory (os error 20)"
  | isDirectory => "Is a directory (os error 21)"
  | nameTooLong => "File name too long (os error 36)"
  | notUtf8 => "stream did not contain valid UTF-8"
  | other reason => reason

/-- Files held in memory under their paths, and a standard input. -/
structure Directory where
  files : List (String × ByteArray)
  input : ByteArray

namespace Directory

/-- The parts of a path. -/
def pathParts (path : String) : List String :=
  (path.toList.splitOn '/').map String.ofList

/-- Whether a part of a path stays where it is. -/
def isIdle (part : String) : Bool :=
  part = "" || part = "."

/-- The names of the directories on the way to a file, and of the file itself. -/
def fileNames (path : String) : List String :=
  (pathParts path).filter (!isIdle ·)

/-- The file with the given names.  The last of several files with the same names counts. -/
def file? (directory : Directory) (names : List String) : Option ByteArray :=
  (directory.files.reverse.find? (fileNames ·.1 == names)).map (·.2)

/-- Whether a file lies in or below the directory with the given names. -/
def hasFolder (directory : Directory) (names : List String) : Bool :=
  directory.files.any fun (path, _) => names.isPrefixOf (fileNames path)

/-- Where a walk along a path has come to. -/
inductive Place where
  /-- A directory above the one that holds the files. -/
  | above
  /-- The directory with the given names. -/
  | folder (names : List String)
  | file (content : ByteArray)

/-- The number of bytes that a name may have. -/
def maxNameBytes : Nat := 255

/-- The number of bytes that a path may have. -/
def maxPathBytes : Nat := 4095

/-- The directory that a directory lies in. -/
def parent (names : List String) : Place :=
  if names.isEmpty then .above else .folder names.dropLast

/-- The place with a name in a directory. -/
def entry (directory : Directory) (names : List String) : Except ReadError Place :=
  match directory.file? names with
  | some content => .ok (.file content)
  | none => if directory.hasFolder names then .ok (.folder names) else .error .missing

/-- Walks along one part of a path.  Nothing lies below a file, not even the file itself. -/
def step (directory : Directory) (place : Place) (part : String) : Except ReadError Place :=
  match place with
  | .file _ => .error .notDirectory
  | .above =>
    if isIdle part || part = ".." then .ok .above
    else if part.utf8ByteSize > maxNameBytes then .error .nameTooLong
    else .error .missing
  | .folder names =>
    if isIdle part then .ok (.folder names)
    else if part = ".." then .ok (parent names)
    else if part.utf8ByteSize > maxNameBytes then .error .nameTooLong
    else directory.entry (names ++ [part])

/-- Where a path begins: a slash at its front leads out of the directory. -/
def start (path : String) : Place :=
  if path.startsWith "/" then .above else .folder []

/-- The place that a path leads to. -/
def lookup (directory : Directory) (path : String) : Except ReadError Place :=
  if path.utf8ByteSize > maxPathBytes then .error .nameTooLong
  else (pathParts path).foldlM directory.step (start path)

/-- Reads a file, or the standard input. -/
def read (directory : Directory) : Option String → Except ReadError ByteArray
  | none => .ok directory.input
  | some path =>
    match directory.lookup path with
    | .ok (.file content) => .ok content
    | .ok (.folder _) | .ok .above => .error .isDirectory
    | .error e => .error e

end Directory

end Schemata
