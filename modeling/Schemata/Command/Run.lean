import Schemata.Command.Help
import Schemata.Directory

/-!
# Running the program

`respond` is the program as a function: what it prints, and the code it ends with, from its
arguments and a way to read a source.  `Directory.run` is the program on files that are held in
memory.
-/

namespace Schemata

/-- What the program leaves behind. -/
structure Outcome where
  exitCode : UInt32
  out : String
  err : String
  deriving DecidableEq, Repr

namespace Outcome

/-- Success, with a line of output. -/
def success (line : String) : Outcome := ⟨0, line ++ "\n", ""⟩

/-- Failure, with a line on the error stream. -/
def failure (line : String) : Outcome := ⟨1, "", line ++ "\n"⟩

/-- Arguments that are not understood. -/
def misuse : Outcome := ⟨2, "", ""⟩

end Outcome

/-- Why there is no source. -/
inductive SourceError where
  /-- The source could not be read, or is no text. -/
  | unread (error : ReadError)
  /-- No file is named, and the standard input is a terminal. -/
  | absent
  deriving DecidableEq, Repr

/-- The text of the error. -/
def SourceError.message : SourceError → String
  | unread error => "IO error: " ++ error.message
  | absent => "No source provided. Pass a file or pipe the schema to stdin."

namespace Invocation

/-- The line that reports an answer. -/
def report : Command.Answer → String
  | .syntaxValid => "Syntax is valid"
  | .tree text => text
  | .formatted text => text
  | .recordValid => "Record is valid"

/-- What was read as a source, which has to be text. -/
def decode : Except ReadError ByteArray → Except SourceError String
  | .error e => .error (.unread e)
  | .ok bytes =>
    match String.fromUTF8? bytes with
    | some source => .ok source
    | none => .error (.unread .notUtf8)

/-- Reads the source from a file, or from the standard input unless that is a terminal. -/
def readSource {m : Type → Type} [Monad m] (read : Option String → m (Except ReadError ByteArray))
    (terminal : Bool) (file : Option String) : m (Except SourceError String) :=
  match file, terminal with
  | none, true => return .error .absent
  | _, _ => return decode (← read file)

/-- The outcome of a command on a source. -/
def outcome (readJson : Command.JsonReader) (command : Command) :
    Except SourceError String → Outcome
  | .error e => .failure e.message
  | .ok source =>
    match command.execute source readJson with
    | .ok answer => .success (report answer)
    | .error failure => .failure (failure.message source)

/-- The name and version of the program. -/
def versionLine : String := "schema 0.2.0"

/-- The outcome of an invocation, given how to read a file or the standard input, and whether the
    standard input is a terminal. -/
def respond {m : Type → Type} [Monad m] (read : Option String → m (Except ReadError ByteArray))
    (terminal : Bool) (invocation : Invocation)
    (readJson : Command.JsonReader := Command.readRecord) : m Outcome :=
  match invocation with
  | .run file command => return outcome readJson command (← readSource read terminal file)
  | .version => return .success versionLine
  | .help topic => return ⟨0, topic.page, ""⟩
  | .misuse => return .misuse

end Invocation

/-- The outcome of the program with the given arguments.  An input that is held in memory is no
    terminal. -/
def Directory.run (directory : Directory) (args : List String) : Outcome :=
  Id.run ((Invocation.ofArguments args).respond (fun file => pure (directory.read file)) false)

end Schemata
