import Schemata.Command.Basic

/-!
# Command line arguments

`Invocation.ofArguments` reads the arguments of the program: the name of a command, a file, and
the options of the command in any order.  An option that takes a value has it attached or as the
next argument; that one must not look like an option itself.  After two dashes alone everything
is a file.
-/

namespace Schemata

/-- The commands by the words that name them. -/
inductive Verb where
  | check
  | ast
  | fmt
  | validate
  deriving DecidableEq, Repr

/-- What there is help on. -/
inductive HelpTopic where
  | program
  | command (verb : Verb)
  /-- The command that gives help. -/
  | help
  deriving DecidableEq, Repr

/-- What the arguments of the program ask for. -/
inductive Invocation where
  /-- Carry out a command on a file, or on the standard input. -/
  | run (file : Option String) (command : Command)
  | version
  | help (topic : HelpTopic)
  /-- The arguments are not understood. -/
  | misuse
  deriving DecidableEq, Repr

namespace Verb

/-- All commands. -/
def all : List Verb := [check, ast, fmt, validate]

/-- The word that names a command. -/
def word : Verb → String
  | check => "check"
  | ast => "ast"
  | fmt => "fmt"
  | validate => "validate"

/-- The command that a word names. -/
def ofWord? (text : String) : Option Verb :=
  all.find? (·.word == text)

end Verb

namespace Invocation

/-- An option of a command. -/
inductive Flag where
  | pretty
  | collection
  | input
  | help
  deriving DecidableEq, Repr

namespace Flag

/-- The long name of an option. -/
def long : Flag → String
  | pretty => "pretty"
  | collection => "collection"
  | input => "input"
  | help => "help"

/-- The short name of an option. -/
def short : Flag → Char
  | pretty => 'p'
  | collection => 'c'
  | input => 'i'
  | help => 'h'

/-- Whether an option takes a value. -/
def takesValue : Flag → Bool
  | collection | input => true
  | pretty | help => false

end Flag

/-- The options of a command. -/
def flags : Verb → List Flag
  | .check | .fmt => [.help]
  | .ast => [.pretty, .help]
  | .validate => [.collection, .input, .help]

/-- What has been read of the arguments of a command. -/
structure Given where
  file : Option String
  pretty : Bool
  collection : Option String
  input : Option String

/-- Why reading the arguments ended early. -/
inductive Stop where
  | help
  | misuse

/-- Adds a file.  There may be one, and its name is not empty. -/
def Given.addFile (given : Given) (name : String) : Except Stop Given :=
  if given.file.isSome || name.isEmpty then .error .misuse
  else .ok { given with file := some name }

/-- Adds an option without a value.  It may be given once. -/
def Given.addFlag (given : Given) : Flag → Except Stop Given
  | .pretty => if given.pretty then .error .misuse else .ok { given with pretty := true }
  | .help => .error .help
  | .collection | .input => .error .misuse

/-- Adds an option with its value.  It may be given once. -/
def Given.addValue (given : Given) (value : String) : Flag → Except Stop Given
  | .collection =>
    if given.collection.isSome then .error .misuse
    else .ok { given with collection := some value }
  | .input =>
    if given.input.isSome then .error .misuse else .ok { given with input := some value }
  | .pretty | .help => .error .misuse

/-- An argument of a command, by its form. -/
inductive Word where
  /-- Two dashes alone, after which there are only files. -/
  | escape
  /-- An option by its long name, with the value attached to it by an equals sign. -/
  | long (name : String) (value : Option String)
  /-- Options by their short names, with what is attached to the last of them. -/
  | short (letters : List Char)
  | plain (text : String)
  deriving DecidableEq, Repr

/-- The form of an argument. -/
def Word.of (text : String) : Word :=
  match text.toList with
  | ['-', '-'] => .escape
  | '-' :: '-' :: rest =>
    let name := String.ofList (rest.takeWhile (· ≠ '='))
    match rest.dropWhile (· ≠ '=') with
    | [] => .long name none
    | _ :: value => .long name (some (String.ofList value))
  | '-' :: c :: rest => .short (c :: rest)
  | _ => .plain text

/-- What a cluster of short options leads to: an option that still needs its value, or none. -/
def readShort (flags : List Flag) (given : Given) :
    List Char → Except Stop (Given × Option Flag)
  | [] => .ok (given, none)
  | c :: rest =>
    match flags.find? (·.short == c) with
    | none => .error .misuse
    | some flag =>
      if flag.takesValue then
        match rest with
        | [] => .ok (given, some flag)
        | '=' :: value => (given.addValue (String.ofList value) flag).map (·, none)
        | value => (given.addValue (String.ofList value) flag).map (·, none)
      else
        match given.addFlag flag with
        | .ok given => readShort flags given rest
        | .error stop => .error stop

/-- What a long option leads to: an option that still needs its value, or none. -/
def readLong (flags : List Flag) (given : Given) (name : String) (value : Option String) :
    Except Stop (Given × Option Flag) :=
  match flags.find? (·.long == name) with
  | none => .error .misuse
  | some flag =>
    match flag.takesValue, value with
    | true, none => .ok (given, some flag)
    | true, some value => (given.addValue value flag).map (·, none)
    | false, none => (given.addFlag flag).map (·, none)
    | false, some _ => .error .misuse

/-- Reads the arguments of a command.  A `pending` option takes the next one for its value. -/
def readWords (flags : List Flag) (given : Given) (pending : Option Flag) :
    List String → Except Stop Given
  | [] => if pending.isSome then .error .misuse else .ok given
  | text :: rest =>
    match pending, Word.of text with
    | some flag, .plain value =>
      match given.addValue value flag with
      | .ok given => readWords flags given none rest
      | .error stop => .error stop
    | some _, _ => .error .misuse
    | none, .plain name =>
      match given.addFile name with
      | .ok given => readWords flags given none rest
      | .error stop => .error stop
    | none, .escape => rest.foldlM Given.addFile given
    | none, .long name value =>
      match readLong flags given name value with
      | .ok (given, pending) => readWords flags given pending rest
      | .error stop => .error stop
    | none, .short letters =>
      match readShort flags given letters with
      | .ok (given, pending) => readWords flags given pending rest
      | .error stop => .error stop

/-- The invocation of a command with what was given to it. -/
def ofGiven (verb : Verb) (given : Given) : Invocation :=
  match verb with
  | .check => .run given.file .check
  | .ast => .run given.file (.dump given.pretty)
  | .fmt => .run given.file .format
  | .validate =>
    match given.collection with
    | some collection => .run given.file (.validate collection given.input)
    | none => .misuse

/-- What the words after the one for help ask for help on. -/
def helpTopic? : List String → Option HelpTopic
  | [] => some .program
  | ["help"] => some .help
  | [word] => (Verb.ofWord? word).map .command
  | _ => none

/-- What the arguments of the program ask for. -/
def ofArguments : List String → Invocation
  | [] => .misuse
  | word :: rest =>
    match Verb.ofWord? word with
    | some verb =>
      match readWords (flags verb) ⟨none, false, none, none⟩ none rest with
      | .ok given => ofGiven verb given
      | .error .help => .help (.command verb)
      | .error .misuse => .misuse
    | none =>
      match Word.of word with
      | .long "version" none => .version
      | .short ('V' :: _) => .version
      | .long "help" none => .help .program
      | .short ('h' :: _) => .help .program
      | .plain "help" => (helpTopic? rest).elim .misuse .help
      | _ => .misuse

end Invocation

end Schemata
