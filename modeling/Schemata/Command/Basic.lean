import Schemata.Check
import Schemata.Json.Printer
import Schemata.Json.Reader
import Schemata.Node.Dump
import Schemata.Node.Printer
import Schemata.Parse.Program

/-!
# Commands

A command does something with a source: check it, dump its tree, print it in canonical form, or
check a record against one of its collections.  Every command parses the source first.

How the text of a record is read is a parameter, and so are the words for a text that is no JSON
value (`JsonReader`).  `Command.readRecord` is the reader that is used where no other is given.
-/

namespace Schemata

/-- What to do with a source. -/
inductive Command where
  | check
  | dump (pretty : Bool)
  | format
  /-- Check a record, given as JSON text, against a collection. -/
  | validate (collection : String) (input : Option String)
  deriving DecidableEq, Repr

namespace Command

/-- What a command found or made. -/
inductive Answer where
  | syntaxValid
  | tree (text : String)
  | formatted (text : String)
  | recordValid
  deriving DecidableEq, Repr

/-- Why a command failed. -/
inductive Failure where
  | parse (error : ParseError)
  | check (error : CheckError)
  /-- The text of a record is no JSON value, for a reason in the words of its reader. -/
  | invalidJson {reason : String}
  | noInput
  | unknownCollection (name : String)
  deriving DecidableEq, Repr

/-- The text of a failure for the source of the command. -/
def Failure.message (source : String) : Failure → String
  | parse error => "Parse error: " ++ error.message source
  | check error => "Validation error: " ++ error.message
  | @invalidJson reason => "Invalid JSON: " ++ reason
  | noInput => "No input provided. Use --input to pass the JSON record."
  | unknownCollection name => "Unknown collection: '" ++ name ++ "'"

/-- A reader of JSON: the value that a text is, or the reason why it is none. -/
abbrev JsonReader : Type :=
  String → Except String Json

/-- The number of arrays and objects that may be nested in a record. -/
def recordDepth : Nat := 127

/-- Reads a record of bounded depth.  The reader knows no reasons, so it gives one for all. -/
def readRecord : JsonReader := fun text =>
  match Json.read? recordDepth text with
  | some record => .ok record
  | none => .error "the text is not a JSON value"

/-- Checks a record, given as JSON text, against a collection among statements. -/
def validateInput (readJson : JsonReader) (statements : List Node) (collection : String)
    (input : Option String) : Except Failure Answer :=
  match input with
  | none => .error .noInput
  | some text =>
    match readJson text with
    | .error reason => .error (@Failure.invalidJson reason)
    | .ok record =>
      match Node.findCollection? statements collection with
      | none => .error (.unknownCollection collection)
      | some declared =>
        match checkRecord declared record with
        | .ok () => .ok .recordValid
        | .error e => .error (.check e)

/-- Carries out a command on the statements of a source. -/
def answer (readJson : JsonReader) (statements : List Node) : Command → Except Failure Answer
  | .check => .ok .syntaxValid
  | .dump pretty =>
    let json := Node.dump statements
    .ok (.tree (if pretty then json.pretty else json.compact))
  | .format => .ok (.formatted (Node.printAll statements))
  | .validate collection input => validateInput readJson statements collection input

/-- Carries out a command on a source. -/
def execute (source : String) (command : Command) (readJson : JsonReader := readRecord) :
    Except Failure Answer :=
  match parse source with
  | .ok statements => command.answer readJson statements
  | .error e => .error (.parse e)

end Command

end Schemata
