import Schemata.Command.Invocation

/-!
# Help pages

A page of help says what the program or a command does and how it is invoked, and lists its
commands, arguments and options in columns.  `HelpTopic.page` is the page on a topic.
-/

namespace Schemata

/-- A titled list of labels, each with a remark. -/
structure HelpSection where
  title : String
  rows : List (String × String)

namespace HelpSection

/-- The length of the longest label. -/
def width (listed : HelpSection) : Nat :=
  listed.rows.foldl (fun width (label, _) => max width label.length) 0

/-- The text of a section, with the remarks below each other. -/
def print (listed : HelpSection) : String :=
  listed.rows.foldl
    (fun text (label, remark) =>
      text ++ "  " ++ label ++ Text.spaces (listed.width + 2 - label.length) ++ remark ++ "\n")
    ("\n" ++ listed.title ++ ":\n")

end HelpSection

/-- What a command does. -/
def Verb.remark : Verb → String
  | check => "Validate the syntax of a schema"
  | ast => "Print the syntax tree as JSON"
  | fmt => "Print the schema in canonical form"
  | validate => "Validate a JSON record against a collection"

/-- How a command is invoked. -/
def Verb.usage : Verb → String
  | check => "check [FILE]"
  | ast => "ast [OPTIONS] [FILE]"
  | fmt => "fmt [FILE]"
  | validate => "validate [OPTIONS] --collection <COLLECTION> [FILE]"

namespace Invocation.Flag

/-- The names of an option, and what stands for its value. -/
def label (flag : Flag) : String :=
  "-" ++ String.singleton flag.short ++ ", --" ++ flag.long ++
    match flag with
    | collection => " <COLLECTION>"
    | input => " <INPUT>"
    | pretty | help => ""

/-- What an option is for. -/
def remark : Flag → String
  | pretty => "Pretty-print the output"
  | collection => "Collection to validate against"
  | input => "JSON record"
  | help => "Print help"

end Invocation.Flag

namespace HelpTopic

/-- What the command that gives help does. -/
def helpRemark : String := "Print this message or the help of the given subcommand(s)"

/-- What the topic is about. -/
def remark : HelpTopic → String
  | program => "Parse, format and validate collection schemas"
  | command verb => verb.remark
  | help => helpRemark

/-- How the topic is invoked. -/
def usage : HelpTopic → String
  | program => "<COMMAND>"
  | command verb => verb.usage
  | help => "help [COMMAND]..."

/-- The lists of a page. -/
def sections : HelpTopic → List HelpSection
  | program =>
    [⟨"Commands",
      Verb.all.map (fun verb => (verb.word, verb.remark)) ++ [("help", helpRemark)]⟩,
     ⟨"Options", [("-h, --help", "Print help"), ("-V, --version", "Print version")]⟩]
  | command verb =>
    [⟨"Arguments", [("[FILE]", "Schema file (reads from stdin if not provided)")]⟩,
     ⟨"Options", (Invocation.flags verb).map fun flag => (flag.label, flag.remark)⟩]
  | help => [⟨"Arguments", [("[COMMAND]...", "Print help for the subcommand(s)")]⟩]

/-- The page of help on a topic. -/
def page (topic : HelpTopic) : String :=
  topic.remark ++ "\n\nUsage: schema " ++ topic.usage ++ "\n" ++
    String.join (topic.sections.map HelpSection.print)

end HelpTopic

end Schemata
