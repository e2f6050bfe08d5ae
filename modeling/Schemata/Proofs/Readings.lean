import Schemata.Parse.Program

/-!
# Repeated readings

A parser may be asked again and again, and every answer leaves it somewhere else: behind its last
token, in the middle of a statement that could not be read, or, if its source cannot be split into
tokens, where it was before.  None of this shows in a later answer.

Main results:

- `MadeAlike.read`: one reading depends only on what a parser was made with, and keeps that
- `replies_eq`: however often a parser is asked, it answers like one that has not read yet
-/

namespace Schemata.Parser

variable {a b c : Parser} {α : Type}

/-- The parsers were made with the same grammar and limit for the same source; they may have
    stopped at different places. -/
structure MadeAlike (a b : Parser) : Prop where
  grammar : a.grammar = b.grammar
  limit : a.limit = b.limit
  source : a.source = b.source

namespace MadeAlike

/-- A parser is made like itself. -/
theorem refl (a : Parser) : MadeAlike a a :=
  ⟨rfl, rfl, rfl⟩

/-- What is made alike is made like anything that the other one is made like. -/
theorem trans (h : MadeAlike a b) (h' : MadeAlike b c) : MadeAlike a c :=
  ⟨h.grammar.trans h'.grammar, h.limit.trans h'.limit, h.source.trans h'.source⟩

/-- Going back to the first token leaves nothing of what was read before. -/
theorem load_eq (h : MadeAlike a b) : a.load = b.load := by
  unfold load
  rw [h.source]
  split
  · rfl
  · rw [h.grammar, h.limit]

end MadeAlike

/-- Going back to the first token keeps what a parser was made with. -/
theorem madeAlike_of_load (h : a.load = .ok b) : MadeAlike b a := by
  unfold load at h
  split at h
  · cases h
  · cases h
    exact ⟨rfl, rfl, rfl⟩

/-- A reading that fails, early or late, keeps what the parser was made with. -/
theorem madeAlike_read (a : Parser) (body : Setting → Parse α) :
    MadeAlike (a.read body).2 a := by
  unfold read
  split
  · exact .refl a
  · next loaded hload =>
    have hloaded := madeAlike_of_load hload
    split
    · exact ⟨hloaded.grammar, hloaded.limit, hloaded.source⟩
    · exact ⟨hloaded.grammar, hloaded.limit, hloaded.source⟩

/-- What is read depends only on what the parser was made with. -/
theorem MadeAlike.read (h : MadeAlike a b) (body : Setting → Parse α) :
    (a.read body).1 = (b.read body).1 := by
  unfold Parser.read
  rw [h.load_eq]
  cases b.load with
  | error e => rfl
  | ok loaded => rfl

/-! ## Any number of readings -/

/-- What a parser may be asked for. -/
inductive Request where
  | statements
  | program
  | expression
  deriving DecidableEq, Repr

/-- What a parser answers. -/
inductive Reply where
  | statements (result : Except ParseError (List Node))
  | program (result : Except ParseError Program)
  | expression (result : Except ParseError Node)

/-- The answer of a parser, and the parser after it. -/
def reply (parser : Parser) : Request → Reply × Parser
  | .statements => parser.readStatements.map .statements id
  | .program => parser.readProgram.map .program id
  | .expression => parser.readExpression.map .expression id

/-- The answers of a parser that is asked for one thing after the other. -/
def replies (parser : Parser) : List Request → List Reply
  | [] => []
  | request :: requests =>
    (parser.reply request).1 :: (parser.reply request).2.replies requests

/-- Parsers that were made alike answer alike. -/
theorem MadeAlike.reply (h : MadeAlike a b) (request : Request) :
    (a.reply request).1 = (b.reply request).1 := by
  have hprogram : a.readProgram.1 = b.readProgram.1 := h.read _
  cases request with
  | statements =>
    show Reply.statements (a.readProgram.1.map _) = Reply.statements (b.readProgram.1.map _)
    rw [hprogram]
  | program => exact congrArg Reply.program hprogram
  | expression => exact congrArg Reply.expression (h.read Parse.wholeExpression)

/-- Whatever a parser is asked for, it keeps what it was made with. -/
theorem madeAlike_reply (a : Parser) (request : Request) : MadeAlike (a.reply request).2 a := by
  have hprogram : MadeAlike a.readProgram.2 a := madeAlike_read a _
  cases request with
  | statements => exact hprogram
  | program => exact hprogram
  | expression => exact madeAlike_read a Parse.wholeExpression

/-- The answers stay those of any parser that was made alike. -/
theorem MadeAlike.replies_eq_map (h : MadeAlike a b) (requests : List Request) :
    a.replies requests = requests.map fun request => (b.reply request).1 := by
  induction requests generalizing a with
  | nil => rfl
  | cons request requests ih =>
    rw [replies, List.map_cons, h.reply request, ih ((madeAlike_reply a request).trans h)]

/-- A parser has no memory: whatever it is asked for one after the other, and whether or not it
    could read that, every answer is the one that a parser gives which has not read yet. -/
theorem replies_eq (grammar : Grammar) (source : String) (requests : List Request) :
    (ofSource grammar source).replies requests =
      requests.map fun request => ((ofSource grammar source).reply request).1 :=
  (MadeAlike.refl _).replies_eq_map requests

end Schemata.Parser
