import Schemata.Text.Slice

/-!
# Positions in a source text

A `Position` locates a character by line, column and byte offset.  Reading a text from a
position moves it one character at a time (`next`); `advance` is the fold of `next`, so

* `advance_nil`     `p.advance [] = p`
* `advance_cons`    `p.advance (c :: cs) = (p.next c).advance cs`
* `advance_append`  `p.advance (s ++ t) = (p.advance s).advance t`
* `offset_advance`  the offset grows by the number of UTF-8 bytes read,
  and `offset_advance_start` is the case of the start.
-/

namespace Schemata

/-- Where a character stands in its source.  Lines and columns count from 1, columns count
    characters, and the offset counts UTF-8 bytes from 0. -/
structure Position where
  line : Nat
  col : Nat
  offset : Nat
  deriving DecidableEq, Repr, Inhabited

namespace Position

/-- The position of the first character of every source. -/
def start : Position := ⟨1, 1, 0⟩

/-- The position just after a character that stands at `p`.  Only a newline starts a line. -/
def next (p : Position) (c : Char) : Position :=
  if c = '\n' then ⟨p.line + 1, 1, p.offset + c.utf8Size⟩
  else ⟨p.line, p.col + 1, p.offset + c.utf8Size⟩

/-- The position just after a text that starts at `p`. -/
def advance (p : Position) (text : List Char) : Position :=
  text.foldl next p

/-- How a position reads in messages. -/
def describe (p : Position) : String :=
  "line " ++ Nat.repr p.line ++ ", col " ++ Nat.repr p.col

/-- Reading nothing stays in place. -/
@[simp] theorem advance_nil (p : Position) : p.advance [] = p := rfl

/-- A text is read character by character. -/
@[simp] theorem advance_cons (p : Position) (c : Char) (cs : List Char) :
    p.advance (c :: cs) = (p.next c).advance cs := rfl

/-- Reading one text and then another is reading both together. -/
theorem advance_append (p : Position) (s t : List Char) :
    p.advance (s ++ t) = (p.advance s).advance t := by
  simp [advance]

/-- A character moves the offset by its size in bytes, line feeds included. -/
@[simp] theorem offset_next (p : Position) (c : Char) :
    (p.next c).offset = p.offset + c.utf8Size := by
  unfold next; split <;> rfl

/-- Reading a text moves the offset by its size in bytes. -/
theorem offset_advance (p : Position) (text : List Char) :
    (p.advance text).offset = p.offset + Text.byteSize text := by
  induction text generalizing p with
  | nil => simp
  | cons c cs ih => simp [ih, Nat.add_assoc]

/-- After a text read from the start, the offset is its size in bytes. -/
theorem offset_advance_start (text : List Char) :
    (start.advance text).offset = Text.byteSize text := by
  rw [offset_advance, start, Nat.zero_add]

end Position

end Schemata
