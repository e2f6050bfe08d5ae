/-!
# Slices of a text by byte offset

Spans are recorded in UTF-8 bytes while texts are lists of characters.  `takeBytes` and
`dropBytes` split a text at a byte count; they never cut a character in two: one that does not
fit is left out of the front part.
-/

namespace Schemata.Text

/-- The size of a text in UTF-8 bytes. -/
def byteSize : List Char → Nat
  | [] => 0
  | c :: cs => c.utf8Size + byteSize cs

/-- The text without the characters that begin in its first `n` bytes. -/
def dropBytes (n : Nat) : List Char → List Char
  | [] => []
  | c :: cs => if n = 0 then c :: cs else dropBytes (n - c.utf8Size) cs

/-- The characters that lie wholly in the first `n` bytes of the text. -/
def takeBytes (n : Nat) : List Char → List Char
  | [] => []
  | c :: cs => if c.utf8Size ≤ n then c :: takeBytes (n - c.utf8Size) cs else []

/-- The characters between two byte offsets. -/
def slice (text : List Char) (start stop : Nat) : List Char :=
  takeBytes (stop - start) (dropBytes start text)

/-- The number of newlines in a text. -/
def lineBreaks (text : List Char) : Nat :=
  text.count '\n'

/-- The empty text has no bytes. -/
@[simp] theorem byteSize_nil : byteSize [] = 0 := rfl

/-- The size of a text is that of its first character and of the rest. -/
@[simp] theorem byteSize_cons (c : Char) (cs : List Char) :
    byteSize (c :: cs) = c.utf8Size + byteSize cs := rfl

/-- The sizes of two texts add up. -/
@[simp] theorem byteSize_append (s t : List Char) :
    byteSize (s ++ t) = byteSize s + byteSize t := by
  induction s with
  | nil => simp
  | cons c cs ih => simp [ih, Nat.add_assoc]

/-- Dropping no bytes leaves the text as it is. -/
@[simp] theorem dropBytes_zero (text : List Char) : dropBytes 0 text = text := by
  cases text <;> simp [dropBytes]

/-- Dropping the size of a leading part leaves what follows it. -/
theorem dropBytes_byteSize_append (s t : List Char) : dropBytes (byteSize s) (s ++ t) = t := by
  induction s with
  | nil => simp
  | cons c cs ih =>
    have := c.utf8Size_pos
    simp [dropBytes, ih]
    omega

/-- Taking the size of a leading part gives that part. -/
theorem takeBytes_byteSize_append (s t : List Char) : takeBytes (byteSize s) (s ++ t) = s := by
  induction s with
  | nil =>
    cases t with
    | nil => rfl
    | cons c cs => simp [takeBytes, show ¬ c.utf8Size ≤ 0 by have := c.utf8Size_pos; omega]
  | cons c cs ih => simp [takeBytes, ih]

/-- A part is the slice between the offsets of its two ends. -/
theorem slice_append_append (s t u : List Char) :
    slice (s ++ (t ++ u)) (byteSize s) (byteSize s + byteSize t) = t := by
  simp [slice, dropBytes_byteSize_append, takeBytes_byteSize_append]

end Schemata.Text
