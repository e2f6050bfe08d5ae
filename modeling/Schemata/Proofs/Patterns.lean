import Mathlib.Computability.Language
import Schemata.Proofs.Spelling

/-!
# Patterns of tokens

Words, numbers, symbols and runs of blank characters are described by patterns, each a language over
characters.  A front part of a text that is `Longest` among those of a pattern is unique, and it is
the one that the reader of that class takes: `longest_takeWhile`, `longest_numberText` and
`longest_symbol?`.
-/

namespace Schemata.Scan

open scoped Computability

/-! ## Patterns -/

/-- The texts of a single character, which is one of the given. -/
def one (chars : Set Char) : Language Char :=
  {text | ∃ c ∈ chars, text = [c]}

/-- `[A-Za-z_$]` -/
def letters : Set Char :=
  {c | 'A' ≤ c ∧ c ≤ 'Z' ∨ 'a' ≤ c ∧ c ≤ 'z' ∨ c = '_' ∨ c = '$'}

/-- `[0-9]` -/
def digits : Set Char :=
  {c | '0' ≤ c ∧ c ≤ '9'}

/-- The characters with the property `White_Space`. -/
def blanks : Set Char :=
  {c | Text.isBlank c = true}

/-- A run of blank characters. -/
def blankPattern : Language Char :=
  one blanks * (one blanks)∗

/-- `[A-Za-z_$][A-Za-z0-9_$]*` -/
def wordPattern : Language Char :=
  one letters * (one (letters ∪ digits))∗

/-- `(0|[1-9][0-9]*)(\.[0-9]+)?` -/
def numberPattern : Language Char :=
  (one {'0'} + one (digits \ {'0'}) * (one digits)∗) *
    (1 + one {'.'} * (one digits * (one digits)∗))

/-- The spellings of symbols. -/
def symbolPattern : Language Char :=
  {text | ∃ kind, (text, kind) ∈ TokenKind.symbols}

/-- What texts of a single character are. -/
theorem mem_one {chars : Set Char} {text : List Char} :
    text ∈ one chars ↔ ∃ c ∈ chars, text = [c] := Iff.rfl

/-- Any number of characters of one sort. -/
theorem mem_kstar_one {chars : Set Char} {text : List Char} :
    text ∈ (one chars)∗ ↔ ∀ c ∈ text, c ∈ chars := by
  rw [Language.mem_kstar]
  constructor
  · rintro ⟨parts, rfl, hparts⟩ c hc
    obtain ⟨part, hpart, hc⟩ := List.mem_flatten.1 hc
    obtain ⟨d, hd, rfl⟩ := hparts part hpart
    rwa [List.mem_singleton.1 hc]
  · intro h
    refine ⟨text.map fun c => [c], by simp [← List.flatMap_def], ?_⟩
    intro part hpart
    obtain ⟨c, hc, rfl⟩ := List.mem_map.1 hpart
    exact ⟨c, h c hc, rfl⟩

/-- A character of one sort, and then a text of the pattern. -/
theorem mem_one_mul {chars : Set Char} {pattern : Language Char} {text : List Char} :
    text ∈ one chars * pattern ↔ ∃ c cs, text = c :: cs ∧ c ∈ chars ∧ cs ∈ pattern := by
  rw [Language.mem_mul]
  constructor
  · rintro ⟨-, ⟨c, hc, rfl⟩, cs, hcs, rfl⟩
    exact ⟨c, cs, rfl, hc, hcs⟩
  · rintro ⟨c, cs, rfl, hc, hcs⟩
    exact ⟨[c], ⟨c, hc, rfl⟩, cs, hcs, rfl⟩

/-- A character of one sort, then any number of another. -/
theorem mem_one_mul_kstar {first more : Set Char} {text : List Char} :
    text ∈ one first * (one more)∗ ↔
      ∃ c cs, text = c :: cs ∧ c ∈ first ∧ ∀ d ∈ cs, d ∈ more := by
  simp only [mem_one_mul, mem_kstar_one]

/-- The digits of patterns are those of the lexer. -/
theorem mem_digits {c : Char} : c ∈ digits ↔ c.isDigit = true := by
  rw [isDigit_iff]
  simp [digits, Char.le_def, UInt32.le_iff_toNat_le]

/-- The letters of patterns are what the lexer begins a word with. -/
theorem mem_letters {c : Char} : c ∈ letters ↔ isWordStart c = true := by
  rw [isWordStart_iff]
  simp [letters, Char.le_def, UInt32.le_iff_toNat_le, char_eq_iff, or_assoc]

/-- The letters and digits of patterns are what the lexer goes on with in a word. -/
theorem mem_letters_union_digits {c : Char} : c ∈ letters ∪ digits ↔ isWordRest c = true := by
  rw [Set.mem_union, mem_letters, mem_digits, isWordRest_iff]

/-- A whole part is one of the pattern. -/
private theorem mem_wholePattern {text : List Char} :
    text ∈ one {'0'} + one (digits \ {'0'}) * (one digits)∗ ↔ isWhole text = true := by
  rw [Language.mem_add, mem_one_mul_kstar]
  cases text with
  | nil => simp [mem_one, isWhole]
  | cons c cs =>
    by_cases hc : c = '0'
    · subst hc
      simp +contextual [mem_one, isWhole]
    · simp [mem_one, isWhole, hc, mem_digits]

/-- A fraction is one of the pattern. -/
private theorem mem_fractionPattern {text : List Char} :
    text ∈ 1 + one {'.'} * (one digits * (one digits)∗) ↔ isFraction text = true := by
  simp only [Language.mem_add, Language.mem_one, mem_one_mul, mem_kstar_one]
  cases text with
  | nil => simp [isFraction]
  | cons c cs => cases cs <;> simp [isFraction, mem_digits]

/-- A number is a whole part and perhaps a fraction. -/
theorem mem_numberPattern {text : List Char} :
    text ∈ numberPattern ↔ isNumber (String.ofList text) = true := by
  rw [isNumber_iff, String.toList_ofList, numberPattern, Language.mem_mul]
  simp only [mem_wholePattern, mem_fractionPattern]
  constructor
  · rintro ⟨whole, hwhole, fraction, hfraction, rfl⟩
    exact ⟨whole, fraction, rfl, hwhole, hfraction⟩
  · rintro ⟨whole, fraction, rfl, hwhole, hfraction⟩
    exact ⟨whole, hwhole, fraction, hfraction, rfl⟩

/-- A run begins with a character of the first sort, and so does a text that begins with it. -/
theorem head_mem {first more : Set Char} {c : Char} {rest text : List Char}
    (h : text ∈ one first * (one more)∗) (hfront : text <+: c :: rest) : c ∈ first := by
  obtain ⟨d, ds, rfl, hd, -⟩ := mem_one_mul_kstar.1 h
  rwa [← (List.cons_prefix_cons.1 hfront).1]

/-- A number begins with a digit. -/
theorem isDigit_head {c : Char} {rest text : List Char} (h : text ∈ numberPattern)
    (hfront : text <+: c :: rest) : c.isDigit = true := by
  obtain ⟨whole, part, hsplit, hwhole, -⟩ := isNumber_iff.1 (mem_numberPattern.1 h)
  rw [String.toList_ofList] at hsplit
  subst hsplit
  cases whole with
  | nil => cases hwhole
  | cons d ds =>
    rw [← (List.cons_prefix_cons.1 hfront).1]
    exact isDigit_of_mem_isWhole hwhole d List.mem_cons_self

/-! ## Longest front parts -/

/-- The text is the longest front part of `cs` that is of the pattern. -/
structure Longest (pattern : Language Char) (cs text : List Char) : Prop where
  mem : text ∈ pattern
  front : text <+: cs
  longest : ∀ other ∈ pattern, other <+: cs → other.length ≤ text.length

/-- There is one longest front part. -/
theorem Longest.unique {pattern : Language Char} {cs text text' : List Char}
    (h : Longest pattern cs text) (h' : Longest pattern cs text') : text = text' := by
  have hle := h'.longest text h.mem h.front
  have hge := h.longest text' h'.mem h'.front
  exact (List.prefix_of_prefix_length_le h.front h'.front hle).eq_of_length_le hge

/-- A front part of one class of characters goes no further than all of the class. -/
private theorem prefix_takeWhile {p : Char → Bool} {cs text : List Char} (h : text <+: cs)
    (hp : ∀ c ∈ text, p c = true) : text <+: cs.takeWhile p := by
  obtain ⟨after, rfl⟩ := h
  rw [List.takeWhile_append_of_pos hp]
  exact List.prefix_append ..

/-- A run of characters is as long as it can be. -/
theorem longest_takeWhile {first more : Set Char} {p : Char → Bool} {c : Char} {rest : List Char}
    (hmore : ∀ d, d ∈ more ↔ p d = true) (hfirst : first ⊆ more) (hc : c ∈ first) :
    Longest (one first * (one more)∗) (c :: rest) ((c :: rest).takeWhile p) where
  mem := by
    rw [List.takeWhile_cons_of_pos ((hmore c).1 (hfirst hc)), mem_one_mul_kstar]
    exact ⟨c, _, rfl, hc, fun d hd => (hmore d).2 (List.all_eq_true.1 List.all_takeWhile d hd)⟩
  front := List.takeWhile_prefix p
  longest := by
    intro other hother hfront
    apply (prefix_takeWhile hfront _).length_le
    obtain ⟨d, ds, rfl, hd, hds⟩ := mem_one_mul_kstar.1 hother
    intro e he
    rw [← hmore]
    rcases List.mem_cons.1 he with rfl | he
    · exact hfirst hd
    · exact hds e he

/-- A fraction is as long as it can be. -/
private theorem length_le_fraction {cs text : List Char} (h : text <+: cs)
    (hfraction : isFraction text = true) : text.length ≤ (fraction cs).length := by
  cases text with
  | nil => exact Nat.zero_le _
  | cons c ds =>
    simp only [isFraction, Bool.and_eq_true, Bool.not_eq_true', List.isEmpty_eq_false_iff,
      decide_eq_true_eq] at hfraction
    obtain ⟨⟨rfl, hne⟩, hall⟩ := hfraction
    obtain ⟨after, rfl⟩ := h
    have hrun := prefix_takeWhile (List.prefix_append ds after) (List.all_eq_true.1 hall)
    have hsome : ((ds ++ after).takeWhile Char.isDigit).isEmpty = false := by
      rw [List.isEmpty_eq_false_iff]
      intro hempty
      rw [hempty] at hrun
      exact hne (List.prefix_nil.1 hrun)
    have hlength := hrun.length_le
    simp only [List.cons_append, fraction, hsome, List.length_cons]
    exact Nat.succ_le_succ hlength

/-- No whole part goes further than the one that is read. -/
private theorem prefix_wholePart {cs text : List Char} (h : text <+: cs)
    (hwhole : isWhole text = true) : text <+: wholePart cs := by
  have hdigits := isDigit_of_mem_isWhole hwhole
  unfold wholePart
  split
  · next rest =>
    cases text with
    | nil => cases hwhole
    | cons c ds =>
      obtain ⟨rfl, -⟩ := List.cons_prefix_cons.1 h
      simp only [isWhole, Bool.and_eq_true, ne_eq, not_true_eq_false, decide_false, Bool.false_or,
        List.isEmpty_iff] at hwhole
      rw [hwhole.2]
  · exact prefix_takeWhile h hdigits

/-- A number is as long as it can be. -/
theorem longest_numberText {c : Char} {rest : List Char} (hc : c.isDigit = true) :
    Longest numberPattern (c :: rest) (numberText (c :: rest)) where
  mem := mem_numberPattern.2 (isNumber_numberText hc)
  front := by
    obtain ⟨-, after, hsplit⟩ := scan_split (scan_number hc)
    exact ⟨after, hsplit.symm⟩
  longest := by
    intro other hother hfront
    obtain ⟨whole, part, hsplit, hwhole, hpart⟩ := isNumber_iff.1 (mem_numberPattern.1 hother)
    rw [String.toList_ofList] at hsplit
    subst hsplit
    obtain ⟨after, hafter⟩ := hfront
    rw [List.append_assoc] at hafter
    obtain ⟨more, hmore⟩ := prefix_wholePart ⟨part ++ after, hafter⟩ hwhole
    cases more with
    -- The whole parts are the same, and the fractions are read from the same text
    | nil =>
      rw [List.append_nil] at hmore
      have hdrop : (c :: rest).drop (wholePart (c :: rest)).length = part ++ after := by
        rw [← hmore, ← hafter, List.drop_left]
      have hle := length_le_fraction (List.prefix_append part after) hpart
      have hnumber : numberText (c :: rest) = whole ++ fraction (part ++ after) := by
        rw [numberText, hdrop, ← hmore]
      rw [hnumber, List.length_append, List.length_append]
      omega
    -- A whole part that ends before a digit has no fraction
    | cons d more =>
      have hd : d.isDigit = true :=
        isDigit_of_mem_isWhole (isWhole_wholePart hc) d (by rw [← hmore]; simp)
      have hnone : part = [] := by
        cases part with
        | nil => rfl
        | cons e part =>
          obtain ⟨tail, htail⟩ := wholePart_prefix (c :: rest)
          rw [← hmore, ← hafter, List.append_assoc] at htail
          obtain ⟨rfl, -⟩ := List.cons.inj (List.append_cancel_left htail)
          simp only [isFraction, Bool.and_eq_true, decide_eq_true_eq] at hpart
          rw [hpart.1.1] at hd
          cases hd
      have hlength := congrArg List.length hmore
      rw [List.length_append, List.length_cons] at hlength
      rw [numberText, hnone, List.length_append, List.length_append, List.length_nil]
      omega

/-- The first symbol of the table that matches is the longest. -/
theorem longest_symbol? {cs text : List Char} {kind : TokenKind}
    (h : symbol? cs = some (text, kind)) : Longest symbolPattern cs text where
  mem := ⟨kind, (symbol?_mem h).1⟩
  front := (symbol?_mem h).2
  longest := by
    -- Longer symbols come before shorter ones in the table
    have hsorted : TokenKind.symbols.Pairwise fun a b => b.1.length ≤ a.1.length := by decide
    rintro other ⟨kind', hmem⟩ hfront
    obtain ⟨-, before, after, hsplit, hbefore⟩ := List.find?_eq_some_iff_append.1 h
    rw [hsplit] at hmem hsorted
    rcases List.mem_append.1 hmem with hmem | hmem
    · have hno := hbefore _ hmem
      dsimp only at hno
      rw [List.isPrefixOf_iff_prefix.2 hfront] at hno
      cases hno
    rcases List.mem_cons.1 hmem with heq | hmem
    · rw [(Prod.mk.inj heq).1]
    · have hpairs := (List.pairwise_append.1 hsorted).2.1
      exact (List.pairwise_cons.1 hpairs).1 _ hmem

end Schemata.Scan
