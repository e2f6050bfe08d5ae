import Mathlib.Data.List.Induction
import Mathlib.Data.List.TakeWhile
import Schemata.Numeral.Binary64
import Schemata.Numeral.Fixed
import Schemata.Proofs.Lexing

/-!
# Number literals as exact decimals

A number literal has no sign, no needless zero in front and a digit on both sides of its point
(`Literal`), so its digits can be found again from their value and how many of them there are
(`zeroPadded_digitsValue`).  What is read from a literal as an exact decimal is therefore written
as that literal again, and only a literal with too many fraction digits or too large a value is
refused.

The decimals are those of a library of which no more is known than `DecimalLibrary.Exact` says: what
decimals there are, that literals are read digit for digit, and how decimals are written.

Main statement: `number_exact`, for every such library.
-/

namespace Schemata

namespace Numeral

/-! ## Digits and their value -/

variable {d : Char} {ds : List Char} {n width : Nat}

/-- One more digit behind others makes ten times their value and its own. -/
theorem digitsValue_append_singleton (ds : List Char) (d : Char) :
    digitsValue (ds ++ [d]) = 10 * digitsValue ds + (d.toNat - '0'.toNat) := by
  simp [digitsValue]

/-- The value of a digit is written as that digit. -/
theorem decimalDigits_digit (hd : d.isDigit = true) :
    decimalDigits (d.toNat - '0'.toNat) = [d] := by
  have hrange := (Scan.isDigit_iff d).1 hd
  have hzero : '0'.toNat = 48 := rfl
  have hlt : d.toNat - '0'.toNat < 10 := by omega
  have hchar : (d.toNat - '0'.toNat).digitChar = d := by
    rw [Scan.char_eq_iff, Nat.toNat_digitChar_of_lt_ten hlt]
    omega
  rw [decimalDigits, Nat.toDigits_of_lt_base hlt, hchar]

/-- One more digit behind a number that is not zero is the last one of its digits. -/
theorem decimalDigits_append_digit (hn : 0 < n) (hd : d.isDigit = true) :
    decimalDigits (10 * n + (d.toNat - '0'.toNat)) = decimalDigits n ++ [d] := by
  have hrange := (Scan.isDigit_iff d).1 hd
  have hzero : '0'.toNat = 48 := rfl
  have hlt : d.toNat - '0'.toNat < 10 := by omega
  have hlast : Nat.toDigits 10 (d.toNat - '0'.toNat) = [d] := decimalDigits_digit hd
  rw [decimalDigits, ← Nat.toDigits_append_toDigits (by decide) hn hlt, hlast, decimalDigits]

/-- The decimal digits of a number, with zeros in front up to a width. -/
def zeroPadded (width n : Nat) : List Char :=
  List.replicate (width - (decimalDigits n).length) '0' ++ decimalDigits n

/-- No zeros are put in front of enough digits. -/
theorem zeroPadded_of_le (h : width ≤ (decimalDigits n).length) :
    zeroPadded width n = decimalDigits n := by
  rw [zeroPadded, Nat.sub_eq_zero_of_le h, List.replicate_zero, List.nil_append]

/-- There are as many digits as the width asks for, or more. -/
theorem le_length_zeroPadded (width n : Nat) : width ≤ (zeroPadded width n).length := by
  rw [zeroPadded, List.length_append, List.length_replicate]
  omega

/-- Digits are told by their value and how many of them there are. -/
theorem zeroPadded_digitsValue (hne : ds ≠ []) (hds : ∀ d ∈ ds, d.isDigit = true) :
    zeroPadded ds.length (digitsValue ds) = ds := by
  -- The value of the digits is built up from the left, so the last digit is split off
  induction ds using List.reverseRecOn with
  | nil => exact absurd rfl hne
  | append_singleton ds d ih =>
    have hd : d.isDigit = true := hds d (by simp)
    rw [digitsValue_append_singleton, List.length_append, List.length_singleton]
    by_cases hnil : ds = []
    · subst hnil
      have hvalue : 10 * digitsValue [] + (d.toNat - '0'.toNat) = d.toNat - '0'.toNat := by
        simp [digitsValue]
      rw [hvalue, zeroPadded, decimalDigits_digit hd]
      rfl
    have hfront := ih hnil fun c hc => hds c (List.mem_append_left _ hc)
    have hlength := List.length_pos_iff.2 hnil
    rcases Nat.eq_zero_or_pos (digitsValue ds) with hzero | hpos
    -- Zeros alone have no value: the digit is the only one that is not made up by the width
    · have hzeros : List.replicate (ds.length - 1) '0' ++ ['0'] = ds := by
        rwa [hzero, zeroPadded, decimalDigits, Nat.toDigits_zero] at hfront
      rw [hzero, Nat.mul_zero, Nat.zero_add, zeroPadded, decimalDigits_digit hd,
        List.length_singleton, Nat.add_sub_cancel]
      congr 1
      rw [← hzeros, ← List.replicate_succ', List.length_replicate]
    · rw [zeroPadded, decimalDigits_append_digit hpos hd, List.length_append,
        List.length_singleton, Nat.add_sub_add_right, ← List.append_assoc]
      exact congrArg (· ++ [d]) hfront

/-- Digits that do not begin with a zero are those of their value. -/
theorem decimalDigits_digitsValue {c : Char} {cs : List Char} (hc : c ≠ '0')
    (hds : ∀ d ∈ c :: cs, d.isDigit = true) :
    decimalDigits (digitsValue (c :: cs)) = c :: cs := by
  have h := zeroPadded_digitsValue (List.cons_ne_nil c cs) hds
  rw [zeroPadded] at h
  cases hzeros : (c :: cs).length - (decimalDigits (digitsValue (c :: cs))).length with
  | zero => rwa [hzeros] at h
  | succ k =>
    rw [hzeros, List.replicate_succ, List.cons_append] at h
    exact absurd (List.cons.inj h).1.symm hc

/-! ## Literals -/

/-- The digits after the point of a numeral. -/
def fractionOf (text : List Char) : List Char :=
  (text.dropWhile (· ≠ '.')).drop 1

/-- The digits of a numeral, read without the point. -/
def withoutPoint (text : List Char) : List Char :=
  text.filter (· ≠ '.')

/-- Digits with a point between them, if there are any behind it. -/
def pointed (whole fraction : List Char) : List Char :=
  whole ++ if fraction = [] then [] else '.' :: fraction

/-- A number literal with its digits before and after the point.  There is a point just if there is
    a digit after it. -/
structure Literal (text whole fraction : List Char) : Prop where
  text : text = pointed whole fraction
  whole : Scan.isWhole whole = true
  fraction : ∀ d ∈ fraction, d.isDigit = true

/-- The text of a number is a literal. -/
theorem exists_literal {text : String} (h : Scan.isNumber text = true) :
    ∃ whole fraction, Literal text.toList whole fraction := by
  obtain ⟨whole, part, htext, hwhole, hpart⟩ := Scan.isNumber_iff.1 h
  cases part with
  | nil => exact ⟨whole, [], htext, hwhole, by simp⟩
  | cons c fraction =>
    simp only [Scan.isFraction, Bool.and_eq_true, decide_eq_true_eq, Bool.not_eq_true',
      List.isEmpty_eq_false_iff] at hpart
    obtain ⟨⟨rfl, hne⟩, hall⟩ := hpart
    exact ⟨whole, fraction, by rw [htext, pointed, if_neg hne], hwhole, List.all_eq_true.1 hall⟩

namespace Literal

variable {text whole fraction : List Char}

/-- The digits before the point are digits. -/
theorem whole_digits (h : Literal text whole fraction) : ∀ d ∈ whole, d.isDigit = true :=
  Scan.isDigit_of_mem_isWhole h.whole

/-- There is a digit before the point. -/
theorem whole_ne_nil (h : Literal text whole fraction) : whole ≠ [] := by
  rintro rfl
  cases h.whole

/-- Without its point, a literal has digits only. -/
theorem digits (h : Literal text whole fraction) : ∀ d ∈ whole ++ fraction, d.isDigit = true :=
  fun d hd => (List.mem_append.1 hd).elim (h.whole_digits d) (h.fraction d)

/-- No digit is a point. -/
private theorem ne_point {ds : List Char} (hds : ∀ d ∈ ds, d.isDigit = true) :
    ∀ d ∈ ds, (decide (d ≠ '.')) = true := by
  intro d hd
  rw [decide_eq_true_eq]
  rintro rfl
  cases hds _ hd

/-- Without its point, a literal is all its digits. -/
theorem withoutPoint_eq (h : Literal text whole fraction) :
    withoutPoint text = whole ++ fraction := by
  have hkeep : ∀ {ds : List Char}, (∀ d ∈ ds, d.isDigit = true) →
      ds.filter (· ≠ '.') = ds := fun hds => List.filter_eq_self.2 (ne_point hds)
  rw [h.text, withoutPoint, pointed, List.filter_append, hkeep h.whole_digits]
  split
  · next hnil => rw [hnil, List.filter_nil]
  · rw [List.filter_cons_of_neg (by simp), hkeep h.fraction]

/-- What comes after the point are the digits there. -/
theorem fractionOf_eq (h : Literal text whole fraction) : fractionOf text = fraction := by
  rw [h.text, fractionOf, pointed, List.dropWhile_append_of_pos (ne_point h.whole_digits)]
  split
  · next hnil => rw [hnil, List.dropWhile_nil, List.drop_nil]
  · rw [List.dropWhile_cons_of_neg (by simp)]
    rfl

/-- The digits before the point are those that stand before the first other character. -/
theorem takeWhile_isDigit (h : Literal text whole fraction) :
    text.takeWhile Char.isDigit = whole ∧
      text.dropWhile Char.isDigit = if fraction = [] then [] else '.' :: fraction := by
  have hpoint : ∀ ds, ('.' :: ds).takeWhile Char.isDigit = [] ∧
      ('.' :: ds).dropWhile Char.isDigit = '.' :: ds :=
    fun ds => ⟨List.takeWhile_cons_of_neg (by decide), List.dropWhile_cons_of_neg (by decide)⟩
  rw [h.text, pointed, List.takeWhile_append_of_pos h.whole_digits,
    List.dropWhile_append_of_pos h.whole_digits]
  split
  · simp
  · rw [(hpoint fraction).1, (hpoint fraction).2, List.append_nil]
    exact ⟨rfl, rfl⟩

/-- A literal has no sign. -/
theorem splitSign_eq (h : Literal text whole fraction) : splitSign text = (false, text) := by
  have hdigits := h.whole_digits
  cases hwhole : whole with
  | nil => exact absurd hwhole h.whole_ne_nil
  | cons c cs =>
    rw [hwhole] at hdigits
    have hc := hdigits c List.mem_cons_self
    rw [h.text, pointed, hwhole, List.cons_append]
    -- A sign is no digit
    unfold splitSign
    split
    · next heq =>
      obtain ⟨rfl, -⟩ := List.cons.inj heq
      cases hc
    · next heq =>
      obtain ⟨rfl, -⟩ := List.cons.inj heq
      cases hc
    · rfl

/-- The digits of a literal are as many as it takes to write its value with a digit before the
    point. -/
theorem zeroPadded_eq (h : Literal text whole fraction) :
    zeroPadded (fraction.length + 1) (digitsValue (whole ++ fraction)) = whole ++ fraction := by
  have hdigits := h.digits
  cases hwhole : whole with
  | nil => exact absurd hwhole h.whole_ne_nil
  | cons c cs =>
    rw [hwhole] at hdigits
    by_cases hc : c = '0'
    -- A zero before the point is the only digit there
    · have hzero := h.whole
      simp only [hwhole, hc, Scan.isWhole, ne_eq, not_true_eq_false, decide_false, Bool.false_or,
        Bool.and_eq_true, List.isEmpty_iff] at hzero
      have hvalue := zeroPadded_digitsValue (by simp) hdigits
      rw [hzero.2] at hvalue ⊢
      rwa [List.length_append, Nat.add_comm] at hvalue
    -- Any other first digit counts
    · have hvalue : decimalDigits (digitsValue (c :: cs ++ fraction)) = c :: cs ++ fraction :=
        decimalDigits_digitsValue hc hdigits
      rw [zeroPadded_of_le (by rw [hvalue]; simp), hvalue]

/-! ## Binary numbers -/

/-- Nothing is left of a literal once its digits have been read. -/
theorem unsigned?_eq (h : Literal text whole fraction) :
    unsigned? false text =
      some ⟨false, digitsValue (whole ++ fraction), 0 - (fraction.length : Int)⟩ := by
  obtain ⟨htake, hdrop⟩ := h.takeWhile_isDigit
  have hassemble : ∀ fraction, assemble? false whole fraction [] =
      some ⟨false, digitsValue (whole ++ fraction), 0 - (fraction.length : Int)⟩ := by
    intro fraction
    have hsome : (whole.isEmpty && fraction.isEmpty) = false := by simp [h.whole_ne_nil]
    simp [assemble?, hsome, exponent?]
  unfold unsigned?
  rw [htake, hdrop]
  by_cases hnil : fraction = []
  · rw [if_pos hnil, hnil]
    exact hassemble []
  · have hdigits : fraction.takeWhile Char.isDigit = fraction ∧
        fraction.dropWhile Char.isDigit = [] :=
      ⟨List.takeWhile_eq_self_iff.2 h.fraction, List.dropWhile_eq_nil_iff.2 h.fraction⟩
    rw [if_neg hnil]
    simp only [hdigits, hassemble]

/-- A literal can be read as a binary number. -/
theorem isSome_binary64 (h : Literal text whole fraction) :
    (Binary64.ofText? text).isSome = true := by
  unfold Binary64.ofText?
  rw [h.splitSign_eq]
  simp only [h.unsigned?_eq, Option.map_some]
  split
  · rfl
  · split <;> rfl

end Literal

end Numeral

open Numeral

/-! ## Exact decimals -/

/-- What is relied on of a library of exact decimals. -/
structure DecimalLibrary.Exact (library : DecimalLibrary) : Prop where
  /-- No decimal has more than 28 digits behind its point. -/
  scale_le : ∀ value, library.scale value ≤ 28
  /-- The units of a decimal fit 96 bits. -/
  units_lt : ∀ value, library.units value < Nat.pow 2 96
  /-- A literal is read digit for digit. -/
  of_literal : ∀ {text whole fraction value}, Literal text whole fraction →
    library.ofText? (String.ofList text) = some value →
      library.negative value = false ∧ library.units value = digitsValue (whole ++ fraction) ∧
        library.scale value = fraction.length
  /-- A literal is refused only for too many digits behind its point, or too many units. -/
  isSome_literal : ∀ {text whole fraction}, Literal text whole fraction → fraction.length ≤ 28 →
    digitsValue (whole ++ fraction) < Nat.pow 2 96 →
      (library.ofText? (String.ofList text)).isSome = true
  /-- A decimal is written as its units with the point among their digits.  Zeros are put in front
      where no digit would stand before the point. -/
  print : ∀ value, library.negative value = false → ∃ whole fraction,
    library.print value = String.ofList (pointed whole fraction) ∧
      fraction.length = library.scale value ∧
        whole ++ fraction = zeroPadded (library.scale value + 1) (library.units value)

namespace DecimalLibrary.Exact

variable {library : DecimalLibrary} {text whole fraction : List Char}

/-- A decimal that was read from a literal is written as that literal. -/
theorem print_literal (hlibrary : library.Exact) (h : Literal text whole fraction)
    {value : library.Value} (hvalue : library.ofText? (String.ofList text) = some value) :
    library.print value = String.ofList text := by
  obtain ⟨hsign, hunits, hscale⟩ := hlibrary.of_literal h hvalue
  obtain ⟨whole', fraction', hprint, hlength, hdigits⟩ := hlibrary.print value hsign
  -- What is written are the digits of the literal, and as many of them stand behind the point
  rw [hunits, hscale, h.zeroPadded_eq] at hdigits
  obtain ⟨rfl, rfl⟩ := List.append_inj' hdigits (hlength.trans hscale)
  rw [hprint, ← h.text]

/-- There is an exact decimal for the literals that have few enough digits. -/
theorem isSome_literal_iff (hlibrary : library.Exact) (h : Literal text whole fraction) :
    (library.ofText? (String.ofList text)).isSome = true ↔
      fraction.length ≤ 28 ∧ digitsValue (whole ++ fraction) < Nat.pow 2 96 := by
  constructor
  · intro hsome
    obtain ⟨value, hvalue⟩ := Option.isSome_iff_exists.1 hsome
    obtain ⟨-, hunits, hscale⟩ := hlibrary.of_literal h hvalue
    exact ⟨hscale ▸ hlibrary.scale_le value, hunits ▸ hlibrary.units_lt value⟩
  · rintro ⟨hscale, hunits⟩
    exact hlibrary.isSome_literal h hscale hunits

end DecimalLibrary.Exact

/-! ## Number tokens -/

/-- The text of a number token is a literal. -/
theorem Token.Scanned.exists_literal {token : Token} (h : token.Scanned)
    (hkind : token.kind = .number) :
    ∃ whole fraction, Literal token.text.toList whole fraction := by
  have hstring : token.kind ≠ .string := by
    rw [hkind]
    exact TokenKind.noConfusion
  rw [h.text_eq hstring]
  exact Numeral.exists_literal (h.isNumber hkind)

/-- A number token can be read as a binary number.  If it is read as an exact decimal, this is
    written as the same literal, and there is such a decimal just if the literal has no more than 28
    digits after its point and all its digits make up no more than `2 ^ 96 - 1`. -/
theorem number_exact {library : DecimalLibrary} (hlibrary : library.Exact) {lexer : Lexer}
    {token : Token} (h : lexer.nextToken.1 = .ok (some token)) (hkind : token.kind = .number) :
    (Number.mk token.text).toBinary64?.isSome = true ∧
      (∀ value, (Number.mk token.text).toDecimal? library = some value →
        Number.ofDecimal library value = Number.mk token.text) ∧
      (((Number.mk token.text).toDecimal? library).isSome = true ↔
        (fractionOf token.text.toList).length ≤ 28 ∧
          digitsValue (withoutPoint token.text.toList) ≤ Nat.pow 2 96 - 1) := by
  obtain ⟨whole, fraction, hliteral⟩ := (Lexer.scanned_of_nextToken h).exists_literal hkind
  have htext : token.text = String.ofList token.text.toList := String.ofList_toList.symm
  -- The double, the decimal written back, and the bound on its digits
  refine ⟨hliteral.isSome_binary64, fun value hvalue => ?_, ?_⟩
  · rw [Number.toDecimal?, htext] at hvalue
    rw [Number.ofDecimal, hlibrary.print_literal hliteral hvalue, ← htext]
  · rw [Number.toDecimal?, hliteral.fractionOf_eq, hliteral.withoutPoint_eq,
      Nat.le_sub_one_iff_lt (by decide), htext]
    exact hlibrary.isSome_literal_iff hliteral

/-! ## Decimals with a bound -/

namespace Numeral.Fixed

variable {text whole fraction : List Char}

/-- A literal is read as a whole number of units of its last digit, if these fit. -/
theorem ofText?_literal (h : Literal text whole fraction) :
    ofText? text = ofUnits? false (digitsValue (whole ++ fraction)) fraction.length := by
  obtain ⟨htake, hdrop⟩ := h.takeWhile_isDigit
  have hpointed : (text.dropWhile Char.isDigit).head?.all (· = '.') = true := by
    rw [hdrop]
    split <;> rfl
  have hfraction : (text.dropWhile Char.isDigit).drop 1 = fraction := by
    rw [hdrop]
    split
    · next hnil => rw [hnil, List.drop_nil]
    · rfl
  have hall : fraction.all Char.isDigit = true := List.all_eq_true.2 h.fraction
  have hsome : (whole ++ fraction).isEmpty = false := by simp [h.whole_ne_nil]
  simp only [ofText?, h.splitSign_eq, hpointed, htake, hfraction, hall, hsome, Bool.true_and,
    Bool.not_false, if_true]

/-- Units that fit make up the decimal with that sign and scale, and no other. -/
theorem ofUnits?_eq_some {negative : Bool} {units fractionDigits : Nat} {value : Fixed} :
    ofUnits? negative units fractionDigits = some value ↔
      value.negative = negative ∧ value.units = units ∧ value.fractionDigits = fractionDigits := by
  unfold ofUnits?
  split
  · next h =>
    rw [Option.some.injEq]
    obtain ⟨negative', units', fractionDigits', _, _⟩ := value
    rw [mk.injEq]
    exact ⟨fun ⟨h₁, h₂, h₃⟩ => ⟨h₁.symm, h₂.symm, h₃.symm⟩,
      fun ⟨h₁, h₂, h₃⟩ => ⟨h₁.symm, h₂.symm, h₃.symm⟩⟩
  -- The units of a decimal always fit
  · next h =>
    refine iff_of_false nofun ?_
    rintro ⟨-, rfl, rfl⟩
    exact h ⟨value.units_lt, value.fractionDigits_le⟩

/-- The padded digits are those of the units, with one before the point at least. -/
theorem paddedDigits_eq (value : Fixed) :
    value.paddedDigits = zeroPadded (value.fractionDigits + 1) value.units :=
  rfl

/-- A decimal is written with as many digits behind the point as it has. -/
theorem length_drop_paddedDigits (value : Fixed) :
    (value.paddedDigits.drop (value.paddedDigits.length - value.fractionDigits)).length =
      value.fractionDigits := by
  have hlength := le_length_zeroPadded (value.fractionDigits + 1) value.units
  rw [← paddedDigits_eq] at hlength
  rw [List.length_drop]
  omega

/-- A decimal that is not negative is written as its digits with a point between them. -/
theorem print_eq_pointed {value : Fixed} (h : value.negative = false) :
    value.print =
      pointed (value.paddedDigits.take (value.paddedDigits.length - value.fractionDigits))
        (value.paddedDigits.drop (value.paddedDigits.length - value.fractionDigits)) := by
  have hnil : value.paddedDigits.drop (value.paddedDigits.length - value.fractionDigits) = [] ↔
      value.fractionDigits = 0 := by
    rw [← List.length_eq_zero_iff, length_drop_paddedDigits]
  simp only [print, pointed, h, hnil, Bool.false_and, Bool.false_eq_true, if_false,
    List.nil_append]

/-- The library of these decimals is one of those that are relied on. -/
theorem exact_library : library.Exact where
  scale_le := fractionDigits_le
  units_lt := units_lt
  of_literal {text whole fraction value} h hvalue := by
    change ofText? (String.ofList text).toList = some value at hvalue
    rw [String.toList_ofList, ofText?_literal h] at hvalue
    exact ofUnits?_eq_some.1 hvalue
  isSome_literal {text whole fraction} h hscale hunits := by
    change (ofText? (String.ofList text).toList).isSome = true
    rw [String.toList_ofList, ofText?_literal h, ofUnits?, dif_pos ⟨hunits, hscale⟩]
    rfl
  print value hsign :=
    ⟨_, _, congrArg String.ofList (print_eq_pointed hsign), length_drop_paddedDigits value,
      List.take_append_drop _ _⟩

end Numeral.Fixed

/-- The zeros at both ends of a literal are kept. -/
theorem number_exact_zeros :
    Fixed.library.Exact ∧
      (Lexer.ofSource "0.0010.x").nextToken.1 =
        .ok (some ⟨.number, "0.0010", "0.0010", .start, 0⟩) ∧
      ∃ value, (Number.mk "0.0010").toDecimal? Fixed.library = some value ∧
        Fixed.library.units value = 10 ∧ Fixed.library.scale value = 4 ∧
        Number.ofDecimal Fixed.library value = ⟨"0.0010"⟩ := by
  have h : (Lexer.ofSource "0.0010.x").nextToken.1 =
      .ok (some ⟨.number, "0.0010", "0.0010", .start, 0⟩) := by rfl
  have hvalue : (Number.mk "0.0010").toDecimal? Fixed.library =
      some (⟨false, 10, 4, by decide, by decide⟩ : Fixed) := by
    change Fixed.ofText? "0.0010".toList = _
    decide +kernel
  obtain ⟨-, hprint, -⟩ := number_exact Fixed.exact_library h rfl
  exact ⟨Fixed.exact_library, h, _, hvalue, rfl, rfl, hprint _ hvalue⟩

end Schemata
