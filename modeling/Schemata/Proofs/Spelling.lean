import Schemata.Proofs.Pieces

/-!
# How small texts are read

For each class of tokens: a text of that class, with what follows it, is read as one piece, and then
what follows.  Most classes ask that what follows does not go on with the token (`isBoundary`).
-/

namespace Schemata

open Scan Piece

/-- Whether a text cannot be taken for more of the token before it: it goes on with neither a word,
    nor a number, nor a symbol of two characters. -/
def isBoundary : List Char → Bool
  | [] => true
  | c :: rest => !isWordRest c && c != '=' && (c != '.' || !rest.head?.any Char.isDigit)

variable {rest : List Char} {ps : List Piece}

/-! ## Blanks and symbols -/

/-- Blanks at the front of a text read as nothing, so a text reads as its rest without them. -/
private theorem lexes_dropWhile (h : Lexes rest ps) : Lexes (rest.dropWhile Text.isBlank) ps := by
  cases rest with
  | nil => exact h
  | cons c rest =>
    cases hc : Text.isBlank c with
    | false => rwa [List.dropWhile_cons_of_neg (by simp [hc])]
    | true =>
      have hscan : scan c rest = .token .whitespace ((c :: rest).takeWhile Text.isBlank)
          ((c :: rest).takeWhile Text.isBlank) := by
        simp [scan, hc, plain]
      -- The run of blanks is one token, which reads as nothing
      cases h with
      | trivia hscan' hsplit _ hafter =>
        obtain ⟨-, -, rfl⟩ := Outcome.token.inj (hscan.symm.trans hscan')
        have hdrop := @List.takeWhile_append_dropWhile _ Text.isBlank (c :: rest)
        rwa [List.append_cancel_left (hdrop.trans hsplit)]
      | piece hscan' _ hkind _ =>
        obtain ⟨rfl, -, -⟩ := Outcome.token.inj (hscan.symm.trans hscan')
        cases hkind

/-- A blank character before a text changes nothing in how it reads. -/
theorem lexes_blank {c : Char} (hc : Text.isBlank c = true) (h : Lexes rest ps) :
    Lexes (c :: rest) ps := by
  have hscan : scan c rest = .token .whitespace (c :: rest.takeWhile Text.isBlank)
      (c :: rest.takeWhile Text.isBlank) := by
    simp [scan, hc, plain]
  refine .trivia hscan ?_ rfl (lexes_dropWhile h)
  rw [List.cons_append, List.takeWhile_append_dropWhile]

/-- A space before a text changes nothing in how it reads. -/
theorem lexes_space (h : Lexes rest ps) : Lexes (' ' :: rest) ps :=
  lexes_blank (by decide) h

/-- A line feed before a text changes nothing in how it reads. -/
theorem lexes_newline (h : Lexes rest ps) : Lexes ('\n' :: rest) ps :=
  lexes_blank (by decide) h

/-- The symbols of one character that no other symbol begins with. -/
def delimiters : List (Char × TokenKind) :=
  [('(', .leftParen), (')', .rightParen), ('[', .leftBracket), (']', .rightBracket),
   ('\x7b', .leftBrace), ('\x7d', .rightBrace), (':', .colon), (',', .comma), (';', .semicolon),
   ('.', .dot), ('@', .atSign), ('?', .question)]

/-- A delimiter is read as such whatever follows, as no other symbol begins with it. -/
theorem lexes_delimiter {c : Char} {kind : TokenKind} (hmem : (c, kind) ∈ delimiters)
    (h : Lexes rest ps) : Lexes (c :: rest) (usual kind :: ps) := by
  -- The table is closed, so every entry is checked by evaluation
  have hall : ∀ entry ∈ delimiters, scan entry.1 rest = .token entry.2 [entry.1] [entry.1] ∧
      entry.2.isTrivia = false ∧ entry.2.label = String.ofList [entry.1] := by
    simp only [delimiters, List.forall_mem_cons, List.not_mem_nil, false_implies, implies_true,
      and_true]
    and_intros <;> rfl
  obtain ⟨hscan, htrivia, hlabel⟩ := hall _ hmem
  rw [usual, hlabel]
  exact .piece hscan rfl htrivia h

/-- A symbol before a space is read as such. -/
theorem lexes_symbol {text : List Char} {kind : TokenKind}
    (hmem : (text, kind) ∈ TokenKind.symbols) (h : Lexes rest ps) :
    Lexes (text ++ ' ' :: rest) (⟨kind, String.ofList text⟩ :: ps) := by
  have hall : ∀ entry ∈ TokenKind.symbols, ∃ c cs, entry.1 = c :: cs ∧
      scan c (cs ++ ' ' :: rest) = .token entry.2 entry.1 entry.1 ∧ entry.2.isTrivia = false := by
    simp only [TokenKind.symbols, List.forall_mem_cons, List.not_mem_nil, false_implies,
      implies_true, and_true]
    and_intros <;> exact ⟨_, _, rfl, rfl, rfl⟩
  obtain ⟨c, cs, rfl, hscan, htrivia⟩ := hall _ hmem
  exact .piece hscan rfl htrivia (lexes_space h)

/-- Of the symbols that a text begins with, the longest is read. -/
private theorem scan_of_symbol? {c : Char} {text : List Char} {kind : TokenKind}
    (hc : c ∈ ['!', '-']) (h : symbol? (c :: rest) = some (text, kind)) :
    scan c rest = .token kind text text := by
  have hall : ['!', '-'].all (fun c => !(Text.isBlank c || c.isDigit || isWordStart c ||
      ['/', '"', '\''].contains c)) = true := by decide
  have hother := List.all_eq_true.1 hall c hc
  simp only [List.contains_eq_mem, List.mem_cons, List.not_mem_nil, or_false, Bool.not_eq_true',
    Bool.or_eq_false_iff, decide_eq_false_iff_not, not_or] at hother
  simp [scan, h, hother, plain]

/-- An operator before its operand is read as such, unless a sign of equality follows. -/
theorem lexes_unary (kind : UnaryKind) (hne : rest.head? ≠ some '=') (h : Lexes rest ps) :
    Lexes (kind.symbol.toList ++ rest) (usual kind.token :: ps) := by
  have hscan : scan '!' rest = .token .not ['!'] ['!'] ∧
      scan '-' rest = .token .minus ['-'] ['-'] := by
    cases rest with
    | nil => exact ⟨rfl, rfl⟩
    | cons c rest =>
      -- `!=` and `-=` are the only longer symbols that begin this way
      have hc : '=' ≠ c := fun hc => hne (by rw [← hc]; rfl)
      have hnot : symbol? ('!' :: c :: rest) = some (['!'], .not) := by
        simp [symbol?, TokenKind.symbols, List.isPrefixOf, hc]
      have hminus : symbol? ('-' :: c :: rest) = some (['-'], .minus) := by
        simp [symbol?, TokenKind.symbols, List.isPrefixOf, hc]
      exact ⟨scan_of_symbol? (by decide) hnot, scan_of_symbol? (by decide) hminus⟩
  cases kind with
  | not => exact .piece hscan.1 rfl rfl h
  | negate => exact .piece hscan.2 rfl rfl h

/-! ## Words -/

/-- What follows a word does not go on with it. -/
private theorem takeWhile_isWordRest {word : List Char} (hw : ∀ c ∈ word, isWordRest c = true)
    (hb : isBoundary rest = true) : (word ++ rest).takeWhile isWordRest = word := by
  rw [List.takeWhile_append_of_pos hw]
  cases rest with
  | nil => simp
  | cons c rest =>
    simp only [isBoundary, Bool.and_eq_true, Bool.not_eq_true'] at hb
    rw [List.takeWhile_cons_of_neg (by simp [hb.1.1]), List.append_nil]

/-- A text that begins a word is scanned as the longest run of word characters, of its kind. -/
theorem scan_word {c : Char} {cs : List Char} (hc : isWordStart c = true) :
    scan c cs = plain (TokenKind.ofWord (String.ofList ((c :: cs).takeWhile isWordRest)))
      ((c :: cs).takeWhile isWordRest) := by
  have hrange := (isWordStart_iff c).1 hc
  have hblank : Text.isBlank c = false := isBlank_eq_false (by omega) (by omega)
  have hdigit : c.isDigit = false := by
    rw [Bool.eq_false_iff, ne_eq, isDigit_iff]
    omega
  -- A word begins with a letter or an underscore, so no other rule comes first
  have hne : c ≠ '/' ∧ c ≠ '"' ∧ c ≠ '\'' := by
    refine ⟨?_, ?_, ?_⟩ <;> rintro rfl <;> exact absurd hc (by decide)
  simp [scan, hblank, hdigit, hc, hne]

/-- A word is read as a token of its kind. -/
private theorem lexes_word {word : String} {kind : TokenKind} {c : Char} {cs : List Char}
    (ht : word.toList = c :: cs) (hc : isWordStart c = true)
    (hw : ∀ d ∈ c :: cs, isWordRest d = true) (hkind : TokenKind.ofWord word = kind)
    (htrivia : kind.isTrivia = false) (hb : isBoundary rest = true) (h : Lexes rest ps) :
    Lexes (word.toList ++ rest) (⟨kind, word⟩ :: ps) := by
  have hword : String.ofList (c :: cs) = word := by rw [← ht, String.ofList_toList]
  have htake : (c :: (cs ++ rest)).takeWhile isWordRest = c :: cs := takeWhile_isWordRest hw hb
  have hscan : scan c (cs ++ rest) = .token kind (c :: cs) (c :: cs) := by
    rw [scan_word hc, htake, hword, hkind, plain]
  have hlexes := Lexes.piece hscan rfl htrivia h
  rwa [hword, ← List.cons_append, ← ht] at hlexes

/-- A name is read as one word where what follows does not go on with it. -/
theorem lexes_name {name : String} (hn : isName name = true) (hb : isBoundary rest = true)
    (h : Lexes rest ps) : Lexes (name.toList ++ rest) (word name :: ps) := by
  obtain ⟨c, cs, ht, hc, hw, hr⟩ := exists_of_isName hn
  have hkind : TokenKind.ofWord name = .name := by rw [TokenKind.ofWord, hr]; rfl
  exact lexes_word ht hc hw hkind rfl hb h

/-- A name that stands alone is one token. -/
theorem tiles_name {name : String} (hn : isName name = true) (p : Position) :
    Tiles p name.toList [Lexer.tokenAt p .name name.toList name.toList] := by
  obtain ⟨c, cs, ht, hc, hw, hr⟩ := exists_of_isName hn
  have hkind : TokenKind.ofWord name = .name := by rw [TokenKind.ofWord, hr]; rfl
  have htake : (c :: cs).takeWhile isWordRest = c :: cs := by
    have hall := takeWhile_isWordRest hw (rfl : isBoundary [] = true)
    rwa [List.append_nil] at hall
  have hscan : scan c cs = .token .name (c :: cs) (c :: cs) := by
    rw [scan_word hc, htake, ← ht, String.ofList_toList, hkind, plain]
  rw [ht]
  exact .cons hscan (by simp) .nil

/-- A reserved word is read as the token it is reserved for. -/
theorem lexes_reserved {word : String} {kind : TokenKind} (hmem : (word, kind) ∈ TokenKind.reserved)
    (hb : isBoundary rest = true) (h : Lexes rest ps) :
    Lexes (word.toList ++ rest) (⟨kind, word⟩ :: ps) := by
  -- The table is closed, so every entry is checked by evaluation
  have hall : ∀ entry ∈ TokenKind.reserved, TokenKind.ofWord entry.1 = entry.2 ∧
      entry.2.isTrivia = false ∧ entry.1.toList.head?.any isWordStart = true ∧
        entry.1.toList.all isWordRest = true := by decide
  obtain ⟨hkind, htrivia, hc, hw⟩ := hall _ hmem
  cases ht : word.toList with
  | nil =>
    rw [ht] at hc
    cases hc
  | cons c cs =>
    rw [ht] at hc hw
    rw [← ht]
    exact lexes_word ht hc (List.all_eq_true.1 hw) hkind htrivia hb h

/-- A keyword is read as its own token. -/
theorem lexes_keyword (keyword : Keyword) (hb : isBoundary rest = true) (h : Lexes rest ps) :
    Lexes (keyword.spelling.toList ++ rest) (usual (.keyword keyword) :: ps) := by
  refine lexes_reserved ?_ hb h
  cases keyword <;> decide

/-- An operator between operands is read as such. -/
theorem lexes_operator {op : Operator} {text : String} (ht : text ∈ op.kind.spellings)
    (h : Lexes rest ps) : Lexes (text.toList ++ ' ' :: rest) (⟨op.kind, text⟩ :: ps) := by
  rcases TokenKind.mem_spellings.1 ht with hmem | hmem
  -- An operator is spelled with a symbol or with a reserved word
  · have hlexes := lexes_symbol hmem h
    rwa [String.ofList_toList] at hlexes
  · exact lexes_reserved hmem rfl (lexes_space h)

/-! ## Numbers -/

/-- What follows a token does not begin with a digit, nor with a point and a digit. -/
private theorem digits_of_isBoundary (hb : isBoundary rest = true) :
    rest.takeWhile Char.isDigit = [] ∧ fraction rest = [] := by
  cases rest with
  | nil => exact ⟨rfl, rfl⟩
  | cons c rest =>
    simp only [isBoundary, Bool.and_eq_true, Bool.not_eq_true', Bool.or_eq_true] at hb
    have hdigit : c.isDigit = false := by
      cases hd : c.isDigit with
      | false => rfl
      | true => exact absurd ((isWordRest_iff c).2 (.inr hd)) (by simp [hb.1.1])
    refine ⟨by simp [hdigit], ?_⟩
    -- A point alone is no fraction: a digit would have to come after it
    unfold fraction
    split
    · next tail heq =>
      obtain ⟨rfl, rfl⟩ := List.cons.inj heq
      have hpoint : rest.head?.any Char.isDigit = false := by simpa using hb.2
      have htake : rest.takeWhile Char.isDigit = [] := by
        cases rest with
        | nil => rfl
        | cons d rest => simp_all
      simp [htake]
    · rfl

/-- The fraction of a number ends where its digits do. -/
private theorem fraction_append {part : List Char} (hf : isFraction part = true)
    (hb : isBoundary rest = true) : fraction (part ++ rest) = part := by
  obtain ⟨hdigits, hfraction⟩ := digits_of_isBoundary hb
  cases part with
  | nil => exact hfraction
  | cons c cs =>
    simp only [isFraction, Bool.and_eq_true, decide_eq_true_eq, Bool.not_eq_true'] at hf
    obtain ⟨⟨rfl, hne⟩, hall⟩ := hf
    have htake : (cs ++ rest).takeWhile Char.isDigit = cs := by
      rw [List.takeWhile_append_of_pos (List.all_eq_true.1 hall), hdigits, List.append_nil]
    simp [fraction, htake, hne]

/-- The whole part of a number ends where its digits do. -/
private theorem wholePart_append {whole after : List Char} (hw : isWhole whole = true)
    (ha : after.takeWhile Char.isDigit = []) : wholePart (whole ++ after) = whole := by
  cases whole with
  | nil => cases hw
  | cons c cs =>
    simp only [isWhole, Bool.and_eq_true, Bool.or_eq_true, decide_eq_true_eq,
      List.isEmpty_iff] at hw
    obtain ⟨⟨hc, hcs⟩, hzero⟩ := hw
    have htake : (c :: (cs ++ after)).takeWhile Char.isDigit = c :: cs := by
      rw [List.takeWhile_cons_of_pos hc, List.takeWhile_append_of_pos (List.all_eq_true.1 hcs), ha,
        List.append_nil]
    rw [List.cons_append]
    unfold wholePart
    -- A leading zero is a whole part of its own
    split
    · next tail heq =>
      obtain ⟨rfl, -⟩ := List.cons.inj heq
      rw [hzero.resolve_left (by simp)]
    · exact htake

/-- A text that begins with a digit is scanned as a number. -/
theorem scan_number {c : Char} {cs : List Char} (hc : c.isDigit = true) :
    scan c cs = plain .number (numberText (c :: cs)) := by
  have hrange := (isDigit_iff c).1 hc
  have hblank : Text.isBlank c = false := isBlank_eq_false (by omega) (by omega)
  have hne : c ≠ '/' ∧ c ≠ '"' ∧ c ≠ '\'' := by
    refine ⟨?_, ?_, ?_⟩ <;> rintro rfl <;> exact absurd hc (by decide)
  simp [scan, hblank, hc, hne]

/-- A number is read as one token with its text. -/
theorem lexes_number {literal : String} (hn : isNumber literal = true)
    (hb : isBoundary rest = true) (h : Lexes rest ps) :
    Lexes (literal.toList ++ rest) (⟨.number, literal⟩ :: ps) := by
  obtain ⟨whole, part, ht, hw, hf⟩ := isNumber_iff.1 hn
  -- The digits end at the point or, without a fraction, where the number does
  have hafter : (part ++ rest).takeWhile Char.isDigit = [] := by
    cases part with
    | nil => exact (digits_of_isBoundary hb).1
    | cons c cs =>
      simp only [isFraction, Bool.and_eq_true, decide_eq_true_eq] at hf
      simp [hf.1.1]
  have htext : numberText (literal.toList ++ rest) = literal.toList := by
    rw [ht, List.append_assoc]
    simp only [numberText, wholePart_append hw hafter, List.drop_left, fraction_append hf hb]
  cases whole with
  | nil => cases hw
  | cons c cs =>
    simp only [isWhole, Bool.and_eq_true] at hw
    rw [List.cons_append] at ht
    have hscan : scan c (cs ++ part ++ rest) = .token .number (c :: (cs ++ part))
        (c :: (cs ++ part)) := by
      rw [ht, List.cons_append] at htext
      rw [scan_number hw.1.1, htext, plain]
    have hlexes := Lexes.piece hscan rfl rfl h
    rwa [← List.cons_append, ← ht, String.ofList_toList] at hlexes

/-! ## Strings -/

/-- Reading the escape of a character gives that character back. -/
private theorem stringBody_escapeChar (c : Char) :
    stringBody '"' (escapeChar c ++ rest) = (stringBody '"' rest).cons c (escapeChar c) := by
  unfold escapeChar
  split
  · rfl
  · rfl
  · rfl
  · rfl
  · rfl
  -- All other characters are written as they are
  · next hquote hslash _ _ _ =>
    rw [List.cons_append, List.nil_append, stringBody]
    · rw [if_neg hquote]
    · exact fun hc _ => hslash hc
    · exact fun _ _ hc _ => hslash hc

/-- The body of an escaped text is closed by the quote after it, with the text as its value. -/
private theorem stringBody_escaped (value : List Char) :
    stringBody '"' (value.flatMap escapeChar ++ '"' :: rest) =
      .closed value (value.flatMap escapeChar ++ ['"']) := by
  -- Character by character: each escape is undone before the next is read
  induction value with
  | nil => rfl
  | cons c value ih =>
    rw [List.flatMap_cons, List.append_assoc, stringBody_escapeChar, ih, StringBody.cons,
      List.append_assoc]

/-- A text that is escaped between quotes is read as that text, whatever comes after it. -/
theorem scan_escaped (value : List Char) :
    scan '"' (value.flatMap escapeChar ++ '"' :: rest) =
      .token .string value ('"' :: (value.flatMap escapeChar ++ ['"'])) := by
  change stringToken '"' (value.flatMap escapeChar ++ '"' :: rest) = _
  rw [stringToken, stringBody_escaped]

/-- A string literal is read as one token with the value it stands for. -/
theorem lexes_string (value : String) (h : Lexes rest ps) :
    Lexes ((stringLiteral value).toList ++ rest) (⟨.string, value⟩ :: ps) := by
  have hlexes := Lexes.piece (@scan_escaped rest value.toList) (by simp) rfl h
  rw [String.ofList_toList] at hlexes
  simpa [stringLiteral] using hlexes

/-- A string literal is written on one line: line feeds in it are escaped. -/
theorem newline_not_mem_stringLiteral (value : String) : '\n' ∉ (stringLiteral value).toList := by
  have hescape : ∀ c, '\n' ∉ escapeChar c := by
    intro c
    unfold escapeChar
    split <;> simp_all [Ne.symm]
  simpa [stringLiteral] using fun c _ => hescape c

end Schemata
