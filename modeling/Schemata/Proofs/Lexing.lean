import Schemata.Parse.Cursor

/-!
# What the lexer reads

A `Piece` is what a token says wherever it stands, its kind and its value.  `Lexes` relates a text
to its pieces, trivia left out, one `Scan.scan` at a time.

Main statements:

- `ofSource_iff_lexes`: the lexemes of a source are the ones that `Lexes` describes
- `Lexes.unique`: a text has one reading
- `Tiles`: all tokens of a text with their positions, trivia among them
- `Token.Scanned`: a token as `Scan.scan` produces it, and what its value then is
  (`Scanned.isName`, `Scanned.isNumber`, `Scanned.value_eq`)
-/

namespace Schemata

/-! ## Classes of characters

Every class is a set of ranges of code points, so that two classes are compared by `omega`. -/

namespace Scan

/-- Characters are equal if their code points are. -/
theorem char_eq_iff {c d : Char} : c = d ↔ c.toNat = d.toNat :=
  ⟨fun h => h ▸ rfl, Char.toNat_inj.1⟩

/-- The digits are one range of code points. -/
theorem isDigit_iff (c : Char) : c.isDigit = true ↔ 48 ≤ c.toNat ∧ c.toNat ≤ 57 := by
  simp [Char.isDigit, UInt32.le_iff_toNat_le]

/-- The letters are two ranges of code points. -/
private theorem isAlpha_iff (c : Char) :
    c.isAlpha = true ↔
      65 ≤ c.toNat ∧ c.toNat ≤ 90 ∨ 97 ≤ c.toNat ∧ c.toNat ≤ 122 := by
  change (decide (65 ≤ c.val ∧ c.val ≤ 90) || (decide (97 ≤ c.val) && decide (c.val ≤ 122))) = true
    ↔ _
  simp [UInt32.le_iff_toNat_le]

/-- The characters that begin a word are letters, underscores and dollar signs. -/
theorem isWordStart_iff (c : Char) :
    isWordStart c = true ↔
      (65 ≤ c.toNat ∧ c.toNat ≤ 90 ∨ 97 ≤ c.toNat ∧ c.toNat ≤ 122) ∨
        c.toNat = 95 ∨ c.toNat = 36 := by
  simp [isWordStart, isAlpha_iff, char_eq_iff, or_assoc]

/-- A word goes on with what begins one, and with digits. -/
theorem isWordRest_iff (c : Char) :
    isWordRest c = true ↔ isWordStart c = true ∨ c.isDigit = true := by
  simp only [isWordRest, isWordStart, Char.isAlphanum, Bool.or_eq_true]
  grind

/-- What begins a word can also go on with it. -/
theorem isWordStart_isWordRest {c : Char} (h : isWordStart c = true) : isWordRest c = true :=
  (isWordRest_iff c).2 (.inl h)

/-- A blank character is below or above the visible part of ASCII. -/
theorem toNat_of_isBlank {c : Char} (h : Text.isBlank c = true) :
    c.toNat ≤ 32 ∨ 133 ≤ c.toNat := by
  simp [Text.isBlank, Text.inRanges, Text.blankRanges] at h
  omega

/-- A visible character of ASCII is not blank. -/
theorem isBlank_eq_false {c : Char} (h : 32 < c.toNat) (h' : c.toNat < 133) :
    Text.isBlank c = false := by
  cases hb : Text.isBlank c with
  | false => rfl
  | true =>
    have := toNat_of_isBlank hb
    omega

/-! ## A token is a front part of the text -/

/-- A comment is a front part of the text, with its end mark. -/
private theorem commentBody?_prefix {cs body : List Char} (h : commentBody? cs = some body) :
    body <+: cs := by
  -- Induction follows the search for the end mark
  fun_induction commentBody? cs generalizing body with
  | case1 => simp at h
  | case2 rest =>
    obtain rfl := Option.some.inj h
    exact ⟨rest, rfl⟩
  | case3 c rest _ ih =>
    obtain ⟨tail, ht, rfl⟩ := Option.map_eq_some_iff.1 h
    exact (List.prefix_cons_inj c).2 (ih ht)

/-- A string with one more character is closed if the string is, and its text begins with that one.
    -/
private theorem eq_append_of_cons_eq_closed {c : Char} {front value text : List Char}
    {body : StringBody} (h : body.cons c front = .closed value text) :
    ∃ value' text', body = .closed value' text' ∧ text = front ++ text' := by
  cases body with
  | closed value' text' =>
    obtain ⟨-, rfl⟩ := StringBody.closed.inj h
    exact ⟨value', text', rfl, rfl⟩
  | unterminated | invalidEscape => cases h

/-- A string with its closing quote is a front part of the text. -/
private theorem stringBody_prefix {quote : Char} {cs value text : List Char}
    (h : stringBody quote cs = .closed value text) : text <+: cs := by
  fun_induction stringBody quote cs generalizing value text with
  | case1 | case2 => simp at h
  | case3 c rest v hv ih =>
    obtain ⟨value', text', hb, rfl⟩ := eq_append_of_cons_eq_closed h
    simpa using ih hb
  | case4 => simp at h
  | case5 rest =>
    obtain ⟨-, rfl⟩ := StringBody.closed.inj h
    exact ⟨rest, rfl⟩
  | case6 c rest _ _ _ ih =>
    obtain ⟨value', text', hb, rfl⟩ := eq_append_of_cons_eq_closed h
    simpa using ih hb

/-- A fraction is a front part of the text. -/
private theorem fraction_prefix (cs : List Char) : fraction cs <+: cs := by
  unfold fraction
  split
  · next rest =>
    simp only
    split
    · exact List.nil_prefix
    · exact (List.prefix_cons_inj '.').2 (List.takeWhile_prefix _)
  · exact List.nil_prefix

/-- The whole part of a number is a front part of the text. -/
theorem wholePart_prefix (cs : List Char) : wholePart cs <+: cs := by
  unfold wholePart
  split
  · next rest => exact ⟨rest, rfl⟩
  · exact List.takeWhile_prefix _

/-- Where a digit comes first, there is a whole part. -/
private theorem wholePart_ne_nil {c : Char} {rest : List Char} (h : c.isDigit = true) :
    wholePart (c :: rest) ≠ [] := by
  unfold wholePart
  split
  · simp
  · simp [h]

/-- A number is a front part of the text. -/
private theorem numberText_prefix (cs : List Char) : numberText cs <+: cs := by
  -- The fraction is read from what the whole part leaves
  obtain ⟨after, h⟩ := wholePart_prefix cs
  have hdrop : cs.drop (wholePart cs).length = after := by
    have := @List.drop_left _ (wholePart cs) after
    rwa [h] at this
  obtain ⟨tail, ht⟩ := fraction_prefix after
  refine ⟨tail, ?_⟩
  simp only [numberText, hdrop, List.append_assoc, ht, h]

/-- All that `scan` can read from a text that begins with `c`: the kind of the token, its value
    and its text. -/
inductive Reading (c : Char) (rest : List Char) : TokenKind → List Char → List Char → Prop
  | blank (hc : Text.isBlank c = true) :
      Reading c rest .whitespace ((c :: rest).takeWhile Text.isBlank)
        ((c :: rest).takeWhile Text.isBlank)
  | lineComment (hc : c = '/') :
      Reading c rest .comment ((c :: rest).takeWhile (· ≠ '\n')) ((c :: rest).takeWhile (· ≠ '\n'))
  | blockComment {tail body : List Char} (hc : c = '/') (hr : rest = '*' :: tail)
      (hb : commentBody? tail = some body) :
      Reading c rest .comment ('/' :: '*' :: body) ('/' :: '*' :: body)
  | string {value text : List Char} (hb : stringBody c rest = .closed value text) :
      Reading c rest .string value (c :: text)
  | number (hc : c.isDigit = true) :
      Reading c rest .number (numberText (c :: rest)) (numberText (c :: rest))
  | word (hc : isWordStart c = true) :
      Reading c rest (TokenKind.ofWord (String.ofList ((c :: rest).takeWhile isWordRest)))
        ((c :: rest).takeWhile isWordRest) ((c :: rest).takeWhile isWordRest)
  | symbol {kind : TokenKind} {text : List Char} (hs : symbol? (c :: rest) = some (text, kind)) :
      Reading c rest kind text text

/-- What `scan` reads is one of the readings. -/
theorem reading_of_scan {c : Char} {rest : List Char} {kind : TokenKind}
    {value text : List Char} (h : scan c rest = .token kind value text) :
    Reading c rest kind value text := by
  -- One branch of `scan` after the other; comments, strings and symbols may be faults
  unfold scan plain at h
  split at h
  · next hc =>
    obtain ⟨rfl, rfl, rfl⟩ := Outcome.token.inj h
    exact .blank hc
  split at h
  · next hc =>
    obtain ⟨rfl, rfl, rfl⟩ := Outcome.token.inj h
    simp only [Bool.and_eq_true, decide_eq_true_eq] at hc
    exact .lineComment hc.1
  split at h
  · next hc =>
    simp only [Bool.and_eq_true, decide_eq_true_eq] at hc
    obtain ⟨hc, hr⟩ := hc
    unfold blockComment at h
    split at h
    · next body hb =>
      obtain ⟨rfl, rfl, rfl⟩ := Outcome.token.inj h
      cases rest with
      | nil => simp at hr
      | cons d tail =>
        obtain rfl := Option.some.inj hr
        exact .blockComment hc rfl hb
    · cases h
  split at h
  · unfold stringToken at h
    split at h
    · next value' text' hb =>
      obtain ⟨rfl, rfl, rfl⟩ := Outcome.token.inj h
      exact .string hb
    · cases h
    · cases h
  split at h
  · next hc =>
    obtain ⟨rfl, rfl, rfl⟩ := Outcome.token.inj h
    exact .number hc
  split at h
  · next hc =>
    obtain ⟨rfl, rfl, rfl⟩ := Outcome.token.inj h
    exact .word hc
  split at h
  · next text' kind' hs =>
    obtain ⟨rfl, rfl, rfl⟩ := Outcome.token.inj h
    exact .symbol hs
  · cases h

/-- A symbol is one of the table, and a front part of the text. -/
theorem symbol?_mem {cs text : List Char} {kind : TokenKind}
    (h : symbol? cs = some (text, kind)) : (text, kind) ∈ TokenKind.symbols ∧ text <+: cs :=
  ⟨List.mem_of_find?_eq_some h, by simpa using List.find?_some h⟩

/-- The text of a token is a front part of the text it is read from, and not empty. -/
theorem scan_split {c : Char} {rest : List Char} {kind : TokenKind} {value text : List Char}
    (h : scan c rest = .token kind value text) :
    text ≠ [] ∧ ∃ after, c :: rest = text ++ after := by
  -- Every class of tokens is read by a function that returns a front part
  suffices hp : text ≠ [] ∧ text <+: c :: rest from
    ⟨hp.1, hp.2.imp fun _ h => h.symm⟩
  cases reading_of_scan h with
  | blank hc => simp [hc, List.takeWhile_prefix]
  | lineComment hc => simp [hc, List.takeWhile_prefix]
  | blockComment hc hr hb =>
    subst hc hr
    simpa using commentBody?_prefix hb
  | string hb => simpa using stringBody_prefix hb
  | number hc =>
    refine ⟨?_, numberText_prefix _⟩
    simp [numberText, wholePart_ne_nil hc]
  | word hc =>
    simp [isWordStart_isWordRest hc, List.takeWhile_prefix]
  | symbol hs =>
    obtain ⟨hmem, hp⟩ := symbol?_mem hs
    refine ⟨?_, hp⟩
    rintro rfl
    exact absurd hmem (by simp [TokenKind.symbols])

/-! ## Names and numbers -/

/-- Whether a text is a word that is not reserved. -/
def isName (text : String) : Bool :=
  (match text.toList with
    | [] => false
    | c :: cs => isWordStart c && cs.all isWordRest) &&
  (TokenKind.ofReserved? text).isNone

/-- A name is a word, all of whose characters may continue one. -/
theorem exists_of_isName {text : String} (h : isName text = true) :
    ∃ c cs, text.toList = c :: cs ∧ isWordStart c = true ∧ (∀ d ∈ c :: cs, isWordRest d = true) ∧
      TokenKind.ofReserved? text = none := by
  simp only [isName, Bool.and_eq_true, Option.isNone_iff_eq_none] at h
  obtain ⟨hword, hreserved⟩ := h
  cases ht : text.toList with
  | nil => simp [ht] at hword
  | cons c cs =>
    simp only [ht, Bool.and_eq_true, List.all_eq_true] at hword
    refine ⟨c, cs, rfl, hword.1, fun d hd => ?_, hreserved⟩
    rcases List.mem_cons.1 hd with rfl | hd
    · exact isWordStart_isWordRest hword.1
    · exact hword.2 d hd

/-- Whether a text is a zero, or digits that do not begin with one. -/
def isWhole : List Char → Bool
  | [] => false
  | c :: cs => c.isDigit && cs.all Char.isDigit && (c ≠ '0' || cs.isEmpty)

/-- Whether a text is empty, or a point and at least one digit. -/
def isFraction : List Char → Bool
  | [] => true
  | c :: cs => c = '.' && !cs.isEmpty && cs.all Char.isDigit

/-- Whether a text is a number: a whole part and perhaps a fraction. -/
def isNumber (text : String) : Bool :=
  isWhole (text.toList.takeWhile (· ≠ '.')) && isFraction (text.toList.dropWhile (· ≠ '.'))

example : ["0", "7", "10", "0.50", "120.0"].all isNumber = true := by decide

example : ["", "01", "1.", ".5", "1.2.3", "x"].any isNumber = false := by decide

/-- The whole part of a number has no needless zero. -/
theorem isWhole_wholePart {c : Char} {rest : List Char} (h : c.isDigit = true) :
    isWhole (wholePart (c :: rest)) = true := by
  unfold wholePart
  split
  · decide
  · next hc =>
    have hne : c ≠ '0' := fun h0 => hc rest (by rw [h0])
    simp [h, isWhole, hne, List.all_takeWhile]

/-- The whole part of a number has digits only. -/
theorem isDigit_of_mem_isWhole {text : List Char} (h : isWhole text = true) :
    ∀ c ∈ text, c.isDigit = true := by
  cases text with
  | nil => cases h
  | cons c cs =>
    simp only [isWhole, Bool.and_eq_true, List.all_eq_true] at h
    exact List.forall_mem_cons.2 h.1

/-- What is read behind the whole part is a fraction, or nothing. -/
private theorem isFraction_fraction (cs : List Char) : isFraction (fraction cs) = true := by
  unfold fraction
  split
  · next rest =>
    simp only
    split
    · rfl
    · next h => simp_all [isFraction]
  · rfl

/-- A number splits into its whole part and its fraction in one way, at the point. -/
theorem isNumber_iff {text : String} :
    isNumber text = true ↔
      ∃ whole fraction, text.toList = whole ++ fraction ∧ isWhole whole = true ∧
        isFraction fraction = true := by
  constructor
  · intro h
    simp only [isNumber, Bool.and_eq_true] at h
    exact ⟨_, _, List.takeWhile_append_dropWhile.symm, h.1, h.2⟩
  · rintro ⟨whole, fraction, ht, hw, hf⟩
    -- The whole part has digits only, so the first point is that of the fraction
    have hpoint : ∀ c ∈ whole, (decide (c ≠ '.')) = true := by
      intro c hc
      have := (isDigit_iff c).1 (isDigit_of_mem_isWhole hw c hc)
      simp only [ne_eq, char_eq_iff, decide_eq_true_eq]
      intro hn
      simp only [hn] at this
      exact absurd this (by decide)
    have hfront : fraction.takeWhile (· ≠ '.') = [] ∧ fraction.dropWhile (· ≠ '.') = fraction := by
      cases fraction with
      | nil => simp
      | cons c cs =>
        simp only [isFraction, Bool.and_eq_true, decide_eq_true_eq] at hf
        simp [hf.1.1]
    simp only [isNumber, ht, List.takeWhile_append_of_pos hpoint,
      List.dropWhile_append_of_pos hpoint, hfront.1, hfront.2, List.append_nil, hw, hf,
      Bool.and_self]

/-- What is read where a digit comes first is a number. -/
theorem isNumber_numberText {c : Char} {rest : List Char} (h : c.isDigit = true) :
    isNumber (String.ofList (numberText (c :: rest))) = true :=
  isNumber_iff.2 ⟨_, _, by rw [String.toList_ofList, numberText], isWhole_wholePart h,
    isFraction_fraction _⟩

end Scan

/-! ## Pieces -/

/-- What a token says, wherever it stands. -/
structure Piece where
  kind : TokenKind
  value : String
  deriving DecidableEq, Repr

namespace Token

/-- What a token says. -/
def piece (token : Token) : Piece :=
  ⟨token.kind, token.value⟩

@[simp] theorem piece_kind (token : Token) : token.piece.kind = token.kind := rfl

@[simp] theorem piece_value (token : Token) : token.piece.value = token.value := rfl

/-- What the tokens of a source say, trivia left out. -/
def visible (tokens : List Token) : List Piece :=
  (tokens.filter fun token => !token.kind.isTrivia).map piece

/-- Whether the token is one that `scan` reads. -/
def Scanned (token : Token) : Prop :=
  ∃ c rest, Scan.scan c rest = .token token.kind token.value.toList token.text.toList

end Token

/-- A text and the pieces that are read from it, trivia left out. -/
inductive Lexes : List Char → List Piece → Prop
  | nil : Lexes [] []
  | trivia {c : Char} {rest text after value : List Char} {kind : TokenKind} {pieces : List Piece}
      (hscan : Scan.scan c rest = .token kind value text) (hsplit : c :: rest = text ++ after)
      (hkind : kind.isTrivia = true) (hafter : Lexes after pieces) : Lexes (c :: rest) pieces
  | piece {c : Char} {rest text after value : List Char} {kind : TokenKind} {pieces : List Piece}
      (hscan : Scan.scan c rest = .token kind value text) (hsplit : c :: rest = text ++ after)
      (hkind : kind.isTrivia = false) (hafter : Lexes after pieces) :
      Lexes (c :: rest) (⟨kind, String.ofList value⟩ :: pieces)

/-- A text has one reading. -/
theorem Lexes.unique {text : List Char} {pieces pieces' : List Piece} (h : Lexes text pieces)
    (h' : Lexes text pieces') : pieces = pieces' := by
  -- `scan` is a function: both readings take the same token off the text, and the rest is shorter
  induction h generalizing pieces' with
  | nil => cases h'; rfl
  | trivia hscan hsplit hkind hafter ih =>
    cases h' with
    | trivia hscan' hsplit' _ hafter' =>
      obtain ⟨rfl, rfl, rfl⟩ := Scan.Outcome.token.inj (hscan.symm.trans hscan')
      exact ih (List.append_cancel_left (hsplit.symm.trans hsplit') ▸ hafter')
    | piece hscan' _ hkind' _ =>
      obtain ⟨rfl, rfl, rfl⟩ := Scan.Outcome.token.inj (hscan.symm.trans hscan')
      exact absurd hkind (by simp [hkind'])
  | piece hscan hsplit hkind hafter ih =>
    cases h' with
    | trivia hscan' _ hkind' _ =>
      obtain ⟨rfl, rfl, rfl⟩ := Scan.Outcome.token.inj (hscan.symm.trans hscan')
      exact absurd hkind' (by simp [hkind])
    | piece hscan' hsplit' _ hafter' =>
      obtain ⟨rfl, rfl, rfl⟩ := Scan.Outcome.token.inj (hscan.symm.trans hscan')
      rw [ih (List.append_cancel_left (hsplit.symm.trans hsplit') ▸ hafter')]

/-! ## The tokens of a source -/

namespace Lexer

/-- The token that is read at a position. -/
def tokenAt (position : Position) (kind : TokenKind) (value text : List Char) : Token :=
  ⟨kind, String.ofList value, String.ofList text, position, Text.lineBreaks text⟩

end Lexer

/-- A text at a position and all tokens that are read from it, trivia among them. -/
inductive Tiles : Position → List Char → List Token → Prop
  | nil {p : Position} : Tiles p [] []
  | cons {p : Position} {c : Char} {rest text after value : List Char} {kind : TokenKind}
      {tokens : List Token} (hscan : Scan.scan c rest = .token kind value text)
      (hsplit : c :: rest = text ++ after) (hafter : Tiles (p.advance text) after tokens) :
      Tiles p (c :: rest) (Lexer.tokenAt p kind value text :: tokens)

/-- What is read from a text is what its tokens say. -/
theorem Tiles.lexes {p : Position} {text : List Char} {tokens : List Token}
    (h : Tiles p text tokens) : Lexes text (Token.visible tokens) := by
  induction h with
  | nil => exact .nil
  | @cons p c rest text after value kind tokens hscan hsplit _ ih =>
    cases hkind : kind.isTrivia with
    | true =>
      have hvisible : Token.visible (Lexer.tokenAt p kind value text :: tokens) =
          Token.visible tokens := by simp [Token.visible, Lexer.tokenAt, hkind]
      rw [hvisible]
      exact .trivia hscan hsplit hkind ih
    | false =>
      have hvisible : Token.visible (Lexer.tokenAt p kind value text :: tokens) =
          ⟨kind, String.ofList value⟩ :: Token.visible tokens := by
        simp [Token.visible, Token.piece, Lexer.tokenAt, hkind]
      rw [hvisible]
      exact .piece hscan hsplit hkind ih

/-- A text that can be read has tokens wherever it stands. -/
theorem Lexes.tiles {text : List Char} {pieces : List Piece} (h : Lexes text pieces)
    (p : Position) : ∃ tokens, Tiles p text tokens := by
  induction h generalizing p with
  | nil => exact ⟨[], .nil⟩
  | trivia hscan hsplit _ _ ih | piece hscan hsplit _ _ ih =>
    obtain ⟨tokens, ht⟩ := ih (p.advance _)
    exact ⟨_, .cons hscan hsplit ht⟩

/-- The tokens that tile a text are read by `scan` -/
theorem Tiles.scanned {p : Position} {text : List Char} {tokens : List Token}
    (h : Tiles p text tokens) : ∀ token ∈ tokens, token.Scanned := by
  induction h with
  | nil => simp
  | cons hscan _ _ ih =>
    intro token ht
    rcases List.mem_cons.1 ht with rfl | ht
    · exact ⟨_, _, by simpa [Lexer.tokenAt] using hscan⟩
    · exact ih token ht

namespace Lexer

/-- Reading a token takes it off the text that is left. -/
theorem nextToken_of_scan {lexer : Lexer} {c : Char} {rest value text : List Char}
    {kind : TokenKind} (hrest : lexer.rest = c :: rest)
    (hscan : Scan.scan c rest = .token kind value text) :
    lexer.nextToken = (.ok (some (tokenAt lexer.position kind value text)), lexer.skip text) := by
  unfold nextToken
  rw [hrest]
  simp only [hscan]
  rfl

/-- The next token of a lexer is read by `scan` -/
theorem scanned_of_nextToken {lexer : Lexer} {token : Token}
    (h : lexer.nextToken.1 = .ok (some token)) : token.Scanned := by
  unfold nextToken at h
  split at h
  · cases h
  · next c rest _ =>
    split at h
    · next kind value text hscan =>
      obtain rfl := Option.some.inj (Except.ok.inj h)
      exact ⟨c, rest, by simpa using hscan⟩
    · cases h

/-- Where `scan` reads a token, it is collected, and then those of what is left. -/
private theorem collect_of_scan {c : Char} {rest text after value : List Char} {kind : TokenKind}
    (limit : Nat) (position : Position) (hscan : Scan.scan c rest = .token kind value text)
    (hsplit : c :: rest = text ++ after) :
    collect (limit + 1) ⟨c :: rest, position, false⟩ =
      (.ok (tokenAt position kind value text) ::
          (collect limit ⟨after, position.advance text, false⟩).1,
        (collect limit ⟨after, position.advance text, false⟩).2) := by
  have hdrop : (c :: rest).drop text.length = after := by rw [hsplit, List.drop_left]
  simp only [collect, next, nextToken, hscan, skip, hdrop, Bool.false_eq_true, if_false]
  rfl

/-- Where `scan` finds a fault, an error is collected. -/
private theorem collect_of_fault {c : Char} {rest : List Char} {cause : Scan.Fault} (limit : Nat)
    (position : Position) (hscan : Scan.scan c rest = .fault cause) :
    ∃ e items last,
      collect (limit + 1) ⟨c :: rest, position, false⟩ = (.error e :: items, last) := by
  simp only [collect, next, nextToken, hscan, Bool.false_eq_true, if_false]
  exact ⟨_, _, _, rfl⟩

/-- The text that a token leaves is shorter. -/
private theorem length_lt_of_scan {c : Char} {rest text after value : List Char}
    {kind : TokenKind} (hscan : Scan.scan c rest = .token kind value text)
    (hsplit : c :: rest = text ++ after) : after.length < (c :: rest).length := by
  have hne := List.length_pos_iff.2 (Scan.scan_split hscan).1
  rw [hsplit, List.length_append]
  omega

/-- All tokens of a text are collected, up to its end. -/
private theorem collect_of_tiles {position : Position} {text : List Char} {tokens : List Token}
    (h : Tiles position text tokens) (limit : Nat) (hlimit : text.length < limit) :
    collect limit ⟨text, position, false⟩ =
      (tokens.map .ok, ⟨[], position.advance text, false⟩) := by
  -- The limit counts tokens, of which there are no more than characters
  induction h generalizing limit with
  | nil =>
    obtain ⟨n, rfl⟩ : ∃ n, limit = n + 1 := ⟨limit - 1, by omega⟩
    rfl
  | cons hscan hsplit hafter ih =>
    obtain ⟨n, rfl⟩ : ∃ n, limit = n + 1 := ⟨limit - 1, by omega⟩
    have hlen := length_lt_of_scan hscan hsplit
    rw [collect_of_scan n _ hscan hsplit, ih n (by omega), hsplit, Position.advance_append,
      List.map_cons]

/-- What is collected are the tokens of the text, if nothing else is. -/
private theorem tiles_of_collect (limit : Nat) {text : List Char} {position : Position}
    {tokens : List Token} (hlimit : text.length < limit)
    (hc : (collect limit ⟨text, position, false⟩).1 = tokens.map .ok) :
    Tiles position text tokens := by
  -- Induction on the limit, which goes down with every token; it is never reached
  induction limit generalizing text position tokens with
  | zero => omega
  | succ n ih =>
    cases text with
    | nil =>
      cases tokens with
      | nil => exact .nil
      | cons token tokens => simp [collect, next, nextToken] at hc
    | cons c rest =>
      cases hscan : Scan.scan c rest with
      | fault cause =>
        -- A fault leaves an error in the stream, and all its items are tokens
        obtain ⟨e, items, last, h⟩ := collect_of_fault n position hscan
        rw [h] at hc
        cases tokens with
        | nil => simp at hc
        | cons token tokens => simp at hc
      | token kind value front =>
        obtain ⟨-, after, hsplit⟩ := Scan.scan_split hscan
        rw [collect_of_scan n position hscan hsplit] at hc
        cases tokens with
        | nil => simp at hc
        | cons token tokens =>
          simp only [List.map_cons, List.cons.injEq, Except.ok.injEq] at hc
          obtain ⟨rfl, hc⟩ := hc
          have hlen := length_lt_of_scan hscan hsplit
          exact .cons hscan hsplit (ih (by omega) hc)

/-- Collecting the items of a stream succeeds exactly when every item is a token. -/
theorem mapM_id_eq_ok {items : List (Except LexError Token)} {tokens : List Token} :
    items.mapM id = .ok tokens ↔ items = tokens.map .ok := by
  induction items generalizing tokens with
  | nil => cases tokens <;> simp [pure, Except.pure]
  | cons item items ih =>
    cases item with
    | error e => cases tokens <;> simp [bind, Except.bind]
    | ok token =>
      cases h : items.mapM id with
      | error e =>
        cases tokens <;> simp_all [bind, Except.bind]
      | ok rest =>
        cases tokens <;> simp_all [bind, Except.bind, pure, Except.pure]

/-- The tokens of a source are the ones that `Tiles` describes, and reading them ends where the
    source does. -/
theorem run_eq_iff_tiles {source : String} {tokens : List Token} :
    (ofSource source).run.1 = tokens.map .ok ↔ Tiles .start source.toList tokens :=
  ⟨tiles_of_collect _ (Nat.lt_succ_self _),
    fun h => by rw [run, ofSource, collect_of_tiles h _ (Nat.lt_succ_self _)]⟩

/-- A lexer that has read all its tokens stands at the end of the source. -/
theorem run_position {source : String} {tokens : List Token}
    (h : Tiles .start source.toList tokens) :
    (ofSource source).run.2.position = Position.start.advance source.toList := by
  rw [run, ofSource, collect_of_tiles h _ (Nat.lt_succ_self _)]

/-- A source has the tokens that tile it. -/
theorem tokenize_eq_ok {source : String} {tokens : List Token} :
    (ofSource source).tokenize = .ok tokens ↔ Tiles .start source.toList tokens := by
  rw [tokenize, mapM_id_eq_ok, run_eq_iff_tiles]

end Lexer

/-- A result of which something has been computed. -/
theorem exists_eq_ok_of_map {ε α β : Type} {x : Except ε α} {f : α → β} {b : β}
    (h : x.toOption.map f = some b) : ∃ a, x = .ok a ∧ f a = b := by
  cases x with
  | ok a => exact ⟨a, rfl, Option.some.inj h⟩
  | error e => cases h

/-! ## The lexemes of a source -/

namespace Lexeme

/-- What a lexeme says. -/
def piece (lexeme : Lexeme) : Piece :=
  lexeme.token.piece

/-- Lexemes are the tokens that are not trivia. -/
theorem map_token_ofTokens (tokens : List Token) (broken : Bool) :
    (ofTokens broken tokens).map Lexeme.token =
      tokens.filter fun token => !token.kind.isTrivia := by
  induction tokens generalizing broken with
  | nil => rfl
  | cons token tokens ih =>
    cases h : token.kind.isTrivia with
    | true => simp [ofTokens, h, ih]
    | false => simp [ofTokens, h, ih]

/-- The lexemes of a source say what its tokens say, trivia left out. -/
theorem map_piece_ofTokens (tokens : List Token) (broken : Bool) :
    (ofTokens broken tokens).map piece = Token.visible tokens := by
  rw [Token.visible, ← map_token_ofTokens tokens broken, List.map_map]
  rfl

/-- The lexemes of a source are its tokens without trivia. -/
theorem ofSource_eq_ok {source : String} {lexemes : List Lexeme} {stop : Position} :
    ofSource source = .ok (lexemes, stop) ↔
      ∃ tokens, Tiles .start source.toList tokens ∧ ofTokens false tokens = lexemes ∧
        Position.start.advance source.toList = stop := by
  unfold ofSource
  cases h : (Lexer.ofSource source).run.1.mapM id with
  -- The stream is all tokens, or its first error is the answer
  | error e =>
    simp only [h, reduceCtorEq, false_iff]
    rintro ⟨tokens, ht, -⟩
    rw [Lexer.mapM_id_eq_ok.2 (Lexer.run_eq_iff_tiles.2 ht)] at h
    cases h
  | ok tokens =>
    have hrun := Lexer.mapM_id_eq_ok.1 h
    have htiles := Lexer.run_eq_iff_tiles.1 hrun
    simp only [h, Except.ok.injEq, Prod.mk.injEq]
    rw [Lexer.run_position htiles]
    constructor
    · rintro ⟨hl, hp⟩
      exact ⟨tokens, htiles, hl, hp⟩
    · rintro ⟨tokens', ht', hl, hp⟩
      have : tokens = tokens' := (List.map_inj_right fun _ _ => Except.ok.inj).1
        (hrun.symm.trans (Lexer.run_eq_iff_tiles.2 ht'))
      exact ⟨this ▸ hl, hp⟩

/-- The lexemes of a source are the ones that `Lexes` describes. -/
theorem ofSource_iff_lexes {source : String} {pieces : List Piece} :
    (∃ lexemes stop, ofSource source = .ok (lexemes, stop) ∧ lexemes.map piece = pieces) ↔
      Lexes source.toList pieces := by
  constructor
  · rintro ⟨lexemes, stop, h, rfl⟩
    obtain ⟨tokens, ht, rfl, -⟩ := ofSource_eq_ok.1 h
    rw [map_piece_ofTokens]
    exact ht.lexes
  · intro h
    obtain ⟨tokens, ht⟩ := h.tiles .start
    refine ⟨ofTokens false tokens, _, ofSource_eq_ok.2 ⟨tokens, ht, rfl, rfl⟩, ?_⟩
    rw [map_piece_ofTokens]
    exact ht.lexes.unique h

/-- The tokens of a source, trivia left out, are the ones that `Lexes` describes. -/
theorem exists_tokens_of_lexes {source : String} {pieces : List Piece}
    (h : Lexes source.toList pieces) :
    ∃ tokens, (Lexer.ofSource source).tokenize = .ok tokens ∧ Token.visible tokens = pieces := by
  obtain ⟨tokens, ht⟩ := h.tiles .start
  exact ⟨tokens, Lexer.tokenize_eq_ok.2 ht, ht.lexes.unique h⟩

/-- Every lexeme of a source is a token that `scan` reads. -/
theorem scanned_of_ofSource {source : String} {lexemes : List Lexeme} {stop : Position}
    (h : ofSource source = .ok (lexemes, stop)) : ∀ lexeme ∈ lexemes, lexeme.token.Scanned := by
  obtain ⟨tokens, ht, rfl, -⟩ := ofSource_eq_ok.1 h
  intro lexeme hl
  have hmem : lexeme.token ∈ tokens.filter fun token => !token.kind.isTrivia := by
    rw [← map_token_ofTokens tokens false]
    exact List.mem_map_of_mem hl
  exact ht.scanned _ (List.mem_filter.1 hmem).1

end Lexeme

/-! ## The values of scanned tokens -/

namespace TokenKind

/-- The ways to write a kind of token: its symbols, then its reserved words. -/
def spellings (kind : TokenKind) : List String :=
  (symbols.filter (·.2 = kind)).map (fun entry => String.ofList entry.1) ++
    (reserved.filter (·.2 = kind)).map Prod.fst

/-- Whether tokens of this kind differ in what they say. -/
def isOpenClass : TokenKind → Bool
  | whitespace | comment | number | string | name => true
  | _ => false

/-- Whether tokens of this kind can be written in one way only. -/
def isFixed : TokenKind → Bool
  | boolean | or | not | power => false
  | kind => !kind.isOpenClass

/-- A kind with one spelling is spelled as its label says. -/
theorem spellings_of_isFixed {kind : TokenKind} (h : kind.isFixed = true) :
    kind.spellings = [kind.label] := by
  cases kind with
  | keyword word => cases word <;> decide
  | _ => first | exact absurd h (by decide) | decide

/-- The spellings of a kind are its symbols and its reserved words. -/
theorem mem_spellings {kind : TokenKind} {text : String} :
    text ∈ kind.spellings ↔ (text.toList, kind) ∈ symbols ∨ (text, kind) ∈ reserved := by
  simp only [spellings, List.mem_append, List.mem_map, List.mem_filter, decide_eq_true_eq]
  constructor
  · rintro (⟨⟨front, kind'⟩, ⟨hmem, rfl⟩, rfl⟩ | ⟨⟨word, kind'⟩, ⟨hmem, rfl⟩, rfl⟩)
    · exact .inl (by simpa using hmem)
    · exact .inr hmem
  · rintro (h | h)
    · exact .inl ⟨_, ⟨h, rfl⟩, String.ofList_toList⟩
    · exact .inr ⟨_, ⟨h, rfl⟩, rfl⟩

/-- A word that is reserved is in the table. -/
theorem mem_reserved_of_ofReserved? {word : String} {kind : TokenKind}
    (h : ofReserved? word = some kind) : (word, kind) ∈ reserved := by
  rw [ofReserved?, List.lookup_eq_some_iff] at h
  obtain ⟨front, back, h, -⟩ := h
  simp [h]

end TokenKind

namespace Scan

variable {c : Char} {rest value text : List Char} {kind : TokenKind}

/-- The symbols are of kinds that are no open class. -/
private theorem isOpenClass_of_mem_symbols {text : List Char}
    (h : (text, kind) ∈ TokenKind.symbols) : kind.isOpenClass = false := by
  have : ∀ entry ∈ TokenKind.symbols, entry.2.isOpenClass = false := by decide
  exact this _ h

/-- The reserved words are of kinds that are no open class. -/
private theorem isOpenClass_of_mem_reserved {word : String}
    (h : (word, kind) ∈ TokenKind.reserved) : kind.isOpenClass = false := by
  have : ∀ entry ∈ TokenKind.reserved, entry.2.isOpenClass = false := by decide
  exact this _ h

/-- The kind of a word is that of a name or one that words are reserved for. -/
private theorem ofWord_cases (word : String) :
    TokenKind.ofReserved? word = none ∧ TokenKind.ofWord word = .name ∨
      (word, TokenKind.ofWord word) ∈ TokenKind.reserved := by
  cases h : TokenKind.ofReserved? word with
  | none => exact .inl ⟨rfl, by rw [TokenKind.ofWord, h]; rfl⟩
  | some kind =>
    refine .inr (TokenKind.mem_reserved_of_ofReserved? ?_)
    rw [TokenKind.ofWord, h]
    rfl

/-- A name that `scan` reads is a name. -/
theorem isName_of_scan (h : scan c rest = .token kind value text) (hkind : kind = .name) :
    isName (String.ofList value) = true := by
  cases reading_of_scan h with
  | word hc =>
    rcases ofWord_cases (String.ofList ((c :: rest).takeWhile isWordRest)) with ⟨hw, -⟩ | hw
    · rw [List.takeWhile_cons_of_pos (isWordStart_isWordRest hc)] at hw ⊢
      simp only [isName, hw, String.toList_ofList, hc, List.all_takeWhile, Option.isNone_none,
        Bool.and_self]
    · rw [hkind] at hw
      exact absurd (isOpenClass_of_mem_reserved hw) (by decide)
  | symbol hs =>
    subst hkind
    exact absurd (isOpenClass_of_mem_symbols (symbol?_mem hs).1) (by decide)
  | _ => cases hkind

/-- A number that `scan` reads is a number. -/
theorem isNumber_of_scan (h : scan c rest = .token kind value text) (hkind : kind = .number) :
    isNumber (String.ofList value) = true := by
  cases reading_of_scan h with
  | number hc => exact isNumber_numberText hc
  | word hc =>
    rcases ofWord_cases (String.ofList ((c :: rest).takeWhile isWordRest)) with ⟨-, hw⟩ | hw
    · exact absurd (hkind.symm.trans hw) (by decide)
    · rw [hkind] at hw
      exact absurd (isOpenClass_of_mem_reserved hw) (by decide)
  | symbol hs =>
    subst hkind
    exact absurd (isOpenClass_of_mem_symbols (symbol?_mem hs).1) (by decide)
  | _ => cases hkind

/-- What `scan` reads of a kind that is no open class is spelled in one of its ways. -/
theorem mem_spellings_of_scan (h : scan c rest = .token kind value text)
    (hkind : kind.isOpenClass = false) : String.ofList value ∈ kind.spellings ∧ text = value := by
  cases reading_of_scan h with
  | word hc =>
    refine ⟨?_, rfl⟩
    rcases ofWord_cases (String.ofList ((c :: rest).takeWhile isWordRest)) with ⟨-, hw⟩ | hw
    · rw [hw] at hkind
      exact absurd hkind (by decide)
    · exact TokenKind.mem_spellings.2 (.inr hw)
  | symbol hs =>
    refine ⟨TokenKind.mem_spellings.2 (.inl ?_), rfl⟩
    rw [String.toList_ofList]
    exact (symbol?_mem hs).1
  | _ => exact absurd hkind (by decide)

/-- Only strings are written otherwise than what they mean. -/
theorem text_eq_of_scan (h : scan c rest = .token kind value text) (hkind : kind ≠ .string) :
    text = value := by
  cases reading_of_scan h with
  | string => exact absurd rfl hkind
  | _ => rfl

end Scan

namespace Token.Scanned

variable {token : Token}

/-- The value of a name is a name. -/
theorem isName (h : token.Scanned) (hkind : token.kind = .name) :
    Scan.isName token.value = true := by
  obtain ⟨c, rest, h⟩ := h
  simpa using Scan.isName_of_scan h hkind

/-- The value of a number is a number. -/
theorem isNumber (h : token.Scanned) (hkind : token.kind = .number) :
    Scan.isNumber token.value = true := by
  obtain ⟨c, rest, h⟩ := h
  simpa using Scan.isNumber_of_scan h hkind

/-- The text of a token is its value, unless it is a string. -/
theorem text_eq (h : token.Scanned) (hkind : token.kind ≠ .string) : token.text = token.value := by
  obtain ⟨c, rest, h⟩ := h
  exact String.toList_inj.1 (Scan.text_eq_of_scan h hkind)

/-- A token that is not of an open class is written in one of the ways for its kind, and means
    what it says. -/
theorem mem_spellings (h : token.Scanned) (hkind : token.kind.isOpenClass = false) :
    token.value ∈ token.kind.spellings ∧ token.text = token.value := by
  obtain ⟨c, rest, h⟩ := h
  obtain ⟨hv, ht⟩ := Scan.mem_spellings_of_scan h hkind
  exact ⟨by simpa using hv, String.toList_inj.1 ht⟩

/-- A token of a kind with one spelling has that spelling. -/
theorem value_eq (h : token.Scanned) (hkind : token.kind.isFixed = true) :
    token.value = token.kind.label := by
  have hopen : token.kind.isOpenClass = false := by
    cases hk : token.kind <;> simp_all [TokenKind.isFixed, TokenKind.isOpenClass]
  have := (h.mem_spellings hopen).1
  rw [TokenKind.spellings_of_isFixed hkind] at this
  exact List.mem_singleton.1 this

end Token.Scanned

end Schemata
