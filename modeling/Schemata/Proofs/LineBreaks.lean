import Mathlib.Data.List.Find
import Schemata.Proofs.Printing
import Schemata.Proofs.Tiling

/-!
# Line breaks

No token goes on over a line break unless it began before it, so what stands before a line break
is read as it is read alone (`Tiles.append_newline`, and for texts wherever they stand
`Lays.append_newline`).

`Lays broken text marks` says what is read from a text and which of it comes after a line break.
-/

namespace Schemata

/-! ## Reading more text -/

namespace Scan

/-- What is taken from the front of a text ends at a character that is not taken. -/
private theorem takeWhile_append_stop {p : Char → Bool} {stop : Char} (h : p stop = false)
    (cs more : List Char) : (cs ++ stop :: more).takeWhile p = cs.takeWhile p := by
  induction cs with
  | nil => simp [h]
  | cons c cs ih => simp only [List.cons_append, List.takeWhile_cons, ih]

/-- A comment that is closed is read in the same way in a longer text. -/
private theorem commentBody?_append {cs body : List Char} (h : commentBody? cs = some body)
    (more : List Char) : commentBody? (cs ++ more) = some body := by
  fun_induction commentBody? cs generalizing body with
  | case1 => cases h
  | case2 rest => exact h
  | case3 c rest hend ih =>
    obtain ⟨tail, ht, rfl⟩ := Option.map_eq_some_iff.1 h
    rw [List.cons_append, commentBody?, ih ht, Option.map_some]
    -- The end mark is not at this place in the longer text either
    rintro rest' rfl hrest
    cases rest with
    | nil => cases ht
    | cons d rest =>
      obtain ⟨rfl, -⟩ := List.cons.inj hrest
      exact hend rest rfl rfl

/-- A string that is closed is read in the same way in a longer text. -/
private theorem stringBody_append {quote : Char} {cs value text : List Char}
    (h : stringBody quote cs = .closed value text) (more : List Char) :
    stringBody quote (cs ++ more) = .closed value text := by
  -- The cases are those of the function: the end, an escape, the closing quote or any other
  -- character
  fun_induction stringBody quote cs generalizing value text with
  | case1 => cases h
  | case2 => cases h
  | case3 c rest v hv ih =>
    obtain ⟨value', text', hb, rfl, rfl⟩ := eq_closed_of_cons_eq_closed h
    simp only [List.cons_append, stringBody, hv, ih hb]
    rfl
  | case4 c rest hv => cases h
  | case5 rest hlast hescape =>
    rw [List.cons_append, stringBody_cons (ne_backslash hlast hescape), if_pos rfl]
    exact h
  | case6 c rest hlast hescape hc ih =>
    obtain ⟨value', text', hb, rfl, rfl⟩ := eq_closed_of_cons_eq_closed h
    rw [List.cons_append, stringBody_cons (ne_backslash hlast hescape), if_neg hc, ih hb]
    rfl

section

variable {b : Char} (hb : Text.isBlank b = true)

include hb

/-- A blank character goes on with no word, no number and no symbol, and begins no comment. -/
private theorem stops_of_isBlank :
    b.isDigit = false ∧ isWordRest b = false ∧ b ≠ '/' ∧ b ≠ '*' := by
  have hrange := toNat_of_isBlank hb
  refine ⟨?_, ?_, ?_, ?_⟩
  · rw [Bool.eq_false_iff, ne_eq, isDigit_iff]
    omega
  · rw [Bool.eq_false_iff, ne_eq, isWordRest_iff, isWordStart_iff, isDigit_iff]
    omega
  · rintro rfl
    exact absurd hb (by decide)
  · rintro rfl
    exact absurd hb (by decide)

/-- A blank character goes on with no fraction. -/
private theorem fraction_append_blank (cs more : List Char) :
    fraction (cs ++ b :: more) = fraction cs := by
  cases cs with
  | nil =>
    have hne : b ≠ '.' := by
      rintro rfl
      exact absurd hb (by decide)
    simp [fraction, hne]
  | cons c cs =>
    by_cases hc : c = '.'
    · subst hc
      have hstop := takeWhile_append_stop (stops_of_isBlank hb).1 cs more
      simp only [List.cons_append, fraction, hstop]
    · simp [fraction, hc]

/-- A blank character goes on with no whole part. -/
private theorem wholePart_append_blank (c : Char) (cs more : List Char) :
    wholePart (c :: (cs ++ b :: more)) = wholePart (c :: cs) := by
  by_cases hc : c = '0'
  · subst hc
    rfl
  · have hplain : ∀ ds, wholePart (c :: ds) = (c :: ds).takeWhile Char.isDigit := by
      intro ds
      rw [wholePart]
      exact fun _ h => hc (List.cons.inj h).1
    rw [hplain, hplain, ← List.cons_append, takeWhile_append_stop (stops_of_isBlank hb).1]

/-- A blank character goes on with no number. -/
private theorem numberText_append_blank (c : Char) (cs more : List Char) :
    numberText (c :: (cs ++ b :: more)) = numberText (c :: cs) := by
  simp only [numberText, wholePart_append_blank hb]
  have hlength := List.IsPrefix.length_le <| wholePart_prefix (c :: cs)
  rw [← List.cons_append, List.drop_append_of_le_length hlength, fraction_append_blank hb]

/-- No symbol has a blank character in it. -/
private theorem symbol?_append_blank (cs more : List Char) :
    symbol? (cs ++ b :: more) = symbol? cs := by
  -- A symbol that would reach past the text would have the blank in it
  have hprefix : ∀ {text : List Char}, b ∉ text →
      text.isPrefixOf (cs ++ b :: more) = text.isPrefixOf cs := by
    intro text
    induction cs generalizing text with
    | nil =>
      intro htext
      cases text with
      | nil => rfl
      | cons c text =>
        simp only [List.mem_cons, not_or] at htext
        simp [List.isPrefixOf, Ne.symm htext.1]
    | cons d cs ih =>
      intro htext
      cases text with
      | nil => rfl
      | cons c text =>
        simp only [List.mem_cons, not_or] at htext
        simp [List.isPrefixOf, ih htext.2]
  have hsymbols : TokenKind.symbols.all (fun symbol => symbol.1.all (!Text.isBlank ·)) = true := by
    decide
  refine List.find?_congr fun symbol hs => hprefix fun hmem => ?_
  have hblank := List.all_eq_true.1 (List.all_eq_true.1 hsymbols symbol hs) b hmem
  rw [hb] at hblank
  cases hblank

/-- A token is read in the same way if the text goes on with a blank character, unless it is a blank
    at the end of the text, or a comment and the character is no line break. -/
theorem scan_append_blank {c : Char} {rest value text after : List Char} {kind : TokenKind}
    (h : scan c rest = .token kind value text) (hsplit : c :: rest = text ++ after)
    (hend : Text.isBlank c = true → after ≠ []) (hcomment : kind = .comment → b = '\n')
    (more : List Char) : scan c (rest ++ b :: more) = .token kind value text := by
  obtain ⟨-, hword, hslash, hstar⟩ := stops_of_isBlank hb
  have hhead : ∀ d, b ≠ d → ((rest ++ b :: more).head? = some d) = (rest.head? = some d) := by
    intro d hd
    cases rest with
    | nil => simp [hd]
    | cons e rest => rfl
  unfold scan at h ⊢
  simp only [hhead '/' hslash, hhead '*' hstar]
  -- The same branch is taken for both texts, and reads the same
  split at h
  · next hc =>
    obtain ⟨rfl, rfl, rfl⟩ := Outcome.token.inj h
    rw [if_pos hc, plain, ← List.cons_append, List.takeWhile_append, if_neg]
    intro hlength
    apply hend hc
    have hall := congrArg List.length hsplit
    rw [List.length_append] at hall
    exact List.eq_nil_of_length_eq_zero (by omega)
  next hblank =>
  rw [if_neg hblank]
  split at h
  · next hc =>
    obtain rfl := hcomment (Outcome.token.inj h).1.symm
    rw [if_pos hc, ← List.cons_append, takeWhile_append_stop (by decide)]
    exact h
  next hline =>
  rw [if_neg hline]
  split at h
  · next hc =>
    rw [if_pos hc]
    unfold blockComment at h ⊢
    split at h
    · next body hbody =>
      cases rest with
      | nil => simp at hc
      | cons d rest =>
        have hlonger := commentBody?_append hbody (b :: more)
        rw [List.tail_cons] at hlonger
        rw [List.cons_append, List.tail_cons, hlonger]
        exact h
    · cases h
  next hblock =>
  rw [if_neg hblock]
  split at h
  · next hc =>
    rw [if_pos hc]
    unfold stringToken at h ⊢
    split at h
    · next value' text' hbody =>
      rw [stringBody_append hbody]
      exact h
    · cases h
    · cases h
  next hstring =>
  rw [if_neg hstring]
  split at h
  · next hc =>
    rw [if_pos hc, numberText_append_blank hb]
    exact h
  next hdigit =>
  rw [if_neg hdigit]
  split at h
  · next hc =>
    rw [if_pos hc, ← List.cons_append, takeWhile_append_stop hword]
    exact h
  next hletter =>
  rw [if_neg hletter, ← List.cons_append, symbol?_append_blank hb]
  exact h

end

end Scan

/-! ## What comes after a line break -/

namespace Tiles

variable {p : Position} {text : List Char} {tokens : List Token} {broken : Bool}

/-- Blanks at the front of a text do not matter after a line break. -/
private theorem dropWhile (h : Tiles p text tokens) :
    ∃ rest, Tiles (p.advance (text.takeWhile Text.isBlank)) (text.dropWhile Text.isBlank) rest ∧
      Lexeme.ofTokens true rest = Lexeme.ofTokens true tokens := by
  cases h with
  | nil => exact ⟨[], .nil, rfl⟩
  | @cons _ c rest front after value kind tokens hscan hsplit hafter =>
    cases hc : Text.isBlank c with
    | false =>
      refine ⟨_, ?_, rfl⟩
      rw [List.takeWhile_cons_of_neg (by simp [hc]), List.dropWhile_cons_of_neg (by simp [hc])]
      exact .cons hscan hsplit hafter
    -- The run of blanks is the first token
    | true =>
      rw [Scan.scan, if_pos hc] at hscan
      obtain ⟨rfl, rfl, rfl⟩ := Scan.Outcome.token.inj hscan
      have hdrop := @List.takeWhile_append_dropWhile _ Text.isBlank (c :: rest)
      rw [List.append_cancel_left (hdrop.trans hsplit)]
      exact ⟨tokens, hafter, by simp [Lexeme.ofTokens, Lexer.tokenAt, TokenKind.isTrivia]⟩

/-- Blanks and a line break at the front of a text are one token. -/
private theorem blanks {run : List Char} (hrun : ∀ c ∈ run, Text.isBlank c = true)
    (h : Tiles ((p.advance run).next '\n') text tokens) :
    ∃ all, Tiles p (run ++ '\n' :: text) all ∧
      Lexeme.ofTokens broken all = Lexeme.ofTokens true tokens := by
  have htake : (run ++ '\n' :: text).takeWhile Text.isBlank =
      run ++ '\n' :: text.takeWhile Text.isBlank := by
    rw [List.takeWhile_append_of_pos hrun, List.takeWhile_cons_of_pos (by decide)]
  have hsplit : run ++ '\n' :: text =
      (run ++ '\n' :: text.takeWhile Text.isBlank) ++ text.dropWhile Text.isBlank := by
    simp [List.takeWhile_append_dropWhile]
  -- The run has the line feed in it, so the token counts as a line break
  have hbreaks : Text.lineBreaks (run ++ '\n' :: text.takeWhile Text.isBlank) > 0 := by
    apply List.count_pos_iff.2
    simp
  obtain ⟨c, rest, hfirst, hc⟩ : ∃ c rest, run ++ '\n' :: text = c :: rest ∧
      Text.isBlank c = true := by
    cases run with
    | nil => exact ⟨_, _, rfl, by decide⟩
    | cons c run => exact ⟨_, _, rfl, hrun c (by simp)⟩
  rw [hfirst] at htake hsplit ⊢
  have hscan : Scan.scan c rest = .token .whitespace (run ++ '\n' :: text.takeWhile Text.isBlank)
      (run ++ '\n' :: text.takeWhile Text.isBlank) := by
    rw [Scan.scan, if_pos hc, Scan.plain, htake]
  -- Blanks at the front of the text join the token, and what is after them is cut as before
  obtain ⟨rest', hrest, hlexemes⟩ := h.dropWhile
  rw [← Position.advance_cons, ← Position.advance_append] at hrest
  refine ⟨_, .cons hscan hsplit hrest, ?_⟩
  simp [Lexeme.ofTokens, Lexer.tokenAt, TokenKind.isTrivia, hbreaks, hlexemes]

/-- What stands before a line break is read as it is read alone, and what stands behind it as what
    comes after a line break. -/
theorem append_newline {text' : List Char} {tokens' : List Token} (h : Tiles p text tokens)
    (h' : Tiles ((p.advance text).next '\n') text' tokens') (broken : Bool) :
    ∃ all, Tiles p (text ++ '\n' :: text') all ∧
      Lexeme.ofTokens broken all =
        Lexeme.ofTokens broken tokens ++ Lexeme.ofTokens true tokens' := by
  induction h generalizing broken with
  | nil => exact h'.blanks (by simp)
  -- Induction on the tokens of the first text, each read alike in the longer one
  | @cons p c rest front after value kind tokens hscan hsplit hafter ih =>
    by_cases hend : Text.isBlank c = true → after ≠ []
    · have hlonger := Scan.scan_append_blank (by decide) hscan hsplit hend (fun _ => rfl) text'
      have hsplit' : c :: (rest ++ '\n' :: text') = front ++ (after ++ '\n' :: text') := by
        rw [← List.cons_append, hsplit, List.append_assoc]
      rw [hsplit, Position.advance_append] at h'
      cases hkind : kind.isTrivia with
      | true =>
        obtain ⟨all, hall, hlexemes⟩ := ih h' (broken || decide (Text.lineBreaks front > 0))
        refine ⟨_, .cons hlonger hsplit' hall, ?_⟩
        simp [Lexeme.ofTokens, Lexer.tokenAt, hkind, hlexemes]
      | false =>
        obtain ⟨all, hall, hlexemes⟩ := ih h' false
        refine ⟨_, .cons hlonger hsplit' hall, ?_⟩
        simp [Lexeme.ofTokens, Lexer.tokenAt, hkind, hlexemes]
    -- Blanks at the end of the first text make one token with the line break
    · obtain ⟨hc, rfl⟩ : Text.isBlank c = true ∧ after = [] := by simpa using hend
      rw [Scan.scan, if_pos hc] at hscan
      obtain ⟨rfl, rfl, rfl⟩ := Scan.Outcome.token.inj hscan
      cases hafter
      rw [List.append_nil] at hsplit
      have hrun : ∀ d ∈ c :: rest, Text.isBlank d = true := by
        rw [hsplit]
        exact List.all_eq_true.1 List.all_takeWhile
      obtain ⟨all, hall, hlexemes⟩ := @blanks p text' tokens' broken (c :: rest) hrun h'
      refine ⟨all, hall, ?_⟩
      simpa [Lexeme.ofTokens, Lexer.tokenAt, TokenKind.isTrivia] using hlexemes

end Tiles

/-- What a lexeme says, and whether it comes after a line break. -/
def Lexeme.mark (lexeme : Lexeme) : Piece × Bool :=
  (lexeme.piece, lexeme.afterBreak)

/-- The text is read as the marked pieces, wherever it stands; `broken` says whether it comes after
    a line break. -/
def Lays (broken : Bool) (text : List Char) (marks : List (Piece × Bool)) : Prop :=
  ∀ p, ∃ tokens, Tiles p text tokens ∧ (Lexeme.ofTokens broken tokens).map Lexeme.mark = marks

namespace Lays

variable {broken : Bool} {text : List Char} {marks : List (Piece × Bool)}

/-- Nothing is read from the empty text. -/
theorem nil (broken : Bool) : Lays broken [] [] :=
  fun _ => ⟨[], .nil, rfl⟩

/-- Trivia at the front are passed over, and their newlines are remembered. -/
theorem trivia {c : Char} {rest front after value : List Char} {kind : TokenKind}
    (hscan : Scan.scan c rest = .token kind value front) (hsplit : c :: rest = front ++ after)
    (hkind : kind.isTrivia = true)
    (h : Lays (broken || decide (Text.lineBreaks front > 0)) after marks) :
    Lays broken (c :: rest) marks := by
  intro p
  obtain ⟨tokens, ht, hmarks⟩ := h (p.advance front)
  refine ⟨_, .cons hscan hsplit ht, ?_⟩
  simpa [Lexeme.ofTokens, Lexer.tokenAt, hkind] using hmarks

/-- A token at the front is read as a piece, and forgets the newlines before it. -/
theorem piece {c : Char} {rest front after value : List Char} {kind : TokenKind}
    (hscan : Scan.scan c rest = .token kind value front) (hsplit : c :: rest = front ++ after)
    (hkind : kind.isTrivia = false) (h : Lays false after marks) :
    Lays broken (c :: rest) ((⟨kind, String.ofList value⟩, broken) :: marks) := by
  intro p
  obtain ⟨tokens, ht, hmarks⟩ := h (p.advance front)
  refine ⟨_, .cons hscan hsplit ht, ?_⟩
  rw [← hmarks]
  simp [Lexeme.ofTokens, Lexer.tokenAt, hkind, Lexeme.mark, Lexeme.piece, Token.piece]

/-- What is read from a text says what its tokens say. -/
theorem lexes (h : Lays broken text marks) : Lexes text (marks.map Prod.fst) := by
  obtain ⟨tokens, ht, rfl⟩ := h .start
  have hpieces := Lexeme.map_piece_ofTokens tokens broken
  rw [List.map_map]
  exact hpieces ▸ ht.lexes

/-- The place of a text does not matter for what is read from it. -/
theorem of_tiles {p : Position} {tokens : List Token} (h : Tiles p text tokens) (broken : Bool) :
    Lays broken text ((Lexeme.ofTokens broken tokens).map Lexeme.mark) := by
  induction h generalizing broken with
  | nil => exact .nil broken
  | @cons p c rest front after value kind tokens hscan hsplit _ ih =>
    cases hkind : kind.isTrivia with
    | true =>
      simp only [Lexeme.ofTokens, Lexer.tokenAt, hkind, if_true]
      exact .trivia hscan hsplit hkind (ih _)
    | false =>
      simp only [Lexeme.ofTokens, Lexer.tokenAt, hkind, Bool.false_eq_true, if_false,
        List.map_cons]
      exact .piece hscan hsplit hkind (ih false)

/-- What stands before a line break is read as it is read alone, and what stands behind it as what
    comes after a line break. -/
theorem append_newline {text' : List Char} {marks' : List (Piece × Bool)}
    (h : Lays broken text marks) (h' : Lays true text' marks') :
    Lays broken (text ++ '\n' :: text') (marks ++ marks') := by
  intro p
  obtain ⟨tokens, ht, rfl⟩ := h p
  obtain ⟨tokens', ht', rfl⟩ := h' ((p.advance text).next '\n')
  obtain ⟨all, hall, hlexemes⟩ := ht.append_newline ht' broken
  exact ⟨all, hall, by rw [hlexemes, List.map_append]⟩

end Lays

/-- The lexemes of a source are the ones that `Lays` describes. -/
theorem Lexeme.ofSource_of_lays {source : String} {marks : List (Piece × Bool)}
    (h : Lays false source.toList marks) :
    ∃ lexemes stop, ofSource source = .ok (lexemes, stop) ∧ lexemes.map mark = marks := by
  obtain ⟨tokens, ht, hmarks⟩ := h .start
  exact ⟨_, _, ofSource_eq_ok.2 ⟨tokens, ht, rfl, rfl⟩, hmarks⟩

end Schemata
