import Schemata.Proofs.LineBreaks
import Schemata.Proofs.Spans

/-!
# Tokens that are written again

A text that is written as a string literal is read back as that text (`nextToken_stringLiteral`).
The texts of tokens, with a space between each two, are read as these tokens: of whatever text a
token was cut, it is read in the same way before a space (`Token.Scanned.before_space`).

Main statement: `tokenize_spaced`.
-/

namespace Schemata

/-! ## Strings -/

namespace Lexer

/-- A string literal is read as the text that it was written for, whatever comes after it, and
    reading stops right there.  It is all in one line. -/
theorem nextToken_stringLiteral (value : String) (after : List Char) (p : Position)
    (failed : Bool) :
    nextToken ⟨(stringLiteral value).toList ++ after, p, failed⟩ =
        (.ok (some ⟨.string, value, stringLiteral value, p, 0⟩),
          ⟨after, p.advance (stringLiteral value).toList, failed⟩) ∧
      '\n' ∉ (stringLiteral value).toList := by
  have hflat := newline_not_mem_stringLiteral value
  refine ⟨?_, hflat⟩
  have hliteral : (stringLiteral value).toList =
      '"' :: (value.toList.flatMap escapeChar ++ ['"']) := String.toList_ofList
  have hbreaks : Text.lineBreaks (stringLiteral value).toList = 0 := List.count_eq_zero.2 hflat
  have hscan := @scan_escaped after value.toList
  rw [← hliteral] at hscan
  have hsplit : (stringLiteral value).toList ++ after =
      '"' :: (value.toList.flatMap escapeChar ++ '"' :: after) := by simp [hliteral]
  have hread := @nextToken_of_scan ⟨(stringLiteral value).toList ++ after, p, failed⟩ _ _ _ _ _
    hsplit hscan
  rw [hread]
  simp [tokenAt, skip, hbreaks]

end Lexer

/-! ## Tokens before a space -/

namespace Token

variable {t : Token} {ts : List Token}

/-- A token that is not trivia does not begin with a blank character, and it is read in the same way
    if its text stands alone or before a space. -/
theorem Scanned.before_space (h : t.Scanned) (ht : t.kind.isTrivia = false) :
    ∃ c cs, t.text.toList = c :: cs ∧ Text.isBlank c = false ∧
      Scan.scan c cs = .token t.kind t.value.toList t.text.toList ∧
      ∀ more, Scan.scan c (cs ++ ' ' :: more) = .token t.kind t.value.toList t.text.toList := by
  obtain ⟨c, rest, hscan⟩ := h
  obtain ⟨hne, after, hsplit⟩ := Scan.scan_split hscan
  obtain ⟨d, cs, htext⟩ := List.exists_cons_of_ne_nil hne
  -- The text that the token was cut of is forgotten, and its own text is all that is left
  rw [htext, List.cons_append] at hsplit
  obtain ⟨rfl, rfl⟩ := List.cons.inj hsplit
  have hblank : Text.isBlank c = false := by
    cases hc : Text.isBlank c with
    | false => rfl
    | true =>
      rw [Scan.scan, if_pos hc] at hscan
      rw [← (Scan.Outcome.token.inj hscan).1] at ht
      cases ht
  have halone := Scan.scan_of_scan_append hscan (htext ▸ List.prefix_rfl)
  refine ⟨c, cs, htext, hblank, halone, fun more => ?_⟩
  have hcomment : t.kind ≠ .comment := by
    intro hk
    rw [hk] at ht
    cases ht
  have hall : c :: cs = t.text.toList ++ [] := by rw [htext, List.append_nil]
  refine Scan.scan_append_blank (by decide) halone hall ?_ ?_ more
  · intro hc
    rw [hblank] at hc
    cases hc
  · exact fun hk => absurd hk hcomment

/-- The texts of the tokens, with a space between each two. -/
def spaced (tokens : List Token) : String :=
  " ".intercalate (tokens.map Token.text)

/-- What a token is, what it means and how it is written, wherever it stands. -/
def content (token : Token) : TokenKind × String × String :=
  (token.kind, token.value, token.text)

/-- A token keeps its content wherever it is read. -/
private theorem content_solid_cons (ht : t.kind.isTrivia = false) (p : Position) :
    (solid (Lexer.tokenAt p t.kind t.value.toList t.text.toList :: ts)).map content =
      t.content :: (solid ts).map content := by
  simp [solid, Lexer.tokenAt, content, ht]

/-- One token alone has no space around it. -/
theorem toList_spaced_singleton (t : Token) : (spaced [t]).toList = t.text.toList := by
  simp [spaced]

/-- The first of several tokens has a space behind it. -/
theorem toList_spaced_cons_cons (t u : Token) (ts : List Token) :
    (spaced (t :: u :: ts)).toList = t.text.toList ++ ' ' :: (spaced (u :: ts)).toList := by
  simp [spaced, String.intercalate_cons_cons, String.toList_append]

/-- What stands after a space does not begin with another. -/
private theorem takeWhile_spaced (h : t.Scanned) (ht : t.kind.isTrivia = false) :
    (spaced (t :: ts)).toList.takeWhile Text.isBlank = [] := by
  obtain ⟨c, cs, htext, hblank, -⟩ := h.before_space ht
  cases ts with
  | nil => simp [toList_spaced_singleton, htext, hblank]
  | cons u ts => simp [toList_spaced_cons_cons, htext, hblank]

end Token

/-- A space before a text that does not begin with a blank character is a token of its own. -/
theorem Tiles.space {p : Position} {text : List Char} {tokens : List Token}
    (h : Tiles (p.next ' ') text tokens) (htext : text.takeWhile Text.isBlank = []) :
    Tiles p (' ' :: text) (Lexer.tokenAt p .whitespace [' '] [' '] :: tokens) := by
  have hscan : Scan.scan ' ' text = .token .whitespace [' '] [' '] := by
    rw [Scan.scan, if_pos (by decide), Scan.plain, List.takeWhile_cons_of_pos (by decide), htext]
  exact .cons hscan rfl h

/-- Tokens with a space between each two are read as these tokens, wherever they stand. -/
theorem Tiles.exists_spaced {tokens : List Token} (p : Position)
    (h : ∀ t ∈ tokens, t.Scanned ∧ t.kind.isTrivia = false) :
    ∃ again, Tiles p (Token.spaced tokens).toList again ∧
      (Token.solid again).map Token.content = tokens.map Token.content := by
  -- From the left: what stands behind the space after a token does not matter for reading it
  induction tokens generalizing p with
  | nil => exact ⟨[], .nil, rfl⟩
  | cons t ts ih =>
    obtain ⟨⟨hscanned, ht⟩, hts⟩ := List.forall_mem_cons.1 h
    obtain ⟨c, cs, htext, -, halone, hspace⟩ := hscanned.before_space ht
    -- The last token ends the text, and any other one has a space behind it
    cases ts with
    | nil =>
      have hall := Tiles.cons (p := p) halone (by rw [htext, List.append_nil]) .nil
      rw [Token.toList_spaced_singleton, htext]
      exact ⟨_, hall, Token.content_solid_cons ht p⟩
    | cons u ts =>
      obtain ⟨again, hagain, hcontent⟩ := ih ((p.advance t.text.toList).next ' ') hts
      obtain ⟨hu, hsolid⟩ := (List.forall_mem_cons.1 hts).1
      have hrest := hagain.space (Token.takeWhile_spaced hu hsolid)
      have hall := Tiles.cons (hspace _) (by rw [htext]; rfl) hrest
      rw [Token.toList_spaced_cons_cons, htext]
      refine ⟨_, hall, ?_⟩
      rw [Token.content_solid_cons ht, List.map_cons, ← hcontent]
      rfl

namespace Lexer

/-- The tokens of a source, trivia left out and with a space between each two, are a source of the
    same tokens. -/
theorem tokenize_spaced {source : String} {tokens : List Token}
    (h : (ofSource source).tokenize = .ok tokens) :
    ∃ again, (ofSource (Token.spaced (Token.solid tokens))).tokenize = .ok again ∧
      (Token.solid again).map Token.content = (Token.solid tokens).map Token.content := by
  have hscanned := (tokenize_eq_ok.1 h).scanned
  have hsolid : ∀ t ∈ Token.solid tokens, t.Scanned ∧ t.kind.isTrivia = false := by
    intro t ht
    obtain ⟨hmem, hkind⟩ := List.mem_filter.1 ht
    exact ⟨hscanned t hmem, by simpa using hkind⟩
  obtain ⟨again, hagain, hcontent⟩ := Tiles.exists_spaced .start hsolid
  exact ⟨again, tokenize_eq_ok.2 hagain, hcontent⟩

/-- Tokens that end where they do because of what came next, which then is a space. -/
theorem tokenize_spaced_tight :
    ∃ tokens again, (ofSource "01.x/**//y===!'\n'").tokenize = .ok tokens ∧
      Token.spaced (Token.solid tokens) = "0 1 . x / y == = ! '\n'" ∧
      (ofSource "0 1 . x / y == = ! '\n'").tokenize = .ok again ∧
      (Token.solid again).map Token.content = (Token.solid tokens).map Token.content := by
  obtain ⟨tokens, htokens, htext⟩ := exists_eq_ok_of_map
    (show (ofSource "01.x/**//y===!'\n'").tokenize.toOption.map
        (fun tokens => Token.spaced (Token.solid tokens)) = some "0 1 . x / y == = ! '\n'" by
      decide +kernel)
  obtain ⟨again, hagain, hcontent⟩ := tokenize_spaced htokens
  rw [htext] at hagain
  exact ⟨tokens, again, htokens, htext, hagain, hcontent⟩

end Lexer

end Schemata
