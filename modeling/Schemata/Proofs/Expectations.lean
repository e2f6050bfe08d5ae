import Schemata.Proofs.Layout
import Schemata.Proofs.LineBreaks
import Schemata.Proofs.MendedStatement

/-!
# What would have been accepted

A parse that fails says which tokens it expected.  Each of them would have been accepted: cut the
source where the parse failed and go on in a new line with the token, and the parse takes it, so
that it succeeds or fails at the end of the new source.

There is one exception.  After an expression that cannot be assigned to, the signs of assignment
are expected too, but whichever comes, the assignment is refused, at a place before the failure.
-/

namespace Schemata

/-! ## The source up to a place -/

/-- The source up to an offset, and more text in a new line. -/
def continued (source : String) (offset : Nat) (text : String) : String :=
  String.ofList (Text.takeBytes offset source.toList ++ '\n' :: text.toList)

/-- A source that is continued is what stands before the cut, a newline and the text. -/
theorem toList_continued {source : String} {cut back : List Char}
    (h : source.toList = cut ++ back) (text : String) :
    (continued source (Position.start.advance cut).offset text).toList =
      cut ++ '\n' :: text.toList := by
  rw [continued, h, Position.offset_advance_start, Text.takeBytes_byteSize_append,
    String.toList_ofList]

/-- Every token begins before its text ends. -/
theorem Tiles.offset_lt_of_mem {p : Position} {text : List Char} {tokens : List Token}
    {t : Token} (h : Tiles p text tokens) (ht : t ∈ tokens) :
    t.position.offset < p.offset + Text.byteSize text := by
  induction h with
  | nil => cases ht
  | @cons p c rest first after value kind tokens hscan hsplit hafter ih =>
    obtain rfl | ht := List.mem_cons.1 ht
    · have hpos := c.utf8Size_pos
      simp only [Lexer.tokenAt, Text.byteSize_cons]
      omega
    · have hlt := ih ht
      rw [Position.offset_advance] at hlt
      rw [hsplit, Text.byteSize_append]
      omega

namespace Lexeme

/-- Where lexemes are split, so are the tokens, and the second part begins with a lexeme. -/
theorem ofTokens_eq_append {broken : Bool} {tokens : List Token} {front rest : List Lexeme}
    (h : ofTokens broken tokens = front ++ rest) :
    ∃ us vs, tokens = us ++ vs ∧ ofTokens broken us = front ∧
      vs.head? = rest.head?.map Lexeme.token := by
  -- Induction on the tokens, of which trivia make no lexeme
  induction tokens generalizing broken front with
  | nil =>
    obtain ⟨rfl, rfl⟩ := List.append_eq_nil_iff.1 h.symm
    exact ⟨[], [], rfl, rfl, rfl⟩
  | cons token tokens ih =>
    cases hkind : token.kind.isTrivia with
    | true =>
      rw [ofTokens, if_pos hkind] at h
      obtain ⟨us, vs, rfl, hus, hvs⟩ := ih h
      exact ⟨token :: us, vs, rfl, by rw [ofTokens, if_pos hkind, hus], hvs⟩
    | false =>
      rw [ofTokens, if_neg (by simp [hkind])] at h
      cases front with
      | nil =>
        rw [List.nil_append] at h
        exact ⟨[], token :: tokens, rfl, rfl, by rw [← h]; rfl⟩
      | cons lexeme front =>
        obtain ⟨rfl, htail⟩ := List.cons.inj h
        obtain ⟨us, vs, rfl, hus, hvs⟩ := ih htail
        exact ⟨token :: us, vs, rfl, by rw [ofTokens, if_neg (by simp [hkind]), hus], hvs⟩

end Lexeme

/-- The lexemes are those of the source up to the given position. -/
inductive ReadUpTo (source : String) (p : Position) : List Lexeme → Prop
  | intro {cut back : List Char} {tokens : List Token} (hsource : source.toList = cut ++ back)
      (hp : p = Position.start.advance cut) (hcut : Tiles .start cut tokens) :
      ReadUpTo source p (Lexeme.ofTokens false tokens)

/-- The lexemes before another one are those of the source up to that one. -/
theorem Lexeme.readUpTo {source : String} {front rest : List Lexeme} {stop : Position}
    (h : ofSource source = .ok (front ++ rest, stop)) :
    ReadUpTo source ((rest.head?.map (·.token.position)).getD stop) front := by
  obtain ⟨tokens, ht, hlexemes, rfl⟩ := ofSource_eq_ok.1 h
  obtain ⟨us, vs, rfl, rfl, hvs⟩ := ofTokens_eq_append hlexemes
  obtain ⟨cut, back, htext, hcut, hback⟩ := ht.of_append
  refine .intro htext ?_ hcut
  cases hhead : rest.head? with
  | some lexeme =>
    rw [hhead] at hvs
    exact hback.position_head? hvs
  | none =>
    rw [hhead] at hvs
    obtain rfl : vs = [] := List.head?_eq_none_iff.1 hvs
    cases hback
    rw [htext, List.append_nil]
    rfl

namespace ReadUpTo

variable {source : String} {p : Position} {front : List Lexeme}

/-- The cut is not behind the end of the source. -/
theorem offset_le (h : ReadUpTo source p front) :
    p.offset ≤ (Position.start.advance source.toList).offset := by
  obtain ⟨hsource, rfl, -⟩ := h
  rw [hsource, Position.offset_advance_start, Position.offset_advance_start, Text.byteSize_append]
  exact Nat.le_add_right _ _

/-- What stands before the cut begins before it. -/
theorem offset_lt_of_mem (h : ReadUpTo source p front) {lexeme : Lexeme} (hl : lexeme ∈ front) :
    lexeme.token.position.offset < p.offset := by
  obtain ⟨-, rfl, hcut⟩ := h
  have hmem : lexeme.token ∈ (Lexeme.ofTokens false _).map Lexeme.token := List.mem_map_of_mem hl
  rw [Lexeme.map_token_ofTokens] at hmem
  rw [Position.offset_advance]
  exact hcut.offset_lt_of_mem (List.mem_filter.1 hmem).1

/-- A source that is continued ends after the place where it was cut. -/
theorem offset_lt_continued (h : ReadUpTo source p front) (text : String) :
    p.offset < (Position.start.advance (continued source p.offset text).toList).offset := by
  obtain ⟨hsource, rfl, -⟩ := h
  have hpos := Char.utf8Size_pos '\n'
  rw [toList_continued hsource, Position.offset_advance_start, Position.offset_advance_start,
    Text.byteSize_append, Text.byteSize_cons]
  omega

/-- The lexemes of a source that is continued: those up to the place where it was cut, and one
    more. -/
theorem ofSource_continued (h : ReadUpTo source p front) {text : String} {piece : Piece}
    (htext : Lexes text.toList [piece]) :
    ∃ lexeme : Lexeme, lexeme.piece = piece ∧
      Lexeme.ofSource (continued source p.offset text) =
        .ok (front ++ [lexeme],
          Position.start.advance (continued source p.offset text).toList) := by
  obtain ⟨hsource, rfl, hcut⟩ := h
  obtain ⟨more, hmore⟩ := htext.tiles ((Position.start.advance _).next '\n')
  obtain ⟨all, hall, hlexemes⟩ := hcut.append_newline hmore false
  have hpieces : (Lexeme.ofTokens true more).map Lexeme.piece = [piece] := by
    rw [Lexeme.map_piece_ofTokens]
    exact hmore.lexes.unique htext
  obtain ⟨lexeme, hone, hpiece⟩ := List.map_eq_singleton_iff.1 hpieces
  refine ⟨lexeme, hpiece, Lexeme.ofSource_eq_ok.2 ⟨all, ?_, ?_, rfl⟩⟩
  · rwa [toList_continued hsource]
  · rw [hlexemes, hone]

end ReadUpTo

/-! ## Where a parse fails -/

/-- If a source has lexemes, parsing it is parsing them. -/
theorem parse_eq_outcome {source : String} {lexemes : List Lexeme} {stop : Position}
    (h : Lexeme.ofSource source = .ok (lexemes, stop)) :
    parse source = Parse.outcome (Parse.program ⟨.standard, maxDepth, source.toList, stop⟩
      (Cursor.start lexemes)) :=
  congrArg Prod.fst (@Parser.readStatements_eq (Parser.ofSource .standard source) _ _ h)

/-- A failed parse of a source that says what it expected is a failed parse of its lexemes. -/
theorem exists_of_parse_eq_error {source : String} {e : ParseError} {what : Expectation}
    (h : parse source = .error e) (hw : what ∈ e.expected) :
    ∃ lexemes stop c, Lexeme.ofSource source = .ok (lexemes, stop) ∧
      Parse.program ⟨.standard, maxDepth, source.toList, stop⟩ (Cursor.start lexemes) =
        .error e c := by
  -- An error of the lexer expects nothing
  cases hl : Lexeme.ofSource source with
  | error cause =>
    have hcause : parse source = .error (.lexical cause) := by
      simp [parse, Parser.ofSource, Parser.readStatements, Parser.readProgram, Parser.read,
        Parser.load, hl, Except.map]
    obtain rfl := Except.error.inj (h.symm.trans hcause)
    cases hw
  | ok result =>
    obtain ⟨lexemes, stop⟩ := result
    rw [parse_eq_outcome hl] at h
    cases hrun : Parse.program ⟨.standard, maxDepth, source.toList, stop⟩
        (Cursor.start lexemes) with
    | ok nodes c =>
      rw [hrun] at h
      cases h
    | error e' c =>
      rw [hrun] at h
      obtain rfl := Except.error.inj h
      exact ⟨lexemes, stop, c, rfl, hrun⟩

namespace Mend

open Parse

/-- The token put after the end of the source, where no other token is. -/
def beyond (s : Setting) (front rest : List Lexeme) (what : Expectation) (piece : Piece)
    (h : what.admits piece = true) : Mend where
  setting := s
  front := front
  rest := rest
  what := what
  lexeme := ⟨{ piece.token with position := { s.stop with offset := s.stop.offset + 1 } }, false⟩
  admits := h
  inside := by
    intro hposition
    have hoffset := congrArg Position.offset hposition
    simp at hoffset

end Mend

/-- Every parse of a program is tame. -/
theorem Parse.tame_program {s : Setting} (hg : s.grammar = .standard) : Tame s (program s) :=
  -- Any mend will do
  (@Mend.followsUnless_program (.beyond s [] [] (.token .comma) (.usual .comma) rfl) hg).tame

/-- A parse of a source failed and expected something in the place of what it had left. -/
structure Failed (source : String) (e : ParseError) (what : Expectation) (stop : Position)
    (front rest : List Lexeme) (c : Cursor) : Prop where
  run : Parse.program ⟨.standard, maxDepth, source.toList, stop⟩ (Cursor.start (front ++ rest)) =
    .error e c
  stop_eq : stop = Position.start.advance source.toList
  front : ReadUpTo source e.position front
  blames : if what.isWord then ∃ x, rest = x :: c.rest else c.rest = rest
  known : what.isWord = true ∨ what.isNoted = true

/-- A failed parse that expected something failed in the place of what it had left. -/
theorem exists_failed {source : String} {e : ParseError} {what : Expectation}
    (h : parse source = .error e) (hw : what ∈ e.expected) :
    ∃ stop front rest c, Failed source e what stop front rest c := by
  obtain ⟨lexemes, stop, c, hl, hrun⟩ := exists_of_parse_eq_error h hw
  obtain ⟨-, -, -, hstop⟩ := Lexeme.ofSource_eq_ok.1 hl
  -- A word is asked for in the place of a token, anything else before what is left
  obtain ⟨hword, x, ⟨front, rfl⟩, hposition⟩ | ⟨hnoted, ⟨front, rfl⟩, hposition⟩ :=
    (Parse.tame_program rfl).error hrun (fun _ hmem => absurd hmem List.not_mem_nil) what hw
  · refine ⟨stop, front, x :: c.rest, c, hrun, hstop.symm, ?_, ?_, .inl hword⟩
    · rw [hposition]
      exact Lexeme.readUpTo hl
    · rw [if_pos hword]
      exact ⟨x, rfl⟩
  · refine ⟨stop, front, c.rest, c, hrun, hstop.symm, ?_, ?_, .inr hnoted⟩
    · rw [hposition]
      exact Lexeme.readUpTo hl
    · rw [Expectation.isWord_of_isNoted hnoted]
      rfl

/-! ## The continued source -/

/-- The signs of assignment. -/
def assignmentSigns : List TokenKind :=
  [.assign, .addAssign, .subAssign]

/-- Continued with the text, the source is parsed, or the parse fails at its new end. -/
def GoesOn (source : String) (p : Position) (text : String) : Prop :=
  ∀ e, parse (continued source p.offset text) = .error e →
    e.position = Position.start.advance (continued source p.offset text).toList ∧
      p.offset < e.position.offset

/-- Continued with the text, the source has an assignment to what cannot be assigned to, before the
    place where it was cut. -/
def RefusesTarget (source : String) (p : Position) (text : String) : Prop :=
  ∃ q, q.offset < p.offset ∧ parse (continued source p.offset text) = .error (.invalidTarget q)

/-- Places of a parse whose last token is put after the end of its source, and of the parse of the
    continued source: ends correspond, and no place moves over the cut. -/
def Corresponds (cut : Nat) (stop stop' p q : Position) : Prop :=
  (p = stop → q = stop') ∧ (p.offset < cut → q.offset < cut)

/-- The parse of a continued source is a parse of what was read before the cut and the new token. -/
theorem agree_continued {source : String} {p : Position} {front : List Lexeme}
    (h : ReadUpTo source p front) {text : String} {lexeme : Lexeme}
    (htext : Lexes text.toList [lexeme.piece])
    (hlexeme : (Position.start.advance source.toList).offset < lexeme.token.position.offset) :
    SameOutcome
      (Corresponds p.offset (Position.start.advance source.toList)
        (Position.start.advance (continued source p.offset text).toList))
      (List.Forall₂ (Node.Alike (Corresponds p.offset (Position.start.advance source.toList)
        (Position.start.advance (continued source p.offset text).toList))))
      (Parse.outcome (Parse.program ⟨.standard, maxDepth, source.toList,
        Position.start.advance source.toList⟩ (Cursor.start (front ++ [lexeme]))))
      (parse (continued source p.offset text)) := by
  obtain ⟨lexeme', hpiece, hsource⟩ := h.ofSource_continued htext
  have hle := h.offset_le
  obtain ⟨hkind, hvalue⟩ := Piece.mk.inj hpiece
  rw [parse_eq_outcome hsource]
  generalize Position.start.advance source.toList = stop at hle hlexeme ⊢
  generalize Position.start.advance (continued source p.offset text).toList = stop'
  have hsettings : Setting.Alike (Corresponds p.offset stop stop')
      ⟨.standard, maxDepth, source.toList, stop⟩
      ⟨.standard, maxDepth, (continued source p.offset text).toList, stop'⟩ :=
    ⟨rfl, rfl, fun _ => rfl, fun hlt => absurd hlt (Nat.not_lt.2 hle)⟩
  -- What stands before the cut stands at the same place, and the new token after all of it
  have hfront : List.Forall₂ (fun x y : Lexeme => x.token.Alike (Corresponds p.offset stop stop')
      y.token) front front := by
    refine List.forall₂_same.2 fun x hx => ⟨rfl, rfl, fun hend => ?_, id⟩
    have hlt := h.offset_lt_of_mem hx
    rw [hend] at hlt
    omega
  have hlast : lexeme.token.Alike (Corresponds p.offset stop stop') lexeme'.token := by
    refine ⟨hkind.symm, hvalue.symm, fun hend => ?_, fun hlt => ?_⟩
    · rw [hend] at hlexeme
      exact absurd hlexeme (Nat.lt_irrefl _)
    · omega
  have hcursors : (Cursor.start (front ++ [lexeme])).Alike
      (.ofPositions (Corresponds p.offset stop stop')) (Cursor.start (front ++ [lexeme'])) :=
    ⟨List.rel_append hfront (.cons hlast .nil), rfl, trivial⟩
  exact .of_bothEnd (Parse.agree_program hsettings _ _ hcursors)

/-- Alike errors are at positions that correspond. -/
theorem ParseError.Alike.position {P : Position → Position → Prop} {e f : ParseError}
    (h : e.Alike P f) : P e.position f.position := by
  cases h with
  | unexpectedToken h => exact h
  | unexpectedEnd h => exact h
  | invalidTarget h => exact h
  | tooDeep h => exact h

/-- The parse took its last token, which is not the word that it asks for there. -/
def AsksForWord {α : Type} (result : EStateM.Result ParseError Cursor α) : Prop :=
  ∃ word e c, result = .error e c ∧ c.rest = [] ∧ Scan.isName word = true ∧ .word word ∈ e.expected

/-- What becomes of the continued source if the mended parse has taken the token. -/
theorem goesOn_of_spent {source : String} {p : Position} {m : Mend}
    (hsetting : m.setting = ⟨.standard, maxDepth, source.toList,
      Position.start.advance source.toList⟩) (h : ReadUpTo source p m.front) {text : String}
    (htext : Lexes text.toList [m.lexeme.piece])
    (hlexeme : (Position.start.advance source.toList).offset < m.lexeme.token.position.offset)
    (hspent : m.Spent (Parse.program m.setting (.start (m.front ++ [m.lexeme])))) :
    GoesOn source p text ∨
      m.what ∈ assignmentSigns.map Expectation.token ∧ RefusesTarget source p text ∨
      m.what = .token .name ∧
        AsksForWord (Parse.program m.setting (.start (m.front ++ [m.lexeme]))) := by
  have hsame := agree_continued h htext hlexeme
  have hstop : m.setting.stop = Position.start.advance source.toList := by rw [hsetting]
  rw [← hsetting] at hsame
  generalize Parse.program m.setting (.start (m.front ++ [m.lexeme])) = z at hspent hsame ⊢
  unfold GoesOn RefusesTarget
  generalize parse (continued source p.offset text) = outcome at hsame ⊢
  -- One case for each way in which the mended parse may have taken the token
  cases hspent with
  | ok => cases hsame with | ok => exact .inl fun e he => by cases he
  | stop hposition =>
    cases hsame with
    | error halike =>
      have hend := halike.position.1 (hposition.trans hstop)
      refine .inl fun e he => ?_
      obtain rfl := Except.error.inj he
      exact ⟨hend, by rw [hend]; exact h.offset_lt_continued text⟩
  | target hsign hfront =>
    cases hsame with
    | error halike =>
      cases halike with
      | invalidTarget hq =>
        obtain ⟨lexeme, hmem, rfl⟩ := List.mem_map.1 hfront
        exact .inr (.inl ⟨hsign, _, hq.2 (h.offset_lt_of_mem hmem), rfl⟩)
  | word hwhat hd hname hword => exact .inr (.inr ⟨hwhat, _, _, _, rfl, hd, hname, hword⟩)

/-- The token is what is read from its text. -/
def Token.ReadAlone (token : Token) : Prop :=
  token.kind.isTrivia = false ∧ Tiles .start token.text.toList [token]

/-- A token that is read alone is the only piece of its text. -/
theorem Token.ReadAlone.lexes {token : Token} (h : token.ReadAlone) :
    Lexes token.text.toList [token.piece] := by
  have hlexes := h.2.lexes
  rwa [Token.visible, List.filter_cons_of_pos (by simp [h.1]), List.filter_nil] at hlexes

/-- There is a token for every name. -/
theorem exists_word {text : String} (h : Scan.isName text = true) :
    ∃ token : Token, token.ReadAlone ∧ token.piece = .word text := by
  refine ⟨Lexer.tokenAt .start .name text.toList text.toList, ⟨rfl, ?_⟩, ?_⟩
  · simpa [Lexer.tokenAt] using tiles_name h .start
  · simp [Lexer.tokenAt, Token.piece, Piece.word]

/-- A text that is one token of the kind. -/
def TokenKind.sample : TokenKind → String
  | .boolean => "true"
  | .number => "0"
  | .string => "''"
  | .name => "a"
  | kind => kind.label

/-- There is a token of every kind, trivia apart. -/
theorem TokenKind.exists_token {kind : TokenKind} (h : kind.isTrivia = false) :
    ∃ token : Token, token.ReadAlone ∧ token.kind = kind := by
  -- One text for each kind is enough
  have hsamples : ∀ kind ∈ TokenKind.all, kind.isTrivia = false →
      (Lexer.ofSource kind.sample).tokenize.toOption.map (·.map Token.kind) = some [kind] := by
    decide +kernel
  obtain ⟨tokens, htokens, hkinds⟩ := Option.map_eq_some_iff.1 (hsamples kind (mem_all kind) h)
  obtain ⟨token, rfl, rfl⟩ := List.map_eq_singleton_iff.1 hkinds
  have htiles : Tiles .start (sample token.kind).toList [token] := by
    refine Lexer.tokenize_eq_ok.1 ?_
    cases hresult : (Lexer.ofSource (sample token.kind)).tokenize with
    | error e =>
      rw [hresult] at htokens
      cases htokens
    | ok result =>
      rw [hresult] at htokens
      rw [Option.some.inj htokens]
  refine ⟨token, ⟨h, ?_⟩, rfl⟩
  rwa [← htiles.eq_text]

namespace Failed

variable {source : String} {e : ParseError} {what : Expectation} {stop : Position}
  {front rest : List Lexeme} {c : Cursor}

/-- The mended parse takes a token that was expected. -/
theorem spent (h : Failed source e what stop front rest c) (hw : what ∈ e.expected)
    {piece : Piece} (ha : what.admits piece = true) :
    let m := Mend.beyond ⟨.standard, maxDepth, source.toList, stop⟩ front rest what piece ha
    m.Spent (Parse.program m.setting (.start (m.front ++ [m.lexeme]))) :=
  Mend.spent_program rfl h.run hw h.blames

/-- Continued with a token that was expected, and that is not just any name, the source goes on, or
    it has an assignment that is refused. -/
theorem goesOn (h : Failed source e what stop front rest c) (hw : what ∈ e.expected)
    (hname : what ≠ .token .name) {token : Token} (ht : token.ReadAlone)
    (ha : what.admits token.piece = true) :
    GoesOn source e.position token.text ∨
      what ∈ assignmentSigns.map Expectation.token ∧
        RefusesTarget source e.position token.text := by
  obtain rfl := h.stop_eq
  obtain hon | hrefused | ⟨hwhat, -⟩ :=
    goesOn_of_spent rfl h.front ht.lexes (Nat.lt_succ_self _) (h.spent hw ha)
  · exact .inl hon
  · exact .inr hrefused
  · exact absurd hwhat hname

/-- Where a name was expected, there is a name to go on with: any name will do, or certain ones. -/
theorem exists_name (h : Failed source e (.token .name) stop front rest c)
    (hw : .token .name ∈ e.expected) :
    ∃ token : Token, token.ReadAlone ∧ token.kind = .name ∧
      GoesOn source e.position token.text := by
  obtain rfl := h.stop_eq
  obtain ⟨token, ht, hkind⟩ := TokenKind.exists_token (rfl : TokenKind.name.isTrivia = false)
  have ha : (Expectation.token .name).admits token.piece = true := decide_eq_true hkind
  obtain hon | ⟨hsign, -⟩ | ⟨-, word, e', c', hrun, hc', hname, hword⟩ :=
    goesOn_of_spent rfl h.front ht.lexes (Nat.lt_succ_self _) (h.spent hw ha)
  · exact ⟨token, ht, hkind, hon⟩
  · have hsign : TokenKind.name ∈ assignmentSigns := by simpa [Mend.beyond] using hsign
    exact absurd hsign (by decide)
  -- The name was refused, and a certain one was expected in its place
  · obtain ⟨token', ht', hpiece⟩ := exists_word hname
    have ha' : (Expectation.word word).admits token'.piece = true := decide_eq_true hpiece
    have hspent := @Mend.spent_program (.beyond _ front [_] (.word word) token'.piece ha') rfl _ _
      hrun hword (Mend.blames_of_isWord hname (by rw [hc']; rfl))
    obtain hon | ⟨hsign, -⟩ | ⟨hwhat, -⟩ :=
      goesOn_of_spent rfl h.front ht'.lexes (Nat.lt_succ_self _) hspent
    · exact ⟨token', ht', congrArg Piece.kind hpiece, hon⟩
    · simp [Mend.beyond] at hsign
    · cases hwhat

end Failed

/-- A failed parse says what would have been accepted: for everything that was expected, apart from
    an expression or a statement as such, there is a token with which the source goes on.  The
    exception are the signs of assignment after what cannot be assigned to. -/
theorem parse_continued {source : String} {e : ParseError} {what : Expectation}
    (h : parse source = .error e) (hw : what ∈ e.expected) (hexpression : what ≠ .expression)
    (hstatement : what ≠ .statement) :
    (∃ token : Token, token.ReadAlone ∧ what.admits token.piece = true ∧
      GoesOn source e.position token.text) ∨
    what ∈ assignmentSigns.map Expectation.token ∧
      ∀ token : Token, token.ReadAlone → what.admits token.piece = true →
        RefusesTarget source e.position token.text := by
  obtain ⟨stop, front, rest, c, hfailed⟩ := exists_failed h hw
  -- If no token of that kind goes on, the failure is one of assigning to what cannot be assigned
  by_cases hon : ∃ token : Token, token.ReadAlone ∧ what.admits token.piece = true ∧
      GoesOn source e.position token.text
  · exact .inl hon
  have hrefused : ∀ {token : Token}, token.ReadAlone → what.admits token.piece = true →
      what ≠ .token .name → what ∈ assignmentSigns.map Expectation.token ∧
        RefusesTarget source e.position token.text := fun ht ha hname =>
    (hfailed.goesOn hw hname ht ha).resolve_left fun h => hon ⟨_, ht, ha, h⟩
  cases what with
  | expression => exact absurd rfl hexpression
  | statement => exact absurd rfl hstatement
  | operator => exact absurd hfailed.known (by decide)
  | word text =>
    have hname : Scan.isName text = true := hfailed.known.resolve_right Bool.false_ne_true
    obtain ⟨token, ht, hpiece⟩ := exists_word hname
    exact absurd (hrefused ht (decide_eq_true hpiece) (by simp)).1 (by simp)
  | token kind =>
    have hkind : kind.isTrivia = false := by
      simpa [Expectation.isWord, Expectation.isNoted] using hfailed.known
    -- Not every name will do where certain ones are expected, so one that goes on is chosen
    by_cases hname : kind = .name
    · subst hname
      obtain ⟨token, ht, hkind, h⟩ := hfailed.exists_name hw
      exact absurd ⟨token, ht, decide_eq_true hkind, h⟩ hon
    · have hne : Expectation.token kind ≠ .token .name := by simpa using hname
      obtain ⟨token, ht, hkind⟩ := TokenKind.exists_token hkind
      have hsign := (hrefused ht (decide_eq_true hkind) hne).1
      exact .inr ⟨hsign, fun token ht ha => (hrefused ht ha hne).2⟩

/-- A result that was changed into an error was that error before. -/
theorem eq_error_of_map {ε α β : Type} {x : Except ε α} {f : α → β} {e : ε}
    (h : x.map f = .error e) : x = .error e := by
  cases x with
  | ok a => cases h
  | error e' => rw [Except.error.inj h]

/-- A directive that is not the one there is. -/
theorem parse_continued_index :
    ∃ e, parse "collection C \x7b @foo(x) \x7d" = .error e ∧ .word "index" ∈ e.expected ∧
      ∃ token : Token, token.ReadAlone ∧
        (Expectation.word "index").admits token.piece = true ∧
        GoesOn "collection C \x7b @foo(x) \x7d" e.position token.text := by
  have herror : parse "collection C \x7b @foo(x) \x7d" =
      .error (.unexpectedToken .name "foo" ⟨1, 17, 16⟩ [.word "index"]) :=
    @eq_error_of_map _ _ Unit _ (fun _ => ()) _ (by decide +kernel)
  have hword : Expectation.word "index" ∈
      (ParseError.unexpectedToken .name "foo" ⟨1, 17, 16⟩ [.word "index"]).expected := by decide
  exact ⟨_, herror, hword, (parse_continued herror hword (by decide) (by decide)).resolve_right
    fun h => absurd h.1 (by decide)⟩

/-- After a number, a sign of assignment is said to be expected, but every one is refused, at a
    place before the failure. -/
theorem assign_expected_after_number :
    ∃ e, parse "1 \x7d" = .error e ∧ .token .assign ∈ e.expected ∧
      ∀ token : Token, token.ReadAlone → token.kind = .assign →
        ∃ e', parse (continued "1 \x7d" e.position.offset token.text) = .error e' ∧
          e'.position.offset < e.position.offset := by
  refine ⟨.unexpectedToken .rightBrace "\x7d" ⟨1, 3, 2⟩ [.token .dot, .token .leftBracket,
    .token .leftParen, .token .assign, .token .addAssign, .token .subAssign, .token .semicolon,
    .expression], @eq_error_of_map _ _ Unit _ (fun _ => ()) _ (by decide +kernel), by decide,
    fun token ht hkind => ?_⟩
  have hscanned := ht.2.scanned token List.mem_cons_self
  have htext : token.text = "=" := by
    rw [(hscanned.mem_spellings (by rw [hkind]; rfl)).2, hscanned.value_eq (by rw [hkind]; rfl),
      hkind]
    rfl
  rw [htext]
  exact ⟨.invalidTarget ⟨1, 1, 0⟩, @eq_error_of_map _ _ Unit _ (fun _ => ()) _ (by decide +kernel),
    by decide⟩

end Schemata
