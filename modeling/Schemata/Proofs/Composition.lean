import Schemata.Proofs.Ambiguities
import Schemata.Proofs.Calls
import Schemata.Proofs.Layout
import Schemata.Proofs.LineBreaks
import Schemata.Proofs.LocalParsers

/-!
# Programs one after another

A semicolon in a line of its own ends a program and begins the next one.  The two are read as they
are read alone, and what is noted of the second one stands further down in the text.

- The lexemes of the two texts with the semicolon between them are those of the first, the semicolon
  and those of the second further down (`Lexeme.ofSource_join`).
- A statement that ends with its text ends at a semicolon too, because no parser looks further
  (`Gathered.before_semicolon`).
- From there the second program is read like the one alone (`Likeness.lowered`), except that its
  first lexeme now comes after a newline, which nothing goes on with.

Main statement: `parseProgram_join`.
-/

namespace Schemata

/-! ## Further down in a text -/

namespace Position

/-- Where the position comes to stand when a text that ends with a newline is put in front. -/
def lowered (front : List Char) (p : Position) : Position :=
  ⟨p.line + Text.lineBreaks front, p.col, p.offset + Text.byteSize front⟩

/-- Different positions stay different further down. -/
theorem lowered_injective (front : List Char) : Function.Injective (lowered front) := by
  rintro ⟨line, col, offset⟩ ⟨line', col', offset'⟩ h
  simp only [lowered, mk.injEq] at h ⊢
  omega

/-- Passing over a character does not depend on what stands above. -/
theorem lowered_next (front : List Char) (p : Position) (c : Char) :
    (p.next c).lowered front = (p.lowered front).next c := by
  -- Only a newline changes the line, and only what follows it has another column
  by_cases hc : c = '\n'
  · simp [next, hc, lowered, Nat.add_right_comm]
  · simp [next, hc, lowered, Nat.add_right_comm]

/-- Passing over a text does not depend on what stands above. -/
theorem lowered_advance (front : List Char) (p : Position) (text : List Char) :
    (p.advance text).lowered front = (p.lowered front).advance text := by
  induction text generalizing p with
  | nil => rfl
  | cons c text ih => rw [advance_cons, advance_cons, ih, lowered_next]

/-- The start of a text comes to stand where the front ends. -/
theorem lowered_start (front : List Char) :
    start.lowered (front ++ ['\n']) = start.advance (front ++ ['\n']) := by
  have hline := line_advance start (front ++ ['\n'])
  have hoffset := offset_advance start (front ++ ['\n'])
  rw [advance_append] at hline hoffset ⊢
  simp only [advance_cons, advance_nil, next, if_true] at hline hoffset ⊢
  rw [lowered, hline, hoffset]
  rfl

end Position

namespace Token

/-- The token further down. -/
def lowered (front : List Char) (t : Token) : Token :=
  { t with position := t.position.lowered front }

end Token

namespace Lexeme

/-- The lexeme further down. -/
def lowered (front : List Char) (x : Lexeme) : Lexeme :=
  { x with token := x.token.lowered front }

/-- Lexemes further down are those of the tokens further down. -/
theorem ofTokens_lowered (front : List Char) (tokens : List Token) (broken : Bool) :
    ofTokens broken (tokens.map (Token.lowered front)) =
      (ofTokens broken tokens).map (lowered front) := by
  induction tokens generalizing broken with
  | nil => rfl
  | cons t tokens ih =>
    rw [List.map_cons, ofTokens, ofTokens]
    by_cases ht : t.kind.isTrivia = true
    · rw [if_pos (by exact ht), if_pos ht, ih]
      rfl
    · rw [if_neg (by exact ht), if_neg ht, ih]
      rfl

/-- Only of the first lexeme it matters whether a newline came before. -/
theorem ofTokens_true (tokens : List Token) (broken : Bool) :
    (ofTokens broken tokens = [] ∧ ofTokens true tokens = []) ∨
      ∃ t b rest, ofTokens broken tokens = ⟨t, b⟩ :: rest ∧
        ofTokens true tokens = ⟨t, true⟩ :: rest := by
  induction tokens generalizing broken with
  | nil => exact .inl ⟨rfl, rfl⟩
  | cons t tokens ih =>
    by_cases ht : t.kind.isTrivia = true
    · rw [ofTokens, ofTokens, if_pos ht, if_pos ht, Bool.true_or]
      exact ih _
    · rw [ofTokens, ofTokens, if_neg ht, if_neg ht]
      exact .inr ⟨t, broken, _, rfl, rfl⟩

end Lexeme

/-- The ambiguity further down. -/
def Ambiguity.lowered (front : List Char) (a : Ambiguity) : Ambiguity :=
  { a with position := a.position.lowered front }

/-- What tiles a text tiles it further down too. -/
theorem Tiles.lowered {p : Position} {text : List Char} {tokens : List Token}
    (h : Tiles p text tokens) (front : List Char) :
    Tiles (p.lowered front) text (tokens.map (Token.lowered front)) := by
  induction h with
  | nil => exact .nil
  | @cons p c rest text after value kind tokens hscan hsplit _ ih =>
    rw [Position.lowered_advance] at ih
    exact .cons hscan hsplit ih

/-- The lexemes of two texts with a semicolon in a line of its own between them. -/
theorem Lexeme.ofSource_join {source source' : String} {tokens tokens' : List Token}
    (h : Tiles .start source.toList tokens) (h' : Tiles .start source'.toList tokens') :
    ∃ p all, Tiles .start (source ++ "\n;\n" ++ source').toList all ∧
      ofTokens false all = ofTokens false tokens ++
        ⟨Lexer.tokenAt p .semicolon [';'] [';'], true⟩ ::
          (ofTokens true tokens').map (lowered (source ++ "\n;\n").toList) := by
  -- The text consists of the first one, the line with the semicolon and the second one
  have hfront : (source ++ "\n;\n").toList = source.toList ++ ['\n', ';'] ++ ['\n'] := by
    simp
  have hbehind :
      Tiles ((((Position.start.advance source.toList).next '\n').advance [';']).next '\n')
        source'.toList (tokens'.map (Token.lowered (source ++ "\n;\n").toList)) := by
    have hstart := Position.lowered_start (source.toList ++ ['\n', ';'])
    have hlowered := h'.lowered (source ++ "\n;\n").toList
    rw [hfront] at hlowered ⊢
    rw [hstart, Position.advance_append, Position.advance_append] at hlowered
    exact hlowered
  have hsemicolon : Tiles ((Position.start.advance source.toList).next '\n') [';']
      [Lexer.tokenAt ((Position.start.advance source.toList).next '\n') .semicolon [';'] [';']] :=
    .cons (by decide) (List.append_nil [';']).symm .nil
  obtain ⟨later, hlater, hlexemes⟩ := hsemicolon.append_newline hbehind true
  obtain ⟨all, hall, hlexemes'⟩ := h.append_newline hlater false
  refine ⟨(Position.start.advance source.toList).next '\n', all, ?_, ?_⟩
  · have htext : (source ++ "\n;\n" ++ source').toList =
        source.toList ++ '\n' :: ([';'] ++ '\n' :: source'.toList) := by
      simp
    rw [htext]
    exact hall
  · rw [hlexemes', hlexemes, Lexeme.ofTokens_lowered]
    rfl

/-- Whether a lexeme is a semicolon. -/
def Lexeme.isSemicolon (x : Lexeme) : Bool :=
  x.token.kind = .semicolon

/-- From the first cursor to the second, only semicolons have been taken, and all of them. -/
structure Cursor.Skips (c c' : Cursor) : Prop where
  rest : c'.rest = c.rest.dropWhile Lexeme.isSemicolon
  ambiguities : c'.ambiguities = c.ambiguities
  expected : c.expected = [] ∨ c.next? = some .semicolon → c'.expected = [.token .semicolon]

/-- The fork at which a text ends, or goes on with a semicolon. -/
def Fork.atSemicolon {x : Lexeme} (hx : x.token.kind = .semicolon) (more : List Lexeme) : Fork where
  left := []
  right := x :: more
  tied := true
  ends _ := ⟨rfl, x, rfl, hx⟩

namespace Parse

variable {s t : Setting} {c c' d : Cursor}

/-! ## Semicolons -/

/-- What is noted where there is no semicolon. -/
private theorem skips_noting (h : ∀ x ∈ c.rest.head?, x.token.kind ≠ .semicolon) :
    c.Skips (c.noting (.token .semicolon)) := by
  refine ⟨?_, ?_, ?_⟩
  · rw [Cursor.rest_noting]
    cases hrest : c.rest with
    | nil => rfl
    | cons x rest =>
      have hx : x.isSemicolon = false := by
        simpa [Lexeme.isSemicolon] using h x (by simp [hrest])
      rw [List.dropWhile_cons_of_neg (by simp [hx])]
  · unfold Cursor.noting
    split <;> rfl
  · rintro (hnil | hnext)
    · simp [Cursor.noting, hnil]
    · cases hhead : c.rest.head? with
      | none =>
        rw [Cursor.next?_of_head?_none hhead] at hnext
        cases hnext
      | some x =>
        rw [Cursor.next?_of_head? hhead] at hnext
        exact absurd (Option.some.inj hnext) (h x hhead)

/-- Skipping semicolons succeeds. -/
theorem exists_skipSemicolons (c : Cursor) : ∃ c', skipSemicolons c = .ok () c' ∧ c.Skips c' := by
  generalize hrest : c.rest = rest
  induction rest generalizing c with
  | nil =>
    have hne : ∀ x ∈ c.rest.head?, x.token.kind ≠ .semicolon := by simp [hrest]
    exact ⟨_, skipSemicolons_of_ne hne, skips_noting hne⟩
  | cons x rest ih =>
    by_cases hx : x.token.kind = .semicolon
    · -- Taking it forgets what was expected
      have hhead : c.rest.head? = some x := by rw [hrest, List.head?_cons]
      obtain ⟨c', hskip, hskips⟩ := ih (c.after x.token) (by simp [hrest])
      have hskip' : skipSemicolons c = .ok () c' := skipSemicolons_eq_ok.2
        (.yield (semicolonStep_of_kind hhead hx) (skipSemicolons_eq_ok.1 hskip))
      refine ⟨c', hskip', ?_, hskips.ambiguities, ?_⟩
      · rw [hskips.rest, hrest, List.dropWhile_cons_of_pos (by simpa [Lexeme.isSemicolon] using hx)]
        simp [hrest]
      · exact fun _ => hskips.expected (.inl rfl)
    · have hne : ∀ x ∈ c.rest.head?, x.token.kind ≠ .semicolon := by simp [hrest, hx]
      exact ⟨_, skipSemicolons_of_ne hne, skips_noting hne⟩

/-- If skipping semicolons succeeds, that is all it does. -/
theorem skips_of_skipSemicolons {u : Unit} (h : skipSemicolons c = .ok u c') : c.Skips c' := by
  obtain ⟨c₁, h₁, hskips⟩ := exists_skipSemicolons c
  obtain ⟨-, rfl⟩ := EStateM.Result.ok.inj (h₁.symm.trans h)
  exact hskips

/-! ## The first program -/

/-- A round at the end finds nothing, any other reads a statement and skips semicolons. -/
theorem topRound_eq_ok {r : Round Node} :
    topRound s c = .ok r c' ↔
      (c.rest = [] ∧ r = .done ∧ c' = c) ∨
        c.rest ≠ [] ∧ ∃ n c₁, r = .more n ∧ topStatement s c = .ok n c₁ ∧
          skipSemicolons c₁ = .ok () c' := by
  rw [topRound, peek_bind]
  cases hrest : c.rest with
  | nil =>
    show (pure Round.done : Parse (Round Node)) c = .ok r c' ↔ _
    rw [pure_eq_ok]
    simp [eq_comm]
  | cons x rest =>
    show (do
      let node ← topStatement s
      skipSemicolons
      return Round.more node : Parse (Round Node)) c = .ok r c' ↔ _
    simp only [bind_eq_ok, pure_eq_ok, reduceCtorEq, false_and, false_or, ne_eq, not_false_eq_true,
      true_and]
    constructor
    · rintro ⟨n, c₁, hstatement, _, c₂, hskip, rfl, rfl⟩
      exact ⟨n, c₁, rfl, hstatement, hskip⟩
    · rintro ⟨n, c₁, rfl, hstatement, hskip⟩
      exact ⟨n, c₁, hstatement, (), c', hskip, rfl, rfl⟩

/-- There is no statement at the end. -/
theorem Gathered.eq_nil {nodes : List Node} (h : Gathered (topRound s) c nodes c')
    (hc : c.rest = []) : nodes = [] ∧ c' = c := by
  cases h with
  | done hround =>
    obtain ⟨-, -, rfl⟩ | ⟨hne, -⟩ := topRound_eq_ok.1 hround
    · exact ⟨rfl, rfl⟩
    · exact absurd hc hne
  | last hround | more hround =>
    obtain ⟨-, hr, -⟩ | ⟨hne, -⟩ := topRound_eq_ok.1 hround
    · cases hr
    · exact absurd hc hne

/-- Semicolons are skipped over the end of the first text too. -/
theorem exists_skipSemicolons_append {x : Lexeme} {front more : List Lexeme}
    (hfront : front.dropWhile Lexeme.isSemicolon = []) (hx : x.token.kind = .semicolon)
    (hd : d.rest = front ++ x :: more) :
    ∃ d', skipSemicolons d = .ok () d' ∧ d'.rest = more.dropWhile Lexeme.isSemicolon ∧
      d'.expected = [.token .semicolon] ∧ d'.ambiguities = d.ambiguities := by
  obtain ⟨d', hskip, hskips⟩ := exists_skipSemicolons d
  have hxs : x.isSemicolon = true := by simpa [Lexeme.isSemicolon] using hx
  refine ⟨d', hskip, ?_, hskips.expected (.inr ?_), hskips.ambiguities⟩
  · rw [hskips.rest, hd, List.dropWhile_append, hfront, List.isEmpty_nil, if_pos rfl,
      List.dropWhile_cons_of_pos hxs]
  · -- The first lexeme is a semicolon, be it of the first text or not
    cases front with
    | nil =>
      have hhead : d.rest.head? = some x := by simp [hd]
      rw [Cursor.next?_of_head? hhead, hx]
    | cons y front =>
      have hy : y.isSemicolon = true := List.dropWhile_eq_nil_iff.1 hfront y List.mem_cons_self
      have hhead : d.rest.head? = some y := by simp [hd]
      rw [Cursor.next?_of_head? hhead]
      simpa [Lexeme.isSemicolon] using hy

/-- Statements up to the end of a text are read in the same way if a semicolon follows, and those
    behind the semicolon after them. -/
theorem Gathered.before_semicolon (hs : s.grammar.Lacks .semicolon) {x : Lexeme}
    {more : List Lexeme} (hx : x.token.kind = .semicolon) {nodes : List Node}
    (h : Gathered (topRound s) c nodes c') (hc : c.rest ≠ [])
    (hcd : (Fork.atSemicolon hx more).Abreast c d) :
    ∃ d', d'.rest = more.dropWhile Lexeme.isSemicolon ∧ d'.expected = [.token .semicolon] ∧
      d'.ambiguities = c'.ambiguities ∧
      ∀ nodes' d'', Gathered (topRound s) d' nodes' d'' →
        Gathered (topRound s) d (nodes ++ nodes') d'' := by
  induction h generalizing d with
  -- Induction on the rounds, each with one statement and the semicolons behind it
  | done hround | last hround =>
    obtain ⟨hend, -⟩ | ⟨-, n, c₁, hr, -⟩ := topRound_eq_ok.1 hround
    · exact absurd hend hc
    · cases hr
  | @more c c₁ c' n nodes hround hnodes ih =>
    obtain ⟨hend, -⟩ | ⟨-, n', c₂, hn, hstatement, hskip⟩ := topRound_eq_ok.1 hround
    · exact absurd hend hc
    cases hn
    have hd : d.rest ≠ [] := by
      obtain ⟨front, -, hd⟩ := hcd.rest
      simp [hd, Fork.atSemicolon]
    -- The statement is read alike even if the text ends there
    obtain ⟨d₂, hstatement', habreast⟩ :=
      ((local_topStatement fun _ => hs).together trivial hcd).ok n c₂ hstatement (.inl rfl)
    have hround' : ∀ {d₁}, skipSemicolons d₂ = .ok () d₁ → topRound s d = .ok (.more n) d₁ :=
      fun hskip' => topRound_eq_ok.2 (.inr ⟨hd, n, d₂, rfl, hstatement', hskip'⟩)
    by_cases hend : c₁.rest = []
    · -- Only semicolons are left behind the last statement
      obtain ⟨rfl, rfl⟩ := hnodes.eq_nil hend
      have hskips := skips_of_skipSemicolons hskip
      obtain ⟨front, hfront, hd₂⟩ := habreast.rest
      have hfront' : front.dropWhile Lexeme.isSemicolon = [] := by
        rw [← hend, hskips.rest, hfront, Fork.atSemicolon, List.append_nil]
      obtain ⟨d', hskip', hrest, hexpected, hsame⟩ :=
        exists_skipSemicolons_append hfront' hx hd₂
      refine ⟨d', hrest, hexpected, ?_, fun nodes' d'' hd'' => .more (hround' hskip') hd''⟩
      rw [hsame, ← habreast.ambiguities, hskips.ambiguities]
    · -- The semicolons between two statements end before the texts part
      have hloose : (Fork.atSemicolon hx more).loose.Abreast c₂ d₂ :=
        ⟨habreast.rest, habreast.lastEnd, habreast.expected, habreast.ambiguities⟩
      obtain ⟨d₁, hskip', h₁⟩ := ((local_skipSemicolons rfl).together trivial hloose).ok () c₁ hskip
        (.inr (List.length_pos_iff.2 hend))
      obtain ⟨d', hrest, hexpected, hsame, hmore⟩ := ih hend
        ⟨h₁.rest, h₁.lastEnd, h₁.expected, h₁.ambiguities⟩
      exact ⟨d', hrest, hexpected, hsame,
        fun nodes' d'' hd'' => .more (hround' hskip') (hmore nodes' d'' hd'')⟩

/-- A program is at least one statement behind some semicolons. -/
theorem program_eq_ok {nodes : List Node} :
    program s c = .ok nodes c' ↔ nodes ≠ [] ∧ ∃ c₁, skipSemicolons c = .ok () c₁ ∧
      Gathered (topRound s) c₁ nodes c' := by
  constructor
  · intro h
    obtain ⟨_, c₁, hskip, h⟩ := bind_eq_ok.1 h
    obtain ⟨body, c₂, hgather, h⟩ := bind_eq_ok.1 h
    have hgathered := (gather_eq_ok topRound_reads.length_lt).1 hgather
    split at h
    · obtain ⟨_, _, -, h⟩ := bind_eq_ok.1 h
      obtain ⟨_, _, h, -⟩ := bind_eq_ok.1 h
      exact absurd h failHere_ne_ok
    · next hne =>
      obtain ⟨rfl, rfl⟩ := pure_eq_ok.1 h
      exact ⟨by simpa using hne, c₁, hskip, hgathered⟩
  · rintro ⟨hne, c₁, hskip, hgathered⟩
    have hgather := (gather_eq_ok topRound_reads.length_lt).2 hgathered
    refine bind_eq_ok.2 ⟨(), c₁, hskip, bind_eq_ok.2 ⟨nodes, c', hgather, ?_⟩⟩
    rw [if_neg (by simpa using hne)]
    rfl

/-- A program is read in the same way if a semicolon follows. -/
theorem program_before_semicolon (hs : s.grammar.Lacks .semicolon) {x : Lexeme}
    {lexemes : List Lexeme} (hx : x.token.kind = .semicolon) {nodes : List Node}
    (h : program s (Cursor.start lexemes) = .ok nodes c) (more : List Lexeme) :
    ∃ d, d.rest = more.dropWhile Lexeme.isSemicolon ∧ d.expected = [.token .semicolon] ∧
      d.ambiguities = c.ambiguities ∧
      ∀ nodes' d', Gathered (topRound s) d nodes' d' →
        program s (Cursor.start (lexemes ++ x :: more)) = .ok (nodes ++ nodes') d' := by
  obtain ⟨hne, c₁, hskip, hgathered⟩ := program_eq_ok.1 h
  have hc₁ : c₁.rest ≠ [] := fun hnil => hne (hgathered.eq_nil hnil).1
  have hstart : (Fork.atSemicolon hx more).loose.Abreast (Cursor.start lexemes)
      (Cursor.start (lexemes ++ x :: more)) :=
    ⟨⟨lexemes, (List.append_nil _).symm, rfl⟩, rfl, rfl, rfl⟩
  obtain ⟨d₁, hskip', h₁⟩ := ((local_skipSemicolons rfl).together trivial hstart).ok () c₁ hskip
    (.inr (List.length_pos_iff.2 hc₁))
  obtain ⟨d, hrest, hexpected, hsame, hmore⟩ := hgathered.before_semicolon hs hx hc₁
    ⟨h₁.rest, h₁.lastEnd, h₁.expected, h₁.ambiguities⟩
  refine ⟨d, hrest, hexpected, hsame, fun nodes' d' hd' => ?_⟩
  exact program_eq_ok.2 ⟨by simp [hne], d₁, hskip', hmore nodes' d' hd'⟩

/-! ## The second program -/

/-- No statement goes on with the lexeme that the first one begins with. -/
theorem Gathered.noted_behind {tokens : List Token} {broken : Bool} {x : Lexeme}
    (hs : Tiles .start s.text tokens) (hrest : c.rest <:+ Lexeme.ofTokens broken tokens)
    (hx : c.rest.head? = some x) {nodes : List Node} (h : Gathered (topRound s) c nodes c') :
    ∃ added, c'.ambiguities = c.ambiguities ++ added ∧
      ∀ a ∈ added, a.position ≠ x.token.position := by
  have hlaid : s.Laid c.rest := by
    refine ⟨tokens, hs, ?_⟩
    rw [Token.solid, ← Lexeme.map_token_ofTokens tokens broken]
    exact (hrest.map _).isInfix
  have hordered := (hs.ordered broken).pairwise_lt.sublist hrest.sublist
  have hgather := (gather_eq_ok topRound_reads.length_lt).2 h
  obtain ⟨-, taken, noted, -, -, -, hjoints, hsame⟩ :=
    gather_noted (topRound_noted hlaid) c nodes c' ⟨[], rfl, by simp⟩ hgather
  refine ⟨_, hsame, fun a ha hposition => ?_⟩
  obtain ⟨y, hy, hya⟩ := List.mem_filterMap.1 ha
  obtain ⟨j, -, hat⟩ := (exists_of_forall₂ hjoints).1 y hy
  -- What it goes on with has a lexeme before it, and so is not the first one
  have hlt : x.token.position.offset < y.token.position.offset := by
    obtain ⟨front, z, back, hsplit, -⟩ := hat.follows
    rw [hsplit] at hx hordered
    cases front with
    | nil =>
      obtain rfl : z = x := by simpa using hx
      exact (List.pairwise_cons.1 hordered).1 y List.mem_cons_self
    | cons u front =>
      obtain rfl : u = x := by simpa using hx
      exact (List.pairwise_cons.1 hordered).1 y (by simp)
  have hay : a.position = y.token.position := by
    unfold Lexeme.ambiguity? at hya
    split at hya
    · cases hya
      rfl
    · cases hya
  rw [← hay, hposition] at hlt
  exact Nat.lt_irrefl _ hlt

end Parse

/-- What is noted at a lexeme and further down, the first lexeme apart. -/
private theorem filter_ambiguity? {front : List Char} {first : Position} {x y : Lexeme}
    (htoken : y.token = x.token.lowered front)
    (hbreak : x.token.position = first ∨ y.afterBreak = x.afterBreak) :
    y.ambiguity?.toList.filter (·.position ≠ first.lowered front) =
      (x.ambiguity?.toList.filter (·.position ≠ first)).map (Ambiguity.lowered front) := by
  have hposition : y.token.position = first.lowered front ↔ x.token.position = first := by
    rw [htoken]
    exact (Position.lowered_injective front).eq_iff
  by_cases hfirst : x.token.position = first
  · -- Nothing of what is noted there is kept
    have hempty : ∀ (z : Lexeme) (p : Position), z.token.position = p →
        z.ambiguity?.toList.filter (·.position ≠ p) = [] := by
      intro z p hz
      unfold Lexeme.ambiguity?
      split <;> simp [hz]
    rw [hempty y _ (hposition.2 hfirst), hempty x _ hfirst, List.map_nil]
  · have hsame := hbreak.resolve_left hfirst
    unfold Lexeme.ambiguity?
    rw [hsame]
    split
    · simp only [Option.toList_some, ne_eq, decide_not, List.filter_cons, hposition, hfirst,
        decide_false, Bool.not_false, if_true, List.filter_nil, List.map_cons, List.map_nil]
      rw [htoken]
      rfl
    · rfl

/-- The likeness of a parse and of one further down in a longer text, in which something has been
    noted before.  The breaks before the lexeme at the given position may differ. -/
def Likeness.lowered (front : List Char) (first : Position) (before : List Ambiguity) :
    Likeness where
  position _ _ := True
  lexeme x y :=
    y.token = x.token.lowered front ∧ (x.token.position = first ∨ y.afterBreak = x.afterBreak)
  noted as bs := ∃ added, bs = before ++ added ∧
    added.filter (·.position ≠ first.lowered front) =
      (as.filter (·.position ≠ first)).map (Ambiguity.lowered front)
  token h := by rw [h.1]; exact ⟨rfl, rfl, trivial⟩
  note := by
    rintro x y as _ ⟨htoken, hbreak⟩ ⟨added, rfl, hadded⟩
    refine ⟨added ++ y.ambiguity?.toList, List.append_assoc .., ?_⟩
    rw [List.filter_append, List.filter_append, List.map_append, hadded,
      filter_ambiguity? htoken hbreak]

/-- Behind semicolons, the second text is the same as alone, but further down. -/
theorem Likeness.forall₂_lowered (front : List Char) (before : List Ambiguity)
    {tokens : List Token} {x : Lexeme} {rest : List Lexeme}
    (h : (Lexeme.ofTokens false tokens).dropWhile Lexeme.isSemicolon = x :: rest) :
    List.Forall₂ (Likeness.lowered front x.token.position before).lexeme (x :: rest)
      (((Lexeme.ofTokens true tokens).map (Lexeme.lowered front)).dropWhile
        Lexeme.isSemicolon) := by
  have hlowered : ∀ xs : List Lexeme,
      List.Forall₂ (Likeness.lowered front x.token.position before).lexeme xs
        (xs.map (Lexeme.lowered front)) := fun xs =>
    List.forall₂_map_right_iff.2 (List.forall₂_same.2 fun _ _ => ⟨rfl, .inr rfl⟩)
  rw [List.dropWhile_map]
  change List.Forall₂ _ _ (((Lexeme.ofTokens true tokens).dropWhile Lexeme.isSemicolon).map _)
  -- Only the first lexeme of the second text can differ, in whether a line break comes before it
  obtain ⟨hnil, -⟩ | ⟨t, b, others, hfalse, htrue⟩ := Lexeme.ofTokens_true tokens false
  · rw [hnil] at h
    cases h
  rw [hfalse] at h
  rw [htrue]
  by_cases ht : t.kind = .semicolon
  · -- The lexeme whose break differs is skipped
    rw [List.dropWhile_cons_of_pos (by simpa [Lexeme.isSemicolon] using ht)] at h ⊢
    rw [h]
    exact hlowered _
  · rw [List.dropWhile_cons_of_neg (by simpa [Lexeme.isSemicolon] using ht)] at h ⊢
    obtain ⟨rfl, rfl⟩ := List.cons.inj h
    exact .cons ⟨rfl, .inl rfl⟩ (hlowered others)

/-- A round of a program is read alike with alike settings. -/
theorem Parse.agree_topRound {K : Likeness} {s t : Setting} (hs : s.Alike K t) :
    Agree K (Round.Alike (Node.Alike K)) (topRound s) (topRound t) := by
  refine agree_peek_bind (.pure .done) fun _ _ _ => ?_
  refine (agree_topStatement hs).bind fun node node' hn => ?_
  exact agree_skipSemicolons.bind_eq fun _ => .pure (.more hn)

/-- A program further down is read like the program alone. -/
theorem Parse.gathered_lowered {s t : Setting} (hgrammar : s.grammar = t.grammar)
    (hlimit : s.limit = t.limit) {tokens all : List Token} (hs : Tiles .start s.text tokens)
    (ht : Tiles .start t.text all) {nodes : List Node} {c d : Cursor}
    (h : program s (Cursor.start (Lexeme.ofTokens false tokens)) = .ok nodes c)
    {front : List Char} (hd : d.rest <:+ Lexeme.ofTokens false all)
    (hrest : d.rest = ((Lexeme.ofTokens true tokens).map (Lexeme.lowered front)).dropWhile
      Lexeme.isSemicolon)
    (hexpected : d.expected = [.token .semicolon]) :
    ∃ nodes' d', Gathered (topRound t) d nodes' d' ∧
      nodes.map Node.erase = nodes'.map Node.erase ∧
      d'.ambiguities = d.ambiguities ++ c.ambiguities.map (.lowered front) := by
  obtain ⟨hne, c₁, hskip, hgathered⟩ := program_eq_ok.1 h
  have hskips := skips_of_skipSemicolons hskip
  obtain ⟨x, rest, hc₁⟩ := List.exists_cons_of_ne_nil fun hnil => hne (hgathered.eq_nil hnil).1
  -- The two cursors are before alike lexemes
  have hlexemes := Likeness.forall₂_lowered front d.ambiguities (hskips.rest.symm.trans hc₁)
  rw [← hrest, ← hc₁] at hlexemes
  have halike : c₁.Alike (.lowered front x.token.position d.ambiguities) d := by
    refine ⟨hlexemes, ?_, [], (List.append_nil _).symm, ?_⟩
    · rw [hexpected]
      exact hskips.expected (.inl rfl)
    · rw [hskips.ambiguities]
      rfl
  have hgather := (gather_eq_ok topRound_reads.length_lt).2 hgathered
  have hboth := agree_gather (agree_topRound ⟨hgrammar, hlimit, trivial⟩) c₁ d halike
  rw [hgather] at hboth
  generalize hrun : gather (topRound t) d = run at hboth
  cases hboth with
  | @ok _ nodes' _ d' hnodes hc =>
    have hgathered' := (gather_eq_ok topRound_reads.length_lt).1 hrun
    refine ⟨nodes', d', hgathered', Node.map_erase_of_alike hnodes, ?_⟩
    obtain ⟨added, hsame, hadded⟩ := hc.noted
    -- Neither of them notes anything at its first lexeme
    obtain ⟨noted, hnoted, hbehind⟩ := hgathered.noted_behind (x := x) hs
      (hskips.rest ▸ List.dropWhile_suffix _) (by rw [hc₁, List.head?_cons])
    rw [hskips.ambiguities] at hnoted
    obtain rfl : c.ambiguities = noted := hnoted
    rw [hc₁] at hlexemes
    obtain ⟨y, rest', hxy, -, hd'⟩ := List.forall₂_cons_left_iff.1 hlexemes
    obtain ⟨noted', hnoted', hbehind'⟩ := hgathered'.noted_behind (x := y) ht hd
      (by rw [hd', List.head?_cons])
    obtain rfl : added = noted' := List.append_cancel_left (hsame.symm.trans hnoted')
    have hlowered : ∀ a ∈ added, a.position ≠ x.token.position.lowered front := by
      rw [hxy.1] at hbehind'
      exact hbehind'
    rw [List.filter_eq_self.2 fun a ha => decide_eq_true (hlowered a ha),
      List.filter_eq_self.2 fun a ha => decide_eq_true (hbehind a ha)] at hadded
    rw [hsame, hadded]

/-- The likeness of parses of the same lexemes. -/
def Likeness.same : Likeness where
  position _ _ := True
  lexeme := Eq
  noted := Eq
  token h := h ▸ ⟨rfl, rfl, trivial⟩
  note h h' := by rw [h, h']

/-- Of a source, only the lexemes matter for the statements and the ambiguities. -/
theorem Parse.program_same {s t : Setting} (hgrammar : s.grammar = t.grammar)
    (hlimit : s.limit = t.limit) {lexemes : List Lexeme} {nodes : List Node} {c : Cursor}
    (h : program s (Cursor.start lexemes) = .ok nodes c) :
    ∃ nodes' c', program t (Cursor.start lexemes) = .ok nodes' c' ∧
      nodes.map Node.erase = nodes'.map Node.erase ∧ c.ambiguities = c'.ambiguities := by
  have hstart : (Cursor.start lexemes).Alike .same (Cursor.start lexemes) :=
    ⟨List.forall₂_same.2 fun _ _ => rfl, rfl, rfl⟩
  have hboth := agree_program (K := .same) ⟨hgrammar, hlimit, trivial⟩ _ _ hstart
  rw [h] at hboth
  generalize hrun : program t (Cursor.start lexemes) = run at hboth
  cases hboth with
  | @ok _ nodes' _ c' hnodes hc =>
    exact ⟨nodes', c', rfl, Node.map_erase_of_alike hnodes, hc.noted⟩

/-- Two programs with a semicolon between them, the second one further down, are a program. -/
theorem Parse.program_join {s s' t : Setting} {lexemes : List Lexeme} {tokens all : List Token}
    {x : Lexeme} {front : List Char} {nodes nodes' : List Node} {c c' : Cursor}
    (h : program s (Cursor.start lexemes) = .ok nodes c)
    (h' : program s' (Cursor.start (Lexeme.ofTokens false tokens)) = .ok nodes' c')
    (hs : s.grammar = t.grammar ∧ s.limit = t.limit)
    (hs' : s'.grammar = t.grammar ∧ s'.limit = t.limit) (hlacks : t.grammar.Lacks .semicolon)
    (htiles : Tiles .start s'.text tokens) (htiles' : Tiles .start t.text all)
    (hx : x.token.kind = .semicolon)
    (hall : Lexeme.ofTokens false all =
      lexemes ++ x :: (Lexeme.ofTokens true tokens).map (Lexeme.lowered front)) :
    ∃ joined d, program t (Cursor.start (Lexeme.ofTokens false all)) = .ok joined d ∧
      joined.map Node.erase = (nodes ++ nodes').map Node.erase ∧
      d.ambiguities = c.ambiguities ++ c'.ambiguities.map (.lowered front) := by
  -- The first one is read in the longer text as it is alone, up to the semicolon
  obtain ⟨first, c₁, hfirst, herase, hsame⟩ := program_same hs.1 hs.2 h
  obtain ⟨d, hrest, hexpected, hbefore, hjoin⟩ := program_before_semicolon hlacks hx hfirst
    ((Lexeme.ofTokens true tokens).map (Lexeme.lowered front))
  -- From there on, the second one is read as it is alone
  have hsuffix : d.rest <:+ Lexeme.ofTokens false all := by
    rw [hall, hrest]
    exact (List.dropWhile_suffix _).trans ((List.suffix_cons x _).trans (List.suffix_append _ _))
  obtain ⟨second, d', hsecond, herase', hadded⟩ :=
    gathered_lowered hs'.1 hs'.2 htiles htiles' h' hsuffix hrest hexpected
  refine ⟨first ++ second, d', ?_, ?_, ?_⟩
  · rw [hall]
    exact hjoin second d' hsecond
  · rw [List.map_append, List.map_append, herase, herase']
  · rw [hadded, hbefore, hsame]

/-- What the parse of a program consists of, with all tokens of its source. -/
theorem parseProgram_eq_ok {grammar : Grammar} {source : String} {program : Program} :
    parseProgram grammar source = .ok program ↔ ∃ tokens c,
      Tiles .start source.toList tokens ∧
      Parse.program ⟨grammar, maxDepth, source.toList, Position.start.advance source.toList⟩
        (Cursor.start (Lexeme.ofTokens false tokens)) = .ok program.statements c ∧
      program.ambiguities = c.ambiguities := by
  rw [parseProgram, Parser.readProgram_eq_ok]
  constructor
  · rintro ⟨lexemes, stop, c, hsource, hprogram, hsame⟩
    obtain ⟨tokens, htiles, rfl, rfl⟩ := Lexeme.ofSource_eq_ok.1 hsource
    exact ⟨tokens, c, htiles, hprogram, hsame⟩
  · rintro ⟨tokens, c, htiles, hprogram, hsame⟩
    exact ⟨_, _, c, Lexeme.ofSource_eq_ok.2 ⟨tokens, htiles, rfl, rfl⟩, hprogram, hsame⟩

/-- Two programs with a semicolon in a line of its own between them are a program.  Its statements
    are those of the first and those of the second, and so are its ambiguities, those of the second
    further down. -/
theorem parseProgram_join {source source' : String} {first second : Program}
    (h : parseProgram .standard source = .ok first)
    (h' : parseProgram .standard source' = .ok second) :
    ∃ joined, parseProgram .standard (source ++ "\n;\n" ++ source') = .ok joined ∧
      Node.sameList joined.statements (first.statements ++ second.statements) = true ∧
      joined.ambiguities = first.ambiguities ++
        second.ambiguities.map (.lowered (source ++ "\n;\n").toList) := by
  obtain ⟨tokens, c, htiles, hprogram, hsame⟩ := parseProgram_eq_ok.1 h
  obtain ⟨tokens', c', htiles', hprogram', hsame'⟩ := parseProgram_eq_ok.1 h'
  obtain ⟨p, all, hall, hlexemes⟩ := Lexeme.ofSource_join htiles htiles'
  obtain ⟨nodes, d, hjoined, herase, hadded⟩ := Parse.program_join
    (t := ⟨.standard, maxDepth, (source ++ "\n;\n" ++ source').toList,
      Position.start.advance (source ++ "\n;\n" ++ source').toList⟩)
    hprogram hprogram' ⟨rfl, rfl⟩ ⟨rfl, rfl⟩ Grammar.standard_lacks_semicolon htiles' hall rfl
    hlexemes
  refine ⟨⟨nodes, d.ambiguities⟩, parseProgram_eq_ok.2 ⟨all, d, hall, hjoined, rfl⟩, ?_, ?_⟩
  · exact Node.sameList_iff_erase.2 herase
  · rw [hsame, hsame']
    exact hadded

/-- A comment ends with the first text, and each text goes on over a line break of its own. -/
theorem parseProgram_join_comment :
    ∃ first second joined, parseProgram .standard "a\n(b) // é" = .ok first ∧
      parseProgram .standard "(d)\n.e\nreturn" = .ok second ∧
      parseProgram .standard ("a\n(b) // é" ++ "\n;\n" ++ "(d)\n.e\nreturn") = .ok joined ∧
      Node.sameList joined.statements (first.statements ++ second.statements) = true ∧
      joined.ambiguities = [⟨⟨2, 1, 2⟩, .leftParen⟩, ⟨⟨5, 1, 18⟩, .dot⟩] := by
  obtain ⟨first, hfirst⟩ := exists_of_isOk
    (show (parseProgram .standard "a\n(b) // é").isOk = true by decide +kernel)
  obtain ⟨second, hsecond⟩ := exists_of_isOk
    (show (parseProgram .standard "(d)\n.e\nreturn").isOk = true by decide +kernel)
  obtain ⟨joined, hjoined, hsame, hadded⟩ := parseProgram_join hfirst hsecond
  refine ⟨first, second, joined, hfirst, hsecond, hjoined, hsame, ?_⟩
  have hnoted : (parseProgram .standard "a\n(b) // é").toOption.map Program.ambiguities =
      some [⟨⟨2, 1, 2⟩, .leftParen⟩] := by decide +kernel
  have hnoted' : (parseProgram .standard "(d)\n.e\nreturn").toOption.map Program.ambiguities =
      some [⟨⟨2, 1, 4⟩, .dot⟩] := by decide +kernel
  rw [hfirst] at hnoted
  rw [hsecond] at hnoted'
  rw [hadded, Option.some.inj hnoted, Option.some.inj hnoted']
  decide +kernel

end Schemata
