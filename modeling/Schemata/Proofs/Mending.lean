import Schemata.Proofs.ErrorPlaces

/-!
# A failed parse beside a mended one

A parse that fails says what it expected.  Put a token that it expected in the place of all that
it had left, and parse again: this is the mended parse.  The two go on together up to the place of
the failure.  There the failed parse looks for the token, does not find it and notes that it was
expected, and the mended parse finds it and takes it.  From then on nothing is left to read, so
that the mended parse succeeds or fails at the end of the source.

`Mend.Follows` says of a parse that its two runs go on together in this way; there is one rule for
each way to build a parse.
-/

namespace Schemata

/-- Whether a token that says this is what was expected. -/
def Expectation.admits (piece : Piece) : Expectation → Bool
  | token kind => piece.kind = kind
  | word text => piece = ⟨.name, text⟩
  | _ => false

open EStateM (Result)
open Parse

/-- A token in the place of all that was left where a parse failed, and which the parse expected
    there. -/
structure Mend where
  setting : Setting
  /-- What had been read. -/
  front : List Lexeme
  /-- What was left. -/
  rest : List Lexeme
  what : Expectation
  lexeme : Lexeme
  admits : what.admits lexeme.piece = true
  /-- The token is not at the end. -/
  inside : lexeme.token.position ≠ setting.stop

namespace Mend

variable {α β : Type} {m : Mend} {c c' d : Cursor} {M : Cursor → Prop}

/-- A token that was expected is of its kind. -/
theorem kind_eq {kind : TokenKind} (h : m.what = .token kind) : m.lexeme.token.kind = kind := by
  have hadmits := m.admits
  rw [h] at hadmits
  exact decide_eq_true_iff.1 hadmits

/-- A word that was expected is that name. -/
theorem piece_eq {text : String} (h : m.what = .word text) : m.lexeme.piece = ⟨.name, text⟩ := by
  have hadmits := m.admits
  rw [h] at hadmits
  exact decide_eq_true_iff.1 hadmits

/-- What no token can be is not what is mended. -/
theorem what_ne {what : Expectation} (h : ∀ piece, what.admits piece = false) : m.what ≠ what := by
  intro hwhat
  have hadmits := m.admits
  rw [hwhat, h] at hadmits
  cases hadmits

/-! ## Cursors of the two parses -/

/-- The failed parse and the mended one have come to the same place.  At the place of the failure,
    the failed parse has not yet noted what was expected. -/
structure Together (m : Mend) (c d : Cursor) : Prop where
  rest : ∃ front, front <:+ m.front ∧ c.rest = front ++ m.rest ∧ d.rest = front ++ [m.lexeme]
  lastEnd : c.lastEnd = d.lastEnd
  plain : c.Plain
  unexpected : c.rest = m.rest → m.what ∉ c.expected

namespace Together

/-- The two are at the place of the failure, or before the same token. -/
theorem cases (h : m.Together c d) :
    (c.rest = m.rest ∧ d.rest = [m.lexeme]) ∨
      ∃ lexeme front, lexeme :: front <:+ m.front ∧ c.rest = lexeme :: (front ++ m.rest) ∧
        d.rest = lexeme :: (front ++ [m.lexeme]) := by
  obtain ⟨front, hfront, hc, hd⟩ := h.rest
  cases front with
  | nil => exact .inl ⟨hc, hd⟩
  | cons lexeme front => exact .inr ⟨lexeme, front, hfront, hc, hd⟩

/-- Before the place of the failure more is left. -/
theorem ne_rest {lexeme : Lexeme} {front : List Lexeme}
    (hc : c.rest = lexeme :: (front ++ m.rest)) : c.rest ≠ m.rest := by
  intro hrest
  have hlength := congrArg List.length hc
  rw [hrest] at hlength
  simp only [List.length_cons, List.length_append] at hlength
  omega

/-- Both note an expectation that is not the one to be mended. -/
theorem noting (h : m.Together c d) {what : Expectation} (hnoted : what.isNoted = true)
    (hne : c.rest = m.rest → m.what ≠ what) : m.Together (c.noting what) (d.noting what) where
  rest := by simpa using h.rest
  lastEnd := by simpa using h.lastEnd
  plain := h.plain.noting hnoted
  unexpected := by
    intro hc hmem
    rw [Cursor.rest_noting] at hc
    obtain hmem | heq := Cursor.mem_noting.1 hmem
    · exact h.unexpected hc hmem
    · exact hne hc heq

/-- Both take the same token. -/
theorem after {token : Token} {lexeme : Lexeme} {front : List Lexeme}
    (hfront : lexeme :: front <:+ m.front) (hc : c.rest = lexeme :: (front ++ m.rest))
    (hd : d.rest = lexeme :: (front ++ [m.lexeme])) :
    m.Together (c.after token) (d.after token) where
  rest := ⟨front, (List.suffix_cons _ _).trans hfront, by simp [hc], by simp [hd]⟩
  lastEnd := rfl
  plain := c.plain_after token
  unexpected := by simp

end Together

/-- The failure at the cursor is the one that is mended. -/
def Blames (m : Mend) (c : Cursor) : Prop :=
  if m.what.isWord then ∃ x, m.rest = x :: c.rest else c.rest = m.rest

/-- Where a word was asked for, the failure is behind the name that is no such word. -/
theorem blames_of_isWord (hword : m.what.isWord = true) {x : Lexeme} (h : m.rest = x :: c.rest) :
    m.Blames c := by
  rw [Blames, if_pos hword]
  exact ⟨x, h⟩

/-- A failure after less was left is another one. -/
theorem not_blames_of_located {s : Setting} {e : ParseError} (h : Located s c e c' m.what)
    (hc : c.rest.length < m.rest.length) : ¬m.Blames c' := by
  unfold Blames
  obtain ⟨hword, x, hx, -⟩ | ⟨hnoted, hrest, -⟩ := h
  · rw [if_pos hword]
    rintro ⟨x', hrest⟩
    have hle := hx.length_le
    rw [hrest] at hc
    simp only [List.length_cons] at hc hle
    omega
  · rw [Expectation.isWord_of_isNoted hnoted, if_neg Bool.false_ne_true]
    intro hblamed
    have hle := hrest.length_le
    rw [hblamed] at hle
    omega

/-- The mended parse has taken the token: nothing is left, or it fails at the end.  Two things may
    go wrong besides: what stands before a sign of assignment cannot be assigned to, or not every
    name will do. -/
inductive Spent (m : Mend) : Result ParseError Cursor α → Prop
  | ok {a : α} {d : Cursor} (h : d.rest = []) : Spent m (.ok a d)
  | stop {e : ParseError} {d : Cursor} (h : e.position = m.setting.stop) : Spent m (.error e d)
  | target {p : Position} {d : Cursor}
      (h : m.what ∈ [TokenKind.assign, .addAssign, .subAssign].map Expectation.token)
      (hp : p ∈ m.front.map (·.token.position)) : Spent m (.error (.invalidTarget p) d)
  | word {e : ParseError} {d : Cursor} {text : String} (h : m.what = .token .name)
      (hd : d.rest = []) (hname : Scan.isName text = true) (htext : .word text ∈ e.expected) :
      Spent m (.error e d)

/-- A tame parse that goes on with nothing left succeeds, or fails at the end. -/
theorem Spent.of_tame {p : Parse α} (h : Tame m.setting p) (hd : d.rest = []) : m.Spent (p d) := by
  cases hp : p d with
  | ok a d' => exact .ok (h.rest_eq_nil hd hp)
  | error e d' => exact .stop (h.stop hd hp)

/-- What follows is tame, so the token stays taken. -/
theorem Spent.bind {p : Parse α} {f : α → Parse β} (h : m.Spent (p d))
    (hf : ∀ a, Tame m.setting (f a)) : m.Spent ((p >>= f) d) := by
  cases hp : p d with
  | ok a d' =>
    rw [hp] at h
    rw [bind_of_ok hp]
    cases h with
    | ok hd => exact .of_tame (hf a) hd
  | error e d' =>
    rw [hp] at h
    rw [bind_of_error hp]
    cases h with
    | stop h => exact .stop h
    | target h hfront => exact .target h hfront
    | word h hd hname htext => exact .word h hd hname htext

/-- What became of the two parses.  In the end the mended one has taken the token, unless the
    failed one does not come to the failure that is mended; `M` says where it does not, whatever
    follows. -/
inductive Kept (m : Mend) (M : Cursor → Prop) :
    Result ParseError Cursor α → Result ParseError Cursor α → Prop
  | spent {x z : Result ParseError Cursor α} (h : m.Spent z) : Kept m M x z
  | together {a : α} {c d : Cursor} (h : m.Together c d) : Kept m M (.ok a c) (.ok a d)
  | past {a : α} {c : Cursor} {z : Result ParseError Cursor α}
      (h : c.rest.length < m.rest.length) (hplain : c.Plain) : Kept m M (.ok a c) z
  | moot {a : α} {c : Cursor} {z : Result ParseError Cursor α} (h : M c) : Kept m M (.ok a c) z
  | other {e : ParseError} {c : Cursor} {z : Result ParseError Cursor α}
      (h : m.what ∈ e.expected → ¬m.Blames c) : Kept m M (.error e c) z

/-- After a token of what was left has been taken, the failure that is mended does not come. -/
theorem Kept.of_past {p : Parse α} (h : Marked m.setting p)
    (hc : c.rest.length < m.rest.length) (hplain : c.Plain) (z : Result ParseError Cursor α) :
    m.Kept M (p c) z := by
  cases hp : p c with
  | ok a c' =>
    obtain ⟨hrest, hkeeps⟩ := h.ok hp
    exact .past (Nat.lt_of_le_of_lt hrest.length_le hc) (hkeeps hplain)
  | error e c' =>
    exact .other fun hw => not_blames_of_located (h.error hp hplain _ hw) hc

/-- The two parses go on together until the mended one has taken the token. -/
structure FollowsUnless (m : Mend) (M : Cursor → Prop) (p : Parse α) : Prop where
  tame : Tame m.setting p
  kept : ∀ {c d}, m.Together c d → m.Kept M (p c) (p d)

/-- The same without exception. -/
abbrev Follows (m : Mend) (p : Parse α) : Prop :=
  m.FollowsUnless (fun _ => False) p

namespace Kept

/-- What became of two parses decides what becomes of all that follows. -/
theorem bindUnless {p q : Parse α} {f g : α → Parse β} {M₁ : Cursor → Prop}
    (h : m.Kept M₁ (p c) (q d)) (htf : ∀ a, Tame m.setting (f a))
    (htg : ∀ a, Tame m.setting (g a))
    (hf : ∀ a c' d', p c = .ok a c' → q d = .ok a d' → m.Together c' d' →
      m.Kept M (f a c') (g a d'))
    (hmoot : ∀ a c', p c = .ok a c' → M₁ c' → ∀ z, m.Kept M (f a c') z) :
    m.Kept M ((p >>= f) c) ((q >>= g) d) := by
  generalize hx : p c = x at h
  generalize hz : q d = z at h
  -- Only two parses that went on together run what follows on both sides
  cases h with
  | spent h => exact .spent (Spent.bind (hz ▸ h) htg)
  | together h =>
    rw [bind_of_ok hx, bind_of_ok hz]
    exact hf _ _ _ hx hz h
  | past h hplain =>
    rw [bind_of_ok hx]
    exact .of_past (htf _).toMarked h hplain _
  | moot h =>
    rw [bind_of_ok hx]
    exact hmoot _ _ hx h _
  | other h =>
    rw [bind_of_error hx]
    exact .other h

/-- The same where the two cannot part without an end. -/
theorem bind {p q : Parse α} {f g : α → Parse β} (h : m.Kept (fun _ => False) (p c) (q d))
    (htf : ∀ a, Tame m.setting (f a)) (htg : ∀ a, Tame m.setting (g a))
    (hf : ∀ a c' d', p c = .ok a c' → q d = .ok a d' → m.Together c' d' →
      m.Kept M (f a c') (g a d')) :
    m.Kept M ((p >>= f) c) ((q >>= g) d) :=
  h.bindUnless htf htg hf fun _ _ _ h => h.elim

/-- What holds without exception holds with any. -/
theorem weaken {x z : Result ParseError Cursor α} (h : m.Kept (fun _ => False) x z) :
    m.Kept M x z := by
  cases h with
  | spent h => exact .spent h
  | together h => exact .together h
  | past h hplain => exact .past h hplain
  | moot h => exact h.elim
  | other h => exact .other h

end Kept

namespace FollowsUnless

/-- A parse that returns at once keeps both together. -/
theorem pure (a : α) : m.FollowsUnless M (pure a : Parse α) :=
  ⟨.pure a, fun h => .together h⟩

/-- The two go on together in one parse and then in the next. -/
theorem bind {p : Parse α} {f : α → Parse β} (h : m.Follows p)
    (hf : ∀ a, m.FollowsUnless M (f a)) : m.FollowsUnless M (p >>= f) :=
  ⟨h.tame.bind fun a => (hf a).tame,
    fun hcd => (h.kept hcd).bind (fun a => (hf a).tame) (fun a => (hf a).tame)
      fun a _ _ _ _ h => (hf a).kept h⟩

/-- What follows may rely on what is known of each value that both parses give. -/
theorem bindWhere {p : Parse α} {f : α → Parse β} {Q : α → Prop} (h : m.Follows p)
    (hp : ∀ {c d a d'}, m.Together c d → p d = .ok a d' → (∃ c', m.Together c' d') → Q a)
    (ht : ∀ a, Tame m.setting (f a)) (hf : ∀ a, Q a → m.FollowsUnless M (f a)) :
    m.FollowsUnless M (p >>= f) :=
  ⟨h.tame.bind ht, fun hcd => (h.kept hcd).bind ht ht
    fun a c' _ _ hd hcd' => (hf a (hp hcd hd ⟨c', hcd'⟩)).kept hcd'⟩

/-- A step that changes nothing but what was noted besides. -/
theorem modify {f : Cursor → Cursor} (hrest : ∀ c, (f c).rest = c.rest)
    (hlastEnd : ∀ c, (f c).lastEnd = c.lastEnd) (hexpected : ∀ c, (f c).expected = c.expected) :
    m.Follows (modify f) := by
  refine ⟨.modify hrest hexpected, fun {c d} h => .together ⟨?_, ?_, ?_, ?_⟩⟩
  · rw [hrest, hrest]
    exact h.rest
  · rw [hlastEnd, hlastEnd]
    exact h.lastEnd
  · rw [Cursor.Plain, hexpected]
    exact h.plain
  · rw [hrest, hexpected]
    exact h.unexpected

/-- A parse without exceptions may have any. -/
theorem weaken {p : Parse α} (h : m.Follows p) : m.FollowsUnless M p :=
  ⟨h.tame, fun hcd => (h.kept hcd).weaken⟩

/-- A parse that fails and says nothing of what it expected. -/
theorem throw {p : Parse α} (ht : Tame m.setting p)
    (h : ∀ c, ∃ e c', p c = .error e c' ∧ e.expected = []) : m.FollowsUnless M p := by
  refine ⟨ht, fun {c d} _ => ?_⟩
  obtain ⟨e, c', hp, hexpected⟩ := h c
  rw [hp]
  exact .other fun hw => by simp [hexpected] at hw

end FollowsUnless

/-! ## Steps -/

/-- A failure here is not the one that is mended: what was expected was not looked for. -/
theorem Together.failure (h : m.Together c d) (z : Result ParseError Cursor α) :
    m.Kept M (.error (c.failure m.setting) c) z := by
  refine .other fun hw => ?_
  rw [Cursor.expected_failure] at hw
  unfold Blames
  obtain ⟨hc, -⟩ | ⟨lexeme, front, -, hc, -⟩ := h.cases
  · exact absurd hw (h.unexpected hc)
  · have hlength := congrArg List.length hc
    simp only [List.length_cons, List.length_append] at hlength
    split
    · rintro ⟨x, hrest⟩
      rw [hrest, List.length_cons] at hlength
      omega
    · intro hrest
      rw [hrest] at hlength
      omega

/-- A failure says what was expected, none of which was mended. -/
theorem follows_failHere : m.FollowsUnless M (failHere m.setting : Parse α) :=
  ⟨tame_failHere, fun {c _} h => failHere_eq c ▸ h.failure _⟩

/-- Where nesting is too deep, nothing is said of what was expected. -/
theorem follows_failTooDeep : m.FollowsUnless M (failTooDeep m.setting : Parse α) := by
  have hfail : ∀ c, (failTooDeep m.setting : Parse α) c =
      .error (.tooDeep m.setting.limit (c.position m.setting)) c := fun c => rfl
  refine .throw ⟨⟨fun hp => absurd hp failTooDeep_ne_ok, fun {c e c'} hp => ?_⟩,
    fun {c e c'} hc hp => ?_⟩ fun c => ⟨_, _, hfail c, rfl⟩
  · obtain ⟨rfl, rfl⟩ := Result.error.inj ((hfail c).symm.trans hp)
    simp [ParseError.expected]
  · obtain ⟨rfl, rfl⟩ := Result.error.inj ((hfail c).symm.trans hp)
    simp [ParseError.position, Cursor.position, hc]

/-- Entering a level is a step of both. -/
theorem follows_enter (s : Setting) (room : Nat) : m.Follows (enter s room) := by
  exact .modify (fun c => rfl) (fun c => rfl) fun c => rfl

/-- What a step relies on is noted in both or in neither. -/
theorem follows_require (fault : Fault) (required : Prop) [Decidable required] :
    m.Follows (require fault required) := by
  exact .modify (fun c => rfl) (fun c => rfl) fun c => rfl

/-- A span ends with the last token that both took. -/
theorem follows_span (s : Setting) (start : Position) (node : Node) :
    m.FollowsUnless M (span s start node) := by
  refine ⟨.of_ok fun c => ⟨_, c, rfl, List.suffix_rfl, id⟩, fun {c d} h => ?_⟩
  have hspan : span s start node d =
      .ok { node with
        position := start
        lineBreaks := Text.lineBreaks (Text.slice s.text start.offset c.lastEnd)
        text := String.ofList (Text.slice s.text start.offset c.lastEnd) } d := by
    rw [h.lastEnd]
    rfl
  rw [hspan]
  exact .together h

/-- A node is finished in both. -/
theorem follows_finish (s : Setting) (shape : Shape Node) (start : Position) :
    m.FollowsUnless M (finish s shape start) :=
  follows_span s start _

/-- An expectation is noted in both, unless it is the one to be mended. -/
theorem follows_expecting {what : Expectation} (hnoted : what.isNoted = true)
    (h : m.what ≠ what) : m.Follows (expecting what) :=
  ⟨tame_expecting hnoted, fun hcd => .together (hcd.noting hnoted fun _ => h)⟩

/-- A look for a token, which is taken if it is found. -/
theorem follows_eat? (kind : TokenKind) (ht : kind.isTrivia = false) :
    m.Follows (eat? kind) := by
  have hnoted := Expectation.isNoted_token ht
  refine ⟨tame_eat? kind ht, fun {c d} h => ?_⟩
  obtain ⟨hc, hd⟩ | ⟨lexeme, front, hfront, hc, hd⟩ := h.cases
  -- At the place of the failure, the mended parse finds its token or neither finds any
  · by_cases hfound : ∃ lexeme ∈ c.rest.head?, lexeme.token.kind = kind
    · obtain ⟨lexeme, hhead, hkind⟩ := hfound
      rw [eat?_of_kind hhead hkind]
      exact .past (hc ▸ Cursor.length_rest_after hhead _) (c.plain_after _)
    · have hmissed : ∀ lexeme ∈ c.rest.head?, lexeme.token.kind ≠ kind :=
        fun lexeme hhead hkind => hfound ⟨lexeme, hhead, hkind⟩
      have hhead : d.rest.head? = some m.lexeme := by rw [hd]; rfl
      by_cases hkind : m.lexeme.token.kind = kind
      · rw [eat?_of_kind hhead hkind]
        exact .spent (.ok (by simp [hd]))
      · have hmissed' : ∀ lexeme ∈ d.rest.head?, lexeme.token.kind ≠ kind := by
          simpa [hhead] using hkind
        rw [eat?_of_ne hmissed, eat?_of_ne hmissed']
        exact .together (h.noting hnoted fun _ hwhat => hkind (kind_eq hwhat))
  -- Before that place, both look at the same token
  · have hhead : c.rest.head? = some lexeme := by rw [hc]; rfl
    have hhead' : d.rest.head? = some lexeme := by rw [hd]; rfl
    by_cases hkind : lexeme.token.kind = kind
    · rw [eat?_of_kind hhead hkind, eat?_of_kind hhead' hkind]
      exact .together (.after hfront hc hd)
    · rw [eat?_of_ne (by simpa [hhead] using hkind), eat?_of_ne (by simpa [hhead'] using hkind)]
      exact .together (h.noting hnoted fun hrest => absurd hrest (Together.ne_rest hc))

/-- A look for a token, whether or not it is found. -/
theorem follows_eats (kind : TokenKind) (ht : kind.isTrivia = false) :
    m.Follows (eats kind) :=
  (follows_eat? kind ht).bind fun _ => .pure _

/-- A look for a token that has to be there. -/
theorem follows_expect (kind : TokenKind) (ht : kind.isTrivia = false) :
    m.Follows (expect m.setting kind) := by
  refine (follows_eat? kind ht).bind fun found => ?_
  cases found with
  | some token => exact .pure _
  | none => exact follows_failHere

/-! ## Choices by the next token -/

/-- A branch for the given next token, which takes it. -/
structure Taken (m : Mend) (M : Cursor → Prop) (lexeme : Lexeme) (p : Parse α) : Prop where
  ok : ∀ {c a c'}, p c = .ok a c' → c'.rest <:+ c.rest ∧ c'.Plain
  error : ∀ {c e c'}, p c = .error e c' → ∀ what ∈ e.expected, Located m.setting c e c' what
  past : ∀ {c}, c.rest = m.rest → c.rest.head? = some lexeme → ∀ z, m.Kept M (p c) z
  spent : lexeme = m.lexeme → ∀ {d}, d.rest = [lexeme] → m.Spent (p d)
  together : ∀ {c d front}, lexeme :: front <:+ m.front → c.rest = lexeme :: (front ++ m.rest) →
    d.rest = lexeme :: (front ++ [m.lexeme]) → m.Kept M (p c) (p d)

/-- A parse that takes its token and goes on with another. -/
theorem Taken.of_eq {lexeme : Lexeme} {p q : Parse α} (hq : m.FollowsUnless M q)
    (h : ∀ c, ∃ ambiguities, p c = q { c.after lexeme.token with ambiguities }) :
    m.Taken M lexeme p where
  ok := by
    intro c a c' hp
    obtain ⟨ambiguities, he⟩ := h c
    rw [he] at hp
    obtain ⟨hrest, hplain⟩ := hq.tame.ok hp
    exact ⟨hrest.trans (List.tail_suffix _), hplain (c.plain_after lexeme.token)⟩
  error := by
    intro c e c' hp what hw
    obtain ⟨ambiguities, he⟩ := h c
    rw [he] at hp
    exact (hq.tame.error hp (c.plain_after lexeme.token) what hw).mono (List.tail_suffix _)
  past := by
    intro c hc hhead z
    obtain ⟨ambiguities, he⟩ := h c
    rw [he]
    exact Kept.of_past (c := { c.after lexeme.token with ambiguities }) hq.tame.toMarked
      (hc ▸ Cursor.length_rest_after hhead lexeme.token) (c.plain_after lexeme.token) z
  spent := by
    intro _ d hd
    obtain ⟨ambiguities, he⟩ := h d
    rw [he]
    exact .of_tame hq.tame (by simp [hd])
  together := by
    intro c d front hfront hc hd
    obtain ⟨ambiguities, hec⟩ := h c
    obtain ⟨ambiguities', hed⟩ := h d
    obtain ⟨hrest, hlastEnd, hplain, hunexpected⟩ :=
      @Together.after m c d lexeme.token _ _ hfront hc hd
    rw [hec, hed]
    exact hq.kept ⟨hrest, hlastEnd, hplain, hunexpected⟩

/-- A branch that takes its token and goes on. -/
theorem Taken.take {lexeme : Lexeme} {f : Unit → Parse α} (h : m.FollowsUnless M (f ())) :
    m.Taken M lexeme (take lexeme.token >>= f) :=
  .of_eq h fun c => ⟨c.ambiguities, rfl⟩

/-- A branch that notes an ambiguity, takes its token and goes on. -/
theorem Taken.note {lexeme : Lexeme} {f : Unit → Parse α} (h : m.FollowsUnless M (f ())) :
    m.Taken M lexeme (noteContinuation lexeme >>= fun _ => Parse.take lexeme.token >>= f) := by
  refine .of_eq h fun c => ?_
  unfold noteContinuation
  split
  · exact ⟨_, rfl⟩
  · exact ⟨c.ambiguities, rfl⟩

/-- A refusal of what stands before a sign of assignment. -/
theorem Taken.invalidTarget {lexeme : Lexeme} {p : Position} {q : Parse α}
    (h : lexeme.token.kind ∈ [TokenKind.assign, .addAssign, .subAssign])
    (hp : p ∈ m.front.map (·.token.position)) (hq : ∀ c, q c = .error (.invalidTarget p) c) :
    m.Taken M lexeme q where
  ok := by
    intro c a c' hp
    cases (hq c).symm.trans hp
  error := by
    intro c e c' hp
    obtain ⟨rfl, rfl⟩ := Result.error.inj ((hq c).symm.trans hp)
    simp [ParseError.expected]
  past := by
    intro c _ _ z
    rw [hq]
    exact .other fun hw => absurd hw List.not_mem_nil
  spent := by
    rintro rfl d -
    rw [hq]
    -- Of all that a token can be expected as, a sign of assignment is only itself
    refine .target ?_ hp
    have hadmits := m.admits
    cases hwhat : m.what with
    | token kind => exact List.mem_map_of_mem (kind_eq hwhat ▸ h)
    | word text =>
      have hname : m.lexeme.token.kind = .name := congrArg Piece.kind (piece_eq hwhat)
      rw [hname] at h
      exact absurd h (by decide)
    | _ =>
      rw [hwhat] at hadmits
      cases hadmits
  together := by
    intro c d front _ _ _
    rw [hq c]
    exact .other fun hw => absurd hw List.not_mem_nil

/-- A branch that takes nothing and notes that tokens of some kinds were looked for.  At the place
    of the failure it is a common branch only if the new token is of none of them. -/
structure Noted (m : Mend) (M : Cursor → Prop) (kinds : TokenKind → Bool) (p : Parse α) : Prop where
  tame : Tame m.setting p
  kept : ∀ {c d}, m.Together c d → (c.rest = m.rest → kinds m.lexeme.token.kind = false) →
    m.Kept M (p c) (p d)

/-- A parse that goes on together does so whatever was looked for. -/
theorem FollowsUnless.noted {p : Parse α} (h : m.FollowsUnless M p) (kinds : TokenKind → Bool) :
    m.Noted M kinds p :=
  ⟨h.tame, fun hcd _ => h.kept hcd⟩

/-- After a look for one of the kinds, the token to be mended is of none that was noted. -/
theorem Noted.expecting {kinds : TokenKind → Bool} {kind : TokenKind} {f : Unit → Parse α}
    (h : m.Noted M kinds (f ())) (hkind : kinds kind = true)
    (ht : kind.isTrivia = false) :
    m.Noted M kinds (expecting (.token kind) >>= f) := by
  have hnoted := Expectation.isNoted_token ht
  refine ⟨(tame_expecting hnoted).bind fun _ => h.tame, fun {c d} hcd hlexeme => ?_⟩
  have hnoting : m.Together (c.noting (.token kind)) (d.noting (.token kind)) := by
    refine hcd.noting hnoted fun hc hwhat => ?_
    have hnone := hlexeme hc
    rw [kind_eq hwhat, hkind] at hnone
    cases hnone
  have hrest : (c.noting (.token kind)).rest = m.rest → kinds m.lexeme.token.kind = false := by
    simpa using hlexeme
  exact h.kept hnoting hrest

/-- After a look for several kinds, what follows is not what was looked for. -/
theorem Noted.expectingAll {kinds : List TokenKind} {f : Unit → Parse α}
    (h : m.FollowsUnless M (f ())) (ht : ∀ kind ∈ kinds, kind.isTrivia = false) :
    m.Noted M (kinds.contains ·) (expectingAll kinds >>= f) := by
  suffices hall : ∀ others : List TokenKind, (∀ kind ∈ others, kind ∈ kinds) →
      m.Noted M (kinds.contains ·) (Parse.expectingAll others >>= f) from hall kinds fun _ h => h
  intro others hothers
  induction others with
  | nil => exact h.noted _
  | cons kind others ih =>
    simp only [List.mem_cons, forall_eq_or_imp] at hothers
    rw [Parse.expectingAll, bind_assoc]
    exact (ih hothers.2).expecting (f := fun _ => _) (by simpa using hothers.1)
      (ht kind hothers.1)

/-- A choice by the next token: it is taken if it is of certain kinds, and otherwise none is. -/
theorem follows_choice {p q : Parse α} {f : Lexeme → Parse α} (kinds : TokenKind → Bool)
    (hother : ∀ {c : Cursor}, (∀ lexeme ∈ c.rest.head?, kinds lexeme.token.kind = false) →
      p c = q c)
    (hfound : ∀ {c : Cursor} {lexeme : Lexeme}, c.rest.head? = some lexeme →
      kinds lexeme.token.kind = true → ∃ expected, p c = f lexeme { c with expected })
    (hq : m.Noted M kinds q)
    (hf : ∀ lexeme : Lexeme, kinds lexeme.token.kind = true → m.Taken M lexeme (f lexeme)) :
    m.FollowsUnless M p := by
  -- At every cursor it is decided by the next lexeme which of the two is run
  have hbranch : ∀ c, p c = q c ∨ ∃ lexeme expected, c.rest.head? = some lexeme ∧
      kinds lexeme.token.kind = true ∧ p c = f lexeme { c with expected } := by
    intro c
    by_cases hfirst : ∃ lexeme ∈ c.rest.head?, kinds lexeme.token.kind = true
    · obtain ⟨lexeme, hhead, hkind⟩ := hfirst
      obtain ⟨expected, he⟩ := hfound hhead hkind
      exact .inr ⟨lexeme, expected, hhead, hkind, he⟩
    · simp only [not_exists, not_and, Bool.not_eq_true] at hfirst
      exact .inl (hother hfirst)
  refine ⟨⟨⟨fun {c a c'} hp => ?_, fun {c e c'} hp hplain => ?_⟩, fun {c e c'} hc hp => ?_⟩,
    fun {c d} h => ?_⟩
  · obtain he | ⟨lexeme, expected, -, hkind, he⟩ := hbranch c <;> rw [he] at hp
    · exact hq.tame.ok hp
    · obtain ⟨hrest, hplain⟩ := (hf lexeme hkind).ok hp
      exact ⟨hrest, fun _ => hplain⟩
  · obtain he | ⟨lexeme, expected, -, hkind, he⟩ := hbranch c <;> rw [he] at hp
    · exact hq.tame.error hp hplain
    · exact fun what hw => ((hf lexeme hkind).error hp what hw).mono List.suffix_rfl
  · rw [hother (by simp [hc])] at hp
    exact hq.tame.stop hc hp
  -- Both cursors stand at the end of what they share, or before the same lexeme
  obtain ⟨hc, hd⟩ | ⟨lexeme, front, hfront, hc, hd⟩ := h.cases
  · obtain hec | ⟨lexeme, expected, hhead, hkind, hec⟩ := hbranch c <;> rw [hec]
    · cases hkind : kinds m.lexeme.token.kind with
      | true =>
        obtain ⟨expected, hed⟩ := @hfound d m.lexeme (by rw [hd]; rfl) hkind
        rw [hed]
        exact .spent ((hf m.lexeme hkind).spent rfl hd)
      | false =>
        rw [@hother d (by simpa [hd] using hkind)]
        exact hq.kept h fun _ => hkind
    · exact (hf lexeme hkind).past (c := { c with expected }) hc hhead _
  · cases hkind : kinds lexeme.token.kind with
    | true =>
      obtain ⟨expected, hec⟩ := @hfound c lexeme (by rw [hc]; rfl) hkind
      obtain ⟨expected', hed⟩ := @hfound d lexeme (by rw [hd]; rfl) hkind
      rw [hec, hed]
      exact (hf lexeme hkind).together hfront hc hd
    | false =>
      rw [@hother c (by simpa [hc] using hkind), @hother d (by simpa [hd] using hkind)]
      exact hq.kept h fun hrest => absurd hrest (Together.ne_rest hc)

/-- A choice that looks at the next token once. -/
theorem follows_peek {f : Option Lexeme → Parse α} (kinds : TokenKind → Bool)
    (hnone : m.Noted M kinds (f none))
    (hother : ∀ lexeme : Lexeme, kinds lexeme.token.kind = false → f (some lexeme) = f none)
    (hsome : ∀ lexeme : Lexeme, kinds lexeme.token.kind = true →
      m.Taken M lexeme (f (some lexeme))) : m.FollowsUnless M (peek >>= f) := by
  refine follows_choice (q := f none) (f := fun lexeme => f (some lexeme)) kinds
    (fun {c} hmissed => ?_) (fun {c lexeme} hhead _ => ⟨c.expected, ?_⟩) hnone hsome
  · rw [peek_bind]
    cases hhead : c.rest.head? with
    | none => rfl
    | some lexeme => rw [hother lexeme (hmissed lexeme hhead)]
  · rw [peek_bind, hhead]

/-- A choice that looks for tokens of several kinds. -/
theorem follows_checkAny? {kinds : List TokenKind} {f : Option Token → Parse α}
    (hnone : m.FollowsUnless M (f none))
    (hsome : ∀ lexeme : Lexeme, lexeme.token.kind ∈ kinds →
      m.Taken M lexeme (f (some lexeme.token)))
    (ht : ∀ kind ∈ kinds, kind.isTrivia = false) :
    m.FollowsUnless M (checkAny? kinds >>= f) := by
  refine follows_choice (q := expectingAll kinds >>= fun _ => f none)
    (f := fun lexeme => f (some lexeme.token)) (kinds.contains ·) (fun {c} hmissed => ?_)
    (fun {c lexeme} hhead hkind => ?_) (.expectingAll hnone ht) fun lexeme hkind => ?_
  · have hne : checkAny? kinds c = _ := checkAny?_of_ne (by simpa using hmissed)
    rw [bind_congr_at hne, bind_assoc]
    rfl
  · obtain ⟨expected, he⟩ := checkAny?_of_mem hhead (by simpa using hkind)
    exact ⟨expected, bind_of_ok he⟩
  · exact hsome lexeme (by simpa using hkind)

/-- A choice between words is tame. -/
theorem tame_expectWord {accept : String → Option α} {words : List Expectation}
    (hwords : ∀ what ∈ words, what.isWord = true) :
    Tame m.setting (expectWord m.setting accept words) := by
  refine ⟨⟨fun {c a c'} hp => ?_, fun {c e c'} hp hplain what hw => ?_⟩, fun {c e c'} hc hp => ?_⟩
  -- A name that is none of the words is the one case of a failure behind a token
  · obtain ⟨token, c₁, hp, hmatch⟩ := bind_eq_ok.1 hp
    obtain ⟨hrest, hplain⟩ := (tame_expect (s := m.setting) .name rfl).ok hp
    cases ha : accept token.value with
    | none => simp only [ha, refuse_ne_ok] at hmatch
    | some a =>
      simp only [ha] at hmatch
      obtain ⟨-, rfl⟩ := pure_eq_ok.1 hmatch
      exact ⟨hrest, hplain⟩
  · obtain ⟨lexeme, hhead, hkind⟩ | hne := next_cases c .name
    · cases ha : accept lexeme.token.value with
      | some a => cases (expectWord_of_some hhead hkind ha).symm.trans hp
      | none =>
        obtain ⟨rfl, rfl⟩ := Result.error.inj ((expectWord_of_none hhead hkind ha).symm.trans hp)
        obtain ⟨rest, hrest⟩ := List.head?_eq_some_iff.1 hhead
        exact .inl ⟨hwords what hw, lexeme, by simp [hrest], rfl⟩
    · obtain ⟨rfl, rfl⟩ := Result.error.inj ((expectWord_of_ne hne).symm.trans hp)
      rw [Cursor.expected_failure] at hw
      exact .inr ⟨hplain.noting rfl what hw, by simp, Cursor.position_failure ..⟩
  · obtain ⟨rfl, rfl⟩ := Result.error.inj ((expectWord_of_ne (by simp [hc])).symm.trans hp)
    simp [Cursor.position, hc]

section Words

variable {accept : String → Option α} {words : List Expectation}
  (hwords : ∀ what ∈ words, ∃ text, what = .word text ∧ Scan.isName text = true ∧
    (accept text).isSome = true)
include hwords

/-- The two parses ask for a word at the place of the failure. -/
private theorem kept_expectWord (hne : words ≠ []) (h : m.Together c d) (hc : c.rest = m.rest)
    (hd : d.rest = [m.lexeme]) :
    m.Kept (fun _ => False) (expectWord m.setting accept words c)
      (expectWord m.setting accept words d) := by
  have hhead : d.rest.head? = some m.lexeme := by rw [hd]; rfl
  have hafter : (d.after m.lexeme.token).rest = [] := by rw [Cursor.rest_after, hd]; rfl
  obtain ⟨lexeme, hfirst, hkind⟩ | hmissed := next_cases c .name
  · cases ha : accept lexeme.token.value with
    | some a =>
      rw [expectWord_of_some hfirst hkind ha]
      exact .past (hc ▸ Cursor.length_rest_after hfirst _) (c.plain_after _)
    -- The failed parse refuses another word, which may be the one that is mended
    | none =>
      rw [expectWord_of_none hfirst hkind ha]
      by_cases hwhat : m.what ∈ words
      · obtain ⟨text, htext, -, haccept⟩ := hwords _ hwhat
        obtain ⟨hkind', hvalue⟩ := Piece.mk.inj (piece_eq htext)
        obtain ⟨a, ha'⟩ := Option.isSome_iff_exists.1 haccept
        rw [expectWord_of_some hhead hkind' (hvalue ▸ ha')]
        exact .spent (.ok hafter)
      · exact .other fun hw => absurd hw hwhat
  -- The failed parse finds no name
  · rw [expectWord_of_ne hmissed]
    by_cases hwhat : m.what = .token .name
    · have hkind := kind_eq hwhat
      cases ha : accept m.lexeme.token.value with
      | some a =>
        rw [expectWord_of_some hhead hkind ha]
        exact .spent (.ok hafter)
      | none =>
        rw [expectWord_of_none hhead hkind ha]
        obtain ⟨what, hw⟩ := List.exists_mem_of_ne_nil _ hne
        obtain ⟨text, rfl, hname, -⟩ := hwords what hw
        exact .spent (.word hwhat hafter hname hw)
    · exact (h.noting rfl fun _ => hwhat).failure _

/-- A choice between words: a name that is none of them is taken and refused. -/
theorem follows_expectWord (hne : words ≠ []) :
    m.Follows (expectWord m.setting accept words) := by
  refine ⟨tame_expectWord fun what hw => ?_, fun {c d} h => ?_⟩
  · obtain ⟨text, rfl, hname, -⟩ := hwords what hw
    exact hname
  -- Where one name was accepted or refused, the other source has the same name
  obtain ⟨hc, hd⟩ | ⟨lexeme, front, hfront, hc, hd⟩ := h.cases
  · exact kept_expectWord hwords hne h hc hd
  have hhead : c.rest.head? = some lexeme := by rw [hc]; rfl
  have hhead' : d.rest.head? = some lexeme := by rw [hd]; rfl
  by_cases hkind : lexeme.token.kind = .name
  · cases ha : accept lexeme.token.value with
    | some a =>
      rw [expectWord_of_some hhead hkind ha, expectWord_of_some hhead' hkind ha]
      exact .together (.after hfront hc hd)
    | none =>
      rw [expectWord_of_none hhead hkind ha]
      -- The refused name has been taken already, so the error is not at what is missing
      refine .other fun hw => ?_
      obtain ⟨text, htext, hname, -⟩ := hwords m.what hw
      rw [Blames, htext, Expectation.isWord, if_pos hname]
      rintro ⟨x, hrest⟩
      have hlength := congrArg List.length hrest
      simp only [Cursor.rest_after, hc, List.tail_cons, List.length_cons,
        List.length_append] at hlength
      omega
  · rw [expectWord_of_ne (by simpa [hhead] using hkind)]
    exact (h.noting rfl fun hrest => absurd hrest (Together.ne_rest hc)).failure _

end Words

/-! ## Loops

The number of rounds is bounded by what is left to read, which differs between the two parses.  It
does not matter, because a round after which there are more has taken a token. -/

/-- Every round after which there are more takes a token. -/
def Advances (round : Parse (Round α)) : Prop :=
  ∀ c a c', round c = .ok (.more a) c' → c'.rest.length < c.rest.length

/-- Rounds that are followed are followed one after another. -/
theorem follows_gather {round : Parse (Round α)} (h : m.Follows round) (hround : Advances round) :
    m.Follows (gather round) := by
  refine ⟨tame_gather h.tame, fun {c d} hcd => ?_⟩
  suffices hwithin : ∀ n k c d, m.Together c d → c.rest.length < n → d.rest.length < k →
      m.Kept (fun _ => False) (gatherWithin round n c) (gatherWithin round k d) from
    hwithin _ _ c d hcd (Nat.lt_succ_self _) (Nat.lt_succ_self _)
  -- Induction on the bound of the failed parse; that of the mended one only has to be large enough
  intro n
  induction n with
  | zero => intro k c d _ hn; omega
  | succ n ih =>
    intro k c d hcd hn hk
    obtain ⟨k, rfl⟩ : ∃ j, k = j + 1 := ⟨k - 1, by omega⟩
    have htame := fun rounds => tame_afterRound (tame_gatherWithin h.tame rounds)
    refine (h.kept hcd).bind (htame n) (htame k) fun found c' d' hc hd hcd' => ?_
    cases found with
    | more item =>
      have hshorter := hround _ _ _ hc
      have hshorter' := hround _ _ _ hd
      refine (ih k c' d' hcd' (by omega) (by omega)).bind (fun _ => .pure _) (fun _ => .pure _) ?_
      exact fun _ _ _ _ _ h => .together h
    | last item => exact .together hcd'
    | done => exact .together hcd'

/-- Steps that are followed are followed one after another. -/
theorem follows_iterate {step : α → Parse (ForInStep α)} (h : ∀ a, m.Follows (step a))
    (hstep : ∀ a c b c', step a c = .ok (.yield b) c' → c'.rest.length < c.rest.length) (a : α) :
    m.Follows (iterate step a) := by
  refine ⟨tame_iterate (fun a => (h a).tame) a, fun {c d} hcd => ?_⟩
  suffices hwithin : ∀ n k a c d, m.Together c d → c.rest.length < n → d.rest.length < k →
      m.Kept (fun _ => False) (iterateWithin step n a c) (iterateWithin step k a d) from
    hwithin _ _ a c d hcd (Nat.lt_succ_self _) (Nat.lt_succ_self _)
  -- Induction on the bound of the failed parse, as for rounds
  intro n
  induction n with
  | zero => intro k a c d _ hn; omega
  | succ n ih =>
    intro k a c d hcd hn hk
    obtain ⟨k, rfl⟩ : ∃ j, k = j + 1 := ⟨k - 1, by omega⟩
    have htame := fun rounds => tame_afterStep (tame_iterateWithin (fun a => (h a).tame) rounds)
    refine ((h a).kept hcd).bind (htame n) (htame k) fun found c' d' hc hd hcd' => ?_
    cases found with
    | yield value =>
      have hshorter := hstep _ _ _ _ hc
      have hshorter' := hstep _ _ _ _ hd
      exact ih k value c' d' hcd' (by omega) (by omega)
    | done value => exact .together hcd'

/-- Semicolons are skipped in both. -/
theorem follows_skipSemicolons : m.Follows skipSemicolons := by
  refine follows_iterate (fun _ => (follows_eats .semicolon rfl).bind fun _ => .pure _) ?_ ()
  intro a c b c' h
  obtain ⟨-, t, -, ht⟩ | ⟨h, -⟩ := semicolonStep_took h
  · exact ht.length_lt
  · cases h

/-- A line in both parses: an item and the semicolons after it. -/
theorem kept_line {item : Parse α} {f g : α → Parse β} {M₁ : Cursor → Prop}
    (hitem : m.FollowsUnless M₁ item) (h : m.Together c d) (htf : ∀ a, Tame m.setting (f a))
    (htg : ∀ a, Tame m.setting (g a))
    (hnext : ∀ {a c₁ d₁ c₂ d₂}, item c = .ok a c₁ → item d = .ok a d₁ →
      skipSemicolons c₁ = .ok () c₂ → skipSemicolons d₁ = .ok () d₂ → m.Together c₂ d₂ →
      m.Kept M (f a c₂) (g a d₂))
    (hmoot : ∀ {a c₁}, item c = .ok a c₁ → M₁ c₁ →
      ∀ z, m.Kept M ((do skipSemicolons; f a) c₁) z) :
    m.Kept M ((do let a ← item; skipSemicolons; f a) c)
      ((do let a ← item; skipSemicolons; g a) d) := by
  refine (hitem.kept h).bindUnless (fun a => follows_skipSemicolons.tame.bind fun _ => htf a)
    (fun a => follows_skipSemicolons.tame.bind fun _ => htg a)
    (fun a c₁ d₁ hp hq h₁ => ?_) fun a c₁ hp hM z => hmoot hp hM z
  exact (follows_skipSemicolons.kept h₁).bind (fun _ => htf a) (fun _ => htg a)
    fun _ c₂ d₂ hs hs' h₂ => hnext hp hq hs hs' h₂

/-- A list of items that are followed is followed. -/
theorem follows_list (close : TokenKind) {item : Parse α} (h : m.Follows item)
    (ht : close.isTrivia = false) : m.Follows (list m.setting close item) := by
  have hround : m.Follows (listRound m.setting close item) := by
    refine (follows_eats close ht).bind fun closed => ?_
    cases closed with
    | true => exact .pure _
    | false =>
      refine h.bind fun value => (follows_eats .comma rfl).bind fun comma => ?_
      cases comma with
      | true => exact .pure _
      | false => exact (follows_expect close ht).bind fun _ => .pure _
  refine follows_gather hround fun c a c' hp => ?_
  -- A round after which there are more has taken a comma
  obtain ⟨closed, c₁, he, hp⟩ := bind_eq_ok.1 hp
  have hshorter := ((@follows_eats m close ht).tame.ok he).1.length_le
  cases closed with
  | true => cases (pure_eq_ok.1 hp).1
  | false =>
    obtain ⟨value, c₂, hi, hp⟩ := bind_eq_ok.1 hp
    have hshorter' := (h.tame.ok hi).1.length_le
    obtain ⟨comma, c₃, he', hp⟩ := bind_eq_ok.1 hp
    obtain ⟨rfl, t, -, ht⟩ | ⟨rfl, -⟩ := eats_took he'
    · obtain ⟨-, rfl⟩ := pure_eq_ok.1 hp
      have := ht.length_lt
      omega
    · obtain ⟨t, c₄, -, hp⟩ := bind_eq_ok.1 hp
      cases (pure_eq_ok.1 hp).1

/-! ## Items between braces -/

/-- The items up to a closing brace, the brace, and what follows. -/
def bodyWithin (m : Mend) (item : Parse α) (rounds : Nat) (f : List α → Parse β) : Parse β := do
  let items ← gatherWithin (bodyRound item) rounds
  let _ ← expect m.setting .rightBrace
  f items

section Body

variable {item : Parse α} {f : List α → Parse β}

/-- A body of tame items is tame. -/
theorem tame_bodyWithin (hitem : Tame m.setting item) (hf : ∀ items, Tame m.setting (f items))
    (rounds : Nat) : Tame m.setting (m.bodyWithin item rounds f) := by
  have hround : Tame m.setting (bodyRound item) := by
    refine (tame_check? .rightBrace rfl).bind fun found => ?_
    split
    · exact .pure _
    · exact hitem.bind fun _ => follows_skipSemicolons.tame.bind fun _ => .pure _
  exact (tame_gatherWithin hround rounds).bind fun items =>
    (tame_expect .rightBrace rfl).bind fun _ => hf items

/-- The brace is taken where it is. -/
theorem bodyWithin_of_kind {lexeme : Lexeme} (h : c.rest.head? = some lexeme)
    (hkind : lexeme.token.kind = .rightBrace) (rounds : Nat) :
    m.bodyWithin item (rounds + 1) f c = f [] (c.after lexeme.token) := by
  rw [bodyWithin, bind_of_ok (gatherWithin_bodyRound_of_kind h hkind rounds),
    bind_of_ok (expect_of_kind h hkind)]

/-- Where no brace comes next, the body goes on with an item and the semicolons behind it. -/
theorem bodyWithin_of_ne (h : ∀ lexeme ∈ c.rest.head?, lexeme.token.kind ≠ .rightBrace)
    (rounds : Nat) :
    m.bodyWithin item (rounds + 1) f c =
      (do
        let value ← item
        skipSemicolons
        m.bodyWithin item rounds fun values => f (value :: values))
        (c.noting (.token .rightBrace)) := by
  rw [bodyWithin, gatherWithin_bodyRound_of_ne h]
  rfl

/-- Where an item leaves the two parses apart, the failed one does not come to the failure that is
    mended, whatever comes after the body. -/
def EndsBody (m : Mend) (M : Cursor → Prop) (item : Parse α) (β : Type) : Prop :=
  ∀ {c : Cursor}, M c → ∀ (rounds : Nat) (f : List α → Parse β) (z : Result ParseError Cursor β),
    (∀ items, Tame m.setting (f items)) →
    (∀ c', skipSemicolons c = .ok () c' → c'.rest.length < rounds) →
    m.Kept (fun _ => False) ((do skipSemicolons; m.bodyWithin item rounds f) c) z

/-- One more item in both parses. -/
private theorem kept_bodyWithin_of_ne (hitem : m.FollowsUnless M item)
    (hround : Advances (bodyRound item)) (hends : m.EndsBody M item β)
    (hf : ∀ items, m.Follows (f items)) (h : m.Together c d)
    (hc : ∀ lexeme ∈ c.rest.head?, lexeme.token.kind ≠ .rightBrace)
    (hd : ∀ lexeme ∈ d.rest.head?, lexeme.token.kind ≠ .rightBrace)
    (hwhat : c.rest = m.rest → m.what ≠ .token .rightBrace) {n k : Nat} (hn : c.rest.length < n + 1)
    (hnext : ∀ (value : α) {c' d' : Cursor}, m.Together c' d' →
      c'.rest.length < c.rest.length → d'.rest.length < d.rest.length →
      m.Kept (fun _ => False) (m.bodyWithin item n (fun values => f (value :: values)) c')
        (m.bodyWithin item k (fun values => f (value :: values)) d')) :
    m.Kept (fun _ => False) (m.bodyWithin item (n + 1) f c) (m.bodyWithin item (k + 1) f d) := by
  have htail : ∀ (rounds : Nat) (value : α), Tame m.setting
      (m.bodyWithin item rounds fun values => f (value :: values)) := fun rounds value =>
    tame_bodyWithin hitem.tame (fun _ => (hf _).tame) rounds
  -- A round takes a lexeme, so what is left after it is shorter
  have hshorter : ∀ {c c₁ c₂ : Cursor} {value : α},
      (∀ lexeme ∈ c.rest.head?, lexeme.token.kind ≠ .rightBrace) →
      item (c.noting (.token .rightBrace)) = .ok value c₁ → skipSemicolons c₁ = .ok () c₂ →
      c₂.rest.length < c.rest.length := by
    intro c c₁ c₂ value hc hp hs
    refine hround c value c₂ ?_
    rw [bodyRound_of_ne hc, bind_of_ok hp, bind_of_ok hs]
    rfl
  rw [bodyWithin_of_ne hc, bodyWithin_of_ne hd]
  refine kept_line hitem (h.noting rfl hwhat) (htail n) (htail k) ?_ fun hp hM z => ?_
  · exact fun hp hq hs hs' h' => hnext _ h' (hshorter hc hp hs) (hshorter hd hq hs')
  · refine hends hM n _ z (fun _ => (hf _).tame) fun c₂ hs => ?_
    have hlt := hshorter hc hp hs
    omega

/-- The items up to a closing brace, the brace, and what follows. -/
theorem kept_bodyWithin (hitem : m.FollowsUnless M item) (hround : Advances (bodyRound item))
    (hends : m.EndsBody M item β) (hf : ∀ items, m.Follows (f items)) (h : m.Together c d)
    {n k : Nat} (hn : c.rest.length < n) (hk : d.rest.length < k) :
    m.Kept (fun _ => False) (m.bodyWithin item n f c) (m.bodyWithin item k f d) := by
  induction n generalizing k c d f with
  | zero => omega
  | succ n ih =>
    obtain ⟨k, rfl⟩ : ∃ j, k = j + 1 := ⟨k - 1, by omega⟩
    -- An item leaves less in both sources, and so the rest is kept by induction
    have hnext : ∀ (value : α) {c' d' : Cursor}, m.Together c' d' →
        c'.rest.length < c.rest.length → d'.rest.length < d.rest.length →
        m.Kept (fun _ => False) (m.bodyWithin item n (fun values => f (value :: values)) c')
          (m.bodyWithin item k (fun values => f (value :: values)) d') :=
      fun _ _ _ h' hlt hlt' => ih (fun _ => hf _) h' (by omega) (by omega)
    -- Only at the end of what is shared may the two sources differ in the next lexeme
    obtain ⟨hc, hd⟩ | ⟨lexeme, front, hfront, hc, hd⟩ := h.cases
    · have hhead : d.rest.head? = some m.lexeme := by rw [hd]; rfl
      by_cases hclosed : ∃ lexeme ∈ c.rest.head?, lexeme.token.kind = .rightBrace
      · obtain ⟨lexeme, hfirst, hkind⟩ := hclosed
        rw [bodyWithin_of_kind hfirst hkind]
        exact .of_past (hf []).tame.toMarked (hc ▸ Cursor.length_rest_after hfirst _)
          (c.plain_after _) _
      · by_cases hkind : m.lexeme.token.kind = .rightBrace
        · rw [bodyWithin_of_kind hhead hkind]
          exact .spent (.of_tame (hf []).tame (by simp [hd]))
        · exact kept_bodyWithin_of_ne hitem hround hends hf h
            (fun lexeme hfirst hkind => hclosed ⟨lexeme, hfirst, hkind⟩)
            (by simpa [hhead] using hkind) (fun _ hwhat => hkind (kind_eq hwhat)) hn hnext
    · have hhead : c.rest.head? = some lexeme := by rw [hc]; rfl
      have hhead' : d.rest.head? = some lexeme := by rw [hd]; rfl
      by_cases hkind : lexeme.token.kind = .rightBrace
      · rw [bodyWithin_of_kind hhead hkind, bodyWithin_of_kind hhead' hkind]
        exact (hf []).kept (.after hfront hc hd)
      · exact kept_bodyWithin_of_ne hitem hround hends hf h (by simpa [hhead] using hkind)
          (by simpa [hhead'] using hkind) (fun hrest => absurd hrest (Together.ne_rest hc)) hn hnext

/-- The whole of a body: all that is read after its opening brace. -/
theorem follows_body (hitem : m.FollowsUnless M item) (hround : Advances (bodyRound item))
    (hends : m.EndsBody M item β) (hf : ∀ items, m.Follows (f items)) :
    m.Follows (do
      let items ← gather (bodyRound item)
      let _ ← expect m.setting .rightBrace
      f items) := by
  have hrun : ∀ c, (do
      let items ← gather (bodyRound item)
      let _ ← expect m.setting .rightBrace
      f items) c = m.bodyWithin item (c.rest.length + 1) f c := fun c => rfl
  refine ⟨.of_eq hrun fun _ => tame_bodyWithin hitem.tame (fun items => (hf items).tame) _,
    fun {c d} h => ?_⟩
  rw [hrun, hrun]
  exact kept_bodyWithin hitem hround hends hf h (Nat.lt_succ_self _) (Nat.lt_succ_self _)

end Body

end Mend

end Schemata
