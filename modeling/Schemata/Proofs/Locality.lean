import Schemata.Parse.Expression
import Schemata.Proofs.ErrorPlaces

/-!
# How far a parse looks

What a parse does is decided by the lexemes that it takes and the one after them.  It neither looks
further nor goes back.

A `Fork` is a place from which a text goes on in two ways.  `Local k p` says of the parse `p` that

- its steps are allowed, it takes lexemes from the front, and a token that it refuses is one of
  those before it (`Sure`)
- before the fork, its runs on the two texts do the same (`Together`)

There is one rule for each way to build a parse.
-/

namespace Schemata

open EStateM (Result)

/-! ## Forks -/

/-- Two ways in which a text goes on from some place. -/
structure Fork where
  left : List Lexeme
  right : List Lexeme
  /-- Whether the left text ends where the right one has a semicolon. -/
  tied : Bool
  ends : tied = true → left = [] ∧ ∃ y ∈ right.head?, y.token.kind = .semicolon

namespace Fork

variable {k : Fork} {c c' d : Cursor}

/-- The fork of which no more is known than how the texts go on. -/
def ofTexts (left right : List Lexeme) : Fork where
  left := left
  right := right
  tied := false
  ends h := absurd h Bool.false_ne_true

/-- The fork without what is known of the ends. -/
def loose (k : Fork) : Fork :=
  ofTexts k.left k.right

/-- The cursors have come to the same place before the fork, the one in the left text and the other
    in the right one. -/
structure Abreast (k : Fork) (c d : Cursor) : Prop where
  rest : ∃ front, c.rest = front ++ k.left ∧ d.rest = front ++ k.right
  lastEnd : c.lastEnd = d.lastEnd
  expected : c.expected = d.expected
  ambiguities : c.ambiguities = d.ambiguities

/-- The cursor in the left text has not come to the fork, unless the texts stay alike there. -/
def Within (k : Fork) (c : Cursor) : Prop :=
  k.tied = true ∨ k.left.length < c.rest.length

/-- The error is at a token, and that is not in the left text beyond the fork. -/
def ComesAfter (k : Fork) (e : ParseError) : Prop :=
  ∃ kind value p expected, e = .unexpectedToken kind value p expected ∧
    ∀ x ∈ k.left, x.token.position ≠ p

/-- A cursor from which a parse came to one before the fork is before the fork itself. -/
theorem Within.of_suffix (h : k.Within c') (hrest : c'.rest <:+ c.rest) : k.Within c := by
  obtain h | h := h
  · exact .inl h
  · exact .inr (Nat.lt_of_lt_of_le h hrest.length_le)

/-- Both cursors are before the same lexeme, or the left text has ended where the right one has a
    semicolon, or nothing is known of what comes next. -/
theorem Abreast.next (h : k.Abreast c d) :
    (∃ x front, c.rest = x :: (front ++ k.left) ∧ d.rest = x :: (front ++ k.right)) ∨
      (k.tied = true ∧ c.rest = [] ∧ ∃ y, d.rest.head? = some y ∧ y.token.kind = .semicolon) ∨
      k.tied = false ∧ c.rest <:+ k.left := by
  obtain ⟨front, hc, hd⟩ := h.rest
  cases front with
  | cons x front => exact .inl ⟨x, front, hc, hd⟩
  | nil =>
    cases htied : k.tied with
    | false => exact .inr (.inr ⟨rfl, hc ▸ List.suffix_rfl⟩)
    | true =>
      obtain ⟨hleft, y, hy, hkind⟩ := k.ends htied
      exact .inr (.inl ⟨rfl, by rw [hc, hleft, List.append_nil], y, by rw [hd]; exact hy, hkind⟩)

/-- Both cursors note the same expectation. -/
theorem Abreast.noting (h : k.Abreast c d) (what : Expectation) :
    k.Abreast (c.noting what) (d.noting what) where
  rest := by simpa using h.rest
  lastEnd := by simpa using h.lastEnd
  expected := by
    unfold Cursor.noting
    rw [h.expected]
    split <;> simp [h.expected]
  ambiguities := by
    -- Whether it was noted before is the same for both
    unfold Cursor.noting
    split <;> split <;> exact h.ambiguities

/-- Both take the lexeme that comes next in both texts. -/
theorem Abreast.after (h : k.Abreast c d) {x : Lexeme} {front : List Lexeme}
    (hc : c.rest = x :: (front ++ k.left)) (hd : d.rest = x :: (front ++ k.right))
    (token : Token) : k.Abreast (c.after token) (d.after token) where
  rest := ⟨front, by simp [hc], by simp [hd]⟩
  lastEnd := rfl
  expected := rfl
  ambiguities := h.ambiguities

end Fork

namespace Parse

variable {α β : Type} {k : Fork} {c c' d : Cursor} {s : Setting}

/-! ## One run and two runs -/

/-- What holds of a run from a cursor, whatever comes next: every step was allowed, what is left is
    the end of what was there, and a token that was refused was there. -/
structure Sure (c : Cursor) (x : Result ParseError Cursor α) : Prop where
  faults : (final x).faults = c.faults
  rest : (final x).rest <:+ c.rest
  place : ∀ kind value p expected c', x = .error (.unexpectedToken kind value p expected) c' →
    ∃ y ∈ c.rest, y.token.kind = kind ∧ y.token.value = value ∧ y.token.position = p

/-- Before the fork, the run in the right text does what the run in the left text does. -/
structure Together (k : Fork) (x y : Result ParseError Cursor α) : Prop where
  ok : ∀ a c', x = .ok a c' → k.Within c' → ∃ d', y = .ok a d' ∧ k.Abreast c' d'
  error : ∀ e c', x = .error e c' → k.ComesAfter e → ∃ d', y = .error e d'

/-- The parse is local from cursors with the given property. -/
structure LocalFrom (k : Fork) (P : Cursor → Prop) (p : Parse α) : Prop where
  sure : ∀ {c}, P c → Sure c (p c)
  together : ∀ {c d}, P c → k.Abreast c d → Together k (p c) (p d)

/-- The parse is local from every cursor. -/
abbrev Local (k : Fork) (p : Parse α) : Prop :=
  LocalFrom k (fun _ => True) p

/-- The parse is local where the given lexeme comes next. -/
abbrev LocalBefore (k : Fork) (x : Lexeme) (p : Parse α) : Prop :=
  LocalFrom k (fun c => c.rest.head? = some x) p

/-- What holds of a run of each step holds of a run of both. -/
theorem Sure.bind {p : Parse α} {f : α → Parse β} (h : Sure c (p c))
    (hf : ∀ a c', p c = .ok a c' → Sure c' (f a c')) : Sure c ((p >>= f) c) := by
  cases hp : p c with
  | error e c₁ =>
    -- The first step fails, and that is the end of it
    rw [hp] at h
    rw [bind_of_error hp]
    refine ⟨h.faults, h.rest, fun kind value position expected c' he => ?_⟩
    obtain ⟨rfl, rfl⟩ := Result.error.inj he
    exact h.place kind value position expected _ rfl
  | ok a c₁ =>
    have hnext := hf a c₁ hp
    rw [hp] at h
    rw [bind_of_ok hp]
    have hrest : c₁.rest <:+ c.rest := h.rest
    refine ⟨hnext.faults.trans h.faults, hnext.rest.trans hrest,
      fun kind value position expected c' he => ?_⟩
    obtain ⟨y, hy, hsame⟩ := hnext.place kind value position expected c' he
    exact ⟨y, hrest.mem hy, hsame⟩

/-- A step that changes neither what comes next nor the faults. -/
theorem Sure.of_same {a : α} (hrest : c'.rest = c.rest) (hfaults : c'.faults = c.faults) :
    Sure c (.ok a c') :=
  ⟨hfaults, hrest ▸ List.suffix_rfl, fun _ _ _ _ _ h => by cases h⟩

/-- Two runs that end at once with the same value are together. -/
theorem Together.of_ok (a : α) (h : k.Abreast c d) : Together k (.ok a c) (.ok a d) := by
  constructor
  · rintro _ _ ⟨⟩ -
    exact ⟨d, rfl, h⟩
  · intro e c' he
    cases he

/-- Two runs are together if the other fails like the first where that counts. -/
theorem Together.of_error {e : ParseError} {y : Result ParseError Cursor α}
    (h : k.ComesAfter e → ∃ d', y = .error e d') : Together k (.error e c) y := by
  constructor
  · intro a c' ha
    cases ha
  · rintro _ _ ⟨⟩ he
    exact h he

/-- A run that begins beyond the fork does not fail before it. -/
private theorem not_comesAfter {x : Result ParseError Cursor α} {e : ParseError}
    (hc : c.rest <:+ k.left) (hsure : Sure c x) (hx : x = .error e c') : ¬k.ComesAfter e := by
  rintro ⟨kind, value, p, expected, rfl, hbefore⟩
  obtain ⟨y, hy, -, -, hposition⟩ := hsure.place kind value p expected c' hx
  exact hbefore y (hc.mem hy) hposition

/-- Beyond the fork there is nothing to compare. -/
theorem Together.of_beyond {x y : Result ParseError Cursor α} (hsure : Sure c x)
    (htied : k.tied = false) (hc : c.rest <:+ k.left) : Together k x y := by
  constructor
  · rintro a c' rfl hwithin
    obtain h | h := hwithin
    · exact absurd (htied.symm.trans h) Bool.false_ne_true
    · have hle := (hsure.rest.trans hc).length_le
      exact absurd h (Nat.not_lt_of_le hle)
  · intro e c' hx he
    exact absurd he (not_comesAfter hc hsure hx)

/-- The first step may be compared at the fork itself, or only before it if the second step never
    ends at the same place. -/
private theorem Together.bindOf {j : Fork} {p : Parse α} {f : α → Parse β}
    (hj : j = k ∨ j = k.loose) (hcd : k.Abreast c d) (hsure : Sure c (p c))
    (h : Together j (p c) (p d))
    (hsure' : ∀ a c', p c = .ok a c' → Sure c' (f a c'))
    (hf : ∀ a c' d', p c = .ok a c' → p d = .ok a d' → k.Abreast c' d' →
      Together k (f a c') (f a d'))
    (hwithin : ∀ a c₁ b c', p c = .ok a c₁ → f a c₁ = .ok b c' → k.Within c' → j.Within c₁) :
    Together k ((p >>= f) c) ((p >>= f) d) := by
  -- Both readings of the first step agree on the left text, on what is abreast and on where errors
  -- are
  have hleft : j.left = k.left ∧ (∀ c d, j.Abreast c d → k.Abreast c d) ∧
      ∀ e, k.ComesAfter e → j.ComesAfter e := by
    obtain rfl | rfl := hj
    · exact ⟨rfl, fun _ _ h => h, fun _ h => h⟩
    · exact ⟨rfl, fun _ _ h => ⟨h.rest, h.lastEnd, h.expected, h.ambiguities⟩, fun _ h => h⟩
  obtain ⟨hleft, habreast, hcomes⟩ := hleft
  constructor
  · intro b c' hp hc'
    obtain ⟨a, c₁, hp, hfa⟩ := bind_eq_ok.1 hp
    obtain ⟨d₁, hq, hcd₁⟩ := h.ok a c₁ hp (hwithin a c₁ b c' hp hfa hc')
    rw [bind_of_ok hq]
    exact (hf a c₁ d₁ hp hq (habreast _ _ hcd₁)).ok b c' hfa hc'
  · intro e c' hp he
    obtain hp | ⟨a, c₁, hp, hfa⟩ := bind_eq_error.1 hp
    · obtain ⟨d', hq⟩ := h.error e c' hp (hcomes e he)
      exact ⟨d', bind_of_error hq⟩
    · -- If the first step came to the fork, the error would be at a token beyond it
      by_cases hc₁ : j.Within c₁
      · obtain ⟨d₁, hq, hcd₁⟩ := h.ok a c₁ hp hc₁
        rw [bind_of_ok hq]
        exact (hf a c₁ d₁ hp hq (habreast _ _ hcd₁)).error e c' hfa he
      · obtain ⟨front, hc, -⟩ := hcd.rest
        rw [hp] at hsure
        -- What the first step left lies beyond the fork, and the error is at a token of it
        have hrest : c₁.rest <:+ k.left := by
          refine List.suffix_of_suffix_length_le hsure.rest (hc ▸ List.suffix_append _ _) ?_
          rw [← hleft]
          exact Nat.le_of_not_lt fun hlt => hc₁ (.inr hlt)
        exact absurd he (not_comesAfter hrest (hsure' a c₁ hp) hfa)

namespace LocalFrom

variable {P Q : Cursor → Prop}

/-- A parse that is local from some cursors is local from fewer. -/
theorem of_imp {p : Parse α} (h : LocalFrom k P p) (hP : ∀ c, Q c → P c) : LocalFrom k Q p :=
  ⟨fun hc => h.sure (hP _ hc), fun hc => h.together (hP _ hc)⟩

/-- A local parse is local before any lexeme. -/
theorem before {p : Parse α} (h : Local k p) (x : Lexeme) : LocalBefore k x p :=
  h.of_imp fun _ _ => trivial

/-- A value that is given back is local. -/
theorem pure (a : α) : LocalFrom k P (pure a : Parse α) :=
  ⟨fun _ => .of_same rfl rfl, fun _ hcd => .of_ok a hcd⟩

/-- What follows may rely on what the first step leaves. -/
theorem bindWhere {p : Parse α} {f : α → Parse β} {Q : α → Cursor → Prop} (h : LocalFrom k P p)
    (hQ : ∀ c a c', P c → p c = .ok a c' → Q a c') (hf : ∀ a, LocalFrom k (Q a) (f a)) :
    LocalFrom k P (p >>= f) where
  sure := fun {c} hc => (h.sure hc).bind fun a c' hp => (hf a).sure (hQ c a c' hc hp)
  together := by
    intro c d hc hcd
    refine Together.bindOf (.inl rfl) hcd (h.sure hc) (h.together hc hcd)
      (fun a c' hp => (hf a).sure (hQ c a c' hc hp))
      (fun a c' d' hp _ hcd' => (hf a).together (hQ c a c' hc hp) hcd') ?_
    intro a c₁ b c' hp hfa hwithin
    have hnext := (hf a).sure (hQ c a c₁ hc hp)
    rw [hfa] at hnext
    exact hwithin.of_suffix hnext.rest

/-- Two local parses in a row are local. -/
theorem bind {p : Parse α} {f : α → Parse β} (h : LocalFrom k P p) (hf : ∀ a, Local k (f a)) :
    LocalFrom k P (p >>= f) :=
  h.bindWhere (fun _ _ _ _ _ => trivial) hf

/-- Where the second step takes a lexeme, the first does not come to the end of the left text. -/
theorem bindLoose {p : Parse α} {f : α → Parse β} (h : LocalFrom k.loose P p)
    (hf : ∀ a, Local k (f a))
    (htakes : ∀ a c b c', f a c = .ok b c' → c'.rest.length < c.rest.length) :
    LocalFrom k P (p >>= f) where
  sure := fun {c} hc => (h.sure hc).bind fun a c' _ => (hf a).sure trivial
  together := by
    intro c d hc hcd
    refine Together.bindOf (.inr rfl) hcd (h.sure hc)
      (h.together hc ⟨hcd.rest, hcd.lastEnd, hcd.expected, hcd.ambiguities⟩)
      (fun a c' _ => (hf a).sure trivial) (fun a c' d' _ _ hcd' => (hf a).together trivial hcd') ?_
    intro a c₁ b c' _ hfa hwithin
    have hlt := htakes a c₁ b c' hfa
    -- The second step has taken a lexeme before it came to the fork
    refine .inr ?_
    show k.left.length < c₁.rest.length
    obtain htied | hwithin := hwithin
    · rw [(k.ends htied).1]
      exact Nat.lt_of_le_of_lt (Nat.zero_le _) hlt
    · exact Nat.lt_trans hwithin hlt

/-- A parse that is a local one wherever it begins. -/
theorem congr {p q : Parse α} (h : LocalFrom k P q) (hpq : ∀ c, p c = q c) : LocalFrom k P p := by
  obtain rfl : p = q := funext hpq
  exact h

/-- A change of the cursor is local if it leaves the lexemes and keeps cursors abreast. -/
theorem modify {f : Cursor → Cursor} (hrest : ∀ c, (f c).rest = c.rest)
    (hfaults : ∀ c, (f c).faults = c.faults)
    (hf : ∀ c d, k.Abreast c d → k.Abreast (f c) (f d)) : Local k (modify f) :=
  ⟨fun {c} _ => .of_same (hrest c) (hfaults c), fun {c d} _ hcd => .of_ok () (hf c d hcd)⟩

/-- A parse that fails, and not at a token. -/
theorem of_fails {p : Parse α} (e : Cursor → ParseError) (h : ∀ c, p c = .error (e c) c)
    (he : ∀ c kind value position expected, e c ≠ .unexpectedToken kind value position expected) :
    LocalFrom k P p where
  sure := by
    intro c _
    rw [h]
    refine ⟨rfl, List.suffix_rfl, fun kind value position expected c' hc => ?_⟩
    exact absurd (Result.error.inj hc).1 (he c kind value position expected)
  together := by
    intro c d _ _
    rw [h]
    refine .of_error ?_
    rintro ⟨kind, value, position, expected, heq, -⟩
    exact absurd heq (he c kind value position expected)

end LocalFrom

/-! ## Steps -/

/-- To note what was expected is local. -/
theorem local_expecting (what : Expectation) : Local k (expecting what) := by
  refine .modify (fun c => Cursor.rest_noting c what) (fun c => ?_) fun c d hcd => hcd.noting what
  split <;> rfl

/-- To note a continuation is local. -/
theorem local_noteContinuation (x : Lexeme) : Local k (noteContinuation x) := by
  unfold noteContinuation
  split
  · exact .modify (fun _ => rfl) (fun _ => rfl) fun c d hcd =>
      ⟨hcd.rest, hcd.lastEnd, hcd.expected, by simp [hcd.ambiguities]⟩
  · exact .pure ()

/-- An allowed step. -/
theorem local_require {fault : Fault} {required : Prop} [Decidable required] (h : required) :
    Local k (require fault required) := by
  refine .modify (fun _ => rfl) (fun c => ?_) fun c d hcd => ?_
  · rw [Cursor.require_of h]
  · rwa [Cursor.require_of h, Cursor.require_of h]

/-- Something nested begins where there is room for it. -/
theorem local_enter {room : Nat} (h : room < s.limit) : Local k (enter s room) := by
  refine .modify (fun _ => rfl) (fun c => ?_) fun c d hcd =>
    ⟨hcd.rest, hcd.lastEnd, hcd.expected, hcd.ambiguities⟩
  show Fault.depth.unless (0 < s.limit - room) c.faults = c.faults
  rw [Fault.unless, if_pos (Nat.sub_pos_of_lt h)]

/-- To span a node is local: its text ends where the last token did, which is the same for both. -/
theorem local_span (start : Position) (node : Node) : Local k (span s start node) := by
  refine ⟨fun _ => .of_same rfl rfl, fun {c d} _ hcd => ?_⟩
  have hspan : span s start node d =
      .ok { node with
        position := start
        lineBreaks := Text.lineBreaks (Text.slice s.text start.offset c.lastEnd)
        text := String.ofList (Text.slice s.text start.offset c.lastEnd) } d := by
    rw [hcd.lastEnd]
    rfl
  rw [hspan]
  exact .of_ok _ hcd

/-- To finish a node is local. -/
theorem local_finish (shape : Shape Node) (start : Position) : Local k (finish s shape start) :=
  local_span start _

/-- A parse that is too deep is local. -/
theorem local_failTooDeep : Local k (failTooDeep s : Parse α) :=
  .of_fails (fun c => .tooDeep s.limit (c.position s)) (fun _ => rfl) fun _ _ _ _ _ h => by cases h

/-- A parse that fails where it stands is local: it names the next token. -/
theorem local_failHere : Local k (failHere s : Parse α) where
  sure := by
    intro c _
    rw [failHere_eq]
    refine ⟨rfl, List.suffix_rfl, fun kind value p expected c' he => ?_⟩
    have hfailure := (Result.error.inj he).1
    unfold Cursor.failure at hfailure
    split at hfailure
    -- The error names the first lexeme that is left
    · next x hx =>
      cases hfailure
      exact ⟨x, List.mem_of_mem_head? hx, rfl, rfl, rfl⟩
    · cases hfailure
  together := by
    intro c d _ hcd
    rw [failHere_eq, failHere_eq]
    refine .of_error ?_
    rintro ⟨kind, value, p, expected, hfailure, hbefore⟩
    refine ⟨d, congrArg (Result.error · d) ?_⟩
    obtain ⟨x, front, hc, hd⟩ | ⟨-, hc, -⟩ | ⟨-, hc⟩ := hcd.next
    · simp [Cursor.failure, hc, hd, hcd.expected]
    · simp [Cursor.failure, hc] at hfailure
    · -- Beyond the fork the error would be at a token there
      unfold Cursor.failure at hfailure
      split at hfailure
      · next x hx =>
        cases hfailure
        exact absurd rfl (hbefore x (hc.mem (List.mem_of_mem_head? hx)))
      · cases hfailure

/-! ## The next token -/

/-- What is done at the end is also done before a semicolon if the left text ends there. -/
theorem local_peek {f : Option Lexeme → Parse β} (hnone : Local k (f none))
    (hsome : ∀ x, LocalBefore k x (f (some x)))
    (hend : k.tied = true → ∀ value text p breaks broken,
      f (some ⟨⟨.semicolon, value, text, p, breaks⟩, broken⟩) = f none) :
    Local k (peek >>= f) := by
  -- The claim about one run goes by what comes next, that about two by where they stand
  have hsure : ∀ c, Sure c ((peek >>= f) c) := by
    intro c
    rw [peek_bind]
    cases hhead : c.rest.head? with
    | none => exact hnone.sure trivial
    | some x => exact (hsome x).sure hhead
  refine ⟨fun {c} _ => hsure c, fun {c d} _ hcd => ?_⟩
  obtain ⟨x, front, hc, hd⟩ | ⟨htied, hc, y, hy, hkind⟩ | ⟨htied, hc⟩ := hcd.next
  · have hx : c.rest.head? = some x := by rw [hc]; rfl
    have hx' : d.rest.head? = some x := by rw [hd]; rfl
    rw [peek_bind, peek_bind, hx, hx']
    exact (hsome x).together hx hcd
  -- The left text has ended where the right one has a semicolon: both do what is done at the end
  · obtain ⟨⟨kind, value, text, p, breaks⟩, broken⟩ := y
    obtain rfl : kind = .semicolon := hkind
    have hnothing : c.rest.head? = none := by rw [hc]; rfl
    rw [peek_bind, peek_bind, hnothing, hy, hend htied]
    exact hnone.together trivial hcd
  · exact .of_beyond (hsure c) htied hc

/-- Taking the next lexeme. -/
theorem local_take (x : Lexeme) : LocalBefore k x (take x.token) := by
  have hsure : ∀ {c : Cursor}, c.rest.head? = some x → Sure c (take x.token c) := by
    intro c hc
    refine ⟨?_, List.tail_suffix _, fun _ _ _ _ _ h => by cases h⟩
    show Fault.token.unless (c.rest.head?.map (·.token) = some x.token) c.faults = c.faults
    rw [hc, Fault.unless, if_pos (Option.map_some ..)]
  -- There is a next lexeme, so the left text has not ended
  refine ⟨hsure, fun {c d} hc hcd => ?_⟩
  obtain ⟨y, front, hc', hd⟩ | ⟨-, hc', -⟩ | ⟨htied, hc'⟩ := hcd.next
  · exact .of_ok () (hcd.after hc' hd x.token)
  · rw [hc'] at hc
    cases hc
  · exact .of_beyond (hsure hc) htied hc'

namespace LocalFrom

variable {x : Lexeme}

/-- A parse is local before a lexeme that it takes first. -/
theorem take {f : Unit → Parse α} (h : Local k (f ())) :
    LocalBefore k x (take x.token >>= f) :=
  (local_take x).bind fun _ => h

/-- A parse may note a continuation before it takes the lexeme. -/
theorem note {f : Unit → Parse α} (h : LocalBefore k x (f ())) (y : Lexeme) :
    LocalBefore k x (noteContinuation y >>= f) := by
  refine ((local_noteContinuation y).before x).bindWhere (fun c u c' hc hp => ?_) fun _ => h
  rw [← (noteContinuation_took hp).1]
  exact hc

/-- A token that is refused after it has been taken. -/
theorem take_refuse {f : α → Parse β} (expected : List Expectation) :
    LocalBefore k x (Parse.take x.token >>= fun _ => refuse x.token expected >>= f) := by
  have hrun : ∀ c, (Parse.take x.token >>= fun _ => refuse x.token expected >>= f) c =
      .error (.unexpectedToken x.token.kind x.token.value x.token.position expected)
        (c.after x.token) := fun c => rfl
  refine ⟨fun {c} hc => ?_, fun {c d} _ _ => ?_⟩
  · have htake := (local_take (k := k) x).sure hc
    rw [hrun]
    refine ⟨htake.faults, htake.rest, fun kind value p expected c' he => ?_⟩
    cases he
    exact ⟨x, List.mem_of_mem_head? hc, rfl, rfl, rfl⟩
  · rw [hrun, hrun]
    exact .of_error fun _ => ⟨_, rfl⟩

/-- The operator of a token that has been taken. -/
theorem take_operator {f : Node → Parse α} (h : ∀ n, Local k (f n)) :
    LocalBefore k x (Parse.take x.token >>= fun _ => operatorNode x.token >>= f) := by
  unfold operatorNode
  cases Operator.ofKind? x.token.kind with
  | some op => exact .take (h _)
  | none => exact .take_refuse _

end LocalFrom

/-- A look for a token that decides what to do at this cursor. -/
private theorem local_look {p : Parse α} (found : Lexeme → Parse α) (missed : Parse α)
    {kind : TokenKind} (hk : k.tied = true → kind ≠ .semicolon)
    (hp : ∀ c, (∀ x, c.rest.head? = some x → x.token.kind = kind → p c = found x c) ∧
      ((∀ x ∈ c.rest.head?, x.token.kind ≠ kind) → p c = missed c))
    (hfound : ∀ x, LocalBefore k x (found x)) (hmissed : Local k missed) : Local k p := by
  have hsure : ∀ c, Sure c (p c) := by
    intro c
    obtain ⟨x, hx, hkind⟩ | hne := next_cases c kind
    · rw [(hp c).1 x hx hkind]
      exact (hfound x).sure hx
    · rw [(hp c).2 hne]
      exact hmissed.sure trivial
  refine ⟨fun {c} _ => hsure c, fun {c d} _ hcd => ?_⟩
  obtain ⟨x, front, hc, hd⟩ | ⟨htied, hc, y, hy, hkind⟩ | ⟨htied, hc⟩ := hcd.next
  · have hx : c.rest.head? = some x := by rw [hc]; rfl
    have hx' : d.rest.head? = some x := by rw [hd]; rfl
    by_cases hkind : x.token.kind = kind
    · rw [(hp c).1 x hx hkind, (hp d).1 x hx' hkind]
      exact (hfound x).together hx hcd
    · rw [(hp c).2 (by simpa [hx] using hkind), (hp d).2 (by simpa [hx'] using hkind)]
      exact hmissed.together trivial hcd
  -- The token looked for is no semicolon, so it is missed in both texts
  · have hsemicolon : y.token.kind ≠ kind := by
      rw [hkind]
      exact (hk htied).symm
    rw [(hp c).2 (by simp [hc]), (hp d).2 (by simpa [hy] using hsemicolon)]
    exact hmissed.together trivial hcd
  · exact .of_beyond (hsure c) htied hc

/-- A look for a kind is local, for a semicolon only if none is known to come. -/
theorem local_check?_of {kind : TokenKind} (hk : k.tied = true → kind ≠ .semicolon) :
    Local k (check? kind) := by
  refine local_look (fun x => pure (some x.token)) (do expecting (.token kind); return none) hk
    (fun c => ⟨fun x hx hkind => ?_, ?_⟩) (fun x => .pure _)
    ((local_expecting _).bind fun _ => .pure _)
  · exact check?_of_kind hx hkind
  · exact fun hne => check?_of_ne hne

/-- To take a token of a kind, if there is one, is local under the same condition. -/
theorem local_eat?_of {kind : TokenKind} (hk : k.tied = true → kind ≠ .semicolon) :
    Local k (eat? kind) := by
  refine local_look (fun x => do take x.token; return some x.token)
    (do expecting (.token kind); return none) hk (fun c => ⟨fun x hx hkind => ?_, ?_⟩)
    (fun x => .take (.pure _)) ((local_expecting _).bind fun _ => .pure _)
  · exact eat?_of_kind hx hkind
  · exact fun hne => eat?_of_ne hne

/-- A look for another kind than semicolons is local. -/
theorem local_check? (kind : TokenKind) (hk : kind != .semicolon) :
    Local k (check? kind) :=
  local_check?_of fun _ => bne_iff_ne.1 hk

/-- To take a token of another kind than semicolons is local. -/
theorem local_eat? (kind : TokenKind) (hk : kind != .semicolon) :
    Local k (eat? kind) :=
  local_eat?_of fun _ => bne_iff_ne.1 hk

/-- A look for several kinds is local if none of them is the semicolon. -/
theorem local_checkAny? {kinds : List TokenKind} (hk : ∀ kind ∈ kinds, kind != .semicolon) :
    Local k (checkAny? kinds) := by
  induction kinds with
  | nil => exact .pure _
  | cons kind kinds ih =>
    simp only [List.mem_cons, forall_eq_or_imp] at hk
    refine (local_check? kind hk.1).bind fun found => ?_
    cases found with
    | some token => exact .pure _
    | none => exact ih hk.2

/-- A choice between a token that was found, which is the next one, and none. -/
theorem local_checkAny?_bind {kinds : List TokenKind} {f : Option Token → Parse α}
    (hnone : Local k (f none)) (hsome : ∀ x : Lexeme, LocalBefore k x (f (some x.token)))
    (hk : ∀ kind ∈ kinds, kind != .semicolon) : Local k (checkAny? kinds >>= f) := by
  refine (local_checkAny? hk).bindWhere
    (Q := fun found c => ∀ token ∈ found, ∃ x : Lexeme, c.rest.head? = some x ∧ x.token = token)
    (fun c found c' _ hp => ?_) fun found => ?_
  · obtain ⟨-, ⟨t, ts, rfl, -, htokens⟩ | ⟨rfl, -⟩⟩ := checkAny?_took hp
    -- The token that was found is that of the next lexeme
    · rintro _ ⟨⟩
      obtain ⟨x, rest, hrest, rfl, -⟩ := List.map_eq_cons_iff.1 htokens
      exact ⟨x, by rw [hrest]; rfl, rfl⟩
    · simp
  · cases found with
    | none => exact hnone.of_imp fun _ _ => trivial
    | some token =>
      constructor
      · intro c hc
        obtain ⟨x, hx, rfl⟩ := hc token rfl
        exact (hsome x).sure hx
      · intro c d hc hcd
        obtain ⟨x, hx, rfl⟩ := hc token rfl
        exact (hsome x).together hx hcd

/-- To take a token of a kind and say whether there was one is local. -/
theorem local_eats (kind : TokenKind) (hk : kind != .semicolon) :
    Local k (eats kind) :=
  (local_eat? kind hk).bind fun _ => .pure _

/-- A choice by whether there is a token of a kind is local if both ways to go on are. -/
theorem local_eats_bind {kind : TokenKind} {f : Bool → Parse α} (htrue : Local k (f true))
    (hfalse : Local k (f false)) (hk : kind != .semicolon) :
    Local k (eats kind >>= f) := by
  refine (local_eats kind hk).bind fun found => ?_
  cases found with
  | true => exact htrue
  | false => exact hfalse

/-- To demand a token of a kind is local. -/
theorem local_expect (kind : TokenKind) (hk : kind != .semicolon) :
    Local k (expect s kind) := by
  refine (local_eat? kind hk).bind fun found => ?_
  cases found with
  | some token => exact .pure _
  | none => exact local_failHere

/-- What follows a token that has to come next, together with taking it. -/
theorem local_expect_bind {kind : TokenKind} {f : Token → Parse α}
    (h : ∀ x : Lexeme, LocalBefore k x (take x.token >>= fun _ => f x.token))
    (hk : kind != .semicolon) : Local k (expect s kind >>= f) := by
  refine local_look (fun x => take x.token >>= fun _ => f x.token)
    (do expecting (.token kind); failHere s) (fun _ => bne_iff_ne.1 hk)
    (fun c => ⟨fun x hx hkind => ?_, fun hne => ?_⟩) h
    ((local_expecting _).bind fun _ => local_failHere)
  · exact bind_of_ok (expect_of_kind hx hkind)
  · exact (bind_of_error (expect_of_ne hne)).trans (failHere_eq _).symm

/-! ## Loops -/

/-- Rounds that are local make a local sequence. -/
theorem local_gather {round : Parse (Round α)} (h : Local k round)
    (hround : ∀ c a c', round c = .ok (.more a) c' → c'.rest.length < c.rest.length) :
    Local k (gather round) := by
  -- The two runs have different bounds on their rounds, so the induction is on a number above the
  -- lexemes left, with one round unrolled at a time
  have hbounded : ∀ n, LocalFrom k (fun c => c.rest.length < n) (gather round) := by
    intro n
    induction n with
    | zero =>
      exact ⟨fun hc => absurd hc (Nat.not_lt_zero _), fun hc => absurd hc (Nat.not_lt_zero _)⟩
    | succ n ih =>
      refine LocalFrom.congr ?_ (gather_eq hround)
      refine (h.of_imp fun _ _ => trivial).bindWhere
        (Q := fun found c => ∀ item, found = .more item → c.rest.length < n)
        (fun c found c' hc hp item hitem => ?_) fun found => ?_
      · subst hitem
        have hlt := hround c item c' hp
        omega
      · cases found with
        | more item => exact (ih.bind fun _ => .pure _).of_imp fun _ hc => hc item rfl
        | last item => exact .pure _
        | done => exact .pure _
  exact ⟨fun {c} _ => (hbounded (c.rest.length + 1)).sure (Nat.lt_succ_self _),
    fun {c d} _ hcd => (hbounded (c.rest.length + 1)).together (Nat.lt_succ_self _) hcd⟩

/-- Steps that are local make a local loop. -/
theorem local_iterate {step : α → Parse (ForInStep α)} (h : ∀ a, Local k (step a))
    (hstep : ∀ a c b c', step a c = .ok (.yield b) c' → c'.rest.length < c.rest.length) (a : α) :
    Local k (iterate step a) := by
  -- The same induction as for `gather`, for any value to start from
  have hbounded : ∀ n a, LocalFrom k (fun c => c.rest.length < n) (iterate step a) := by
    intro n
    induction n with
    | zero =>
      intro a
      exact ⟨fun hc => absurd hc (Nat.not_lt_zero _), fun hc => absurd hc (Nat.not_lt_zero _)⟩
    | succ n ih =>
      intro a
      refine LocalFrom.congr ?_ (iterate_eq hstep a)
      refine ((h a).of_imp fun _ _ => trivial).bindWhere
        (Q := fun found c => ∀ b, found = .yield b → c.rest.length < n)
        (fun c found c' hc hp b hb => ?_) fun found => ?_
      · subst hb
        have hlt := hstep a c b c' hp
        omega
      · cases found with
        | yield b => exact (ih b).of_imp fun _ hc => hc b rfl
        | done b => exact .pure _
  exact ⟨fun {c} _ => (hbounded (c.rest.length + 1) a).sure (Nat.lt_succ_self _),
    fun {c d} _ hcd => (hbounded (c.rest.length + 1) a).together (Nat.lt_succ_self _) hcd⟩

/-- Semicolons are skipped alike unless one of the texts ends where the other has one. -/
theorem local_skipSemicolons (hk : k.tied = false) : Local k skipSemicolons := by
  refine local_iterate (fun _ => ?_) (fun _ c b c' h => ?_) ()
  · refine LocalFrom.bind ?_ fun _ => .pure _
    exact (local_eat?_of fun htied => absurd (hk.symm.trans htied) Bool.false_ne_true).bind
      fun _ => .pure _
  · obtain ⟨-, t, -, ht⟩ | ⟨h, -⟩ := semicolonStep_took h
    · exact ht.length_lt
    · cases h

/-- Items between commas. -/
theorem local_list (close : TokenKind) {item : Parse α} (h : Local k item)
    (hk : close != .semicolon) : Local k (list s close item) := by
  refine local_gather ?_ fun c a c' hp => ?_
  · refine local_eats_bind (.pure _) ?_ hk
    refine h.bind fun value => local_eats_bind (.pure _) ?_ rfl
    exact (local_expect close hk).bind fun _ => .pure _
  · -- A comma comes after every item but the last
    obtain ⟨closed, c₁, he, hp⟩ := bind_eq_ok.1 hp
    obtain ⟨rfl, -⟩ | ⟨rfl, ht, -⟩ := eats_took he
    · obtain ⟨hr, -⟩ := pure_eq_ok.1 hp
      cases hr
    · obtain ⟨value, c₂, hi, hp⟩ := bind_eq_ok.1 hp
      have hitem : Sure c₁ (item c₁) := h.sure trivial
      rw [hi] at hitem
      have hle : c₂.rest.length ≤ c.rest.length := by
        rw [ht.length_eq, List.length_nil, Nat.zero_add]
        exact hitem.rest.length_le
      obtain ⟨comma, c₃, he', hp⟩ := bind_eq_ok.1 hp
      obtain ⟨rfl, t, -, ht'⟩ | ⟨rfl, -⟩ := eats_took he'
      · obtain ⟨-, rfl⟩ := pure_eq_ok.1 hp
        exact Nat.lt_of_lt_of_le ht'.length_lt hle
      · obtain ⟨t, c₄, -, hp⟩ := bind_eq_ok.1 hp
        obtain ⟨hr, -⟩ := pure_eq_ok.1 hp
        cases hr

end Parse

end Schemata
