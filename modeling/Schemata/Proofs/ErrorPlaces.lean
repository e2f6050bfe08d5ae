import Schemata.Proofs.Cursor

/-!
# Where errors are

A parse that fails says what it expected, and where.  What each step does depends on the next token
only, and what it expected stands in the place of the next token, or, if it was a certain word, in
the place of the token just taken.

`Tame` says this of a parse, and that with nothing left to read it fails at the end of the source.

The loops are taken apart by the equations `gather_eq` and `iterate_eq`, in which their bounds do
not occur.
-/

namespace Schemata

namespace Expectation

/-- Whether a certain name was expected. -/
def isWord : Expectation → Bool
  | word text => Scan.isName text
  | _ => false

/-- Whether a failed look at the next token notes this.  No token that only separates others is ever
    looked for. -/
def isNoted : Expectation → Bool
  | token kind => !kind.isTrivia
  | expression | statement => true
  | operator | word _ => false

/-- A token that does not only separate others is noted. -/
theorem isNoted_token {kind : TokenKind} (h : kind.isTrivia = false) :
    (token kind).isNoted = true := by
  rw [isNoted, h]
  rfl

/-- A certain name is not noted by a look at the next token. -/
theorem isWord_of_isNoted {what : Expectation} (h : what.isNoted = true) : what.isWord = false := by
  cases what with
  | word text => cases h
  | _ => rfl

end Expectation

/-- The cursor after a failed look for something. -/
def Cursor.noting (c : Cursor) (what : Expectation) : Cursor :=
  if c.expected.contains what then c else { c with expected := c.expected ++ [what] }

namespace Cursor

/-- Only what is expected may change. -/
theorem noting_eq (c : Cursor) (what : Expectation) :
    ∃ expected, c.noting what = { c with expected } := by
  unfold noting
  split
  · exact ⟨c.expected, rfl⟩
  · exact ⟨_, rfl⟩

/-- To note something takes nothing. -/
@[simp] theorem rest_noting (c : Cursor) (what : Expectation) :
    (c.noting what).rest = c.rest := by
  unfold noting
  split <;> rfl

/-- To note something leaves the last end as it is. -/
@[simp] theorem lastEnd_noting (c : Cursor) (what : Expectation) :
    (c.noting what).lastEnd = c.lastEnd := by
  unfold noting
  split <;> rfl

/-- What is noted is what was noted before, and the new one. -/
@[simp] theorem mem_noting {c : Cursor} {what other : Expectation} :
    other ∈ (c.noting what).expected ↔ other ∈ c.expected ∨ other = what := by
  unfold noting
  split
  · next h =>
    have hmem : what ∈ c.expected := by simpa using h
    constructor
    · exact .inl
    · rintro (h | rfl)
      · exact h
      · exact hmem
  · simp

/-- Nothing is noted but what failed looks at the next token note. -/
def Plain (c : Cursor) : Prop :=
  ∀ what ∈ c.expected, what.isNoted = true

/-- A failed look keeps a cursor plain. -/
theorem Plain.noting {c : Cursor} (h : c.Plain) {what : Expectation} (hw : what.isNoted = true) :
    (c.noting what).Plain := by
  intro other hmem
  obtain hmem | rfl := mem_noting.1 hmem
  · exact h other hmem
  · exact hw

/-- Where a token was taken, nothing is noted yet. -/
theorem plain_after (c : Cursor) (token : Token) : (c.after token).Plain :=
  fun _ hmem => absurd hmem List.not_mem_nil

/-- The error of failing here. -/
def failure (s : Setting) (c : Cursor) : ParseError :=
  match c.rest.head? with
  | some lexeme =>
    .unexpectedToken lexeme.token.kind lexeme.token.value lexeme.token.position c.expected
  | none => .unexpectedEnd s.stop c.expected

/-- A failure says what was noted. -/
@[simp] theorem expected_failure (s : Setting) (c : Cursor) :
    (c.failure s).expected = c.expected := by
  unfold failure
  split <;> rfl

/-- A failure is where the cursor is. -/
@[simp] theorem position_failure (s : Setting) (c : Cursor) :
    (c.failure s).position = c.position s := by
  unfold failure Cursor.position
  cases c.rest.head? <;> rfl

@[simp] theorem rest_after (c : Cursor) (token : Token) : (c.after token).rest = c.rest.tail := rfl

/-- After a token there is less left to read. -/
theorem length_rest_after {c : Cursor} {lexeme : Lexeme} (h : c.rest.head? = some lexeme)
    (token : Token) : (c.after token).rest.length < c.rest.length := by
  obtain ⟨rest, hrest⟩ := List.head?_eq_some_iff.1 h
  simp [hrest]

@[simp] theorem expected_after (c : Cursor) (token : Token) : (c.after token).expected = [] := rfl

end Cursor

namespace Parse

open EStateM (Result)

variable {α β : Type} {c c' : Cursor} {s : Setting}

/-! ## Steps that look at the next token -/

/-- Two steps in a row fail just if the first does, or the second after it. -/
theorem bind_eq_error {p : Parse α} {f : α → Parse β} {e : ParseError} :
    (p >>= f) c = .error e c' ↔
      p c = .error e c' ∨ ∃ a c₁, p c = .ok a c₁ ∧ f a c₁ = .error e c' := by
  change EStateM.bind p f c = _ ↔ _
  simp only [EStateM.bind]
  cases h : p c with
  | ok a c₁ => simp
  | error e c₁ => simp

/-- After a step that succeeds comes the next one, from where it stopped. -/
theorem bind_of_ok {p : Parse α} {f : α → Parse β} {a : α} (h : p c = .ok a c') :
    (p >>= f) c = f a c' := by
  change EStateM.bind p f c = _
  simp only [EStateM.bind, h]

/-- After a step that fails comes nothing. -/
theorem bind_of_error {p : Parse α} {f : α → Parse β} {e : ParseError} (h : p c = .error e c') :
    (p >>= f) c = .error e c' := by
  change EStateM.bind p f c = _
  simp only [EStateM.bind, h]

/-- What follows two steps that end alike ends alike. -/
theorem bind_congr_at {p q : Parse α} {f : α → Parse β} (h : p c = q c') :
    (p >>= f) c = (q >>= f) c' := by
  change EStateM.bind p f c = EStateM.bind q f c'
  simp only [EStateM.bind, h]

/-- To fail here is to end with the failure of the cursor. -/
theorem failHere_eq (c : Cursor) : (failHere s : Parse α) c = .error (c.failure s) c := by
  rw [failHere, bind_of_ok (get_eq_ok.2 ⟨rfl, rfl⟩), Cursor.failure]
  cases c.rest.head? <;> rfl

/-- A look for the kind of the next token finds it. -/
theorem check?_of_kind {kind : TokenKind} {lexeme : Lexeme} (h : c.rest.head? = some lexeme)
    (hkind : lexeme.token.kind = kind) : check? kind c = .ok (some lexeme.token) c := by
  rw [check?, peek_bind, h]
  simp only [hkind, if_true]
  rfl

/-- A look for another kind notes that it was expected. -/
theorem check?_of_ne {kind : TokenKind} (h : ∀ lexeme ∈ c.rest.head?, lexeme.token.kind ≠ kind) :
    check? kind c = .ok none (c.noting (.token kind)) := by
  rw [check?, peek_bind]
  cases hhead : c.rest.head? with
  | none => rfl
  | some lexeme =>
    simp only [h lexeme hhead, if_false]
    rfl

/-- A token of the kind that comes next is taken. -/
theorem eat?_of_kind {kind : TokenKind} {lexeme : Lexeme} (h : c.rest.head? = some lexeme)
    (hkind : lexeme.token.kind = kind) :
    eat? kind c = .ok (some lexeme.token) (c.after lexeme.token) := by
  rw [eat?, bind_of_ok (check?_of_kind h hkind)]
  rfl

/-- Without such a token, the kind is noted as expected. -/
theorem eat?_of_ne {kind : TokenKind} (h : ∀ lexeme ∈ c.rest.head?, lexeme.token.kind ≠ kind) :
    eat? kind c = .ok none (c.noting (.token kind)) := by
  rw [eat?, bind_of_ok (check?_of_ne h)]
  rfl

/-- A token that has to come is taken if it comes next. -/
theorem expect_of_kind {kind : TokenKind} {lexeme : Lexeme} (h : c.rest.head? = some lexeme)
    (hkind : lexeme.token.kind = kind) :
    expect s kind c = .ok lexeme.token (c.after lexeme.token) := by
  rw [expect, bind_of_ok (eat?_of_kind h hkind)]
  rfl

/-- If it does not come next, the parse fails there. -/
theorem expect_of_ne {kind : TokenKind} (h : ∀ lexeme ∈ c.rest.head?, lexeme.token.kind ≠ kind) :
    expect s kind c =
      .error ((c.noting (.token kind)).failure s) (c.noting (.token kind)) := by
  rw [expect, bind_of_ok (eat?_of_ne h)]
  exact failHere_eq _

/-- Before a semicolon, a step takes it. -/
theorem semicolonStep_of_kind {lexeme : Lexeme} (h : c.rest.head? = some lexeme)
    (hkind : lexeme.token.kind = .semicolon) :
    semicolonStep c = .ok (.yield ()) (c.after lexeme.token) := by
  rw [semicolonStep, eats, bind_assoc, bind_of_ok (eat?_of_kind h hkind)]
  rfl

/-- Before anything else, no semicolon is skipped. -/
theorem skipSemicolons_of_ne (h : ∀ lexeme ∈ c.rest.head?, lexeme.token.kind ≠ .semicolon) :
    skipSemicolons c = .ok () (c.noting (.token .semicolon)) := by
  refine skipSemicolons_eq_ok.2 (.done ?_)
  rw [semicolonStep, eats, bind_assoc, bind_of_ok (eat?_of_ne h)]
  rfl

/-- Notes that tokens of the given kinds were looked for. -/
def expectingAll : List TokenKind → Parse Unit
  | [] => pure ()
  | kind :: kinds => do
    expecting (.token kind)
    expectingAll kinds

/-- Takes a name that is one of the given words. -/
def expectWord (s : Setting) (accept : String → Option α) (words : List Expectation) :
    Parse α := do
  let token ← expect s .name
  match accept token.value with
  | some a => return a
  | none => refuse token words

section Words

variable {accept : String → Option α} {words : List Expectation} {lexeme : Lexeme}

/-- A name that is one of the words is accepted. -/
theorem expectWord_of_some (h : c.rest.head? = some lexeme) (hkind : lexeme.token.kind = .name)
    {a : α} (ha : accept lexeme.token.value = some a) :
    expectWord s accept words c = .ok a (c.after lexeme.token) := by
  rw [expectWord, bind_of_ok (expect_of_kind h hkind)]
  simp only [ha]
  rfl

/-- A name that is none of the words is refused after it has been taken. -/
theorem expectWord_of_none (h : c.rest.head? = some lexeme) (hkind : lexeme.token.kind = .name)
    (ha : accept lexeme.token.value = none) :
    expectWord s accept words c =
      .error (.unexpectedToken lexeme.token.kind lexeme.token.value lexeme.token.position words)
        (c.after lexeme.token) := by
  rw [expectWord, bind_of_ok (expect_of_kind h hkind)]
  simp only [ha]
  rfl

/-- Before anything but a name, the parse fails, and a name was expected. -/
theorem expectWord_of_ne (h : ∀ lexeme ∈ c.rest.head?, lexeme.token.kind ≠ .name) :
    expectWord s accept words c =
      .error ((c.noting (.token .name)).failure s) (c.noting (.token .name)) :=
  bind_of_error (expect_of_ne h)

end Words

/-- The next token is of the given kind, or it is not. -/
theorem next_cases (c : Cursor) (kind : TokenKind) :
    (∃ lexeme, c.rest.head? = some lexeme ∧ lexeme.token.kind = kind) ∨
      ∀ lexeme ∈ c.rest.head?, lexeme.token.kind ≠ kind := by
  by_cases h : ∃ lexeme, c.rest.head? = some lexeme ∧ lexeme.token.kind = kind
  · exact .inl h
  · exact .inr fun lexeme hhead hkind => h ⟨lexeme, hhead, hkind⟩

/-- The bound on the rounds of a sequence does not matter if every round that finds more takes a
    token. -/
private theorem gatherWithin_congr {round : Parse (Round α)}
    (hround : ∀ c a c', round c = .ok (.more a) c' → c'.rest.length < c.rest.length) {n m : Nat}
    (hn : c.rest.length < n) (hm : c.rest.length < m) :
    gatherWithin round n c = gatherWithin round m c := by
  induction n generalizing m c with
  | zero => omega
  | succ n ih =>
    -- The bounds are not zero, and one round takes a token from what either has left
    obtain ⟨m, rfl⟩ : ∃ m', m = m' + 1 := ⟨m - 1, by omega⟩
    rw [gatherWithin, gatherWithin]
    cases hr : round c with
    | error e c' => rw [bind_of_error hr, bind_of_error hr]
    | ok found c' =>
      rw [bind_of_ok hr, bind_of_ok hr]
      cases found with
      | more item =>
        have hlt := hround c item c' hr
        exact bind_congr_at (ih (by omega) (by omega))
      | last item => rfl
      | done => rfl

/-- A sequence begins with its first round, and goes on like a sequence from there. -/
theorem gather_eq {round : Parse (Round α)}
    (hround : ∀ c a c', round c = .ok (.more a) c' → c'.rest.length < c.rest.length) (c : Cursor) :
    gather round c =
      (do
        match ← round with
        | .more item => return item :: (← gather round)
        | .last item => return [item]
        | .done => return []) c := by
  show gatherWithin round (c.rest.length + 1) c = _
  rw [gatherWithin]
  cases hr : round c with
  | error e c' => rw [bind_of_error hr, bind_of_error hr]
  | ok found c' =>
    rw [bind_of_ok hr, bind_of_ok hr]
    cases found with
    | more item =>
      have hlt := hround c item c' hr
      -- The rounds that are left are enough, since the first took something
      refine bind_congr_at (?_ : gatherWithin round c.rest.length c' = gather round c')
      exact gatherWithin_congr hround hlt (Nat.lt_succ_self _)
    | last item => rfl
    | done => rfl

/-- The bound on the steps does not matter either if every step that goes on takes a token. -/
private theorem iterateWithin_congr {step : α → Parse (ForInStep α)}
    (hstep : ∀ a c b c', step a c = .ok (.yield b) c' → c'.rest.length < c.rest.length) {n m : Nat}
    (hn : c.rest.length < n) (hm : c.rest.length < m) (a : α) :
    iterateWithin step n a c = iterateWithin step m a c := by
  induction n generalizing m c a with
  | zero => omega
  | succ n ih =>
    obtain ⟨m, rfl⟩ : ∃ m', m = m' + 1 := ⟨m - 1, by omega⟩
    rw [iterateWithin, iterateWithin]
    cases hs : step a c with
    | error e c' => rw [bind_of_error hs, bind_of_error hs]
    | ok found c' =>
      rw [bind_of_ok hs, bind_of_ok hs]
      cases found with
      | yield b =>
        have hlt := hstep a c b c' hs
        exact ih (by omega) (by omega) b
      | done b => rfl

/-- A growing value takes its first step, and grows on from there. -/
theorem iterate_eq {step : α → Parse (ForInStep α)}
    (hstep : ∀ a c b c', step a c = .ok (.yield b) c' → c'.rest.length < c.rest.length) (a : α)
    (c : Cursor) :
    iterate step a c =
      (do
        match ← step a with
        | .yield b => iterate step b
        | .done b => return b) c := by
  show iterateWithin step (c.rest.length + 1) a c = _
  rw [iterateWithin]
  cases hs : step a c with
  | error e c' => rw [bind_of_error hs, bind_of_error hs]
  | ok found c' =>
    rw [bind_of_ok hs, bind_of_ok hs]
    cases found with
    | yield b =>
      have hlt := hstep a c b c' hs
      exact iterateWithin_congr hstep hlt (Nat.lt_succ_self _) b
    | done b => rfl

/-- A round of the items between braces. -/
def bodyRound (item : Parse α) : Parse (Round α) := do
  if (← check? .rightBrace).isSome then return .done
  let value ← item
  skipSemicolons
  return .more value

/-- The items end before a brace. -/
theorem gatherWithin_bodyRound_of_kind {item : Parse α} {lexeme : Lexeme}
    (h : c.rest.head? = some lexeme) (hkind : lexeme.token.kind = .rightBrace) (rounds : Nat) :
    gatherWithin (bodyRound item) (rounds + 1) c = .ok [] c := by
  have hround : bodyRound item c = .ok .done c := bind_of_ok (check?_of_kind h hkind)
  rw [gatherWithin, bind_of_ok hround]
  rfl

/-- A round before anything but a brace reads an item. -/
theorem bodyRound_of_ne {item : Parse α}
    (h : ∀ lexeme ∈ c.rest.head?, lexeme.token.kind ≠ .rightBrace) :
    bodyRound item c =
      (do
        let value ← item
        skipSemicolons
        return Round.more value) (c.noting (.token .rightBrace)) :=
  bind_of_ok (check?_of_ne h)

/-- Before anything else there is one more. -/
theorem gatherWithin_bodyRound_of_ne {item : Parse α} {f : List α → Parse β}
    (h : ∀ lexeme ∈ c.rest.head?, lexeme.token.kind ≠ .rightBrace) (rounds : Nat) :
    (gatherWithin (bodyRound item) (rounds + 1) >>= f) c =
      (do
        let value ← item
        skipSemicolons
        let values ← gatherWithin (bodyRound item) rounds
        f (value :: values)) (c.noting (.token .rightBrace)) := by
  rw [gatherWithin, bind_assoc, bind_congr_at (bodyRound_of_ne h)]
  simp only [bind_assoc, pure_bind]

/-- A look for several kinds finds the next token if it is of one of them, and notes those before.
    -/
theorem checkAny?_of_mem {kinds : List TokenKind} {lexeme : Lexeme}
    (h : c.rest.head? = some lexeme) (hkind : lexeme.token.kind ∈ kinds) :
    ∃ expected, checkAny? kinds c = .ok (some lexeme.token) { c with expected } := by
  induction kinds generalizing c with
  | nil => cases hkind
  | cons kind kinds ih =>
    -- The kinds are tried in their order; those before the right one are noted
    by_cases hfirst : lexeme.token.kind = kind
    · refine ⟨c.expected, ?_⟩
      rw [checkAny?, bind_of_ok (check?_of_kind h hfirst)]
      rfl
    · have hmissed : ∀ other ∈ c.rest.head?, other.token.kind ≠ kind := by simpa [h] using hfirst
      obtain ⟨noted, hnoting⟩ := c.noting_eq (.token kind)
      rw [checkAny?, bind_of_ok (check?_of_ne hmissed), hnoting]
      exact @ih { c with expected := noted } h ((List.mem_cons.1 hkind).resolve_left hfirst)

/-- A look for several kinds that fails has noted all of them. -/
theorem checkAny?_of_ne {kinds : List TokenKind}
    (h : ∀ lexeme ∈ c.rest.head?, lexeme.token.kind ∉ kinds) :
    checkAny? kinds c = (expectingAll kinds >>= fun _ => (pure none : Parse (Option Token))) c := by
  induction kinds generalizing c with
  | nil => rfl
  | cons kind kinds ih =>
    simp only [List.mem_cons, not_or] at h
    rw [checkAny?, bind_of_ok (check?_of_ne fun lexeme hl => (h lexeme hl).1)]
    exact ih (by simpa using fun lexeme hl => (h lexeme hl).2)

/-! ## Where errors are -/

/-- Something was expected at the place of the error: a word in the place of a token that has been
    taken, or anything else in the place of what is left. -/
def Located (s : Setting) (c : Cursor) (e : ParseError) (c' : Cursor) (what : Expectation) : Prop :=
  (what.isWord = true ∧ ∃ x, x :: c'.rest <:+ c.rest ∧ e.position = x.token.position) ∨
    what.isNoted = true ∧ c'.rest <:+ c.rest ∧ e.position = c'.position s

/-- What is located from a later cursor is located from an earlier one. -/
theorem Located.mono {c₁ : Cursor} {e : ParseError} {what : Expectation}
    (h : Located s c₁ e c' what) (hc : c₁.rest <:+ c.rest) : Located s c e c' what := by
  obtain ⟨hword, x, hx, hposition⟩ | ⟨hnoted, hrest, hposition⟩ := h
  · exact .inl ⟨hword, x, hx.trans hc, hposition⟩
  · exact .inr ⟨hnoted, hrest.trans hc, hposition⟩

/-- A parse takes tokens from the front, and every error in which something was expected is
    located. -/
structure Marked (s : Setting) (p : Parse α) : Prop where
  ok : ∀ {c a c'}, p c = .ok a c' → c'.rest <:+ c.rest ∧ (c.Plain → c'.Plain)
  error : ∀ {c e c'}, p c = .error e c' → c.Plain → ∀ what ∈ e.expected, Located s c e c' what

/-- Besides, an error with nothing left to read is at the end. -/
structure Tame (s : Setting) (p : Parse α) : Prop extends Marked s p where
  stop : ∀ {c e c'}, c.rest = [] → p c = .error e c' → e.position = s.stop

/-- Two marked parses in a row are marked, where the second may rely on the first. -/
theorem Marked.bindWhere {p : Parse α} {f : α → Parse β} (h : Marked s p)
    (hf : ∀ {c a c'}, p c = .ok a c' → Marked s (f a)) : Marked s (p >>= f) where
  ok := by
    intro c b c' hp
    obtain ⟨a, c₁, hp, hfa⟩ := bind_eq_ok.1 hp
    obtain ⟨hrest, hplain⟩ := h.ok hp
    obtain ⟨hrest', hplain'⟩ := (hf hp).ok hfa
    exact ⟨hrest'.trans hrest, fun hc => hplain' (hplain hc)⟩
  error := by
    intro c e c' hp hc what hw
    obtain hp | ⟨a, c₁, hp, hfa⟩ := bind_eq_error.1 hp
    · exact h.error hp hc what hw
    · obtain ⟨hrest, hplain⟩ := h.ok hp
      exact ((hf hp).error hfa (hplain hc) what hw).mono hrest

/-- Two marked parses in a row are marked. -/
theorem Marked.bind {p : Parse α} {f : α → Parse β} (h : Marked s p) (hf : ∀ a, Marked s (f a)) :
    Marked s (p >>= f) :=
  h.bindWhere fun _ => hf _

/-- An error that expects nothing is marked. -/
theorem Marked.throw {e : ParseError} (h : e.expected = []) : Marked s (throw e : Parse α) where
  ok := fun hp => absurd hp throw_ne_ok
  error := by
    intro c e' c' hp
    obtain ⟨rfl, rfl⟩ := Result.error.inj hp
    simp [h]

namespace Tame

/-- With nothing left to read, a tame parse leaves nothing. -/
theorem rest_eq_nil {p : Parse α} (h : Tame s p) {a : α} (hc : c.rest = [])
    (hp : p c = .ok a c') : c'.rest = [] :=
  List.suffix_nil.1 (hc ▸ (h.ok hp).1)

/-- Two tame parses in a row are tame. -/
theorem bind {p : Parse α} {f : α → Parse β} (h : Tame s p) (hf : ∀ a, Tame s (f a)) :
    Tame s (p >>= f) where
  toMarked := h.toMarked.bind fun a => (hf a).toMarked
  stop := by
    intro c e c' hc hp
    obtain hp | ⟨a, c₁, hp, hfa⟩ := bind_eq_error.1 hp
    · exact h.stop hc hp
    · exact (hf a).stop (h.rest_eq_nil hc hp) hfa

/-- A parse that is a tame one wherever it begins. -/
theorem of_eq {p : Parse α} {q : Cursor → Parse α} (h : ∀ c, p c = q c c)
    (hq : ∀ c, Tame s (q c)) : Tame s p where
  ok := fun {c _ _} hp => (hq c).ok ((h c).symm.trans hp)
  error := fun {c _ _} hp => (hq c).error ((h c).symm.trans hp)
  stop := fun {c _ _} hc hp => (hq c).stop hc ((h c).symm.trans hp)

/-- A step that cannot fail. -/
theorem of_ok {p : Parse α}
    (h : ∀ c, ∃ a c', p c = .ok a c' ∧ c'.rest <:+ c.rest ∧ (c.Plain → c'.Plain)) : Tame s p where
  ok := by
    intro c a c' hp
    obtain ⟨_, _, hp', hrest⟩ := h c
    obtain ⟨rfl, rfl⟩ := Result.ok.inj (hp'.symm.trans hp)
    exact hrest
  error := by
    intro c e c' hp
    obtain ⟨_, _, hp', -⟩ := h c
    cases hp'.symm.trans hp
  stop := by
    intro c e c' _ hp
    obtain ⟨_, _, hp', -⟩ := h c
    cases hp'.symm.trans hp

/-- A value that is given back is tame. -/
theorem pure (a : α) : Tame s (pure a : Parse α) :=
  .of_ok fun c => ⟨a, c, rfl, List.suffix_rfl, id⟩

/-- A step that changes nothing but what was noted besides. -/
theorem modify {f : Cursor → Cursor} (hrest : ∀ c, (f c).rest = c.rest)
    (hexpected : ∀ c, (f c).expected = c.expected) : Tame s (modify f) := by
  refine .of_ok fun c => ⟨(), f c, rfl, hrest c ▸ List.suffix_rfl, fun h => ?_⟩
  rwa [Cursor.Plain, hexpected]

end Tame

/-- To look at the next token is tame. -/
theorem tame_peek : Tame s peek :=
  .of_ok fun c => ⟨_, c, rfl, List.suffix_rfl, id⟩

/-- To take a token is tame: nothing is noted afterwards. -/
theorem tame_take (token : Token) : Tame s (take token) :=
  .of_ok fun c => ⟨(), c.after token, rfl, List.tail_suffix _, fun _ => c.plain_after token⟩

/-- To note something that is noted by looks is tame. -/
theorem tame_expecting {what : Expectation} (h : what.isNoted = true) : Tame s (expecting what) :=
  .of_ok fun c => ⟨(), c.noting what, rfl, by simp, fun hc => hc.noting h⟩

/-- A requirement is tame. -/
theorem tame_require (fault : Fault) (required : Prop) [Decidable required] :
    Tame s (require fault required) :=
  .modify (fun _ => rfl) fun _ => rfl

/-- A look for a token is tame. -/
theorem tame_check? (kind : TokenKind) (h : kind.isTrivia = false) :
    Tame s (check? kind) := by
  -- A failed look notes the token, and that is one that looks note
  have hnone : Tame s (expecting (.token kind) >>= fun _ => (pure none : Parse (Option Token))) :=
    (tame_expecting (Expectation.isNoted_token h)).bind fun _ => .pure _
  refine tame_peek.bind fun next => ?_
  cases next with
  | none => exact hnone
  | some lexeme =>
    dsimp only
    split
    · exact .pure _
    · exact hnone

/-- To take a token of a kind, if there is one, is tame. -/
theorem tame_eat? (kind : TokenKind) (h : kind.isTrivia = false) :
    Tame s (eat? kind) := by
  refine (tame_check? kind h).bind fun found => ?_
  cases found with
  | some token => exact (tame_take token).bind fun _ => .pure _
  | none => exact .pure _

/-- A look for tokens of several kinds is tame. -/
theorem tame_checkAny? {kinds : List TokenKind} (h : ∀ kind ∈ kinds, kind.isTrivia = false) :
    Tame s (checkAny? kinds) := by
  induction kinds with
  | nil => exact .pure _
  | cons kind kinds ih =>
    simp only [List.mem_cons, forall_eq_or_imp] at h
    refine (tame_check? kind h.1).bind fun found => ?_
    cases found with
    | some token => exact .pure _
    | none => exact ih h.2

/-- A choice that looks for tokens of several kinds. -/
theorem tame_checkAny?_bind {kinds : List TokenKind} {f : Option Token → Parse α}
    (hnone : Tame s (f none)) (hsome : ∀ token, token.kind ∈ kinds → Marked s (f (some token)))
    (h : ∀ kind ∈ kinds, kind.isTrivia = false) : Tame s (checkAny? kinds >>= f) := by
  have hlook : Tame s (checkAny? kinds) := tame_checkAny? h
  -- At the end of the source nothing is found, so only the way without a token counts there
  refine ⟨hlook.toMarked.bindWhere fun hp => ?_, fun {c e c'} hc hp => ?_⟩
  · obtain ⟨-, ⟨t, ts, rfl, hkind, -⟩ | ⟨rfl, -⟩⟩ := checkAny?_took hp
    · exact hsome t hkind
    · exact hnone.toMarked
  · obtain hp | ⟨found, c₁, hp, hf⟩ := bind_eq_error.1 hp
    · exact hlook.stop hc hp
    · have hc₁ := hlook.rest_eq_nil hc hp
      obtain ⟨-, ⟨t, ts, -, -, htokens⟩ | ⟨rfl, -⟩⟩ := checkAny?_took hp
      · simp [Cursor.tokens, hc₁] at htokens
      · exact hnone.stop hc₁ hf

/-- A parse that fails where it stands is tame: what it expected stands in the place of the next
    token. -/
theorem tame_failHere : Tame s (failHere s : Parse α) where
  ok := fun hp => absurd hp failHere_ne_ok
  error := by
    intro c e c' hp hc what hw
    obtain ⟨rfl, rfl⟩ := Result.error.inj ((failHere_eq c).symm.trans hp)
    exact .inr ⟨hc what (by simpa using hw), List.suffix_rfl, c.position_failure s⟩
  stop := by
    intro c e c' hc hp
    obtain ⟨rfl, rfl⟩ := Result.error.inj ((failHere_eq c).symm.trans hp)
    rw [Cursor.position_failure, Cursor.position, hc]
    rfl

/-- To demand a token is tame. -/
theorem tame_expect (kind : TokenKind) (h : kind.isTrivia = false) :
    Tame s (expect s kind) := by
  refine (tame_eat? kind h).bind fun found => ?_
  cases found with
  | some token => exact .pure _
  | none => exact tame_failHere

/-- What a sequence does after a round. -/
theorem tame_afterRound {others : Parse (List α)} (h : Tame s others) (found : Round α) :
    Tame s (match found with
      | .more item => do return item :: (← others)
      | .last item => return [item]
      | .done => return []) := by
  cases found with
  | more item => exact h.bind fun _ => .pure _
  | last item => exact .pure _
  | done => exact .pure _

/-- Tame rounds make a tame bounded sequence. -/
theorem tame_gatherWithin {round : Parse (Round α)} (h : Tame s round) (rounds : Nat) :
    Tame s (gatherWithin round rounds) := by
  induction rounds with
  | zero => exact (tame_require _ _).bind fun _ => .pure _
  | succ rounds ih => exact h.bind (tame_afterRound ih)

/-- Tame rounds make a tame sequence. -/
theorem tame_gather {round : Parse (Round α)} (h : Tame s round) : Tame s (gather round) :=
  .of_eq (q := fun c => gatherWithin round (c.rest.length + 1)) (fun _ => rfl)
    fun _ => tame_gatherWithin h _

/-- What a growing value does after a step. -/
theorem tame_afterStep {others : α → Parse α} (h : ∀ a, Tame s (others a)) (found : ForInStep α) :
    Tame s (match found with
      | .yield value => others value
      | .done value => return value) := by
  cases found with
  | yield value => exact h value
  | done value => exact .pure _

/-- Tame steps make a tame bounded loop. -/
theorem tame_iterateWithin {step : α → Parse (ForInStep α)} (h : ∀ a, Tame s (step a))
    (rounds : Nat) (a : α) : Tame s (iterateWithin step rounds a) := by
  induction rounds generalizing a with
  | zero => exact (tame_require _ _).bind fun _ => .pure _
  | succ rounds ih => exact (h a).bind (tame_afterStep ih)

/-- Tame steps make a tame loop. -/
theorem tame_iterate {step : α → Parse (ForInStep α)} (h : ∀ a, Tame s (step a)) (a : α) :
    Tame s (iterate step a) :=
  .of_eq (q := fun c => iterateWithin step (c.rest.length + 1) a) (fun _ => rfl)
    fun _ => tame_iterateWithin h _ a

end Parse

end Schemata
