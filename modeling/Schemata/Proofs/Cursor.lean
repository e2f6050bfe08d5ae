import Schemata.Parse.Cursor
import Schemata.Proofs.Written

/-!
# Steps of a parse

What the basic steps do to a cursor, in the two forms that the grammar is compared with the
parsers in.

Backwards, from a step that succeeded: `Cursor.Took c tokens c'` says that a parse took the tokens
between two cursors, and there is one lemma `_took` for each step.

Forwards, from what there is to read: `Accepts p s R t` says that `p`, from any cursor with the
pieces `s` left, succeeds with a value in `R` and leaves `t`, and there is one lemma `accepts_` for
each step.

A loop is described by what its rounds do, without their number: `Gathered` and `Iterated`.
-/

namespace Schemata

/-- The offset at which a token ends. -/
def Token.stop (token : Token) : Nat :=
  token.position.offset + Text.byteSize token.text.toList

/-- There is no first token among none. -/
@[simp] theorem Token.first?_nil : Token.first? [] = none := rfl

@[simp] theorem Token.first?_cons (t : Token) (ts : List Token) :
    Token.first? (t :: ts) = some t.kind := rfl

/-- The kind of the first of some pieces. -/
def Piece.first? (pieces : List Piece) : Option TokenKind :=
  pieces.head?.map Piece.kind

@[simp] theorem Piece.first?_nil : Piece.first? [] = none := rfl

@[simp] theorem Piece.first?_cons (x : Piece) (s : List Piece) :
    Piece.first? (x :: s) = some x.kind := rfl

namespace Cursor

/-- The tokens not yet taken. -/
def tokens (c : Cursor) : List Token :=
  c.rest.map Lexeme.token

/-- What the tokens not yet taken say. -/
def pieces (c : Cursor) : List Piece :=
  c.rest.map Lexeme.piece

/-- The kind of the next token. -/
def next? (c : Cursor) : Option TokenKind :=
  Token.first? c.tokens

/-- The cursor after taking the given token. -/
def after (c : Cursor) (token : Token) : Cursor :=
  { c with
    rest := c.rest.tail
    lastEnd := token.stop
    expected := []
    faults := Fault.token.unless (c.rest.head?.map (·.token) = some token) c.faults }

/-- Between the two cursors the given tokens were taken. -/
structure Took (c : Cursor) (ts : List Token) (c' : Cursor) : Prop where
  tokens : c.tokens = ts ++ c'.tokens
  lastEnd : c'.lastEnd = (ts.getLast?.map Token.stop).getD c.lastEnd

namespace Took

variable {c c' c'' : Cursor} {ts us : List Token} {t : Token}

/-- A cursor has taken nothing to come to itself. -/
theorem refl (c : Cursor) : c.Took [] c := ⟨rfl, rfl⟩

/-- What is taken one after the other is taken together. -/
theorem trans (h : c.Took ts c') (h' : c'.Took us c'') : c.Took (ts ++ us) c'' where
  tokens := by rw [h.tokens, h'.tokens, List.append_assoc]
  lastEnd := by
    rw [h'.lastEnd, h.lastEnd, List.getLast?_append]
    cases us.getLast? <;> rfl

/-- What took nothing left the next token where it was. -/
theorem next?_eq (h : c.Took [] c') : c'.next? = c.next? := by
  simp [next?, h.tokens]

/-- The first token taken was the next one. -/
theorem next?_cons (h : c.Took (t :: ts) c') : c.next? = some t.kind := by
  simp [next?, h.tokens]

/-- Taking the next token. -/
theorem after (h : c.tokens = t :: ts) : c.Took [t] (c.after t) := by
  obtain ⟨rest, lastEnd, expected, ambiguities, descents, faults⟩ := c
  cases rest with
  | nil => cases h
  | cons lexeme rest =>
    obtain ⟨rfl, rfl⟩ := List.cons.inj h
    exact ⟨rfl, rfl⟩

/-- Taking the token of the lexeme that a peek found. -/
theorem of_head? {lexeme : Lexeme} (h : c.rest.head? = some lexeme) :
    c.Took [lexeme.token] (c.after lexeme.token) := by
  obtain ⟨rest, hrest⟩ := List.head?_eq_some_iff.1 h
  exact after (by rw [Cursor.tokens, hrest]; rfl)

/-- As many lexemes are gone as tokens were taken. -/
theorem length_eq (h : c.Took ts c') : c.rest.length = ts.length + c'.rest.length := by
  simpa [Cursor.tokens] using congrArg List.length h.tokens

/-- What took a token has fewer tokens left.  Loops end because of this. -/
theorem length_lt (h : c.Took (t :: ts) c') : c'.rest.length < c.rest.length := by
  have := h.length_eq
  simp only [List.length_cons] at this
  omega

end Took

/-- A peek that found a lexeme found the kind of the next token. -/
theorem next?_of_head? {c : Cursor} {lexeme : Lexeme} (h : c.rest.head? = some lexeme) :
    c.next? = some lexeme.token.kind := by
  simp [next?, tokens, Token.first?, h]

/-- A peek that found nothing is at the end of the source. -/
theorem next?_of_head?_none {c : Cursor} (h : c.rest.head? = none) : c.next? = none := by
  simp [next?, tokens, Token.first?, h]

end Cursor

namespace Parse

open EStateM (Result)

variable {α β : Type} {c c' : Cursor}

/-- What a parse gave. -/
def outcome : Result ParseError Cursor α → Except ParseError α
  | .ok a _ => .ok a
  | .error e _ => .error e

/-- An outcome is a value just if the parse succeeded somewhere with it. -/
theorem outcome_eq_ok {x : Result ParseError Cursor α} {a : α} :
    outcome x = .ok a ↔ ∃ c, x = .ok a c := by
  cases x with
  | ok b c => simp [outcome]
  | error e c => simp [outcome]

/-- An outcome is an error just if the parse failed somewhere with it. -/
theorem outcome_eq_error {x : Result ParseError Cursor α} {e : ParseError} :
    outcome x = .error e ↔ ∃ c, x = .error e c := by
  cases x with
  | ok b c => simp [outcome]
  | error e c => simp [outcome]

/-- Where a parse stopped. -/
def final : Result ParseError Cursor α → Cursor
  | .ok _ c => c
  | .error _ c => c

/-! ## Backwards -/

/-- Two steps in a row succeed just if both do, the second from where the first stopped. -/
theorem bind_eq_ok {p : Parse α} {f : α → Parse β} {b : β} :
    (p >>= f) c = .ok b c' ↔ ∃ a c₁, p c = .ok a c₁ ∧ f a c₁ = .ok b c' := by
  -- A step of the state monad either succeeds and goes on, or fails at once
  change EStateM.bind p f c = _ ↔ _
  simp only [EStateM.bind]
  cases h : p c with
  | ok a c₁ =>
    constructor
    · exact fun hf => ⟨a, c₁, rfl, hf⟩
    · rintro ⟨_, _, ⟨⟩, hf⟩
      exact hf
  | error e c₁ => simp

/-- A value that is given back costs nothing. -/
@[simp] theorem pure_eq_ok {a b : α} : (pure a : Parse α) c = .ok b c' ↔ a = b ∧ c = c' := by
  change Result.ok a c = .ok b c' ↔ _
  simp

/-- A peek shows the next lexeme and leaves the cursor as it is. -/
@[simp] theorem peek_eq_ok {a : Option Lexeme} : peek c = .ok a c' ↔ c.rest.head? = a ∧ c = c' := by
  change Result.ok c.rest.head? c = .ok a c' ↔ _
  simp

/-- What follows a peek goes on from the same cursor. -/
theorem peek_bind {f : Option Lexeme → Parse β} : (peek >>= f) c = f c.rest.head? c :=
  rfl

/-- What follows a requirement goes on, whether or not a fault was noted. -/
theorem require_bind {fault : Fault} {required : Prop} [Decidable required] {f : Unit → Parse β} :
    (require fault required >>= f) c = f () (c.require fault required) :=
  rfl

@[simp] theorem get_eq_ok {a : Cursor} : (get : Parse Cursor) c = .ok a c' ↔ c = a ∧ c = c' := by
  change Result.ok c c = .ok a c' ↔ _
  simp

/-- A token that is taken leaves the cursor after it. -/
@[simp] theorem take_eq_ok {t : Token} {u : Unit} : take t c = .ok u c' ↔ c.after t = c' := by
  change Result.ok () (c.after t) = .ok u c' ↔ _
  simp

/-- A parse that throws does not succeed. -/
@[simp] theorem throw_ne_ok {e : ParseError} {a : α} : (throw e : Parse α) c ≠ .ok a c' :=
  fun h => by cases h

/-- A parse that refuses a token does not succeed. -/
@[simp] theorem refuse_ne_ok {t : Token} {es : List Expectation} {a : α} :
    (refuse t es : Parse α) c ≠ .ok a c' :=
  fun h => by cases h

variable {s : Setting} {kind : TokenKind}

/-- A parse that fails where it stands does not succeed. -/
@[simp] theorem failHere_ne_ok {a : α} : (failHere s : Parse α) c ≠ .ok a c' := by
  simp only [failHere, ne_eq, bind_eq_ok, get_eq_ok]
  rintro ⟨_, _, ⟨rfl, rfl⟩, h⟩
  -- There is no token to refuse at the end of the source, but the parse fails there as well
  cases hhead : c.rest.head? with
  | none =>
    simp only [hhead] at h
    exact throw_ne_ok h
  | some lexeme =>
    simp only [hhead] at h
    exact refuse_ne_ok h

/-- A parse that is too deep does not succeed. -/
@[simp] theorem failTooDeep_ne_ok {a : α} : (failTooDeep s : Parse α) c ≠ .ok a c' := by
  simp only [failTooDeep, ne_eq, bind_eq_ok, get_eq_ok]
  rintro ⟨_, _, _, h⟩
  exact throw_ne_ok h

/-- To note what was expected takes nothing. -/
theorem expecting_took {what : Expectation} {u : Unit} (h : expecting what c = .ok u c') :
    c.Took [] c' := by
  obtain rfl : (if c.expected.contains what then c
      else { c with expected := c.expected ++ [what] }) = c' := (Result.ok.inj h).2
  split
  · exact .refl c
  · exact ⟨rfl, rfl⟩

/-- To note that a token continues an expression after a line break takes nothing. -/
theorem noteContinuation_took {lexeme : Lexeme} {u : Unit}
    (h : noteContinuation lexeme c = .ok u c') : c.rest = c'.rest ∧ c.lastEnd = c'.lastEnd := by
  unfold noteContinuation at h
  split at h
  · obtain ⟨-, rfl⟩ := Result.ok.inj h
    exact ⟨rfl, rfl⟩
  · obtain ⟨-, rfl⟩ := pure_eq_ok.1 h
    exact ⟨rfl, rfl⟩

/-- To enter a level takes nothing. -/
theorem enter_took {room : Nat} {u : Unit} (h : enter s room c = .ok u c') : c.Took [] c' := by
  obtain rfl : c.descend s (s.limit - room) = c' := (Result.ok.inj h).2
  exact ⟨rfl, rfl⟩

/-- A requirement takes nothing. -/
theorem require_took {fault : Fault} {required : Prop} [Decidable required] {u : Unit}
    (h : require fault required c = .ok u c') : c.Took [] c' := by
  obtain rfl : c.require fault required = c' := (Result.ok.inj h).2
  exact ⟨rfl, rfl⟩

/-- The next token was looked at: it is the one found, or it is not of the kind. -/
theorem check?_took {r : Option Token} (h : check? kind c = .ok r c') :
    c.Took [] c' ∧
      ((∃ t ts, r = some t ∧ t.kind = kind ∧ c'.tokens = t :: ts) ∨
        r = none ∧ c'.next? ≠ some kind) := by
  -- Looking takes nothing; a failed look only notes what was expected
  simp only [check?, bind_eq_ok, peek_eq_ok] at h
  obtain ⟨next, _, ⟨hhead, rfl⟩, h⟩ := h
  cases next with
  | some lexeme =>
    dsimp only at h
    split at h
    -- The next token is of the kind: it is given back and stays where it is
    · next hkind =>
      obtain ⟨rfl, rfl⟩ := pure_eq_ok.1 h
      obtain ⟨rest, hrest⟩ := List.head?_eq_some_iff.1 hhead
      refine ⟨.refl c, .inl ⟨_, rest.map Lexeme.token, rfl, hkind, ?_⟩⟩
      rw [Cursor.tokens, hrest, List.map_cons]
    · next hkind =>
      obtain ⟨_, c₁, he, h⟩ := bind_eq_ok.1 h
      obtain ⟨rfl, rfl⟩ := pure_eq_ok.1 h
      have ht := expecting_took he
      refine ⟨ht, .inr ⟨rfl, ?_⟩⟩
      rw [ht.next?_eq, Cursor.next?_of_head? hhead]
      simpa using hkind
  | none =>
    -- At the end of the source the look fails as before another token
    obtain ⟨_, c₁, he, h⟩ := bind_eq_ok.1 h
    obtain ⟨rfl, rfl⟩ := pure_eq_ok.1 h
    have ht := expecting_took he
    refine ⟨ht, .inr ⟨rfl, ?_⟩⟩
    rw [ht.next?_eq, Cursor.next?_of_head?_none hhead]
    simp

/-- The next token was looked at for several kinds: it is of one of them, or of none. -/
theorem checkAny?_took {kinds : List TokenKind} {r : Option Token}
    (h : checkAny? kinds c = .ok r c') :
    c.Took [] c' ∧
      ((∃ t ts, r = some t ∧ t.kind ∈ kinds ∧ c'.tokens = t :: ts) ∨
        r = none ∧ ∀ kind ∈ kinds, c'.next? ≠ some kind) := by
  -- The kinds are tried one by one, and none of the failed looks moves the cursor
  induction kinds generalizing c with
  | nil =>
    obtain ⟨rfl, rfl⟩ := pure_eq_ok.1 h
    exact ⟨.refl c, .inr ⟨rfl, by simp⟩⟩
  | cons kind kinds ih =>
    obtain ⟨r₁, c₁, hc, h⟩ := bind_eq_ok.1 h
    obtain ⟨ht, ⟨t, ts, rfl, hk, hts⟩ | ⟨rfl, hn⟩⟩ := check?_took hc
    · obtain ⟨rfl, rfl⟩ := pure_eq_ok.1 h
      exact ⟨ht, .inl ⟨t, ts, rfl, by simp [hk], hts⟩⟩
    · obtain ⟨ht', ⟨t, ts, hr, hk, hts⟩ | ⟨hr, hns⟩⟩ := ih h
      · exact ⟨ht.trans ht', .inl ⟨t, ts, hr, by simp [hk], hts⟩⟩
      · refine ⟨ht.trans ht', .inr ⟨hr, ?_⟩⟩
        simp only [List.mem_cons, forall_eq_or_imp]
        exact ⟨ht'.next?_eq ▸ hn, hns⟩

/-- A token of the kind was taken, or the next one is of another kind. -/
theorem eat?_took {r : Option Token} (h : eat? kind c = .ok r c') :
    (∃ t, r = some t ∧ t.kind = kind ∧ c.Took [t] c') ∨
      r = none ∧ c.Took [] c' ∧ c'.next? ≠ some kind := by
  simp only [eat?, bind_eq_ok] at h
  obtain ⟨r₁, c₁, hc, h⟩ := h
  obtain ⟨ht, ⟨t, ts, rfl, hk, hts⟩ | ⟨rfl, hn⟩⟩ := check?_took hc
  · obtain ⟨_, _, htake, h⟩ := bind_eq_ok.1 h
    obtain rfl := take_eq_ok.1 htake
    obtain ⟨rfl, rfl⟩ := pure_eq_ok.1 h
    exact .inl ⟨t, rfl, hk, ht.trans (.after hts)⟩
  · obtain ⟨rfl, rfl⟩ := pure_eq_ok.1 h
    exact .inr ⟨rfl, ht, hn⟩

/-- Whether a token of the kind was taken is what the step gives back. -/
theorem eats_took {b : Bool} (h : eats kind c = .ok b c') :
    (b = true ∧ ∃ t, t.kind = kind ∧ c.Took [t] c') ∨
      b = false ∧ c.Took [] c' ∧ c'.next? ≠ some kind := by
  simp only [eats, bind_eq_ok, pure_eq_ok] at h
  obtain ⟨r, c₁, he, rfl, rfl⟩ := h
  obtain ⟨t, rfl, hk, ht⟩ | ⟨rfl, ht, hn⟩ := eat?_took he
  · exact .inl ⟨rfl, t, hk, ht⟩
  · exact .inr ⟨rfl, ht, hn⟩

/-- A token that had to come was taken. -/
theorem expect_took {t : Token} (h : expect s kind c = .ok t c') :
    t.kind = kind ∧ c.Took [t] c' := by
  simp only [expect, bind_eq_ok] at h
  obtain ⟨r, c₁, he, h⟩ := h
  obtain ⟨t', rfl, hk, ht⟩ | ⟨rfl, -⟩ := eat?_took he
  · obtain ⟨rfl, rfl⟩ := pure_eq_ok.1 h
    exact ⟨hk, ht⟩
  · exact absurd h failHere_ne_ok

/-! ## Loops -/

/-- The rounds of a sequence, up to its end. -/
inductive Gathered (round : Parse (Round α)) : Cursor → List α → Cursor → Prop
  | done {c c' : Cursor} (h : round c = .ok .done c') : Gathered round c [] c'
  | last {c c' : Cursor} {a : α} (h : round c = .ok (.last a) c') : Gathered round c [a] c'
  | more {c c₁ c' : Cursor} {a : α} {as : List α} (h : round c = .ok (.more a) c₁)
      (hs : Gathered round c₁ as c') : Gathered round c (a :: as) c'

/-- The steps of a growing value, up to the last. -/
inductive Iterated (step : α → Parse (ForInStep α)) : α → Cursor → α → Cursor → Prop
  | done {a b : α} {c c' : Cursor} (h : step a c = .ok (.done b) c') : Iterated step a c b c'
  | yield {a b d : α} {c c₁ c' : Cursor} (h : step a c = .ok (.yield b) c₁)
      (hs : Iterated step b c₁ d c') : Iterated step a c d c'

/-- The bound on the rounds of a sequence does not matter if every round that finds more takes a
    token. -/
theorem gather_eq_ok {round : Parse (Round α)}
    (hround : ∀ c a c', round c = .ok (.more a) c' → c'.rest.length < c.rest.length)
    {as : List α} : gather round c = .ok as c' ↔ Gathered round c as c' := by
  -- The bound is one more than the number of tokens left, and a round that goes on takes one
  suffices h : ∀ rounds as c, c.rest.length < rounds →
      (gatherWithin round rounds c = .ok as c' ↔ Gathered round c as c') by
    simp only [gather, bind_eq_ok, get_eq_ok]
    rw [← h _ _ _ (Nat.lt_succ_self _)]
    constructor
    · rintro ⟨_, _, ⟨rfl, rfl⟩, h⟩
      exact h
    · exact fun h => ⟨_, _, ⟨rfl, rfl⟩, h⟩
  intro rounds
  induction rounds with
  | zero => intro as c h; omega
  | succ rounds ih =>
    intro as c hlen
    simp only [gatherWithin, bind_eq_ok]
    constructor
    · rintro ⟨r, c₁, hr, h⟩
      cases r with
      -- The bound that is left is still more than the tokens that are left
      | more a =>
        obtain ⟨as', c₂, hs, hp⟩ := bind_eq_ok.1 h
        obtain ⟨rfl, rfl⟩ := pure_eq_ok.1 hp
        have hlt := hround _ _ _ hr
        exact .more hr ((ih _ _ (by omega)).1 hs)
      | last a =>
        obtain ⟨rfl, rfl⟩ := pure_eq_ok.1 h
        exact .last hr
      | done =>
        obtain ⟨rfl, rfl⟩ := pure_eq_ok.1 h
        exact .done hr
    · intro h
      cases h with
      | done hr => exact ⟨_, _, hr, rfl⟩
      | last hr => exact ⟨_, _, hr, rfl⟩
      | more hr hs =>
        have hlt := hround _ _ _ hr
        exact ⟨_, _, hr, bind_eq_ok.2 ⟨_, _, (ih _ _ (by omega)).2 hs, rfl⟩⟩

/-- The bound on the steps does not matter if every step that yields takes a token. -/
theorem iterate_eq_ok {step : α → Parse (ForInStep α)}
    (hstep : ∀ a c b c', step a c = .ok (.yield b) c' → c'.rest.length < c.rest.length)
    {a b : α} : iterate step a c = .ok b c' ↔ Iterated step a c b c' := by
  -- As for `gather`, with the value that grows in place of the list
  suffices h : ∀ rounds a c, c.rest.length < rounds →
      (iterateWithin step rounds a c = .ok b c' ↔ Iterated step a c b c') by
    simp only [iterate, bind_eq_ok, get_eq_ok]
    rw [← h _ _ _ (Nat.lt_succ_self _)]
    constructor
    · rintro ⟨_, _, ⟨rfl, rfl⟩, h⟩
      exact h
    · exact fun h => ⟨_, _, ⟨rfl, rfl⟩, h⟩
  intro rounds
  induction rounds with
  | zero => intro a c h; omega
  | succ rounds ih =>
    intro a c hlen
    simp only [iterateWithin, bind_eq_ok]
    constructor
    · rintro ⟨r, c₁, hr, h⟩
      cases r with
      | yield a' =>
        have hlt := hstep _ _ _ _ hr
        exact .yield hr ((ih _ _ (by omega)).1 h)
      | done a' =>
        obtain ⟨rfl, rfl⟩ := pure_eq_ok.1 h
        exact .done hr
    · intro h
      cases h with
      | done hr => exact ⟨_, _, hr, rfl⟩
      | yield hr hs =>
        have hlt := hstep _ _ _ _ hr
        exact ⟨_, _, hr, (ih _ _ (by omega)).2 hs⟩

/-- One semicolon, if there is one. -/
def semicolonStep : Parse (ForInStep Unit) :=
  return if ← eats .semicolon then .yield () else .done ()

/-- A step takes a semicolon, or ends the loop before another token. -/
theorem semicolonStep_took {r : ForInStep Unit} (h : semicolonStep c = .ok r c') :
    (r = .yield () ∧ ∃ t, t.kind = .semicolon ∧ c.Took [t] c') ∨
      r = .done () ∧ c.Took [] c' ∧ c'.next? ≠ some .semicolon := by
  obtain ⟨b, c₁, he, h⟩ := bind_eq_ok.1 h
  obtain ⟨rfl, rfl⟩ := pure_eq_ok.1 h
  obtain ⟨rfl, t, ht⟩ | ⟨rfl, ht⟩ := eats_took he
  · exact .inl ⟨rfl, t, ht⟩
  · exact .inr ⟨rfl, ht⟩

/-- To skip semicolons is to take steps as long as there are any. -/
theorem skipSemicolons_eq_ok {u : Unit} :
    skipSemicolons c = .ok u c' ↔ Iterated (fun _ => semicolonStep) () c u c' := by
  -- Every step that goes on has taken a semicolon, so the bound is never met
  refine iterate_eq_ok fun a c b c' h => ?_
  obtain ⟨-, t, -, ht⟩ | ⟨h, -⟩ := semicolonStep_took h
  · exact ht.length_lt
  · cases h

/-- All semicolons there were have been taken. -/
theorem skipSemicolons_took {u : Unit} (h : skipSemicolons c = .ok u c') :
    ∃ ts, (∀ t ∈ ts, t.kind = .semicolon) ∧ c.Took ts c' ∧ c'.next? ≠ some .semicolon := by
  obtain ⟨v, hi⟩ : ∃ v, Iterated (fun _ => semicolonStep) v c u c' :=
    ⟨(), skipSemicolons_eq_ok.1 h⟩
  clear h
  induction hi with
  | done h =>
    obtain ⟨h, -⟩ | ⟨-, ht, hn⟩ := semicolonStep_took h
    · cases h
    · exact ⟨[], by simp, ht, hn⟩
  | yield h _ ih =>
    obtain ⟨-, t, hk, ht⟩ | ⟨h, -⟩ := semicolonStep_took h
    · obtain ⟨ts, hts, ht', hn⟩ := ih
      exact ⟨t :: ts, by simpa using ⟨hk, hts⟩, ht.trans ht', hn⟩
    · cases h

/-- The round of a list: an item and what comes after it, or the end of the list. -/
def listRound (s : Setting) (close : TokenKind) (item : Parse α) : Parse (Round α) := do
  if ← eats close then return .done
  let value ← item
  if ← eats .comma then return .more value
  let _ ← expect s close
  return .last value

section List

variable {close : TokenKind} {item : Parse α}

/-- The round takes the closing token, or an item and a comma or the closing token. -/
theorem listRound_took {Q : List Token → α → Prop}
    (hitem : ∀ c a c', item c = .ok a c' → ∃ ts, c.Took ts c' ∧ Q ts a) {r : Round α}
    (h : listRound s close item c = .ok r c') :
    (r = .done ∧ ∃ t, t.kind = close ∧ c.Took [t] c') ∨
      ∃ a ts t, Q ts a ∧ c.Took (ts ++ [t]) c' ∧
        (r = .more a ∧ t.kind = .comma ∨ r = .last a ∧ t.kind = close) := by
  -- The round begins with a look for the end of the list
  obtain ⟨b, c₁, he, h⟩ := bind_eq_ok.1 h
  obtain ⟨rfl, t, hk, ht⟩ | ⟨rfl, ht, -⟩ := eats_took he
  · obtain ⟨rfl, rfl⟩ := pure_eq_ok.1 h
    exact .inl ⟨rfl, t, hk, ht⟩
  · obtain ⟨a, c₂, hi, h⟩ := bind_eq_ok.1 h
    obtain ⟨ts, ht', hq⟩ := hitem _ _ _ hi
    -- After the item there is a comma, or else the list must end
    obtain ⟨b, c₃, he', h⟩ := bind_eq_ok.1 h
    obtain ⟨rfl, t, hk, ht''⟩ | ⟨rfl, ht'', -⟩ := eats_took he'
    · obtain ⟨rfl, rfl⟩ := pure_eq_ok.1 h
      exact .inr ⟨a, ts, t, hq, (ht.trans ht').trans ht'', .inl ⟨rfl, hk⟩⟩
    · obtain ⟨t, c₄, hx, h⟩ := bind_eq_ok.1 h
      obtain ⟨rfl, rfl⟩ := pure_eq_ok.1 h
      obtain ⟨hk, ht₃⟩ := expect_took hx
      refine .inr ⟨a, ts, t, hq, ?_, .inr ⟨rfl, hk⟩⟩
      simpa using ((ht.trans ht').trans ht'').trans ht₃

/-- A list is its rounds, whatever the bound on them. -/
theorem list_eq_ok {Q : List Token → α → Prop}
    (hitem : ∀ c a c', item c = .ok a c' → ∃ ts, c.Took ts c' ∧ Q ts a) {as : List α} :
    list s close item c = .ok as c' ↔ Gathered (listRound s close item) c as c' := by
  -- A round that goes on has taken at least its comma
  refine gather_eq_ok fun c a c' h => ?_
  obtain ⟨h, -⟩ | ⟨_, ts, t, -, ht, -⟩ := listRound_took hitem h
  · cases h
  · have := ht.length_eq
    simp only [List.length_append, List.length_singleton] at this
    omega

/-- A list takes its items, commas between them and its closing token. -/
theorem list_took {Q : List Token → α → Prop}
    (hitem : ∀ c a c', item c = .ok a c' → ∃ ts, c.Took ts c' ∧ Q ts a) {as : List α}
    (h : list s close item c = .ok as c') :
    ∃ (items : List (List Token × α)) (body : List Token) (t : Token),
      as = items.map Prod.snd ∧ Separated (items.map Prod.fst) body ∧ t.kind = close ∧
        c.Took (body ++ [t]) c' ∧ ∀ i ∈ items, Q i.1 i.2 := by
  have hg := (list_eq_ok hitem).1 h
  clear h
  -- A round that goes on puts its item and its comma before the items that follow
  induction hg with
  | done h =>
    obtain ⟨-, t, hk, ht⟩ | ⟨_, _, _, _, _, ⟨h, -⟩ | ⟨h, -⟩⟩ := listRound_took hitem h
    · exact ⟨[], [], t, rfl, .nil, hk, ht, by simp⟩
    all_goals cases h
  | last h =>
    obtain ⟨h, -⟩ | ⟨a, ts, t, hq, ht, ⟨h, -⟩ | ⟨h, hk⟩⟩ := listRound_took hitem h
    · cases h
    · cases h
    · cases h
      exact ⟨[(ts, _)], ts, t, rfl, .last, hk, ht, by simpa using hq⟩
  | more h _ ih =>
    obtain ⟨h, -⟩ | ⟨a, ts, t, hq, ht, ⟨h, hk⟩ | ⟨h, -⟩⟩ := listRound_took hitem h
    · cases h
    · cases h
      obtain ⟨items, body, t', rfl, hs, hk', ht', hqs⟩ := ih
      refine ⟨(ts, _) :: items, ts ++ t :: body, t', rfl, .comma hk hs, hk', ?_, ?_⟩
      · simpa using ht.trans ht'
      · simp only [List.mem_cons, forall_eq_or_imp]
        exact ⟨hq, hqs⟩
    · cases h

end List

/-! ## Forwards -/

/-- From every cursor with the pieces `s` left, the parser succeeds with a value in `R` and leaves
    the pieces `t`. -/
def Accepts (p : Parse α) (s : List Piece) (R : α → Prop) (t : List Piece) : Prop :=
  ∀ c : Cursor, c.pieces = s → ∃ a c', p c = .ok a c' ∧ R a ∧ c'.pieces = t

section Forwards

variable {x : Piece} {s t u : List Piece} {R : α → Prop} {Q : β → Prop} {setting : Setting}

/-- A value that is given back is accepted from any pieces. -/
theorem Accepts.pure {a : α} (h : R a) : Accepts (pure a) s R s :=
  fun c hc => ⟨a, c, rfl, h, hc⟩

/-- Two parsers in a row accept what the first accepts with what the second accepts after it. -/
theorem Accepts.bind {p : Parse α} {f : α → Parse β} (hp : Accepts p s R t)
    (hf : ∀ a, R a → Accepts (f a) t Q u) : Accepts (p >>= f) s Q u := by
  intro c hc
  obtain ⟨a, c₁, ha, hr, hc₁⟩ := hp c hc
  obtain ⟨b, c₂, hb, hq, hc₂⟩ := hf a hr c₁ hc₁
  exact ⟨b, c₂, bind_eq_ok.2 ⟨a, c₁, ha, hb⟩, hq, hc₂⟩

/-- A parser that accepts with some values accepts with more of them. -/
theorem Accepts.mono {p : Parse α} {R' : α → Prop} (hp : Accepts p s R t) (h : ∀ a, R a → R' a) :
    Accepts p s R' t := by
  intro c hc
  obtain ⟨a, c', ha, hr, hc'⟩ := hp c hc
  exact ⟨a, c', ha, h a hr, hc'⟩

/-- A peek shows the first of the pieces that are left. -/
theorem accepts_peek : Accepts peek s (fun next => next.map Lexeme.piece = s.head?) s :=
  fun c hc => ⟨_, c, rfl, by rw [← hc, Cursor.pieces, List.head?_map], hc⟩

/-- The lexeme that a peek found is of the kind of the first piece. -/
theorem first?_of_peek {lexeme : Lexeme} (h : (some lexeme).map Lexeme.piece = s.head?) :
    Piece.first? s = some lexeme.token.kind := by
  rw [Piece.first?, ← h]
  rfl

/-- What follows a look at the next token.  The one that is found says what the expected one says,
    but may stand elsewhere. -/
theorem accepts_peek_bind {t : Token} {f : Option Lexeme → Parse β}
    (h : ∀ (token : Token) (broken : Bool), token.kind = t.kind → token.value = t.value →
      Accepts (f (some ⟨token, broken⟩)) (t.piece :: s) Q u) :
    Accepts (peek >>= f) (t.piece :: s) Q u := by
  refine accepts_peek.bind fun next hnext => ?_
  obtain ⟨lexeme, rfl, hx⟩ := Option.map_eq_some_iff.1 hnext
  exact h lexeme.token lexeme.afterBreak (congrArg Piece.kind hx) (congrArg Piece.value hx)

/-- To take a token leaves the pieces after it. -/
theorem accepts_take {t : Token} : Accepts (take t) (x :: s) (fun _ => True) s := by
  intro c hc
  refine ⟨(), c.after t, rfl, trivial, ?_⟩
  rw [Cursor.pieces, Cursor.after, List.map_tail, ← Cursor.pieces, hc, List.tail_cons]

/-- To note what was expected leaves the pieces. -/
theorem accepts_expecting {what : Expectation} : Accepts (expecting what) s (fun _ => True) s := by
  intro c hc
  refine ⟨(), _, rfl, trivial, ?_⟩
  dsimp only
  split
  · exact hc
  · exact hc

/-- To note a continuation leaves the pieces. -/
theorem accepts_noteContinuation {lexeme : Lexeme} :
    Accepts (noteContinuation lexeme) s (fun _ => True) s := by
  intro c hc
  unfold noteContinuation
  split
  · exact ⟨(), _, rfl, trivial, hc⟩
  · exact ⟨(), c, rfl, trivial, hc⟩

/-- A requirement leaves the pieces. -/
theorem accepts_require {fault : Fault} {required : Prop} [Decidable required] :
    Accepts (require fault required) s (fun _ => True) s :=
  fun _ hc => ⟨(), _, rfl, trivial, hc⟩

/-- To enter a level leaves the pieces. -/
theorem accepts_enter {room : Nat} : Accepts (enter setting room) s (fun _ => True) s :=
  fun _ hc => ⟨(), _, rfl, trivial, hc⟩

/-- A node is finished with some place and text, without marks and receiver. -/
theorem accepts_finish {shape : Shape Node} {start : Position} :
    Accepts (finish setting shape start) s
      (fun n => ∃ p b x, n = ⟨shape, p, b, x, false, false, none⟩) s :=
  fun c hc => ⟨_, c, rfl, ⟨_, _, _, rfl⟩, hc⟩

/-- A node that is spanned keeps all but its place and text. -/
theorem accepts_span {start : Position} {node : Node} :
    Accepts (span setting start node) s
      (fun n => ∃ p b x, n = { node with position := p, lineBreaks := b, text := x }) s :=
  fun c hc => ⟨_, c, rfl, ⟨_, _, _, rfl⟩, hc⟩

/-- A look for the kind of the first piece finds it. -/
theorem accepts_check? (h : x.kind = kind) :
    Accepts (check? kind) (x :: s) (fun r => ∃ t, r = some t ∧ t.piece = x) (x :: s) := by
  refine accepts_peek.bind fun next hnext => ?_
  obtain ⟨lexeme, rfl, hx⟩ := Option.map_eq_some_iff.1 hnext
  have hk : lexeme.token.kind = kind := by rw [← h, ← hx]; rfl
  simp only [hk, if_true]
  exact .pure ⟨_, rfl, hx⟩

/-- A look for another kind than that of the first piece finds nothing. -/
theorem accepts_check?_none (h : Piece.first? s ≠ some kind) :
    Accepts (check? kind) s (fun r => r = none) s := by
  refine accepts_peek.bind fun next hnext => ?_
  -- At the end of the source or before another token, the expectation is noted
  cases next with
  | none => exact accepts_expecting.bind fun _ _ => .pure rfl
  | some lexeme =>
    have hk : lexeme.token.kind ≠ kind := by
      rintro rfl
      exact h (by simp [Piece.first?, ← hnext, Lexeme.piece])
    simp only [hk, if_false]
    exact accepts_expecting.bind fun _ _ => .pure rfl

/-- A token of the kind that comes first is taken. -/
theorem accepts_eat? (h : x.kind = kind) :
    Accepts (eat? kind) (x :: s) (fun r => ∃ t, r = some t ∧ t.piece = x) s := by
  refine (accepts_check? h).bind ?_
  rintro _ ⟨t, rfl, ht⟩
  exact accepts_take.bind fun _ _ => .pure ⟨t, rfl, ht⟩

/-- No token is taken where another kind comes first. -/
theorem accepts_eat?_none (h : Piece.first? s ≠ some kind) :
    Accepts (eat? kind) s (fun r => r = none) s := by
  refine (accepts_check?_none h).bind ?_
  rintro _ rfl
  exact .pure rfl

/-- A token of the kind that comes first is taken, and the step says so. -/
theorem accepts_eats (h : x.kind = kind) : Accepts (eats kind) (x :: s) (fun b => b = true) s := by
  refine (accepts_eat? h).bind ?_
  rintro _ ⟨t, rfl, -⟩
  exact .pure rfl

/-- No token is taken where another kind comes first, and the step says so. -/
theorem accepts_eats_false (h : Piece.first? s ≠ some kind) :
    Accepts (eats kind) s (fun b => b = false) s := by
  refine (accepts_eat?_none h).bind ?_
  rintro _ rfl
  exact .pure rfl

/-- A token that has to come is taken if it comes. -/
theorem accepts_expect {t : Token} (h : t.kind = kind) :
    Accepts (expect setting kind) (t.piece :: s) (fun token => token.value = t.value) s := by
  have hk : t.piece.kind = kind := h
  refine (accepts_eat? hk).bind ?_
  rintro _ ⟨token, rfl, ht⟩
  exact .pure (congrArg Piece.value ht)

/-- Semicolons are skipped up to the first other piece. -/
theorem accepts_skipSemicolons {semicolons : List Piece} (h : ∀ x ∈ semicolons, x.kind = .semicolon)
    (hs : Piece.first? s ≠ some .semicolon) :
    Accepts skipSemicolons (semicolons ++ s) (fun _ => True) s := by
  intro c hc
  suffices hi : ∃ c', Iterated (fun _ => semicolonStep) () c () c' ∧ c'.pieces = s by
    obtain ⟨c', hi, hc'⟩ := hi
    exact ⟨(), c', skipSemicolons_eq_ok.2 hi, trivial, hc'⟩
  -- Induction on the semicolons, each of which is one step of the loop
  induction semicolons generalizing c with
  | nil =>
    obtain ⟨b, c', he, rfl, hc'⟩ := accepts_eats_false hs c hc
    exact ⟨c', .done (bind_eq_ok.2 ⟨_, _, he, rfl⟩), hc'⟩
  | cons x semicolons ih =>
    simp only [List.mem_cons, forall_eq_or_imp] at h
    obtain ⟨b, c₁, he, rfl, hc₁⟩ := accepts_eats h.1 c hc
    obtain ⟨c', hi, hc'⟩ := ih h.2 c₁ hc₁
    exact ⟨c', .yield (bind_eq_ok.2 ⟨_, _, he, rfl⟩) hi, hc'⟩

/-- A list of items is read if every item is, before a comma or the closing token. -/
theorem accepts_list {γ : Type} (view : α → γ) {close : TokenKind} {item : Parse α}
    (htook : ∀ c a c', item c = .ok a c' → ∃ ts, c.Took ts c')
    {items : List (List Token × α)} {body : List Token} (hs : Separated (items.map Prod.fst) body)
    (hfirst : ∀ i ∈ items, i.1 ≠ [] ∧ Token.first? i.1 ≠ some close)
    (hitem : ∀ i ∈ items, ∀ rest,
      Piece.first? rest = some .comma ∨ Piece.first? rest = some close →
        Accepts item (i.1.map Token.piece ++ rest) (fun a => view a = view i.2) rest)
    {x : Token} (hx : x.kind = close) (hclose : close ≠ .comma) :
    Accepts (list setting close item) (body.map Token.piece ++ x.piece :: s)
      (fun as => as.map view = (items.map Prod.snd).map view) s := by
  intro c hc
  suffices hg : ∃ as c', Gathered (listRound setting close item) c as c' ∧
      as.map view = (items.map Prod.snd).map view ∧ c'.pieces = s by
    obtain ⟨as, c', hg, hv, hc'⟩ := hg
    refine ⟨as, c', (@list_eq_ok _ _ _ _ _ _ (fun _ _ => True) ?_ _).2 hg, hv, hc'⟩
    intro c a c' h
    obtain ⟨ts, ht⟩ := htook c a c' h
    exact ⟨ts, ht, trivial⟩
  -- No item begins with the closing token, so the test for it fails before every item
  have hnone : ∀ i ∈ items, ∀ rest, Piece.first? (i.1.map Token.piece ++ rest) ≠ some close := by
    intro i hi rest
    obtain ⟨hne, hn⟩ := hfirst i hi
    cases hts : i.1 with
    | nil => exact absurd hts hne
    | cons t ts => simpa [hts, Piece.first?] using hn
  -- Induction on the commas, with the items beside them
  generalize hkeys : items.map Prod.fst = keys at hs
  induction hs generalizing items c with
  | nil =>
    obtain rfl := List.map_eq_nil_iff.1 hkeys
    have hend : x.piece.kind = close := hx
    obtain ⟨b, c', he, rfl, hc'⟩ := accepts_eats hend c hc
    exact ⟨[], c', .done (bind_eq_ok.2 ⟨_, _, he, rfl⟩), rfl, hc'⟩
  | @last ts =>
    obtain ⟨i, items, rfl, rfl, hnil⟩ := List.map_eq_cons_iff.1 hkeys
    obtain rfl := List.map_eq_nil_iff.1 hnil
    -- No closing token, so the item is read; no comma after it, so the list ends there
    obtain ⟨b, c₁, he, rfl, hc₁⟩ := accepts_eats_false (hnone i (by simp) _) c hc
    obtain ⟨a, c₂, hi, ha, hc₂⟩ :=
      hitem i (by simp) (x.piece :: s) (.inr (by simp [Piece.first?, hx])) c₁ hc₁
    have hcomma : Piece.first? (x.piece :: s) ≠ some .comma := by simpa [hx] using hclose
    obtain ⟨b, c₃, he', rfl, hc₃⟩ := accepts_eats_false hcomma c₂ hc₂
    obtain ⟨t, c₄, hxp, -, hc₄⟩ := (accepts_expect hx : Accepts (expect setting close) _ _ s) c₃ hc₃
    refine ⟨[a], c₄, .last (bind_eq_ok.2 ⟨_, _, he, ?_⟩), by simpa using ha, hc₄⟩
    exact bind_eq_ok.2 ⟨_, _, hi, bind_eq_ok.2 ⟨_, _, he', bind_eq_ok.2 ⟨_, _, hxp, rfl⟩⟩⟩
  | @comma ts body keys t hk _ ih =>
    obtain ⟨i, items, rfl, rfl, hrest⟩ := List.map_eq_cons_iff.1 hkeys
    rw [List.map_append, List.append_assoc] at hc
    have hcomma : t.piece.kind = .comma := hk
    -- The same up to the comma, which makes the round go on
    obtain ⟨b, c₁, he, rfl, hc₁⟩ := accepts_eats_false (hnone i (by simp) _) c hc
    obtain ⟨a, c₂, hi, ha, hc₂⟩ :=
      hitem i (by simp) _ (.inl (by simp [Piece.first?, hk])) c₁ hc₁
    obtain ⟨b, c₃, he', rfl, hc₃⟩ := accepts_eats hcomma c₂ hc₂
    obtain ⟨as, c', hg, hv, hc'⟩ := ih (fun i h => hfirst i (by simp [h]))
      (fun i h => hitem i (by simp [h])) c₃ hc₃ (fun i h => hnone i (by simp [h])) hrest
    refine ⟨a :: as, c', .more (bind_eq_ok.2 ⟨_, _, he, ?_⟩) hg, by simp [ha, hv], hc'⟩
    exact bind_eq_ok.2 ⟨_, _, hi, bind_eq_ok.2 ⟨_, _, he', rfl⟩⟩

/-- From every cursor with the pieces `s` left, the parser goes on as a loop would from a value in
    `R` with the pieces `t` left. -/
def Reaches (p : Parse α) (step : α → Parse (ForInStep α)) (s : List Piece) (R : α → Prop)
    (t : List Piece) : Prop :=
  ∀ c : Cursor, c.pieces = s → ∃ a c₁, R a ∧ c₁.pieces = t ∧
    ∀ b c', Iterated step a c₁ b c' → p c = .ok b c'

/-- A parser that hands its value to a loop reaches the loop with that value. -/
theorem Reaches.start {p : Parse α} {step : α → Parse (ForInStep α)}
    (hstep : ∀ a c b c', step a c = .ok (.yield b) c' → c'.rest.length < c.rest.length)
    (hp : Accepts p s R t) : Reaches (p >>= iterate step) step s R t := by
  intro c hc
  obtain ⟨a, c₁, ha, hr, hc₁⟩ := hp c hc
  refine ⟨a, c₁, hr, hc₁, fun b c' hi => ?_⟩
  exact bind_eq_ok.2 ⟨a, c₁, ha, (iterate_eq_ok hstep).2 hi⟩

/-- A loop that was reached is reached again after one more step. -/
theorem Reaches.next {p : Parse α} {step : α → Parse (ForInStep α)} {R' : α → Prop}
    (hp : Reaches p step s R t)
    (h : ∀ a, R a → Accepts (step a) t (fun r => ∃ b, r = .yield b ∧ R' b) u) :
    Reaches p step s R' u := by
  -- One more step of the loop is part of what the loop would do from there
  intro c hc
  obtain ⟨a, c₁, hr, hc₁, hi⟩ := hp c hc
  obtain ⟨_, c₂, hs, ⟨b, rfl, hr'⟩, hc₂⟩ := h a hr c₁ hc₁
  exact ⟨b, c₂, hr', hc₂, fun d c' hd => hi d c' (.yield hs hd)⟩

/-- A loop that was reached ends with its last step. -/
theorem Reaches.stop {p : Parse α} {step : α → Parse (ForInStep α)} {R' : α → Prop}
    (hp : Reaches p step s R t)
    (h : ∀ a, R a → Accepts (step a) t (fun r => ∃ b, r = .done b ∧ R' b) u) :
    Accepts p s R' u := by
  intro c hc
  obtain ⟨a, c₁, hr, hc₁, hi⟩ := hp c hc
  obtain ⟨_, c₂, hs, ⟨b, rfl, hr'⟩, hc₂⟩ := h a hr c₁ hc₁
  exact ⟨b, c₂, hi b c₂ (.done hs), hr', hc₂⟩

end Forwards

end Parse

end Schemata
