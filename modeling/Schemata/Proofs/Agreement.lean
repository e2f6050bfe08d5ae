import Mathlib.Data.List.Forall2
import Schemata.Parse.Cursor
import Schemata.Proofs.Tree

/-!
# Two parses side by side

Two sources may say the same and be laid out in different ways.  Then two parses that take the same
steps read alike tokens, at positions that correspond to each other.  Which positions correspond,
and what is known of the line breaks that each parse notes, is a parameter, a `Likeness`; nothing
else about positions, spans and line breaks is known.

`Agree K R p q` says that the parses `p` and `q`, from cursors that are alike, either both succeed
with results in the relation `R` at cursors that are alike again, or both fail with alike errors.
There is one rule for each way to build a parse.
-/

namespace Schemata

variable {P : Position → Position → Prop}

/-! ## What is alike -/

/-- The tokens say the same at positions that correspond. -/
structure Token.Alike (P : Position → Position → Prop) (t u : Token) : Prop where
  kind : t.kind = u.kind
  value : t.value = u.value
  position : P t.position u.position

/-- The nodes are the same and begin at positions that correspond. -/
structure Node.Alike (P : Position → Position → Prop) (a b : Node) : Prop where
  erase : a.erase = b.erase
  position : P a.position b.position

/-- Alike nodes are the same, list by list. -/
theorem Node.map_erase_of_alike {as bs : List Node} (h : List.Forall₂ (Node.Alike P) as bs) :
    as.map Node.erase = bs.map Node.erase := by
  induction h with
  | nil => rfl
  | cons hab _ ih => rw [List.map_cons, List.map_cons, hab.erase, ih]

/-- The errors are of one sort, say the same and are at positions that correspond. -/
inductive ParseError.Alike (P : Position → Position → Prop) : ParseError → ParseError → Prop
  | unexpectedToken {kind : TokenKind} {value : String} {p q : Position}
      {expected : List Expectation} (h : P p q) :
      Alike P (.unexpectedToken kind value p expected) (.unexpectedToken kind value q expected)
  | unexpectedEnd {p q : Position} {expected : List Expectation} (h : P p q) :
      Alike P (.unexpectedEnd p expected) (.unexpectedEnd q expected)
  | invalidTarget {p q : Position} (h : P p q) : Alike P (.invalidTarget p) (.invalidTarget q)
  | tooDeep {limit : Nat} {p q : Position} (h : P p q) :
      Alike P (.tooDeep limit p) (.tooDeep limit q)

/-- The ambiguity at a lexeme that something goes on with, if it comes after a newline. -/
def Lexeme.ambiguity? (x : Lexeme) : Option Ambiguity :=
  if x.afterBreak then some ⟨x.token.position, x.token.kind⟩ else none

/-- What two parses are alike in: which positions correspond, which lexemes, and what each parse has
    noted of ambiguous line breaks. -/
structure Likeness where
  position : Position → Position → Prop
  lexeme : Lexeme → Lexeme → Prop
  noted : List Ambiguity → List Ambiguity → Prop
  token : ∀ {x y}, lexeme x y → x.token.Alike position y.token
  note : ∀ {x y as bs}, lexeme x y → noted as bs →
    noted (as ++ x.ambiguity?.toList) (bs ++ y.ambiguity?.toList)

/-- A likeness stands for its relation between positions. -/
instance : Coe Likeness (Position → Position → Prop) :=
  ⟨Likeness.position⟩

/-- The likeness that says nothing of line breaks. -/
def Likeness.ofPositions (P : Position → Position → Prop) : Likeness where
  position := P
  lexeme x y := x.token.Alike P y.token
  noted _ _ := True
  token h := h
  note _ _ := trivial

variable {K : Likeness}

/-- The cursors have alike lexemes before them, expect the same and have noted what is alike. -/
structure Cursor.Alike (K : Likeness) (c d : Cursor) : Prop where
  rest : List.Forall₂ K.lexeme c.rest d.rest
  expected : c.expected = d.expected
  noted : K.noted c.ambiguities d.ambiguities

/-- Both cursors are at an end, or before alike lexemes. -/
theorem Cursor.Alike.head? {c d : Cursor} (h : c.Alike K d) :
    Option.Rel K.lexeme c.rest.head? d.rest.head? := by
  obtain ⟨hrest, -⟩ := h
  generalize c.rest = xs at hrest ⊢
  generalize d.rest = ys at hrest ⊢
  cases hrest with
  | nil => exact .none
  | cons hxy _ => exact .some hxy

/-- Behind the next lexeme, alike lexemes are before both cursors again. -/
theorem Cursor.Alike.tail {c d : Cursor} (h : c.Alike K d) :
    List.Forall₂ K.lexeme c.rest.tail d.rest.tail := by
  obtain ⟨hrest, -⟩ := h
  generalize c.rest = xs at hrest ⊢
  generalize d.rest = ys at hrest ⊢
  cases hrest with
  | nil => exact .nil
  | cons _ hrest => exact hrest

/-- The settings have the same rules, and ends that correspond. -/
structure Setting.Alike (P : Position → Position → Prop) (s t : Setting) : Prop where
  grammar : s.grammar = t.grammar
  limit : s.limit = t.limit
  stop : P s.stop t.stop

namespace Parse

open EStateM (Result)

variable {α β γ δ : Type} {R : α → β → Prop} {S : γ → δ → Prop}

/-- What became of two parses: both succeeded or both failed. -/
inductive BothEnd (K : Likeness) (R : α → β → Prop) :
    Result ParseError Cursor α → Result ParseError Cursor β → Prop
  | ok {a : α} {b : β} {c d : Cursor} (hr : R a b) (hc : c.Alike K d) :
      BothEnd K R (.ok a c) (.ok b d)
  | error {e f : ParseError} {c d : Cursor} (he : e.Alike K f) :
      BothEnd K R (.error e c) (.error f d)

/-- From cursors that are alike, both parses succeed with related results or both fail alike. -/
def Agree (K : Likeness) (R : α → β → Prop) (p : Parse α) (q : Parse β) : Prop :=
  ∀ c d, c.Alike K d → BothEnd K R (p c) (q d)

namespace Agree

/-! ## Rules -/

/-- Parses that return at once agree if what they return is related. -/
theorem pure {a : α} {b : β} (h : R a b) : Agree K R (pure a) (pure b) :=
  fun _ _ hc => .ok h hc

/-- Parses that fail at once agree if their errors are alike. -/
theorem throw {e f : ParseError} (h : e.Alike K f) : Agree K R (throw e) (throw f) :=
  fun _ _ _ => .error h

/-- Parses that agree, each followed by one that agrees from the related results. -/
theorem bind {p : Parse α} {q : Parse β} {f : α → Parse γ} {g : β → Parse δ}
    (h : Agree K R p q) (hf : ∀ a b, R a b → Agree K S (f a) (g b)) :
    Agree K S (p >>= f) (q >>= g) := by
  intro c d hc
  have hpq := h c d hc
  show BothEnd K S (EStateM.bind p f c) (EStateM.bind q g d)
  unfold EStateM.bind
  -- Only the results of the first parses matter from here on
  generalize p c = x at hpq ⊢
  generalize q d = y at hpq ⊢
  cases hpq with
  | ok hr hc' => exact hf _ _ hr _ _ hc'
  | error he => exact .error he

/-- The case of equal results. -/
theorem bind_eq {p q : Parse α} {f : α → Parse γ} {g : α → Parse δ}
    (h : Agree K (· = ·) p q) (hf : ∀ a, Agree K S (f a) (g a)) :
    Agree K S (p >>= f) (q >>= g) :=
  h.bind fun a _ hab => hab ▸ hf a

/-- The results may be related in a weaker way. -/
theorem mono {p : Parse α} {q : Parse β} {R' : α → β → Prop} (h : Agree K R p q)
    (hr : ∀ a b, R a b → R' a b) : Agree K R' p q := by
  intro c d hc
  have hpq := h c d hc
  generalize p c = x at hpq ⊢
  generalize q d = y at hpq ⊢
  cases hpq with
  | ok hab hc' => exact .ok (hr _ _ hab) hc'
  | error he => exact .error he

/-- A step that changes neither what is before the cursor nor what is expected. -/
theorem modify {f g : Cursor → Cursor}
    (h : ∀ c d : Cursor, c.Alike K d → (f c).Alike K (g d)) :
    Agree K (· = ·) (modify f) (modify g) :=
  fun c d hc => .ok rfl (h c d hc)

end Agree

/-! ## Steps -/

/-- Both parses are at an end, or see alike lexemes. -/
theorem agree_peek : Agree K (Option.Rel K.lexeme) peek peek :=
  fun _ _ hc => .ok hc.head? hc

/-- Both parses are at an end, or look at alike tokens. -/
theorem agree_peek_bind {f : Option Lexeme → Parse γ} {g : Option Lexeme → Parse δ}
    (hnone : Agree K S (f none) (g none))
    (hsome : ∀ x y : Lexeme, K.lexeme x y → Agree K S (f (some x)) (g (some y))) :
    Agree K S (peek >>= f) (peek >>= g) := by
  refine agree_peek.bind fun a b hab => ?_
  cases hab with
  | none => exact hnone
  | some hxy => exact hsome _ _ hxy

/-- The case of tokens that are taken apart, so that what they have in common is one. -/
theorem agree_peek_token {f : Option Lexeme → Parse γ} {g : Option Lexeme → Parse δ}
    (hnone : Agree K S (f none) (g none))
    (hsome : ∀ kind value text text' p q breaks breaks' broken broken', K.position p q →
      K.lexeme ⟨⟨kind, value, text, p, breaks⟩, broken⟩
        ⟨⟨kind, value, text', q, breaks'⟩, broken'⟩ →
      Agree K S (f (some ⟨⟨kind, value, text, p, breaks⟩, broken⟩))
        (g (some ⟨⟨kind, value, text', q, breaks'⟩, broken'⟩))) :
    Agree K S (peek >>= f) (peek >>= g) := by
  refine agree_peek_bind hnone fun x y hxy => ?_
  obtain ⟨⟨kind, value, text, p, breaks⟩, broken⟩ := x
  obtain ⟨⟨kind', value', text', q, breaks'⟩, broken'⟩ := y
  obtain ⟨rfl, rfl, hp⟩ := K.token hxy
  exact hsome kind value text text' p q breaks breaks' broken broken' hp hxy

/-- Taking a token is the same step whatever the token is. -/
theorem agree_take (t u : Token) : Agree K (· = ·) (take t) (take u) :=
  .modify fun _ _ hc => ⟨hc.tail, rfl, hc.noted⟩

/-- What a step relies on changes nothing that cursors have to be alike in, whether it holds or
    not. -/
theorem agree_require (fault fault' : Fault) (required required' : Prop) [Decidable required]
    [Decidable required'] :
    Agree K (· = ·) (require fault required) (require fault' required') :=
  .modify fun _ _ hc => ⟨hc.rest, hc.expected, hc.noted⟩

/-- Alike cursors expect the same, so both have the expectation already or neither has it. -/
theorem agree_expecting (what : Expectation) :
    Agree K (· = ·) (expecting what) (expecting what) := by
  refine .modify fun c d hc => ?_
  rw [hc.expected]
  by_cases h : d.expected.contains what = true
  · rw [if_pos h, if_pos h]
    exact hc
  · rw [if_neg h, if_neg h]
    exact ⟨hc.rest, rfl, hc.noted⟩

/-- Going on with a lexeme notes its ambiguity, if it has one, and nothing else. -/
theorem noteContinuation_eq (x : Lexeme) (c : Cursor) :
    noteContinuation x c =
      .ok () { c with ambiguities := c.ambiguities ++ x.ambiguity?.toList } := by
  unfold noteContinuation Lexeme.ambiguity?
  by_cases h : x.afterBreak = true
  · rw [if_pos h, if_pos h]
    rfl
  · rw [if_neg h, if_neg h, Option.toList_none, List.append_nil]
    rfl

/-- Going on with alike lexemes notes alike ambiguities. -/
theorem agree_noteContinuation {x y : Lexeme} (h : K.lexeme x y) :
    Agree K (· = ·) (noteContinuation x) (noteContinuation y) := by
  intro c d hc
  rw [noteContinuation_eq, noteContinuation_eq]
  exact .ok rfl ⟨hc.rest, hc.expected, K.note h hc.noted⟩

/-- Alike tokens are refused with alike errors. -/
theorem agree_refuse {t u : Token} (h : t.Alike K u) (expected : List Expectation) :
    Agree K R (refuse t expected) (refuse u expected) := by
  unfold refuse
  rw [h.kind, h.value]
  exact .throw (.unexpectedToken h.position)

/-- Alike tokens are of one kind, so both parses find it or neither does. -/
theorem agree_check? (kind : TokenKind) :
    Agree K (Option.Rel (Token.Alike K)) (check? kind) (check? kind) := by
  refine agree_peek_bind ?_ fun x y hxy => ?_
  · exact (agree_expecting _).bind_eq fun _ => .pure .none
  -- The kind is asked for at both tokens with one answer
  · dsimp only
    rw [(K.token hxy).kind]
    by_cases h : y.token.kind = kind
    · rw [if_pos h, if_pos h]
      exact .pure (.some (K.token hxy))
    · rw [if_neg h, if_neg h]
      exact (agree_expecting _).bind_eq fun _ => .pure .none

/-- One of the kinds was found in both parses, or none in either. -/
theorem agree_checkAny? (kinds : List TokenKind) :
    Agree K (Option.Rel (Token.Alike K)) (checkAny? kinds) (checkAny? kinds) := by
  induction kinds with
  | nil => exact .pure .none
  | cons kind kinds ih =>
    refine (agree_check? kind).bind fun a b hab => ?_
    cases hab with
    | some htu => exact .pure (.some htu)
    | none => exact ih

/-- A token of the kind is taken in both parses, or in neither. -/
theorem agree_eat? (kind : TokenKind) :
    Agree K (Option.Rel (Token.Alike K)) (eat? kind) (eat? kind) := by
  refine (agree_check? kind).bind fun a b hab => ?_
  cases hab with
  | some htu => exact (agree_take _ _).bind_eq fun _ => .pure (.some htu)
  | none => exact .pure .none

/-- Whether a token of the kind is taken is the same in both parses. -/
theorem agree_eats (kind : TokenKind) : Agree K (· = ·) (eats kind) (eats kind) := by
  refine (agree_eat? kind).bind fun a b hab => .pure ?_
  cases hab with
  | some => rfl
  | none => rfl

/-- Where a token was taken or not, both parses go on in the same way. -/
theorem agree_eats_bind {kind : TokenKind} {f : Bool → Parse γ} {g : Bool → Parse δ}
    (htrue : Agree K S (f true) (g true)) (hfalse : Agree K S (f false) (g false)) :
    Agree K S (eats kind >>= f) (eats kind >>= g) := by
  refine (agree_eats kind).bind_eq fun b => ?_
  cases b with
  | true => exact htrue
  | false => exact hfalse

/-! ## Loops -/

/-- What two rounds found, item by item. -/
inductive Round.Alike (R : α → β → Prop) : Round α → Round β → Prop
  | more {a : α} {b : β} (h : R a b) : Alike R (.more a) (.more b)
  | last {a : α} {b : β} (h : R a b) : Alike R (.last a) (.last b)
  | done : Alike R .done .done

/-- What two steps of a loop did. -/
inductive StepAlike (R : α → β → Prop) : ForInStep α → ForInStep β → Prop
  | yield {a : α} {b : β} (h : R a b) : StepAlike R (.yield a) (.yield b)
  | done {a : α} {b : β} (h : R a b) : StepAlike R (.done a) (.done b)

/-- With as many rounds left, items are gathered alike. Induction is on these rounds. -/
theorem agree_gatherWithin {p : Parse (Round α)} {q : Parse (Round β)}
    (h : Agree K (Round.Alike R) p q) (rounds : Nat) :
    Agree K (List.Forall₂ R) (gatherWithin p rounds) (gatherWithin q rounds) := by
  induction rounds with
  | zero => exact (agree_require _ _ _ _).bind_eq fun _ => .pure .nil
  | succ rounds ih =>
    refine h.bind fun a b hab => ?_
    cases hab with
    | more hab => exact ih.bind fun as bs hs => .pure (.cons hab hs)
    | last hab => exact .pure (.cons hab .nil)
    | done => exact .pure .nil

/-- Alike rounds gather alike items until no tokens are left. -/
theorem agree_gather {p : Parse (Round α)} {q : Parse (Round β)}
    (h : Agree K (Round.Alike R) p q) : Agree K (List.Forall₂ R) (gather p) (gather q) := by
  intro c d hc
  -- As many tokens are left in one parse as in the other
  show BothEnd K _ (gatherWithin p (c.rest.length + 1) c) (gatherWithin q (d.rest.length + 1) d)
  rw [hc.rest.length_eq]
  exact agree_gatherWithin h _ c d hc

/-- With as many rounds left, steps that agree are repeated alike. Induction is on these rounds, for
    any related values to start from. -/
theorem agree_iterateWithin {f : α → Parse (ForInStep α)} {g : β → Parse (ForInStep β)}
    (h : ∀ a b, R a b → Agree K (StepAlike R) (f a) (g b)) (rounds : Nat) {a : α} {b : β}
    (hab : R a b) : Agree K R (iterateWithin f rounds a) (iterateWithin g rounds b) := by
  induction rounds generalizing a b with
  | zero => exact (agree_require _ _ _ _).bind_eq fun _ => .pure hab
  | succ rounds ih =>
    refine (h a b hab).bind fun x y hxy => ?_
    cases hxy with
    | yield hab => exact ih hab
    | done hab => exact .pure hab

/-- Steps that agree are repeated alike until no tokens are left. -/
theorem agree_iterate {f : α → Parse (ForInStep α)} {g : β → Parse (ForInStep β)}
    (h : ∀ a b, R a b → Agree K (StepAlike R) (f a) (g b)) {a : α} {b : β} (hab : R a b) :
    Agree K R (iterate f a) (iterate g b) := by
  intro c d hc
  show BothEnd K R (iterateWithin f (c.rest.length + 1) a c)
    (iterateWithin g (d.rest.length + 1) b d)
  -- As many tokens are left in one parse as in the other
  rw [hc.rest.length_eq]
  exact agree_iterateWithin h _ hab c d hc

/-- Semicolons are skipped in both parses. -/
theorem agree_skipSemicolons : Agree K (· = ·) skipSemicolons skipSemicolons := by
  refine agree_iterate (fun _ _ _ => ?_) rfl
  exact agree_eats_bind (.pure (.yield rfl)) (.pure (.done rfl))

/-! ## Steps that use the setting -/

section Settings

/-- The cursor is read without being changed. -/
private theorem get_bind {f : Cursor → Parse α} {c : Cursor} :
    ((get : Parse Cursor) >>= f) c = f c c :=
  rfl

variable {s t : Setting} (hs : s.Alike K t)
include hs

/-- Where nothing fits, both parses fail with what was expected at corresponding positions. -/
theorem agree_failHere : Agree K R (failHere s) (failHere t) := by
  intro c d hc
  have hhead := hc.head?
  unfold failHere
  -- Both parses expected the same, and are at alike lexemes or both at their end
  rw [get_bind, get_bind, hc.expected]
  generalize c.rest.head? = x at hhead ⊢
  generalize d.rest.head? = y at hhead ⊢
  cases hhead with
  | none => exact .error (.unexpectedEnd hs.stop)
  | some hxy => exact agree_refuse (K.token hxy) _ c d hc

/-- Both parses take a token of the kind, or fail because there is none. -/
theorem agree_expect (kind : TokenKind) :
    Agree K (Token.Alike K) (expect s kind) (expect t kind) := by
  refine (agree_eat? kind).bind fun a b hab => ?_
  cases hab with
  | some htu => exact .pure htu
  | none => exact agree_failHere hs

/-- Where nesting is too deep, both parses fail at corresponding positions. -/
theorem agree_failTooDeep : Agree K R (failTooDeep s) (failTooDeep t) := by
  intro c d hc
  -- The position of a cursor is that of the lexeme before it, or the end of the source
  have hposition : K.position (c.position s) (d.position t) := by
    unfold Cursor.position
    have hhead := hc.head?
    generalize c.rest.head? = x at hhead ⊢
    generalize d.rest.head? = y at hhead ⊢
    cases hhead with
    | none => exact hs.stop
    | some hxy => exact (K.token hxy).position
  show BothEnd K R (.error (.tooDeep s.limit _) c) (.error (.tooDeep t.limit _) d)
  rw [hs.limit]
  exact .error (.tooDeep hposition)

omit hs in
/-- Entering a level changes nothing that cursors have to be alike in. -/
theorem agree_enter (room : Nat) : Agree K (· = ·) (enter s room) (enter t room) := by
  exact .modify fun c d hc => ⟨hc.rest, hc.expected, hc.noted⟩

omit hs in
/-- The text and the line breaks of a node are erased, so only the positions have to correspond. -/
theorem agree_span {p q : Position} {a b : Node} (hp : K.position p q) (h : a.erase = b.erase) :
    Agree K (Node.Alike K) (span s p a) (span t q b) := by
  intro c d hc
  refine .ok ⟨?_, hp⟩ hc
  rw [Node.erase_mk, Node.erase_mk, ← Node.erase_eq a, ← Node.erase_eq b, h]

omit hs in
/-- A node is finished alike from shapes that are the same after erasure. -/
theorem agree_finish {p q : Position} {shape shape' : Shape Node} (hp : K.position p q)
    (h : shape.map Node.erase = shape'.map Node.erase) :
    Agree K (Node.Alike K) (finish s shape p) (finish t shape' q) := by
  refine agree_span hp ?_
  rw [Node.ofShape, Node.ofShape, Node.erase_mk, Node.erase_mk, h]

/-- Lists of alike items are read alike. -/
theorem agree_list (close : TokenKind) {p : Parse α} {q : Parse β} (h : Agree K R p q) :
    Agree K (List.Forall₂ R) (list s close p) (list t close q) := by
  refine agree_gather (agree_eats_bind (.pure .done) ?_)
  refine h.bind fun a b hab => agree_eats_bind (.pure (.more hab)) ?_
  exact (agree_expect hs close).bind fun _ _ _ => .pure (.last hab)

end Settings

end Parse

end Schemata
