import Schemata.Proofs.Cursor

/-!
# A parse beside one with more room

Two parses that take the same steps may differ in the number of expressions and blocks that they
let be nested.  The one with less room goes on like the other until more are open together than it
has room for, and fails there.

`Guarded s limit total active opened p q` says this of the parses `p`, with the limit of the setting
`s`, and `q`, with a larger one.  It also says what `q` does to its cursor: it notes where it
nested deeper than ever before, and it never nests deeper than what it has taken opened.  There is
one rule for each way to build a parse.
-/

namespace Schemata

/-- Whether the token begins a unary operation at the level. -/
def Level.begins (kind : TokenKind) : Level → Bool
  | .unary operators => operators.any fun operator => operator.1 == kind
  | .binary _ _ => false

/-- Whether something nested may begin after the token: it opens a bracket, or is a unary
    operator. -/
def Grammar.opens (grammar : Grammar) (kind : TokenKind) : Bool :=
  [.leftParen, .leftBracket, .leftBrace].contains kind || grammar.levels.any (Level.begins kind)

/-- The sign of a unary operation opens something. -/
theorem Grammar.opens_of_mem {grammar : Grammar} {operators : List (TokenKind × UnaryKind)}
    {kind : TokenKind} {operation : UnaryKind} (hl : .unary operators ∈ grammar.levels)
    (hmem : (kind, operation) ∈ operators) : grammar.opens kind = true := by
  have hlevel : (Level.unary operators).begins kind = true :=
    List.any_eq_true.2 ⟨_, hmem, by simp⟩
  rw [Grammar.opens, List.any_eq_true.2 ⟨_, hl, hlevel⟩, Bool.or_true]

namespace Cursor

/-! ## Cursors -/

variable {s : Setting} {c c' c'' : Cursor} {total active opened : Nat}

/-- The number of tokens not yet taken after which something nested may begin. -/
def openings (s : Setting) (c : Cursor) : Nat :=
  c.tokens.countP fun token => s.grammar.opens token.kind

/-- The positions of the tokens not yet taken, and of the end of the source. -/
def places (s : Setting) (c : Cursor) : List Position :=
  c.tokens.map Token.position ++ [s.stop]

/-- A cursor is always at one of its places. -/
theorem position_mem_places (s : Setting) (c : Cursor) : c.position s ∈ c.places s := by
  unfold position places tokens
  cases c.rest with
  | nil => simp
  | cons lexeme rest => simp

/-- Where more is nested than ever before, the number of positions noted grows to that number. -/
theorem deepest_descend {depth : Nat} (h : depth ≤ c.deepest + 1) :
    -- One position is noted for each new depth, so there are as many positions as levels
    (c.descend s depth).deepest = max c.deepest depth := by
  show (if c.deepest < depth then c.descents ++ [c.position s] else c.descents).length = _
  by_cases hd : c.deepest < depth
  · rw [if_pos hd, List.length_append, List.length_singleton]
    show c.deepest + 1 = _
    omega
  · rw [if_neg hd]
    show c.deepest = _
    omega

/-- A parse led from one cursor to the other: it has taken the first of the tokens, and noted
    positions of some of them, or of the end. -/
structure Grows (s : Setting) (c c' : Cursor) : Prop where
  tokens : c'.tokens <:+ c.tokens
  descents : ∃ more, c'.descents = c.descents ++ more ∧ ∀ p ∈ more, p ∈ c.places s

namespace Grows

/-- A cursor grows to itself. -/
theorem refl (s : Setting) (c : Cursor) : c.Grows s c :=
  ⟨List.suffix_rfl, [], by simp⟩

/-- The places that are left are among those there were. -/
theorem places_subset (h : c.Grows s c') : ∀ p ∈ c'.places s, p ∈ c.places s := by
  intro p hp
  rcases List.mem_append.1 hp with hp | hp
  · obtain ⟨token, ht, rfl⟩ := List.mem_map.1 hp
    exact List.mem_append_left _ (List.mem_map_of_mem (h.tokens.mem ht))
  · exact List.mem_append_right _ hp

/-- What grows in two steps grows. -/
theorem trans (h : c.Grows s c') (h' : c'.Grows s c'') : c.Grows s c'' := by
  -- The positions noted later are of later tokens, which are tokens of the first cursor as well
  obtain ⟨more, hmore, hplaces⟩ := h.descents
  obtain ⟨more', hmore', hplaces'⟩ := h'.descents
  refine ⟨h'.tokens.trans h.tokens, more ++ more', ?_, ?_⟩
  · rw [hmore', hmore, List.append_assoc]
  · intro p hp
    rcases List.mem_append.1 hp with hp | hp
    · exact hplaces p hp
    · exact h.places_subset p (hplaces' p hp)

/-- What was ever open together stays noted. -/
theorem deepest_le (h : c.Grows s c') : c.deepest ≤ c'.deepest := by
  obtain ⟨more, hmore, -⟩ := h.descents
  rw [deepest, deepest, hmore, List.length_append]
  exact Nat.le_add_right _ _

/-- What was noted stays as it is. -/
theorem getElem?_descents (h : c.Grows s c') {i : Nat} {p : Position}
    (hp : c.descents[i]? = some p) : c'.descents[i]? = some p := by
  obtain ⟨more, hmore, -⟩ := h.descents
  rw [hmore, List.getElem?_append_left (List.getElem?_eq_some_iff.1 hp).1, hp]

/-- There are no more openings left than there were. -/
theorem openings_le (h : c.Grows s c') : c'.openings s ≤ c.openings s :=
  h.tokens.sublist.countP_le

/-- Beginning something nested. -/
theorem descend (s : Setting) (depth : Nat) (c : Cursor) : c.Grows s (c.descend s depth) := by
  unfold Cursor.descend
  split
  · exact ⟨List.suffix_rfl, [c.position s], rfl, by simpa using c.position_mem_places s⟩
  · exact ⟨List.suffix_rfl, [], by simp, by simp⟩

end Grows

/-- At the cursor, `active` expressions and blocks are open together, and at least `opened` of the
    `total` tokens after which something nested may begin have been taken.  No more were ever open
    than tokens taken and one. -/
structure Stands (s : Setting) (total active opened : Nat) (c : Cursor) : Prop where
  active : active ≤ c.deepest
  opened : opened + c.openings s ≤ total
  bound : c.deepest + c.openings s ≤ total + 1

/-- A cursor stands where it grew from, as long as the bound is kept. -/
theorem Stands.of_grows (h : c.Stands s total active opened) (hg : c.Grows s c')
    (hb : c'.deepest + c'.openings s ≤ total + 1) : c'.Stands s total active opened where
  active := Nat.le_trans h.active hg.deepest_le
  opened := Nat.le_trans (Nat.add_le_add_left hg.openings_le _) h.opened
  bound := hb

/-- Once a token that opens something is taken, one more may be nested. -/
theorem Stands.of_took {token : Token} (h : c.Stands s total active opened)
    (ht : c.Took [token] c') (hopens : s.grammar.opens token.kind = true)
    (hdeepest : c'.deepest = c.deepest) : c'.Stands s total active (opened + 1) := by
  -- The token that was taken counts among the openings before, and no more afterwards
  have hcount : c.openings s = c'.openings s + 1 := by
    rw [openings, ht.tokens, List.singleton_append, List.countP_cons, hopens, if_pos rfl]
    rfl
  obtain ⟨hactive, hopened, hbound⟩ := h
  refine ⟨hdeepest ▸ hactive, by omega, ?_⟩
  rw [hdeepest]
  omega

/-- Something nested may begin if as many have been opened as are active. -/
theorem Stands.descend (h : c.Stands s total active active) :
    (c.descend s (active + 1)).Stands s total (active + 1) active := by
  have hdeepest : (c.descend s (active + 1)).deepest = max c.deepest (active + 1) :=
    deepest_descend (Nat.succ_le_succ h.active)
  have hopenings := (Grows.descend s (active + 1) c).openings_le
  obtain ⟨hactive, hopened, hbound⟩ := h
  exact ⟨by omega, by omega, by omega⟩

end Cursor

/-- The setting with another limit. -/
def Setting.withLimit (s : Setting) (limit : Nat) : Setting :=
  { s with limit }

namespace Parse

open EStateM (Result)

variable {α β : Type}

/-! ## Two parses -/

/-- The first parse ends like the second, unless that one nests deeper than the limit of the
    setting.  Then the first fails at the token before which the second first did so. -/
structure Compared (s : Setting) (limit total : Nat) (c : Cursor)
    (x y : Result ParseError Cursor α) : Prop where
  grows : c.Grows s (final y)
  bound : (final y).deepest + (final y).openings s ≤ total + 1
  reached : ∀ n p c', y = .error (.tooDeep n p) c' → limit ≤ total
  same : c.deepest ≤ s.limit → (final y).deepest ≤ s.limit → x = y
  refused : c.deepest ≤ s.limit → s.limit < (final y).deepest →
    ∃ c', (final y).descents[s.limit]? = some (c'.position s) ∧
      x = .error (.tooDeep s.limit (c'.position s)) c'

/-- From every cursor at which so many are open and have been opened, the first parse does what the
    second does as far as its limit lets it. -/
def Guarded (s : Setting) (limit total active opened : Nat) (p q : Parse α) : Prop :=
  ∀ c : Cursor, c.Stands s total active opened → Compared s limit total c (p c) (q c)

/-- The same from cursors with the given lexeme next. -/
def GuardedBefore (s : Setting) (limit total active opened : Nat) (lexeme : Lexeme)
    (p q : Parse α) : Prop :=
  ∀ c : Cursor, c.Stands s total active opened → c.rest.head? = some lexeme →
    Compared s limit total c (p c) (q c)

section

variable {s : Setting} {limit total active opened : Nat} {c : Cursor}

/-- A cursor that was compared stands where the second parse left it. -/
theorem Compared.stands {x y : Result ParseError Cursor α} (h : Compared s limit total c x y)
    (hc : c.Stands s total active opened) : (final y).Stands s total active opened :=
  hc.of_grows h.grows h.bound

/-- Steps that compare make parses that compare. -/
theorem Compared.bind {p q : Parse α} {f g : α → Parse β}
    (h : Compared s limit total c (p c) (q c))
    (hf : ∀ a c₁, q c = .ok a c₁ → Compared s limit total c₁ (f a c₁) (g a c₁)) :
    Compared s limit total c ((p >>= f) c) ((q >>= g) c) := by
  change Compared s limit total c (EStateM.bind p f c) (EStateM.bind q g c)
  unfold EStateM.bind
  cases hq : q c with
  -- The first step of the second parse fails: what is known of it is all there is
  | error e c₁ =>
    rw [hq] at h
    refine ⟨h.grows, h.bound, fun n p c' he => ?_, fun hc hle => ?_, fun hc hlt => ?_⟩
    · obtain ⟨rfl, rfl⟩ := Result.error.inj he
      exact h.reached n p _ rfl
    · rw [h.same hc hle]
    · obtain ⟨c', hp, hx⟩ := h.refused hc hlt
      exact ⟨c', hp, by rw [hx]⟩
  -- It succeeds, and what the second step notes is put after what the first noted
  | ok a c₁ =>
    have hnext := hf a c₁ hq
    rw [hq] at h
    have hgrows : c.Grows s c₁ := h.grows
    refine ⟨hgrows.trans hnext.grows, hnext.bound, hnext.reached, fun hc hle => ?_,
      fun hc hlt => ?_⟩
    · have hle₁ : c₁.deepest ≤ s.limit := Nat.le_trans hnext.grows.deepest_le hle
      rw [h.same hc hle₁]
      exact hnext.same hle₁ hle
    -- The second parse went too deep in its first step, or afterwards
    · by_cases hle₁ : c₁.deepest ≤ s.limit
      · rw [h.same hc hle₁]
        exact hnext.refused hle₁ hlt
      · obtain ⟨c', hp, hx⟩ := h.refused hc (Nat.lt_of_not_le hle₁)
        exact ⟨c', hnext.grows.getElem?_descents hp, by rw [hx]⟩

namespace Guarded

/-- Guarded parses in a row are guarded. -/
theorem bind {p q : Parse α} {f g : α → Parse β} (h : Guarded s limit total active opened p q)
    (hf : ∀ a, Guarded s limit total active opened (f a) (g a)) :
    Guarded s limit total active opened (p >>= f) (q >>= g) := by
  intro c hc
  refine (h c hc).bind fun a c₁ hq => hf a c₁ ?_
  have hstands := (h c hc).stands hc
  rwa [hq] at hstands

/-- A guarded parse is guarded before any lexeme. -/
theorem before {p q : Parse α} (h : Guarded s limit total active opened p q) (lexeme : Lexeme) :
    GuardedBefore s limit total active opened lexeme p q :=
  fun c hc _ => h c hc

end Guarded

/-! ## Steps -/

/-- The step takes tokens or none, nests nothing, and does not fail because of nesting. -/
def Quiet (p : Parse α) : Prop :=
  ∀ c, (final (p c)).tokens <:+ c.tokens ∧ (final (p c)).descents = c.descents ∧
    ∀ n position c', p c ≠ .error (.tooDeep n position) c'

namespace Quiet

/-- A quiet step is guarded beside itself, at any limit. -/
theorem guarded {p : Parse α} (h : Quiet p) : Guarded s limit total active opened p p := by
  intro c hc
  obtain ⟨htokens, hdescents, herror⟩ := h c
  have hgrows : c.Grows s (final (p c)) := ⟨htokens, [], by simp [hdescents]⟩
  have hdeepest : (final (p c)).deepest = c.deepest := by
    rw [Cursor.deepest, Cursor.deepest, hdescents]
  refine ⟨hgrows, ?_, fun n position c' he => absurd he (herror n position c'), fun _ _ => rfl,
    fun hle hlt => ?_⟩
  · rw [hdeepest]
    exact Nat.le_trans (Nat.add_le_add_left hgrows.openings_le _) hc.bound
  · rw [hdeepest] at hlt
    exact absurd hlt (Nat.not_lt_of_le hle)

/-- A value that is given back is quiet. -/
theorem pure (a : α) : Quiet (pure a : Parse α) :=
  fun _ => ⟨List.suffix_rfl, rfl, fun _ _ _ h => by cases h⟩

/-- Two quiet steps in a row are quiet. -/
theorem bind {p : Parse α} {f : α → Parse β} (h : Quiet p) (hf : ∀ a, Quiet (f a)) :
    Quiet (p >>= f) := by
  intro c
  obtain ⟨htokens, hdescents, herror⟩ := h c
  change (final (EStateM.bind p f c)).tokens <:+ c.tokens ∧
    (final (EStateM.bind p f c)).descents = c.descents ∧
      ∀ n position c', EStateM.bind p f c ≠ .error (.tooDeep n position) c'
  unfold EStateM.bind
  cases hp : p c with
  | error e c₁ =>
    rw [hp] at htokens hdescents herror
    refine ⟨htokens, hdescents, fun n position c' he => ?_⟩
    obtain ⟨rfl, rfl⟩ := Result.error.inj he
    exact herror n position _ rfl
  | ok a c₁ =>
    rw [hp] at htokens hdescents
    obtain ⟨htokens', hdescents', herror'⟩ := hf a c₁
    exact ⟨htokens'.trans htokens, hdescents'.trans hdescents, herror'⟩

/-- A change of the cursor is quiet if it puts no token back and opens nothing. -/
theorem modify {f : Cursor → Cursor} (htokens : ∀ c, (f c).tokens <:+ c.tokens)
    (hdescents : ∀ c, (f c).descents = c.descents) : Quiet (modify f) :=
  fun c => ⟨htokens c, hdescents c, fun _ _ _ h => by cases h⟩

/-- A parse that throws is quiet unless the error is about nesting. -/
theorem throw {e : ParseError} (h : ∀ n position, e ≠ .tooDeep n position) :
    Quiet (throw e : Parse α) := by
  refine fun c => ⟨List.suffix_rfl, rfl, fun n position c' he => ?_⟩
  exact h n position (Result.error.inj he).1

end Quiet

/-- To look at the next token is quiet. -/
theorem quiet_peek : Quiet peek :=
  fun _ => ⟨List.suffix_rfl, rfl, fun _ _ _ h => by cases h⟩

/-- To take a token is quiet. -/
theorem quiet_take (token : Token) : Quiet (take token) := by
  refine .modify (fun c => ?_) fun _ => rfl
  exact (List.tail_suffix c.rest).map Lexeme.token

/-- To note what was expected is quiet. -/
theorem quiet_expecting (what : Expectation) : Quiet (expecting what) := by
  refine .modify (fun c => ?_) fun c => ?_
  · split <;> exact List.suffix_rfl
  · split <;> rfl

/-- To note a continuation is quiet. -/
theorem quiet_noteContinuation (lexeme : Lexeme) : Quiet (noteContinuation lexeme) := by
  unfold noteContinuation
  split
  · exact .modify (fun _ => List.suffix_rfl) fun _ => rfl
  · exact .pure ()

/-- To refuse a token is quiet. -/
theorem quiet_refuse (token : Token) (expected : List Expectation) :
    Quiet (refuse token expected : Parse α) :=
  .throw fun _ _ h => by cases h

/-- A look for a token of a kind is quiet. -/
theorem quiet_check? (kind : TokenKind) : Quiet (check? kind) := by
  refine quiet_peek.bind fun next => ?_
  cases next with
  | none => exact (quiet_expecting _).bind fun _ => .pure _
  | some lexeme =>
    dsimp only
    split
    · exact .pure _
    · exact (quiet_expecting _).bind fun _ => .pure _

/-- A requirement is quiet. -/
theorem quiet_require (fault : Fault) (required : Prop) [Decidable required] :
    Quiet (require fault required) :=
  .modify (fun _ => List.suffix_rfl) fun _ => rfl

/-- A look for a token of several kinds is quiet. -/
theorem quiet_checkAny? (kinds : List TokenKind) : Quiet (checkAny? kinds) := by
  induction kinds with
  | nil => exact .pure _
  | cons kind kinds ih =>
    refine (quiet_check? kind).bind fun found => ?_
    cases found with
    | some token => exact .pure _
    | none => exact ih

/-- To take a token of a kind, if there is one, is quiet. -/
theorem quiet_eat? (kind : TokenKind) : Quiet (eat? kind) := by
  refine (quiet_check? kind).bind fun found => ?_
  cases found with
  | some token => exact (quiet_take token).bind fun _ => .pure _
  | none => exact .pure _

/-- To take a token of a kind and say whether there was one is quiet. -/
theorem quiet_eats (kind : TokenKind) : Quiet (eats kind) :=
  (quiet_eat? kind).bind fun _ => .pure _

/-- To fail at the next token is quiet. -/
theorem quiet_failHere : Quiet (failHere s : Parse α) := by
  have hget : Quiet (get : Parse Cursor) :=
    fun _ => ⟨List.suffix_rfl, rfl, fun _ _ _ h => by cases h⟩
  refine hget.bind fun cursor => ?_
  cases cursor.rest.head? with
  | none => exact .throw fun _ _ h => by cases h
  | some lexeme => exact quiet_refuse _ _

/-- To demand a token of a kind is quiet. -/
theorem quiet_expect (kind : TokenKind) : Quiet (expect s kind) := by
  refine (quiet_eat? kind).bind fun found => ?_
  cases found with
  | some token => exact .pure _
  | none => exact quiet_failHere

/-- To span a node is quiet. -/
theorem quiet_span (start : Position) (node : Node) : Quiet (span s start node) :=
  fun _ => ⟨List.suffix_rfl, rfl, fun _ _ _ h => by cases h⟩

/-- To finish a node is quiet. -/
theorem quiet_finish (shape : Shape Node) (start : Position) : Quiet (finish s shape start) :=
  quiet_span start _

/-! ## Steps that open something -/

/-- A choice by the next lexeme is guarded if all ways to go on are. -/
theorem guarded_peek {f g : Option Lexeme → Parse α}
    (hnone : Guarded s limit total active opened (f none) (g none))
    (hsome : ∀ lexeme, GuardedBefore s limit total active opened lexeme (f (some lexeme))
      (g (some lexeme))) :
    Guarded s limit total active opened (peek >>= f) (peek >>= g) := by
  intro c hc
  rw [peek_bind, peek_bind]
  cases hhead : c.rest.head? with
  | none => exact hnone c hc
  | some lexeme => exact hsome lexeme c hc hhead

/-- After a token that opens something, what follows may nest one more. -/
theorem GuardedBefore.take {lexeme : Lexeme} {f g : Unit → Parse α}
    (hopens : s.grammar.opens lexeme.token.kind = true)
    (h : Guarded s limit total active (opened + 1) (f ()) (g ())) :
    GuardedBefore s limit total active opened lexeme (take lexeme.token >>= f)
      (take lexeme.token >>= g) := by
  intro c hc hhead
  -- Taking the token is what counts the opening
  refine Compared.bind ((quiet_take lexeme.token).guarded c hc) fun u c₁ hq => h c₁ ?_
  obtain rfl := take_eq_ok.1 hq
  exact hc.of_took (.of_head? hhead) hopens rfl

/-- A parse may note a continuation before it takes the lexeme. -/
theorem GuardedBefore.note {lexeme other : Lexeme} {f g : Unit → Parse α}
    (h : GuardedBefore s limit total active opened lexeme (f ()) (g ())) :
    GuardedBefore s limit total active opened lexeme (noteContinuation other >>= f)
      (noteContinuation other >>= g) := by
  intro c hc hhead
  have hnote : Compared s limit total c _ _ := (quiet_noteContinuation other).guarded c hc
  refine hnote.bind fun u c₁ hq => h c₁ ?_ ?_
  · have hstands := hnote.stands hc
    rwa [hq] at hstands
  · rw [← (noteContinuation_took hq).1]
    exact hhead

/-- After a token that had to come and opens something, what follows may nest one more. -/
theorem guarded_expect {kind : TokenKind} {f g : Token → Parse α}
    (hopens : s.grammar.opens kind = true)
    (h : ∀ token, Guarded s limit total active (opened + 1) (f token) (g token)) :
    Guarded s limit total active opened (expect s kind >>= f) (expect s kind >>= g) := by
  intro c hc
  have hquiet : Quiet (expect s kind) := quiet_expect kind
  refine Compared.bind (hquiet.guarded c hc) fun token c₁ hq => h token c₁ ?_
  obtain ⟨hk, ht⟩ := expect_took hq
  obtain ⟨-, hdescents, -⟩ := hquiet c
  rw [hq] at hdescents
  exact hc.of_took ht (hk ▸ hopens) (congrArg List.length hdescents)

/-- Where there is room for something nested in both parses. -/
private theorem guarded_enter {p q : Parse α} {room room' : Nat}
    (hroom : active + 1 + room = s.limit) (hroom' : active + 1 + room' = limit)
    (h : Guarded s limit total (active + 1) active p q) :
    Guarded s limit total active active (do enter s room; p)
      (do enter (s.withLimit limit) room'; q) := by
  intro c hc
  -- Both have the same number open, although their rooms differ
  have hdepth : s.limit - room = active + 1 := by omega
  have hdepth' : limit - room' = active + 1 := by omega
  change Compared s limit total c (p (c.descend s (s.limit - room)))
    (q (c.descend s (limit - room')))
  rw [hdepth, hdepth']
  have hnested := h _ hc.descend
  have hgrows := Cursor.Grows.descend s (active + 1) c
  have hdeepest : (c.descend s (active + 1)).deepest = max c.deepest (active + 1) :=
    Cursor.deepest_descend (Nat.succ_le_succ hc.active)
  refine ⟨hgrows.trans hnested.grows, hnested.bound, hnested.reached, fun hle => ?_, fun hle => ?_⟩
  · exact hnested.same (by omega)
  · exact hnested.refused (by omega)

/-- Where there is room for something nested in the second parse only. -/
private theorem guarded_failTooDeep {p q : Parse α} {room : Nat} (hlimit : s.limit ≤ active)
    (hroom : active + 1 + room = limit) (h : Guarded s limit total (active + 1) active p q) :
    Guarded s limit total active active (failTooDeep s)
      (do enter (s.withLimit limit) room; q) := by
  intro c hc
  have hdepth : limit - room = active + 1 := by omega
  change Compared s limit total c (.error (.tooDeep s.limit (c.position s)) c)
    (q (c.descend s (limit - room)))
  rw [hdepth]
  -- The second parse opens one more than the first has room for
  have hnested := h _ hc.descend
  have hactive := hnested.stands hc.descend |>.active
  refine ⟨(Cursor.Grows.descend s (active + 1) c).trans hnested.grows, hnested.bound,
    hnested.reached, fun _ hle => ?_, fun hle _ => ?_⟩
  · omega
  -- As many are open as the limit lets be, so the next one is noted at its number
  · have hall := hc.active
    have hdeepest : c.deepest = s.limit := by omega
    refine ⟨c, hnested.grows.getElem?_descents ?_, rfl⟩
    rw [Cursor.descend, if_pos (by omega), ← hdeepest]
    exact List.getElem?_concat_length

/-- Where there is room for something nested in the second parse, and perhaps in the first. -/
theorem guarded_nested (nested : Nat → Parse α) {body : Nat → Parse α} {q : Parse α}
    {room : Nat} (hzero : nested 0 = failTooDeep s)
    (hsucc : ∀ room, nested (room + 1) = do enter s room; body room)
    (hroom : active + 1 + room = limit)
    (h : Guarded s limit total (active + 1) active (body (s.limit - (active + 1))) q) :
    Guarded s limit total active active (nested (s.limit - active))
      (do enter (s.withLimit limit) room; q) := by
  by_cases hactive : active < s.limit
  · have hleft : s.limit - active = s.limit - (active + 1) + 1 := by omega
    rw [hleft, hsucc]
    exact guarded_enter (by omega) hroom h
  · have hleft : s.limit - active = 0 := by omega
    rw [hleft, hzero]
    exact guarded_failTooDeep (Nat.le_of_not_lt hactive) hroom h

/-- Where there is no room in either parse. -/
theorem guarded_full {p : Parse α} (hlimit : s.limit < limit) :
    Guarded s limit total limit limit p (failTooDeep (s.withLimit limit)) := by
  intro c hc
  change Compared s limit total c (p c) (.error (.tooDeep limit (c.position s)) c)
  have hactive := hc.active
  have hopened := hc.opened
  refine ⟨.refl s c, hc.bound, fun _ _ _ _ => by omega, fun hle => ?_, fun hle => ?_⟩
  all_goals omega

/-! ## Loops -/

/-- Rounds that are guarded make guarded sequences. -/
theorem guarded_gather {p q : Parse (Round α)} (h : Guarded s limit total active opened p q) :
    Guarded s limit total active opened (gather p) (gather q) := by
  -- Both start from the same cursor, so they have the same bound on the rounds
  have hrounds : ∀ rounds, Guarded s limit total active opened (gatherWithin p rounds)
      (gatherWithin q rounds) := by
    intro rounds
    induction rounds with
    | zero => exact ((quiet_require _ _).bind fun _ => .pure _).guarded
    | succ rounds ih =>
      refine h.bind fun found => ?_
      cases found with
      | more item => exact ih.bind fun _ => (Quiet.pure _).guarded
      | last item => exact (Quiet.pure _).guarded
      | done => exact (Quiet.pure _).guarded
  exact fun c hc => hrounds (c.rest.length + 1) c hc

/-- Steps that are guarded make guarded loops. -/
theorem guarded_iterate {f g : α → Parse (ForInStep α)}
    (h : ∀ a, Guarded s limit total active opened (f a) (g a)) (a : α) :
    Guarded s limit total active opened (iterate f a) (iterate g a) := by
  have hrounds : ∀ rounds a, Guarded s limit total active opened (iterateWithin f rounds a)
      (iterateWithin g rounds a) := by
    intro rounds
    induction rounds with
    | zero => exact fun _ => ((quiet_require _ _).bind fun _ => .pure _).guarded
    | succ rounds ih =>
      refine fun a => (h a).bind fun found => ?_
      cases found with
      | yield value => exact ih value
      | done value => exact (Quiet.pure _).guarded
  exact fun c hc => hrounds (c.rest.length + 1) a c hc

/-- To skip semicolons is guarded beside itself. -/
theorem guarded_skipSemicolons :
    Guarded s limit total active opened skipSemicolons skipSemicolons := by
  refine guarded_iterate (fun _ => ?_) ()
  exact ((quiet_eats _).bind fun _ => .pure _).guarded

/-- A choice by whether there is a token of a kind is guarded if both ways to go on are. -/
theorem guarded_eats {kind : TokenKind} {f g : Bool → Parse α}
    (h : ∀ found, Guarded s limit total active opened (f found) (g found)) :
    Guarded s limit total active opened (eats kind >>= f) (eats kind >>= g) :=
  (quiet_eats kind).guarded.bind h

/-- Lists of guarded items are guarded. -/
theorem guarded_list {p q : Parse α} (close : TokenKind)
    (h : Guarded s limit total active opened p q) :
    Guarded s limit total active opened (list s close p) (list s close q) := by
  refine guarded_gather (guarded_eats fun closed => ?_)
  cases closed with
  | true => exact (Quiet.pure _).guarded
  | false =>
    refine h.bind fun value => guarded_eats fun comma => ?_
    cases comma with
    | true => exact (Quiet.pure _).guarded
    | false => exact ((quiet_expect close).bind fun _ => .pure _).guarded

end

end Parse

end Schemata
