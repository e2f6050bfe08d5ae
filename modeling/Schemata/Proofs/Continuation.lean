import Schemata.Proofs.LineBreaks
import Schemata.Proofs.StatementSound

/-!
# Where a statement goes on

A parse notes an ambiguity when an expression goes on with a token after a line break.  It looks
for such a token only where an operand has ended, and no operand ends with an opening brace or a
semicolon.  So it notes nothing in a source where every line break comes after one of these two, or
before a token that no expression goes on with (`calm_program`).

`Calm P p Q` says of a parse `p` that, from lexemes with `P`, it notes no ambiguity and leaves
lexemes with `Q`.  There is one rule for each way to build a parse.
-/

namespace Schemata

/-- Whether a new line after a token of this kind begins something new. -/
def TokenKind.opensLine : TokenKind → Bool
  | leftBrace | semicolon => true
  | _ => false

/-- Every line break comes after a token that opens a line, or before one that no expression goes
    on with. -/
def Grammar.Steady (grammar : Grammar) (marks : List (Piece × Bool)) : Prop :=
  marks.IsChain fun a b =>
    b.2 = true → a.1.kind.opensLine = true ∨ grammar.continues 0 b.1.kind = false

namespace Parse

variable {α β : Type} {grammar : Grammar}

/-- The line breaks among lexemes that a parse has not yet taken are steady. -/
def Steady (grammar : Grammar) (rest : List Lexeme) : Prop :=
  grammar.Steady (rest.map Lexeme.mark)

/-- They are steady after a token that opens no line. -/
def Settled (grammar : Grammar) (rest : List Lexeme) : Prop :=
  ∃ last : Lexeme, last.token.kind.opensLine = false ∧ Steady grammar (last :: rest)

/-- What is steady stays so without its first lexeme. -/
theorem Steady.tail {rest : List Lexeme} (h : Steady grammar rest) : Steady grammar rest.tail := by
  cases rest with
  | nil => exact h
  | cons lexeme rest => exact List.IsChain.tail h

/-- What is settled is steady. -/
theorem Settled.steady {rest : List Lexeme} (h : Settled grammar rest) : Steady grammar rest := by
  obtain ⟨last, -, h⟩ := h
  exact h.tail

/-- After a token that opens no line, no expression goes on with a token of a new line. -/
theorem Settled.afterBreak {rest : List Lexeme} {lexeme : Lexeme} (h : Settled grammar rest)
    (hhead : rest.head? = some lexeme)
    (hcontinues : grammar.continues 0 lexeme.token.kind = true) : lexeme.afterBreak = false := by
  obtain ⟨last, hlast, h⟩ := h
  obtain ⟨rest, rfl⟩ := List.head?_eq_some_iff.1 hhead
  have hpair := (List.isChain_cons_cons.1 h).1
  rw [Bool.eq_false_iff]
  intro hbreak
  obtain hopens | hstops := hpair hbreak
  -- The pair of the last token and this one is ruled by steadiness: the break would have to come
  -- after a token that opens a line, or before one that ends the expression
  · exact absurd (hlast.symm.trans hopens) (by decide)
  · exact absurd (hstops.symm.trans hcontinues) (by decide)

/-- What is known after taking a token of the given kind. -/
def After (grammar : Grammar) (kind : TokenKind) (rest : List Lexeme) : Prop :=
  Steady grammar rest ∧ (kind.opensLine = false → Settled grammar rest)

/-- After its first token, what was steady is settled, unless that token opens a line. -/
theorem Steady.after {rest : List Lexeme} {lexeme : Lexeme} (h : Steady grammar rest)
    (hhead : rest.head? = some lexeme) : After grammar lexeme.token.kind rest.tail := by
  obtain ⟨rest, rfl⟩ := List.head?_eq_some_iff.1 hhead
  exact ⟨h.tail, fun hkind => ⟨lexeme, hkind, h⟩⟩

/-! ## Calm parses -/

/-- From lexemes with the first property, the parse notes no ambiguity and leaves lexemes with the
    second. -/
def Calm (P : List Lexeme → Prop) (p : Parse α) (Q : α → List Lexeme → Prop) : Prop :=
  ∀ c a c', p c = .ok a c' → P c.rest → c'.ambiguities = c.ambiguities ∧ Q a c'.rest

namespace Calm

variable {P P' R : List Lexeme → Prop} {Q : α → List Lexeme → Prop}

/-- A value that is given back notes nothing. -/
theorem pure {a : α} (h : ∀ rest, P rest → Q a rest) : Calm P (pure a) Q := by
  intro c b c' hp hc
  obtain ⟨rfl, rfl⟩ := pure_eq_ok.1 hp
  exact ⟨rfl, h _ hc⟩

/-- Two calm parses make a calm one if the second starts from what the first leaves. -/
theorem bind {p : Parse α} {f : α → Parse β} {S : β → List Lexeme → Prop} (h : Calm P p Q)
    (hf : ∀ a, Calm (Q a) (f a) S) : Calm P (p >>= f) S := by
  intro c b c' hp hc
  obtain ⟨a, c₁, hp, hfa⟩ := bind_eq_ok.1 hp
  obtain ⟨hsame, hq⟩ := h c a c₁ hp hc
  obtain ⟨hsame', hs⟩ := hf a c₁ b c' hfa hq
  exact ⟨hsame'.trans hsame, hs⟩

/-- A parse that always fails is calm. -/
theorem of_fails {p : Parse α} (h : ∀ c a c', p c ≠ .ok a c') : Calm P p Q :=
  fun c a c' hp _ => absurd hp (h c a c')

/-- A calm parse is calm from fewer lexemes. -/
theorem before {p : Parse α} (h : Calm P p Q) (hP : ∀ rest, P' rest → P rest) : Calm P' p Q :=
  fun c a c' hp hc => h c a c' hp (hP _ hc)

/-- A calm parse promises less if asked to. -/
theorem weaken {p : Parse α} {S : α → List Lexeme → Prop} (h : Calm P p Q)
    (hQ : ∀ a rest, Q a rest → S a rest) : Calm P p S := by
  intro c a c' hp hc
  obtain ⟨hsame, hq⟩ := h c a c' hp hc
  exact ⟨hsame, hQ _ _ hq⟩

/-- A step that changes only what was noted besides. -/
theorem of_same {p : Parse α}
    (h : ∀ c a c', p c = .ok a c' → c'.rest = c.rest ∧ c'.ambiguities = c.ambiguities) :
    Calm P p fun _ => P := by
  intro c a c' hp hc
  obtain ⟨hrest, hsame⟩ := h c a c' hp
  exact ⟨hsame, hrest ▸ hc⟩

end Calm

section Steps

variable {P : List Lexeme → Prop}

/-- A peek knows the first of the lexemes. -/
theorem calm_peek : Calm P peek fun next rest => P rest ∧ rest.head? = next := by
  intro c next c' hp hc
  obtain ⟨hhead, rfl⟩ := peek_eq_ok.1 hp
  exact ⟨rfl, hc, hhead⟩

/-- To note what was expected is calm. -/
theorem calm_expecting (what : Expectation) : Calm P (expecting what) fun _ => P := by
  refine .of_same fun c a c' hp => ?_
  obtain rfl : (if c.expected.contains what then c
      else { c with expected := c.expected ++ [what] }) = c' := (EStateM.Result.ok.inj hp).2
  split <;> exact ⟨rfl, rfl⟩

/-- To enter a level is calm. -/
theorem calm_enter (s : Setting) (room : Nat) : Calm P (enter s room) fun _ => P := by
  refine .of_same fun c a c' hp => ?_
  obtain rfl : c.descend s (s.limit - room) = c' := (EStateM.Result.ok.inj hp).2
  exact ⟨rfl, rfl⟩

/-- A requirement is calm. -/
theorem calm_require (fault : Fault) (required : Prop) [Decidable required] :
    Calm P (require fault required) fun _ => P := by
  refine .of_same fun c a c' hp => ?_
  obtain rfl : c.require fault required = c' := (EStateM.Result.ok.inj hp).2
  exact ⟨rfl, rfl⟩

/-- To finish a node is calm. -/
theorem calm_finish (s : Setting) (shape : Shape Node) (start : Position) :
    Calm P (finish s shape start) fun _ => P := by
  refine .of_same fun c a c' hp => ?_
  obtain ⟨-, rfl⟩ := finish_eq_ok.1 hp
  exact ⟨rfl, rfl⟩

/-- To span a node is calm. -/
theorem calm_span (s : Setting) (start : Position) (node : Node) :
    Calm P (span s start node) fun _ => P := by
  refine .of_same fun c a c' hp => ?_
  obtain ⟨-, rfl⟩ := span_eq_ok.1 hp
  exact ⟨rfl, rfl⟩

/-- Taking the next token. -/
theorem calm_take (token : Token) :
    Calm (fun rest => Steady grammar rest ∧ ∃ broken, rest.head? = some ⟨token, broken⟩)
      (take token) fun _ => After grammar token.kind := by
  rintro c a c' hp ⟨hsteady, broken, hhead⟩
  obtain rfl := take_eq_ok.1 hp
  exact ⟨rfl, hsteady.after hhead⟩

/-- What follows the next token starts from what is known after its kind. -/
theorem calm_take_bind {token : Token} {broken : Bool} {f : Unit → Parse α}
    {Q : α → List Lexeme → Prop} (h : Calm (After grammar token.kind) (f ()) Q) :
    Calm (fun rest => Steady grammar rest ∧ rest.head? = some ⟨token, broken⟩)
      (take token >>= f) Q :=
  ((calm_take token).bind fun _ => h).before fun _ hrest => ⟨hrest.1, broken, hrest.2⟩

/-- Going on with an expression after a token that opens no line. -/
theorem calm_noteContinuation {lexeme : Lexeme}
    (h : grammar.continues 0 lexeme.token.kind = true) :
    Calm (fun rest => Settled grammar rest ∧ rest.head? = some lexeme) (noteContinuation lexeme)
      fun _ rest => Steady grammar rest ∧ rest.head? = some lexeme := by
  rintro c a c' hp ⟨hsettled, hhead⟩
  -- The token does not come after a break, so nothing is noted
  simp only [noteContinuation, hsettled.afterBreak hhead h, Bool.false_eq_true, if_false] at hp
  obtain ⟨-, rfl⟩ := pure_eq_ok.1 hp
  exact ⟨rfl, hsettled.steady, hhead⟩

/-- A look that finds a token of a kind tells that this token comes next. -/
theorem calm_check? (kind : TokenKind) : Calm P (check? kind) fun found rest =>
    P rest ∧ ∀ token, found = some token →
      token.kind = kind ∧ ∃ broken, rest.head? = some ⟨token, broken⟩ := by
  -- A look that fails only notes the expectation
  have hnone : Calm P (expecting (.token kind) >>= fun _ => (pure none : Parse (Option Token)))
      fun found rest => P rest ∧ ∀ token, found = some token →
        token.kind = kind ∧ ∃ broken, rest.head? = some ⟨token, broken⟩ :=
    (calm_expecting _).bind fun _ => .pure fun rest hrest => ⟨hrest, by simp⟩
  refine calm_peek.bind fun next => ?_
  cases next with
  | none => exact hnone.before fun _ h => h.1
  | some lexeme =>
    dsimp only
    split
    · next hkind =>
      refine .pure fun rest h => ⟨h.1, ?_⟩
      rintro token ⟨⟩
      exact ⟨hkind, lexeme.afterBreak, h.2⟩
    · exact hnone.before fun _ h => h.1

/-- A look for several kinds tells that the token it found comes next. -/
theorem calm_checkAny? (kinds : List TokenKind) : Calm P (checkAny? kinds) fun found rest =>
    P rest ∧ ∀ token, found = some token → ∃ broken, rest.head? = some ⟨token, broken⟩ := by
  induction kinds with
  | nil => exact .pure fun rest hrest => ⟨hrest, by simp⟩
  | cons kind kinds ih =>
    refine (calm_check? kind).bind fun found => ?_
    cases found with
    | none => exact ih.before fun _ h => h.1
    | some token =>
      refine .pure fun rest h => ⟨h.1, ?_⟩
      rintro _ ⟨⟩
      exact (h.2 token rfl).2

/-- After a token of the kind is taken, what is known is what holds after that kind. -/
theorem calm_eat? (hP : ∀ rest, P rest → Steady grammar rest) (kind : TokenKind) :
    Calm P (eat? kind) fun found rest =>
      if found.isSome then After grammar kind rest else P rest := by
  refine (calm_check? kind).bind fun found => ?_
  cases found with
  | none => exact .pure fun rest h => by simpa using h.1
  | some token =>
    by_cases hkind : token.kind = kind
    · subst hkind
      refine ((@calm_take grammar token).bind fun _ => .pure fun rest h => ?_).before
        fun rest h => ?_
      · exact h
      · exact ⟨hP _ h.1, (h.2 token rfl).2⟩
    · exact fun c a c' _ h => absurd (h.2 token rfl).1 hkind

/-- A choice by whether a token of the kind is there to be taken. -/
theorem calm_eats_bind {f : Bool → Parse α} {Q : α → List Lexeme → Prop}
    (hP : ∀ rest, P rest → Steady grammar rest) (kind : TokenKind)
    (htrue : Calm (After grammar kind) (f true) Q) (hfalse : Calm P (f false) Q) :
    Calm P (eats kind >>= f) Q := by
  have heats : Calm P (eats kind) fun b rest => if b then After grammar kind rest else P rest :=
    (calm_eat? hP kind).bind fun found => .pure fun rest h => h
  refine heats.bind fun b => ?_
  cases b with
  | true => exact htrue
  | false => exact hfalse

/-- After a token that had to come, what is known is what holds after its kind. -/
theorem calm_expect (s : Setting) (kind : TokenKind) :
    Calm (Steady grammar) (expect s kind) fun _ => After grammar kind := by
  refine (calm_eat? (fun _ h => h) kind).bind fun found => ?_
  cases found with
  | some token => exact .pure fun rest h => h
  | none => exact .of_fails fun c a c' => failHere_ne_ok

/-! ## Loops -/

/-- Rounds that keep a property make a sequence that keeps it. -/
theorem calm_gather {round : Parse (Round α)} (h : Calm P round fun _ => P) :
    Calm P (gather round) fun _ => P := by
  -- Induction on the bound, since it is taken from the cursor
  have hwithin : ∀ rounds, Calm P (gatherWithin round rounds) fun _ => P := by
    intro rounds
    induction rounds with
    | zero => exact (calm_require _ _).bind fun _ => .pure fun _ h => h
    | succ rounds ih =>
      refine h.bind fun found => ?_
      cases found with
      | more item => exact ih.bind fun _ => .pure fun _ h => h
      | last item => exact .pure fun _ h => h
      | done => exact .pure fun _ h => h
  intro c a c' hp
  obtain ⟨_, _, hget, hp⟩ := bind_eq_ok.1 hp
  obtain ⟨rfl, rfl⟩ := get_eq_ok.1 hget
  exact hwithin _ _ _ _ hp

/-- Steps that keep a property make a loop that keeps it. -/
theorem calm_iterate {step : α → Parse (ForInStep α)} (h : ∀ a, Calm P (step a) fun _ => P)
    (a : α) : Calm P (iterate step a) fun _ => P := by
  have hwithin : ∀ rounds a, Calm P (iterateWithin step rounds a) fun _ => P := by
    intro rounds
    induction rounds with
    | zero => exact fun _ => (calm_require _ _).bind fun _ => .pure fun _ h => h
    | succ rounds ih =>
      intro a
      refine (h a).bind fun next => ?_
      cases next with
      | yield a => exact ih a
      | done a => exact .pure fun _ h => h
  intro c b c' hp
  obtain ⟨_, _, hget, hp⟩ := bind_eq_ok.1 hp
  obtain ⟨rfl, rfl⟩ := get_eq_ok.1 hget
  exact hwithin _ _ _ _ _ hp

/-- To skip semicolons keeps the line breaks steady.  A semicolon may open a line. -/
theorem calm_skipSemicolons :
    Calm (Steady grammar) skipSemicolons fun _ => Steady grammar := by
  refine calm_iterate (fun _ => ?_) ()
  exact calm_eats_bind (fun _ h => h) .semicolon (.pure fun _ h => h.1) (.pure fun _ h => h)

/-- A list ends with its closing token. -/
theorem calm_list {s : Setting} {close : TokenKind} {item : Parse α}
    (hitem : Calm (Steady grammar) item fun _ => Steady grammar)
    (htook : ∀ c a c', item c = .ok a c' → ∃ ts, c.Took ts c') :
    Calm (Steady grammar) (list s close item) fun _ => After grammar close := by
  -- Only a round that ends the list has taken the closing token
  have hround : Calm (Steady grammar) (listRound s close item) fun found rest =>
      Steady grammar rest ∧ ((∀ a, found ≠ .more a) → After grammar close rest) := by
    refine calm_eats_bind (fun _ h => h) close (.pure fun _ h => ⟨h.1, fun _ => h⟩) ?_
    refine hitem.bind fun a => calm_eats_bind (fun _ h => h) .comma ?_ ?_
    · exact .pure fun _ h => ⟨h.1, fun hmore => absurd rfl (hmore a)⟩
    · exact (calm_expect s close).bind fun _ => .pure fun _ h => ⟨h.1, fun _ => h⟩
  intro c as c' hp hc
  have hgathered := (list_eq_ok fun c a c' h => (htook c a c' h).imp fun ts h => ⟨h, trivial⟩).1 hp
  clear hp
  induction hgathered with
  | done h | last h =>
    obtain ⟨hsame, hsteady, hend⟩ := hround _ _ _ h hc
    exact ⟨hsame, hend (by simp)⟩
  | more h _ ih =>
    obtain ⟨hsame, hsteady, -⟩ := hround _ _ _ h hc
    obtain ⟨hsame', hafter⟩ := ih hsteady
    exact ⟨hsame'.trans hsame, hafter⟩

end Steps

/-! ## Expressions -/

section Expressions

variable {s : Setting} {room : Nat} {expression : Parse Node}

/-- An atom of one token, which opens no line. -/
private theorem calm_leaf {token : Token} {broken : Bool} {shape : Shape Node}
    (hkind : token.kind.opensLine = false) :
    Calm (fun rest => Steady grammar rest ∧ rest.head? = some ⟨token, broken⟩)
      (take token >>= fun _ => finish s shape token.position) fun _ => Settled grammar :=
  calm_take_bind ((calm_finish s shape token.position).weaken fun _ _ h => h.2 hkind)

/-- The value of an entry and its end, after its key. -/
private theorem calm_entryValue (he : Calm (Steady grammar) expression fun _ => Settled grammar)
    (key : Node) :
    Calm (Settled grammar)
      (do
        if ← eats .colon then
          let value ← expression
          finish s (.entry key value) key.position
        else if key.name?.isSome then
          let value ← pure key
          finish s (.entry key value) key.position
        else
          let value ← failHere s
          finish s (.entry key value) key.position) fun _ => Settled grammar := by
  refine calm_eats_bind (fun _ h => h.steady) .colon ?_ ?_
  · exact (he.before fun _ h => h.1).bind fun value => calm_finish _ _ _
  · rw [if_neg Bool.false_ne_true]
    split
    · exact calm_finish _ _ _
    · exact (Calm.of_fails fun _ _ _ => failHere_ne_ok).bind fun value => calm_finish _ _ _

/-- An entry of an object ends settled. -/
theorem calm_objectEntry (he : Calm (Steady grammar) expression fun _ => Settled grammar) :
    Calm (Steady grammar) (objectEntry s expression) fun _ => Settled grammar := by
  have hvalue := @calm_entryValue grammar s expression he
  refine calm_peek.bind fun next => ?_
  cases next with
  | none =>
    exact (calm_expecting _).bind fun _ => (calm_expecting _).bind fun _ =>
      (Calm.of_fails fun _ _ _ => failHere_ne_ok).bind hvalue
  | some lexeme =>
    dsimp only
    split
    -- A name or a string as the key settles what follows
    · next hk =>
      exact calm_take_bind ((calm_finish _ _ _).bind fun key =>
        (hvalue key).before fun _ h => h.2 (by rw [hk]; rfl))
    · next hk =>
      exact calm_take_bind ((calm_finish _ _ _).bind fun key =>
        (hvalue key).before fun _ h => h.2 (by rw [hk]; rfl))
    · exact (calm_expecting _).bind fun _ => (calm_expecting _).bind fun _ =>
        (Calm.of_fails fun _ _ _ => failHere_ne_ok).bind hvalue

/-- An atom ends settled, for its last token is its only one or closes a bracket. -/
theorem calm_atom (he : Calm (Steady grammar) expression fun _ => Settled grammar)
    (hreads : Reads s room .nested 0 expression) :
    Calm (Steady grammar) (atom s expression) fun _ => Settled grammar := by
  have hfails : ∀ P : List Lexeme → Prop, Calm P (failAtom s) fun _ => Settled grammar :=
    fun P => (calm_expecting _).bind fun _ => .of_fails fun _ _ _ => failHere_ne_ok
  have htook : ∀ c n c', expression c = .ok n c' → ∃ ts, c.Took ts c' :=
    fun c n c' h => (hreads c n c' h).imp fun ts h => h.1
  refine calm_peek.bind fun next => ?_
  cases next with
  | none => exact hfails _
  | some lexeme =>
    dsimp only
    split
    · next hk => exact calm_leaf (by rw [hk]; rfl)
    · next hk => exact calm_leaf (by rw [hk]; rfl)
    · next hk => exact calm_leaf (by rw [hk]; rfl)
    · next hk => exact calm_leaf (by rw [hk]; rfl)
    -- From here on an opening token was taken, so only steadiness is known until the closing one
    · have hitems := he.weaken fun _ _ h => h.steady
      refine calm_take_bind (((calm_list hitems htook).before fun _ h => h.1).bind fun _ => ?_)
      exact (calm_finish _ _ _).weaken fun _ _ h => h.2 rfl
    · have hentries := (@calm_objectEntry grammar s expression he).weaken fun _ _ h => h.steady
      refine calm_take_bind (((calm_list hentries fun c n c' h => ?_).before fun _ h => h.1).bind
        fun _ => ?_)
      · exact (objectEntry_reads hreads h).imp fun ts h => h.1
      · exact (calm_finish _ _ _).weaken fun _ _ h => h.2 rfl
    · refine calm_take_bind ((he.before fun _ h => h.1).bind fun inner => ?_)
      refine ((calm_expect s .rightParen).before fun _ h => h.steady).bind fun _ => ?_
      exact (calm_span _ _ _).weaken fun _ _ h => h.2 rfl
    · exact hfails _

/-- A token of a chain or of a row of operators, where an expression goes on with it. -/
private theorem calm_continued {lexeme : Lexeme} {f : Unit → Parse α}
    {Q : α → List Lexeme → Prop} (h : grammar.continues 0 lexeme.token.kind = true)
    (hf : Calm (Steady grammar) (f ()) Q) :
    Calm (fun rest => Settled grammar rest ∧ rest.head? = some lexeme)
      (noteContinuation lexeme >>= fun _ => take lexeme.token >>= f) Q :=
  (calm_noteContinuation h).bind fun _ => calm_take_bind (hf.before fun _ h => h.1)

/-- A link ends settled, and so does a chain at its end. -/
theorem calm_link (he : Calm (Steady grammar) expression fun _ => Settled grammar)
    (hreads : Reads s room .nested 0 expression) (node : Node) :
    Calm (Settled grammar) (link s expression node) fun _ => Settled grammar := by
  -- At the end of the chain nothing is taken
  have hend : ∀ next, Calm (fun rest => Settled grammar rest ∧ rest.head? = next) (endChain node)
      fun _ => Settled grammar := by
    intro next
    refine (calm_expecting _).bind fun _ => (calm_expecting _).bind fun _ => ?_
    exact (calm_expecting _).bind fun _ => .pure fun _ h => h.1
  have hcontinues : ∀ kind ∈ chainKinds, grammar.continues 0 kind = true := by
    intro kind hk
    simp [Grammar.continues, chainKinds] at hk ⊢
    exact .inl hk
  refine calm_peek.bind fun next => ?_
  cases next with
  | none => exact hend _
  | some lexeme =>
    dsimp only
    split
    · next hk =>
      refine calm_continued (hcontinues _ (by rw [hk]; decide)) ?_
      refine (calm_expect s .name).bind fun name => (calm_finish _ _ _).bind fun member => ?_
      exact .pure fun _ h => h.2 rfl
    · next hk =>
      refine calm_continued (hcontinues _ (by rw [hk]; decide)) (he.bind fun key => ?_)
      refine ((calm_expect s .rightBracket).before fun _ h => h.steady).bind fun _ => ?_
      exact (calm_span _ _ _).bind fun _ => .pure fun _ h => h.2 rfl
    · next hk =>
      refine calm_continued (hcontinues _ (by rw [hk]; decide)) ?_
      refine (calm_list (he.weaken fun _ _ h => h.steady) fun c n c' h => ?_).bind fun args => ?_
      · exact (hreads c n c' h).imp fun ts h => h.1
      · exact (calm_finish _ _ _).bind fun _ => .pure fun _ h => h.2 rfl
    · exact hend _

/-- A chain ends settled. -/
theorem calm_chain (he : Calm (Steady grammar) expression fun _ => Settled grammar)
    (hreads : Reads s room .nested 0 expression) :
    Calm (Steady grammar) (chain s expression) fun _ => Settled grammar :=
  (calm_atom he hreads).bind fun n => calm_iterate (calm_link he hreads) n

end Expressions

section Levels

variable {s : Setting} {nested : Nat → Parse Node}

/-- An operand after a sign ends settled. -/
theorem calm_unaryFrom (hn : ∀ level, Calm (Steady grammar) (nested level) fun _ => Settled grammar)
    (level : Nat) (kind : UnaryKind) (token : Token) (broken : Bool) :
    Calm (fun rest => Steady grammar rest ∧ rest.head? = some ⟨token, broken⟩)
      (unaryFrom s nested level kind token) fun _ => Settled grammar :=
  calm_take_bind (((hn level).before fun _ h => h.1).bind fun _ => calm_finish _ _ _)

/-- A right operand ends settled, with a sign in front or without. -/
theorem calm_rightOperand
    (hn : ∀ level, Calm (Steady grammar) (nested level) fun _ => Settled grammar) {level : Nat}
    {tighter : Parse Node} (ht : Calm (Steady grammar) tighter fun _ => Settled grammar) :
    Calm (Steady grammar) (rightOperand s nested level tighter) fun _ => Settled grammar := by
  refine (calm_require _ _).bind fun _ => calm_peek.bind fun next => ?_
  cases next with
  | none => exact ht.before fun _ h => h.1
  | some lexeme =>
    dsimp only
    split
    · exact calm_unaryFrom hn _ _ _ _
    · exact ht.before fun _ h => h.1

/-- The node of an operator notes nothing. -/
theorem calm_operatorNode {P : List Lexeme → Prop} (token : Token) :
    Calm P (operatorNode token) fun _ => P := by
  unfold operatorNode
  split
  · exact .pure fun _ h => h
  · exact .of_fails fun _ _ _ => refuse_ne_ok

/-- A step along a row of operators ends settled. -/
theorem calm_binaryStep
    (hn : ∀ level, Calm (Steady grammar) (nested level) fun _ => Settled grammar) {level : Nat}
    {kind : BinaryKind} {operators : List TokenKind} {tighter : Parse Node}
    (hrow : .binary kind operators ∈ grammar.levels)
    (ht : Calm (Steady grammar) tighter fun _ => Settled grammar) (left : Node) :
    Calm (Settled grammar) (binaryStep s nested level kind operators tighter left)
      fun _ => Settled grammar := by
  refine calm_peek.bind fun next => ?_
  cases next with
  | none => exact .pure fun _ h => h.1
  | some lexeme =>
    dsimp only
    split
    · next hop =>
      -- The operator is one that an expression goes on with, so it does not come after a break
      have hcontinues : grammar.continues 0 lexeme.token.kind = true := by
        rw [Grammar.continues, Bool.or_eq_true, List.any_eq_true]
        exact .inr ⟨_, hrow, hop⟩
      refine calm_continued hcontinues ((calm_operatorNode _).bind fun op => ?_)
      refine (calm_rightOperand hn ht).bind fun right => ?_
      exact (calm_finish _ _ _).bind fun _ => .pure fun _ h => h
    · exact .pure fun _ h => h.1

/-- The levels of a table end settled, one after the other. -/
theorem calm_climb {room : Nat} (hreads : Reads s room .nested 0 (nested 0))
    (hn : ∀ level, Calm (Steady grammar) (nested level) fun _ => Settled grammar) (level : Nat)
    {levels : List Level} (hlevels : ∀ row ∈ levels, row ∈ grammar.levels) :
    Calm (Steady grammar) (climb s nested level levels) fun _ => Settled grammar := by
  induction levels generalizing level with
  | nil => exact calm_chain (hn 0) hreads
  | cons row levels ih =>
    have ih := fun level => ih level fun row hrow => hlevels row (List.mem_cons_of_mem _ hrow)
    cases row with
    | binary kind operators =>
      -- The left operand is settled, which is what every further step starts from
      refine (ih (level + 1)).bind fun left => calm_iterate (fun left => ?_) left
      exact calm_binaryStep hn (hlevels _ (by simp)) (ih (level + 1)) left
    | unary operators =>
      refine calm_peek.bind fun next => ?_
      cases next with
      | none => exact (ih (level + 1)).before fun _ h => h.1
      | some lexeme =>
        dsimp only
        split
        · exact calm_unaryFrom hn _ _ _ _
        · exact (ih (level + 1)).before fun _ h => h.1

/-- An expression ends settled.  This is what makes the token after it one that comes after no break
    or goes on with nothing. -/
theorem calm_nestedLevel (room level : Nat) :
    Calm (Steady s.grammar) (nestedLevel s room level) fun _ => Settled s.grammar := by
  induction room generalizing level with
  | zero => exact .of_fails fun _ _ _ => failTooDeep_ne_ok
  | succ room ih =>
    refine (calm_enter s room).bind fun _ => ?_
    exact calm_climb (nestedLevel_reads room 0) ih level fun row hrow => List.mem_of_mem_drop hrow

end Levels

/-! ## Statements

None of these goes on with an expression itself. -/

section Statements

variable {s : Setting} {expression : Parse Node} {block : Parse (List Node)} {token : Token}
  {broken : Bool}

/-- The name of a type is calm. -/
theorem calm_typeName : Calm (Steady grammar) (typeName s) fun _ => Steady grammar := by
  refine (calm_expect s .name).bind fun name => ?_
  refine calm_eats_bind (fun _ h => h.1) .leftBracket ?_ (.pure fun _ h => h.1)
  exact ((calm_expect s .rightBracket).before fun _ h => h.1).bind fun _ => .pure fun _ h => h.1

/-- A parameter is calm. -/
theorem calm_param : Calm (Steady grammar) (param s) fun _ => Steady grammar := by
  -- What follows the name is the same with a question mark and without
  have htype : ∀ name : Token, ∀ optional, Calm (Steady grammar) (do
      if ← eats .colon then
        let type ← do pure (some (← typeName s))
        finish s (.param name.value type optional) name.position
      else
        let type ← pure none
        finish s (.param name.value type optional) name.position) fun _ => Steady grammar := by
    intro name optional
    refine calm_eats_bind (fun _ h => h) .colon ?_ (calm_finish _ _ _)
    exact (calm_typeName.before fun _ h => h.1).bind fun _ => calm_finish _ _ _
  refine (calm_expect s .name).bind fun name => ?_
  exact calm_eats_bind (fun _ h => h.1) .question ((htype name true).before fun _ h => h.1)
    ((htype name false).before fun _ h => h.1)

/-- A field of an index is calm. -/
theorem calm_indexField : Calm (Steady grammar) (indexField s) fun _ => Steady grammar := by
  refine calm_eats_bind (fun _ h => h) .leftBracket ?_ ?_
  · refine ((calm_expect s .name).before fun _ h => h.1).bind fun name => ?_
    have hclose : ∀ direction, Calm (After grammar .name) (do
        let _ ← expect s .rightBracket
        return IndexField.mk name.value direction) fun _ => Steady grammar := by
      intro direction
      exact ((calm_expect s .rightBracket).before fun _ h => h.1).bind fun _ => .pure fun _ h => h.1
    refine calm_eats_bind (fun _ h => h.1) .comma ?_ (hclose none)
    refine ((calm_expect s .name).before fun _ h => h.1).bind fun word => ?_
    dsimp only
    split
    · next direction _ => exact hclose (some direction)
    · exact (Calm.of_fails fun _ _ _ => refuse_ne_ok).bind hclose
  · exact (calm_expect s .name).bind fun _ => .pure fun _ h => h.1

/-- An index is calm. -/
theorem calm_index :
    Calm (fun rest => Steady grammar rest ∧ rest.head? = some ⟨token, broken⟩) (index s token)
      fun _ => Steady grammar := by
  refine calm_take_bind (((calm_expect s .name).before fun _ h => h.1).bind fun directive => ?_)
  have hfields : Calm (After grammar .name) (do
      let _ ← expect s .leftParen
      let fields ← list s .rightParen (indexField s)
      finish s (.index fields) token.position) fun _ => Steady grammar := by
    refine ((calm_expect s .leftParen).before fun _ h => h.1).bind fun _ => ?_
    refine ((calm_list calm_indexField fun c field c' h => ?_).before fun _ h => h.1).bind
      fun fields => (calm_finish _ _ _).weaken fun _ _ h => h.1
    exact (indexField_took h).imp fun ts h => h.1
  dsimp only
  split
  · exact (Calm.of_fails fun _ _ _ => refuse_ne_ok).bind fun _ => hfields
  · exact hfields

/-- A field of a collection is calm. -/
theorem calm_field :
    Calm (fun rest => Steady grammar rest ∧ rest.head? = some ⟨token, broken⟩) (field s token)
      fun _ => Steady grammar := by
  -- The type is read in the same way with a colon before it and without
  have htype : Calm (Steady grammar) (do
      let type ← typeName s
      let required ← eats .not
      finish s (.field token.value type required) token.position) fun _ => Steady grammar := by
    refine calm_typeName.bind fun type => ?_
    exact calm_eats_bind (fun _ h => h) .not ((calm_finish _ _ _).weaken fun _ _ h => h.1)
      (calm_finish _ _ _)
  exact calm_take_bind (calm_eats_bind (fun _ h => h.1) .colon (htype.before fun _ h => h.1)
    (htype.before fun _ h => h.1))

section

variable (hb : Calm (Steady grammar) block fun _ => Steady grammar)
include hb

/-- A function is calm. -/
theorem calm_function :
    Calm (fun rest => Steady grammar rest ∧ rest.head? = some ⟨token, broken⟩)
      (function s block token) fun _ => Steady grammar := by
  refine calm_take_bind (((calm_expect s .name).before fun _ h => h.1).bind fun name => ?_)
  refine ((calm_expect s .leftParen).before fun _ h => h.1).bind fun _ => ?_
  refine ((calm_list calm_param fun c n c' h => ?_).before fun _ h => h.1).bind fun params => ?_
  · exact (@param_reads s 0 c c' n h).imp fun ts h => h.1
  · exact (hb.before fun _ h => h.1).bind fun body => calm_finish _ _ _

/-- An item of a collection is calm. -/
theorem calm_collectionItem :
    Calm (Steady grammar) (collectionItem s block) fun _ => Steady grammar := by
  have hunknown : ∀ P : List Lexeme → Prop, Calm P (do
      expecting (.token (.keyword .function))
      expecting (.token .atSign)
      expecting (.token .name)
      failHere s : Parse Node) fun _ => Steady grammar := fun P =>
    (calm_expecting _).bind fun _ => (calm_expecting _).bind fun _ => (calm_expecting _).bind
      fun _ => .of_fails fun _ _ _ => failHere_ne_ok
  refine calm_peek.bind fun next => ?_
  cases next with
  | none => exact hunknown _
  | some lexeme =>
    dsimp only
    split
    · exact calm_function hb
    · exact calm_index
    · exact calm_field
    · exact hunknown _

/-- A collection is calm.  Its braces and semicolons may open lines. -/
theorem calm_collection :
    Calm (fun rest => Steady grammar rest ∧ rest.head? = some ⟨token, broken⟩)
      (collection s block token) fun _ => Steady grammar := by
  refine calm_take_bind (((calm_expect s .name).before fun _ h => h.1).bind fun name => ?_)
  refine ((calm_expect s .leftBrace).before fun _ h => h.1).bind fun _ => ?_
  refine (calm_skipSemicolons.before fun _ h => h.1).bind fun _ => (calm_gather ?_).bind
    fun items => (calm_expect s .rightBrace).bind fun _ =>
      (calm_finish _ _ _).weaken fun _ _ h => h.1
  refine (calm_check? .rightBrace).bind fun found => ?_
  have hitem : Calm (Steady grammar) (do
      let item ← collectionItem s block
      skipSemicolons
      return Round.more item) fun _ => Steady grammar :=
    (calm_collectionItem hb).bind fun _ => calm_skipSemicolons.bind fun _ => .pure fun _ h => h
  cases found with
  | some close => exact .pure fun _ h => h.1
  | none => exact hitem.before fun _ h => h.1

variable (he : Calm (Steady grammar) expression fun _ => Settled grammar)
include he

/-- A further clause of a conditional is calm. -/
theorem calm_clause :
    Calm (Steady grammar) (clause s expression block) fun _ => Steady grammar := by
  refine (calm_eat? (fun _ h => h) (.keyword .elseWord)).bind fun found => ?_
  cases found with
  | none => exact .pure fun _ h => h
  | some token =>
    refine calm_eats_bind (fun _ h => h.1) (.keyword .ifWord) ?_ ?_
    · refine (he.before fun _ h => h.1).bind fun condition => ?_
      refine (hb.before fun _ h => h.steady).bind fun body => ?_
      exact (calm_finish _ _ _).bind fun _ => .pure fun _ h => h
    · refine (hb.before fun _ h => h.1).bind fun body => ?_
      exact (calm_finish _ _ _).bind fun _ => .pure fun _ h => h

/-- A conditional is calm. -/
theorem calm_ifStmt :
    Calm (fun rest => Steady grammar rest ∧ rest.head? = some ⟨token, broken⟩)
      (ifStmt s expression block token) fun _ => Steady grammar := by
  refine calm_take_bind ((he.before fun _ h => h.1).bind fun condition => ?_)
  refine (hb.before fun _ h => h.steady).bind fun body => ?_
  exact (calm_gather (calm_clause hb he)).bind fun clauses => calm_finish _ _ _

omit hb

/-- The declaration of a constant is calm. -/
theorem calm_constDecl :
    Calm (fun rest => Steady grammar rest ∧ rest.head? = some ⟨token, broken⟩)
      (constDecl s expression token) fun _ => Steady grammar := by
  refine calm_take_bind (((calm_expect s .name).before fun _ h => h.1).bind fun name => ?_)
  refine ((calm_expect s .assign).before fun _ h => h.1).bind fun _ => ?_
  refine (he.before fun _ h => h.1).bind fun value => ?_
  exact (calm_finish _ _ _).weaken fun _ _ h => h.steady

/-- The declaration of a variable is calm, with a value or without. -/
theorem calm_letDecl :
    Calm (fun rest => Steady grammar rest ∧ rest.head? = some ⟨token, broken⟩)
      (letDecl s expression token) fun _ => Steady grammar := by
  refine calm_take_bind (((calm_expect s .name).before fun _ h => h.1).bind fun name => ?_)
  refine calm_eats_bind (fun _ h => h.1) .assign ?_ ((calm_finish _ _ _).weaken fun _ _ h => h.1)
  refine (he.before fun _ h => h.1).bind fun value => ?_
  exact (calm_finish _ _ _).weaken fun _ _ h => h.steady

/-- A return is calm, with a value or without. -/
theorem calm_returnStmt :
    Calm (fun rest => Steady grammar rest ∧ rest.head? = some ⟨token, broken⟩)
      (returnStmt s expression token) fun _ => Steady grammar := by
  refine calm_take_bind ((calm_peek.before fun _ h => h.1).bind fun next => ?_)
  cases next with
  | none => exact (calm_finish _ _ _).weaken fun _ _ h => h.1
  | some lexeme =>
    dsimp only
    split
    · exact (calm_finish _ _ _).weaken fun _ _ h => h.1
    · refine (he.before fun _ h => h.1).bind fun value => ?_
      exact (calm_finish _ _ _).weaken fun _ _ h => h.steady

/-- An expression that stands as a statement is calm, and so is an assignment. -/
theorem calm_expressionStmt :
    Calm (Steady grammar) (expressionStmt s expression) fun _ => Steady grammar := by
  refine he.bind fun left => (calm_checkAny? _).bind fun found => ?_
  cases found with
  | none => exact .pure fun _ h => h.1.steady
  | some token =>
    -- The sign of the assignment comes right after the left side
    have hassign : Calm (fun rest => Settled grammar rest ∧ ∀ t, some token = some t →
        ∃ broken, rest.head? = some ⟨t, broken⟩) (do
        take token
        let op ← operatorNode token
        let right ← expression
        finish s (.assign left op right) left.position) fun _ => Steady grammar := by
      refine ((calm_take token).before fun _ h => ⟨h.1.steady, h.2 token rfl⟩).bind fun _ => ?_
      refine (calm_operatorNode token).bind fun op => ?_
      refine (he.before fun _ h => h.1).bind fun right => ?_
      exact (calm_finish _ _ _).weaken fun _ _ h => h.steady
    dsimp only
    split
    · exact (Calm.of_fails fun _ _ _ => throw_ne_ok).bind fun _ => hassign
    · exact hassign

include hb

/-- A statement is calm. -/
theorem calm_statement :
    Calm (Steady grammar) (statement s expression block) fun _ => Steady grammar := by
  refine calm_peek.bind fun next => ?_
  cases next with
  | none => exact (calm_expressionStmt he).before fun _ h => h.1
  | some lexeme =>
    dsimp only
    split
    · exact calm_ifStmt hb he
    · exact calm_constDecl he
    · exact calm_letDecl he
    · exact calm_returnStmt he
    · exact (calm_expressionStmt he).before fun _ h => h.1

end

/-- Statements in braces are calm. -/
theorem calm_braced {statement : Parse Node}
    (h : Calm (Steady grammar) statement fun _ => Steady grammar) :
    Calm (Steady grammar) (braced s statement) fun _ => Steady grammar := by
  refine (calm_expect s .leftBrace).bind fun _ => ?_
  refine (calm_skipSemicolons.before fun _ h => h.1).bind fun _ => (calm_gather ?_).bind
    fun body => (calm_expect s .rightBrace).bind fun _ => .pure fun _ h => h.1
  have hnode : Calm (Steady grammar) (do
      let node ← statement
      skipSemicolons
      return Round.more node) fun _ => Steady grammar :=
    h.bind fun _ => calm_skipSemicolons.bind fun _ => .pure fun _ h => h
  refine (calm_check? .rightBrace).bind fun found => ?_
  cases found with
  | some close => exact .pure fun _ h => h.1
  | none =>
    refine (calm_peek.before fun _ h => h.1).bind fun next => ?_
    cases next with
    | some lexeme => exact hnode.before fun _ h => h.1
    | none => exact (Calm.of_fails fun _ _ _ => failHere_ne_ok).bind fun _ => hnode

/-- A block is calm, however much room it has. -/
theorem calm_nestedBlock (room : Nat) :
    Calm (Steady s.grammar) (nestedBlock s room) fun _ => Steady s.grammar := by
  induction room with
  | zero => exact .of_fails fun _ _ _ => failTooDeep_ne_ok
  | succ room ih =>
    exact (calm_enter s room).bind fun _ =>
      calm_braced (calm_statement ih (calm_nestedLevel room 0))

/-- A statement that does not stand in a block is calm. -/
theorem calm_topStatement :
    Calm (Steady s.grammar) (topStatement s) fun _ => Steady s.grammar := by
  have hblock := @calm_nestedBlock s s.limit
  have hother := @calm_statement s.grammar s _ _ hblock (calm_nestedLevel s.limit 0)
  refine calm_peek.bind fun next => ?_
  cases next with
  | none => exact hother.before fun _ h => h.1
  | some lexeme =>
    dsimp only
    split
    · exact calm_collection hblock
    · exact calm_function hblock
    · exact hother.before fun _ h => h.1

/-- In a source with steady line breaks, no statement goes on after one. -/
theorem calm_program : Calm (Steady s.grammar) (program s) fun _ => Steady s.grammar := by
  refine calm_skipSemicolons.bind fun _ => (calm_gather ?_).bind fun nodes => ?_
  · refine calm_peek.bind fun next => ?_
    cases next with
    | none => exact .pure fun _ h => h.1
    | some lexeme =>
      refine (calm_topStatement.before fun _ h => h.1).bind fun _ => ?_
      exact calm_skipSemicolons.bind fun _ => .pure fun _ h => h
  · dsimp only
    split
    · refine (calm_expecting _).bind fun _ => ?_
      exact (Calm.of_fails fun _ _ _ => failHere_ne_ok).bind fun _ => .pure fun _ h => h
    · exact .pure fun _ h => h

end Statements

end Parse

end Schemata
