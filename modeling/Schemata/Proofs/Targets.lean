import Schemata.Proofs.LocalParsers

/-!
# Invalid targets

What cannot be assigned to is found out only when the sign of assignment comes, and the error is
where the expression before it began.  It is at a token all the same: one of those that were left
before the parse (`aimed_program`).
-/

namespace Schemata.Parse

open EStateM (Result)

variable {α β : Type} {s : Setting}

/-- What the parse leaves is the end of what was there, and a target that it refuses begins with a
    token of it. -/
structure Aimed (p : Parse α) : Prop where
  rest : ∀ {c a c'}, p c = .ok a c' → c'.rest <:+ c.rest
  target : ∀ {c q c'}, p c = .error (.invalidTarget q) c' → ∃ x ∈ c.rest, x.token.position = q

namespace Aimed

/-- A parse that only gives a value back refuses no target. -/
theorem pure (a : α) : Aimed (pure a : Parse α) where
  rest h := by
    obtain ⟨-, rfl⟩ := pure_eq_ok.1 h
    exact List.suffix_rfl
  target h := by cases h

/-- What follows may rely on the result of the first step. -/
theorem bindWhere {p : Parse α} {f : α → Parse β} (h : Aimed p)
    (hrest : ∀ {c a c₁ b c'}, p c = .ok a c₁ → f a c₁ = .ok b c' → c'.rest <:+ c₁.rest)
    (htarget : ∀ {c a c₁ q c'}, p c = .ok a c₁ → f a c₁ = .error (.invalidTarget q) c' →
      ∃ x ∈ c.rest, x.token.position = q) : Aimed (p >>= f) where
  rest hp := by
    obtain ⟨a, c₁, hp, hfa⟩ := bind_eq_ok.1 hp
    exact (hrest hp hfa).trans (h.rest hp)
  target hp := by
    obtain hp | ⟨a, c₁, hp, hfa⟩ := bind_eq_error.1 hp
    · exact h.target hp
    · exact htarget hp hfa

/-- One aimed step after another is aimed, since the second starts from tokens that the first left.
    -/
theorem bind {p : Parse α} {f : α → Parse β} (h : Aimed p) (hf : ∀ a, Aimed (f a)) :
    Aimed (p >>= f) :=
  h.bindWhere (fun _ hfa => (hf _).rest hfa) fun hp hfa => by
    obtain ⟨x, hx, hposition⟩ := (hf _).target hfa
    exact ⟨x, (h.rest hp).mem hx, hposition⟩

/-- A change of the cursor that puts no token back is aimed. -/
theorem modify {f : Cursor → Cursor} (hf : ∀ c, (f c).rest <:+ c.rest) :
    Aimed (modify f : Parse Unit) where
  rest h := by
    cases h
    exact hf _
  target h := by cases h

/-- A parse that fails for another reason. -/
theorem of_fails {p : Parse α} (e : Cursor → ParseError) (h : ∀ c, p c = .error (e c) c)
    (he : ∀ c q, e c ≠ .invalidTarget q) : Aimed p where
  rest hp := by
    rw [h] at hp
    cases hp
  target hp := by
    rw [h] at hp
    exact absurd (Result.error.inj hp).1 (he _ _)

end Aimed

/-! ## Steps -/

/-- To look at the next token is aimed. -/
theorem aimed_peek : Aimed peek where
  rest h := by
    obtain ⟨-, rfl⟩ := peek_eq_ok.1 h
    exact List.suffix_rfl
  target h := by cases h

/-- A choice by the next token. -/
theorem Aimed.peek_bind {f : Option Lexeme → Parse α} (hnone : Aimed (f none))
    (hsome : ∀ x, Aimed (f (some x))) : Aimed (peek >>= f) := by
  refine aimed_peek.bind fun next => ?_
  cases next with
  | none => exact hnone
  | some x => exact hsome x

/-- To take a token is aimed: it leaves the tokens after it. -/
theorem aimed_take (token : Token) : Aimed (take token) :=
  .modify fun _ => List.tail_suffix _

/-- A requirement is aimed: it leaves the tokens. -/
theorem aimed_require (fault : Fault) (required : Prop) [Decidable required] :
    Aimed (require fault required) :=
  .modify fun _ => List.suffix_rfl

/-- To enter a level is aimed: it leaves the tokens. -/
theorem aimed_enter (room : Nat) : Aimed (enter s room) :=
  .modify fun _ => List.suffix_rfl

/-- To note what was expected is aimed: it leaves the tokens. -/
theorem aimed_expecting (what : Expectation) : Aimed (expecting what) := by
  refine .modify fun c => ?_
  split <;> exact List.suffix_rfl

/-- To note a continuation is aimed: it leaves the tokens. -/
theorem aimed_noteContinuation (x : Lexeme) : Aimed (noteContinuation x) := by
  unfold noteContinuation
  split
  · exact .modify fun _ => List.suffix_rfl
  · exact .pure ()

/-- A refused token is not a refused target. -/
theorem aimed_refuse (token : Token) (expected : List Expectation) :
    Aimed (refuse token expected : Parse α) :=
  .of_fails (fun _ => .unexpectedToken token.kind token.value token.position expected)
    (fun _ => rfl) fun _ _ h => by cases h

/-- A parse that fails where it stands refuses no target. -/
theorem aimed_failHere : Aimed (failHere s : Parse α) := by
  refine .of_fails (Cursor.failure s) (fun c => failHere_eq c) fun c q h => ?_
  unfold Cursor.failure at h
  split at h <;> cases h

/-- A parse that is too deep refuses no target. -/
theorem aimed_failTooDeep : Aimed (failTooDeep s : Parse α) :=
  .of_fails (fun c => .tooDeep s.limit (c.position s)) (fun _ => rfl) fun _ _ h => by cases h

/-- To span a node is aimed: it leaves the tokens. -/
theorem aimed_span (start : Position) (node : Node) : Aimed (span s start node) where
  rest h := by
    obtain ⟨-, rfl⟩ := span_eq_ok.1 h
    exact List.suffix_rfl
  target h := by cases h

/-- To finish a node is aimed. -/
theorem aimed_finish (shape : Shape Node) (start : Position) : Aimed (finish s shape start) :=
  aimed_span start _

/-- A look for a token of a kind is aimed. -/
theorem aimed_check? (kind : TokenKind) : Aimed (check? kind) := by
  have hnone : Aimed (expecting (.token kind) >>= fun _ => (pure none : Parse (Option Token))) :=
    (aimed_expecting _).bind fun _ => .pure _
  refine .peek_bind hnone fun lexeme => ?_
  dsimp only
  split
  · exact .pure _
  · exact hnone

/-- A look for a token of several kinds is aimed. -/
theorem aimed_checkAny? (kinds : List TokenKind) : Aimed (checkAny? kinds) := by
  induction kinds with
  -- One kind after the other, up to the first that is found
  | nil => exact .pure _
  | cons kind kinds ih =>
    refine (aimed_check? kind).bind fun found => ?_
    cases found with
    | some token => exact .pure _
    | none => exact ih

/-- To take a token of a kind, if there is one, is aimed. -/
theorem aimed_eat? (kind : TokenKind) : Aimed (eat? kind) := by
  refine (aimed_check? kind).bind fun found => ?_
  cases found with
  | some token => exact (aimed_take token).bind fun _ => .pure _
  | none => exact .pure _

/-- To take a token of a kind and say whether there was one is aimed. -/
theorem aimed_eats (kind : TokenKind) : Aimed (eats kind) :=
  (aimed_eat? kind).bind fun _ => .pure _

/-- To demand a token of a kind is aimed. -/
theorem aimed_expect (kind : TokenKind) : Aimed (expect s kind) := by
  refine (aimed_eat? kind).bind fun found => ?_
  cases found with
  | some token => exact .pure _
  | none => exact aimed_failHere

/-- A choice by whether the next token is of a kind, and is taken then. -/
theorem Aimed.eats_bind {kind : TokenKind} {f : Bool → Parse α} (htrue : Aimed (f true))
    (hfalse : Aimed (f false)) : Aimed (eats kind >>= f) := by
  refine (aimed_eats kind).bind fun found => ?_
  cases found with
  | true => exact htrue
  | false => exact hfalse

/-! ## Loops -/

/-- Rounds that are aimed make an aimed sequence. -/
theorem aimed_gather {round : Parse (Round α)} (h : Aimed round) : Aimed (gather round) := by
  -- For any bound on the rounds, by induction on it, since the bound depends on the cursor
  have hwithin : ∀ rounds, Aimed (gatherWithin round rounds) := by
    intro rounds
    induction rounds with
    | zero => exact (aimed_require _ _).bind fun _ => .pure _
    | succ rounds ih =>
      refine h.bind fun found => ?_
      cases found with
      | more item => exact ih.bind fun _ => .pure _
      | last item => exact .pure _
      | done => exact .pure _
  exact ⟨fun hp => (hwithin _).rest hp, fun hp => (hwithin _).target hp⟩

/-- Steps that are aimed make an aimed loop. -/
theorem aimed_iterate {step : α → Parse (ForInStep α)} (h : ∀ a, Aimed (step a)) (a : α) :
    Aimed (iterate step a) := by
  -- Again for any bound, and for any value to start from
  have hwithin : ∀ rounds a, Aimed (iterateWithin step rounds a) := by
    intro rounds
    induction rounds with
    | zero => exact fun _ => (aimed_require _ _).bind fun _ => .pure _
    | succ rounds ih =>
      intro a
      refine (h a).bind fun found => ?_
      cases found with
      | yield value => exact ih value
      | done value => exact .pure _
  exact ⟨fun hp => (hwithin _ a).rest hp, fun hp => (hwithin _ a).target hp⟩

/-- To skip semicolons is aimed. -/
theorem aimed_skipSemicolons : Aimed skipSemicolons :=
  aimed_iterate (fun _ => (aimed_eats _).bind fun _ => .pure _) ()

/-- A list of aimed items is aimed. -/
theorem aimed_list (close : TokenKind) {item : Parse α} (h : Aimed item) :
    Aimed (list s close item) := by
  -- Each round is the closing token, or an item with a comma or the closing token after it
  refine aimed_gather (.eats_bind (.pure _) ?_)
  refine h.bind fun value => .eats_bind (.pure _) ?_
  exact (aimed_expect close).bind fun _ => .pure _

/-! ## Expressions -/

/-- The node of an operator takes no token. -/
theorem aimed_operatorNode (token : Token) : Aimed (operatorNode token) := by
  unfold operatorNode
  cases Operator.ofKind? token.kind with
  | some op => exact .pure _
  | none => exact aimed_refuse _ _

/-- Where no atom begins, no target is refused. -/
theorem aimed_failAtom : Aimed (failAtom s) :=
  (aimed_expecting _).bind fun _ => aimed_failHere

section

variable {e : Parse Node} (he : Aimed e)
include he

/-- The value of an entry is aimed, be it written out or the key itself. -/
private theorem aimed_entryValue (key : Node) : Aimed (do
    if ← eats .colon then
      let value ← e
      finish s (.entry key value) key.position
    else if key.name?.isSome then
      let value ← pure key
      finish s (.entry key value) key.position
    else
      let value ← failHere s
      finish s (.entry key value) key.position) := by
  refine .eats_bind (he.bind fun _ => aimed_finish _ _) ?_
  rw [if_neg Bool.false_ne_true]
  split
  · exact (Aimed.pure _).bind fun _ => aimed_finish _ _
  · exact aimed_failHere.bind fun _ => aimed_finish _ _

/-- An entry of an object is aimed. -/
theorem aimed_objectEntry : Aimed (objectEntry s e) := by
  -- A name and a string go on with a value; anything else fails first
  have hvalue := @aimed_entryValue s e he
  have hfail : ∀ {f : Node → Parse Node}, (∀ key, Aimed (f key)) →
      Aimed (do expecting (.token .name); expecting (.token .string); failHere s >>= f) :=
    fun h => (aimed_expecting _).bind fun _ => (aimed_expecting _).bind fun _ =>
      aimed_failHere.bind h
  refine .peek_bind (hfail hvalue) fun lexeme => ?_
  dsimp only
  split
  · exact (aimed_take _).bind fun _ => (aimed_finish _ _).bind hvalue
  · exact (aimed_take _).bind fun _ => (aimed_finish _ _).bind hvalue
  · exact hfail hvalue

/-- An atom is aimed.  It reads expressions only between brackets. -/
theorem aimed_atom : Aimed (atom s e) := by
  refine .peek_bind aimed_failAtom fun lexeme => ?_
  dsimp only
  split
  -- A name, a number, a string and a boolean are one token each
  iterate 4 exact (aimed_take _).bind fun _ => aimed_finish _ _
  · exact (aimed_take _).bind fun _ => (aimed_list _ he).bind fun _ => aimed_finish _ _
  · exact (aimed_take _).bind fun _ => (aimed_list _ (aimed_objectEntry he)).bind fun _ =>
      aimed_finish _ _
  · exact (aimed_take _).bind fun _ => he.bind fun _ => (aimed_expect _).bind fun _ =>
      aimed_span _ _
  · exact aimed_failAtom

omit he in
/-- The end of a chain takes nothing. -/
theorem aimed_endChain (node : Node) : Aimed (endChain node) :=
  (aimed_expecting _).bind fun _ => (aimed_expecting _).bind fun _ =>
    (aimed_expecting _).bind fun _ => .pure _

/-- A link of a chain is aimed, and so is its end. -/
theorem aimed_link (node : Node) : Aimed (link s e node) := by
  refine .peek_bind (aimed_endChain node) fun lexeme => ?_
  have htake : ∀ {f : Unit → Parse (ForInStep Node)}, Aimed (f ()) →
      Aimed (noteContinuation lexeme >>= fun _ => take lexeme.token >>= f) := fun h =>
    (aimed_noteContinuation _).bind fun _ => (aimed_take _).bind fun _ => h
  dsimp only
  split
  · exact htake <| (aimed_expect _).bind fun _ => (aimed_finish _ _).bind fun _ => .pure _
  · exact htake <| he.bind fun _ => (aimed_expect _).bind fun _ => (aimed_span _ _).bind fun _ =>
      .pure _
  · exact htake <| (aimed_list _ he).bind fun _ => (aimed_finish _ _).bind fun _ => .pure _
  · exact aimed_endChain node

/-- A chain is aimed: an atom and its links. -/
theorem aimed_chain : Aimed (chain s e) :=
  (aimed_atom he).bind fun node => aimed_iterate (aimed_link he) node

end

section

variable {nested : Nat → Parse Node} (hn : ∀ level, Aimed (nested level))
include hn

/-- An operand after a sign is aimed. -/
theorem aimed_unaryFrom (level : Nat) (kind : UnaryKind) (token : Token) :
    Aimed (unaryFrom s nested level kind token) :=
  (aimed_take token).bind fun _ => (hn level).bind fun _ => aimed_finish _ _

/-- The right operand of an operator is aimed, with a sign in front or without. -/
theorem aimed_rightOperand (level : Nat) {tighter : Parse Node} (ht : Aimed tighter) :
    Aimed (rightOperand s nested level tighter) := by
  refine (aimed_require _ _).bind fun _ => .peek_bind ht fun lexeme => ?_
  dsimp only
  split
  · exact aimed_unaryFrom hn _ _ _
  · exact ht

/-- A step along a row of operators is aimed. -/
theorem aimed_binaryStep (level : Nat) (kind : BinaryKind) (operators : List TokenKind)
    {tighter : Parse Node} (ht : Aimed tighter) (left : Node) :
    Aimed (binaryStep s nested level kind operators tighter left) := by
  refine .peek_bind (.pure _) fun lexeme => ?_
  dsimp only
  split
  · exact (aimed_noteContinuation _).bind fun _ => (aimed_take _).bind fun _ =>
      (aimed_operatorNode _).bind fun _ => (aimed_rightOperand hn level ht).bind fun _ =>
        (aimed_finish _ _).bind fun _ => .pure _
  · exact .pure _

/-- The levels of a table are aimed, one after the other. -/
theorem aimed_climb (level : Nat) (levels : List Level) : Aimed (climb s nested level levels) := by
  induction levels generalizing level with
  | nil => exact aimed_chain (hn 0)
  | cons row levels ih =>
    have htighter := ih (level + 1)
    cases row with
    | binary kind operators =>
      exact htighter.bind fun left => aimed_iterate (aimed_binaryStep hn _ _ _ htighter) left
    | unary operators =>
      refine .peek_bind htighter fun lexeme => ?_
      dsimp only
      split
      · exact aimed_unaryFrom hn _ _ _
      · exact htighter

end

/-- An expression is aimed, however much room it has. -/
theorem aimed_nestedLevel (room level : Nat) : Aimed (nestedLevel s room level) := by
  induction room generalizing level with
  | zero => exact aimed_failTooDeep
  | succ room ih => exact (aimed_enter room).bind fun _ => aimed_climb ih level _

/-! ## Declarations -/

/-- The name of a type is aimed. -/
theorem aimed_typeName : Aimed (typeName s) := by
  refine (aimed_expect _).bind fun name => .eats_bind ?_ (.pure _)
  exact (aimed_expect _).bind fun _ => .pure _

/-- A parameter is aimed. -/
theorem aimed_param : Aimed (param s) := by
  refine (aimed_expect _).bind fun name => (aimed_eats _).bind fun optional => ?_
  refine .eats_bind ?_ ((Aimed.pure _).bind fun _ => aimed_finish _ _)
  exact aimed_typeName.bind fun _ => (Aimed.pure _).bind fun _ => aimed_finish _ _

/-- A field of an index is aimed. -/
theorem aimed_indexField : Aimed (indexField s) := by
  refine .eats_bind ?_ ((aimed_expect _).bind fun _ => .pure _)
  refine (aimed_expect _).bind fun name => .eats_bind ?_ ?_
  · refine (aimed_expect _).bind fun word => ?_
    dsimp only
    split
    · exact (Aimed.pure _).bind fun _ => (aimed_expect _).bind fun _ => .pure _
    · exact (aimed_refuse _ _).bind fun _ => (aimed_expect _).bind fun _ => .pure _
  · exact (Aimed.pure _).bind fun _ => (aimed_expect _).bind fun _ => .pure _

/-- An index is aimed. -/
theorem aimed_index (token : Token) : Aimed (index s token) := by
  -- The fields are read in the same way whether or not the name of the directive was refused
  have hfields : Aimed (do
      let _ ← expect s .leftParen
      let fields ← list s .rightParen (indexField s)
      finish s (.index fields) token.position) :=
    (aimed_expect _).bind fun _ => (aimed_list _ aimed_indexField).bind fun _ => aimed_finish _ _
  refine (aimed_take token).bind fun _ => (aimed_expect _).bind fun directive => ?_
  dsimp only
  split
  · exact (aimed_refuse _ _).bind fun _ => hfields
  · exact hfields

/-- A field of a collection is aimed. -/
theorem aimed_field (token : Token) : Aimed (field s token) :=
  (aimed_take token).bind fun _ => (aimed_eats _).bind fun _ => aimed_typeName.bind fun _ =>
    (aimed_eats _).bind fun _ => aimed_finish _ _

section

variable {block : Parse (List Node)} (hb : Aimed block)
include hb

/-- A function is aimed if its body is. -/
theorem aimed_function (token : Token) : Aimed (function s block token) :=
  (aimed_take token).bind fun _ => (aimed_expect _).bind fun _ => (aimed_expect _).bind fun _ =>
    (aimed_list _ aimed_param).bind fun _ => hb.bind fun _ => aimed_finish _ _

/-- An item of a collection is aimed, whatever it begins with. -/
theorem aimed_collectionItem : Aimed (collectionItem s block) := by
  have hunknown : Aimed (do
      expecting (.token (.keyword .function))
      expecting (.token .atSign)
      expecting (.token .name)
      failHere s : Parse Node) :=
    (aimed_expecting _).bind fun _ => (aimed_expecting _).bind fun _ =>
      (aimed_expecting _).bind fun _ => aimed_failHere
  refine .peek_bind hunknown fun lexeme => ?_
  dsimp only
  split
  · exact aimed_function hb _
  · exact aimed_index _
  · exact aimed_field _
  · exact hunknown

/-- A round of a collection is aimed. -/
theorem aimed_itemRound : Aimed (itemRound s block) := by
  refine (aimed_check? _).bind fun found => ?_
  split
  · exact .pure _
  · exact (aimed_collectionItem hb).bind fun _ => aimed_skipSemicolons.bind fun _ => .pure _

/-- A collection is aimed. -/
theorem aimed_collection (token : Token) : Aimed (collection s block token) :=
  (aimed_take token).bind fun _ => (aimed_expect _).bind fun _ => (aimed_expect _).bind fun _ =>
    aimed_skipSemicolons.bind fun _ => (aimed_gather (aimed_itemRound hb)).bind fun _ =>
      (aimed_expect _).bind fun _ => aimed_finish _ _

end

/-! ## Statements -/

/-- An expression that has been read begins with a token of what was there. -/
theorem Reads.position_mem {e : Parse Node} {room : Nat} (hreads : Reads s room .nested 0 e)
    {c c' : Cursor} {n : Node} (h : e c = .ok n c') :
    ∃ x ∈ c.rest, x.token.position = n.position := by
  obtain ⟨ts, htook, hparsed⟩ := hreads.parsed c n c' h
  obtain ⟨t, us, rfl⟩ := hparsed.ne_nil
  have hmem : t ∈ c.rest.map Lexeme.token := by
    have htokens : c.rest.map Lexeme.token = t :: us ++ c'.tokens := htook.tokens
    rw [htokens]
    exact List.mem_cons_self
  obtain ⟨x, hx, rfl⟩ := List.mem_map.1 hmem
  exact ⟨x, hx, by simpa using hparsed.position⟩

section

variable {e : Parse Node} {block : Parse (List Node)} {room : Nat} (he : Aimed e)
include he

/-- The declaration of a constant is aimed. -/
theorem aimed_constDecl (token : Token) : Aimed (constDecl s e token) :=
  (aimed_take token).bind fun _ => (aimed_expect _).bind fun _ => (aimed_expect _).bind fun _ =>
    he.bind fun _ => aimed_finish _ _

/-- The declaration of a variable is aimed, with a value or without. -/
theorem aimed_letDecl (token : Token) : Aimed (letDecl s e token) := by
  refine (aimed_take token).bind fun _ => (aimed_expect _).bind fun name => ?_
  refine .eats_bind ?_ ((Aimed.pure _).bind fun _ => aimed_finish _ _)
  exact he.bind fun _ => (Aimed.pure _).bind fun _ => aimed_finish _ _

/-- A return is aimed, with a value or without. -/
theorem aimed_returnStmt (token : Token) : Aimed (returnStmt s e token) := by
  have hbare : Aimed ((pure none : Parse (Option Node)) >>= fun value =>
      finish s (.returnStmt value) token.position) :=
    (Aimed.pure _).bind fun _ => aimed_finish _ _
  refine (aimed_take token).bind fun _ => .peek_bind hbare fun lexeme => ?_
  dsimp only
  split
  · exact hbare
  · exact he.bind fun _ => (Aimed.pure _).bind fun _ => aimed_finish _ _

/-- An expression that stands as a statement is aimed, although it may turn out to be the left side
    of an assignment and be refused as such. -/
theorem aimed_expressionStmt (hreads : Reads s room .nested 0 e) : Aimed (expressionStmt s e) := by
  have hassign : ∀ (left : Node) (token : Token), Aimed (do
      take token
      let op ← operatorNode token
      let right ← e
      finish s (.assign left op right) left.position) := fun left token =>
    (aimed_take token).bind fun _ => (aimed_operatorNode token).bind fun _ => he.bind fun _ =>
      aimed_finish _ _
  have hsign := aimed_checkAny? [.assign, .addAssign, .subAssign]
  -- The two parts of `Aimed` are shown apart: only the second knows how the left side began
  refine he.bindWhere (fun {c left c₁ b c'} hp hrun => ?_) (fun {c left c₁ q c'} hp hrun => ?_)
  · obtain ⟨found, c₂, hcheck, hrun⟩ := bind_eq_ok.1 hrun
    refine List.IsSuffix.trans ?_ (hsign.rest hcheck)
    cases found with
    | none => exact (Aimed.pure left).rest hrun
    | some token =>
      dsimp only at hrun
      split at hrun
      · cases hrun
      · exact (hassign left token).rest hrun
  · have hrest : c₁.rest <:+ c.rest := he.rest hp
    obtain hcheck | ⟨found, c₂, hcheck, hrun⟩ := bind_eq_error.1 hrun
    · obtain ⟨x, hx, hposition⟩ := hsign.target hcheck
      exact ⟨x, hrest.mem hx, hposition⟩
    · cases found with
      | none => cases hrun
      | some token =>
        dsimp only at hrun
        split at hrun
        · -- The target is refused where its first token was
          cases hrun
          exact hreads.position_mem hp
        · obtain ⟨x, hx, hposition⟩ := (hassign left token).target hrun
          exact ⟨x, hrest.mem ((hsign.rest hcheck).mem hx), hposition⟩

variable (hb : Aimed block)
include hb

/-- A further clause of a conditional is aimed. -/
theorem aimed_clause : Aimed (clause s e block) := by
  refine (aimed_eat? _).bind fun found => ?_
  cases found with
  | none => exact .pure _
  | some token =>
    refine .eats_bind ?_ ?_
    · exact he.bind fun _ => hb.bind fun _ => (aimed_finish _ _).bind fun _ => .pure _
    · exact hb.bind fun _ => (aimed_finish _ _).bind fun _ => .pure _

/-- A conditional is aimed. -/
theorem aimed_ifStmt (token : Token) : Aimed (ifStmt s e block token) :=
  (aimed_take token).bind fun _ => he.bind fun _ => hb.bind fun _ =>
    (aimed_gather (aimed_clause he hb)).bind fun _ => aimed_finish _ _

/-- A statement is aimed.  The expression in it begins with a token of what was there. -/
theorem aimed_statement (hreads : Reads s room .nested 0 e) : Aimed (statement s e block) := by
  have hother := aimed_expressionStmt (s := s) he hreads
  refine .peek_bind hother fun lexeme => ?_
  dsimp only
  split
  · exact aimed_ifStmt he hb _
  · exact aimed_constDecl he _
  · exact aimed_letDecl he _
  · exact aimed_returnStmt he _
  · exact hother

end

/-- A round of a block is aimed. -/
theorem aimed_blockRound {statement : Parse Node} (h : Aimed statement) :
    Aimed (blockRound s statement) := by
  have hnode : Aimed (do
      let node ← statement
      skipSemicolons
      return Round.more node) :=
    h.bind fun _ => aimed_skipSemicolons.bind fun _ => .pure _
  refine (aimed_check? _).bind fun found => ?_
  split
  · exact .pure _
  · exact .peek_bind (aimed_failHere.bind fun _ => hnode) fun _ => hnode

/-- A block is aimed, however much room it has. -/
theorem aimed_nestedBlock (room : Nat) : Aimed (nestedBlock s room) := by
  induction room with
  | zero => exact aimed_failTooDeep
  | succ room ih =>
    have hstatement : Aimed (statement s (nestedExpression s room) (nestedBlock s room)) :=
      aimed_statement (aimed_nestedLevel room 0) ih (nestedLevel_reads room 0)
    exact (aimed_enter room).bind fun _ => (aimed_expect _).bind fun _ =>
      aimed_skipSemicolons.bind fun _ => (aimed_gather (aimed_blockRound hstatement)).bind fun _ =>
        (aimed_expect _).bind fun _ => .pure _

/-- A statement that does not stand in a block is aimed. -/
theorem aimed_topStatement : Aimed (topStatement s) := by
  have hblock : Aimed (nestedBlock s s.limit) := aimed_nestedBlock s.limit
  have hother := aimed_statement (s := s) (aimed_nestedLevel s.limit 0) hblock
    (nestedLevel_reads s.limit 0)
  refine .peek_bind hother fun lexeme => ?_
  dsimp only
  split
  · exact aimed_collection hblock _
  · exact aimed_function hblock _
  · exact hother

/-- A round of a program is aimed. -/
theorem aimed_topRound : Aimed (topRound s) := by
  refine .peek_bind (.pure _) fun _ => ?_
  exact aimed_topStatement.bind fun _ => aimed_skipSemicolons.bind fun _ => .pure _

/-- A target that a program refuses begins with one of its tokens. -/
theorem aimed_program : Aimed (program s) := by
  refine aimed_skipSemicolons.bind fun _ => (aimed_gather aimed_topRound).bind fun nodes => ?_
  split
  · exact (aimed_expecting _).bind fun _ => aimed_failHere.bind fun _ => .pure _
  · exact .pure _

end Schemata.Parse
