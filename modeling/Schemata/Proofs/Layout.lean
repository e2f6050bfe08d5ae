import Schemata.Parse.Program
import Schemata.Proofs.Agreement
import Schemata.Proofs.Cursor

/-!
# Layout

Blanks, line breaks, comments, quotes and escapes do not change what a source means: two sources
whose tokens say the same, trivia left out, are parsed as the same program or fail with the same
error at the same token (`read_layout`).

No parser decides anything by a position, a span or a line break.  For each of them, this is a
lemma about two runs that is put together like the parser itself.
-/

namespace Schemata.Parse

variable {K : Likeness} {s t : Setting}

/-! ## Expressions -/

/-- Operators of alike tokens are alike, or both tokens are refused. -/
theorem agree_operatorNode {x y : Token} (h : x.Alike K y) :
    Agree K (Node.Alike K) (operatorNode x) (operatorNode y) := by
  unfold operatorNode
  -- Which operator it is depends on the kind, and that is the same
  rw [h.kind]
  cases Operator.ofKind? y.kind with
  | some op => exact .pure ⟨rfl, h.position⟩
  | none => exact agree_refuse h _

/-- Chains that end alike stay alike. -/
theorem agree_endChain {a b : Node} (h : a.Alike K b) :
    Agree K (StepAlike (Node.Alike K)) (endChain a) (endChain b) :=
  (agree_expecting _).bind_eq fun _ => (agree_expecting _).bind_eq fun _ =>
    (agree_expecting _).bind_eq fun _ => .pure (.done h)

section

variable (hs : s.Alike K t)
include hs

/-- Where no atom begins, both parses fail at the same token. -/
theorem agree_failAtom : Agree K (Node.Alike K) (failAtom s) (failAtom t) :=
  (agree_expecting _).bind_eq fun _ => agree_failHere hs

variable {e e' : Parse Node} (he : Agree K (Node.Alike K) e e')
include he

/-- What follows the key of an entry. -/
private theorem agree_entryValue {key key' : Node} (hkey : key.Alike K key') :
    Agree K (Node.Alike K)
      (do
        if ← eats .colon then
          let value ← e
          finish s (.entry key value) key.position
        else if key.name?.isSome then
          let value ← pure key
          finish s (.entry key value) key.position
        else
          let value ← failHere s
          finish s (.entry key value) key.position)
      (do
        if ← eats .colon then
          let value ← e'
          finish t (.entry key' value) key'.position
        else if key'.name?.isSome then
          let value ← pure key'
          finish t (.entry key' value) key'.position
        else
          let value ← failHere t
          finish t (.entry key' value) key'.position) := by
  -- However the value is found, the entry is finished in the same way
  have hfinish : ∀ value value' : Node, value.Alike K value' → Agree K (Node.Alike K)
      (finish s (.entry key value) key.position) (finish t (.entry key' value') key'.position) := by
    intro value value' hvalue
    refine agree_finish hkey.position ?_
    rw [Shape.map, Shape.map, hkey.erase, hvalue.erase]
  have hname : key.name?.isSome = key'.name?.isSome := by
    rw [← Node.name?_erase key, hkey.erase, Node.name?_erase]
  refine agree_eats_bind (he.bind hfinish) ?_
  rw [hname]
  by_cases h : key'.name?.isSome = true
  · rw [if_pos h, if_pos h]
    exact (Agree.pure hkey).bind hfinish
  · rw [if_neg h, if_neg h]
    exact (agree_failHere hs).bind hfinish

/-- Entries of objects agree. -/
theorem agree_objectEntry : Agree K (Node.Alike K) (objectEntry s e) (objectEntry t e') := by
  have hvalue := fun key key' hkey => @agree_entryValue K s t hs e e' he key key' hkey
  -- Where no key begins, both parses fail
  have hfail := (agree_expecting (K := K) (.token .name)).bind_eq fun _ =>
    (agree_expecting (.token .string)).bind_eq fun _ => (agree_failHere hs).bind hvalue
  refine agree_peek_token hfail ?_
  intro kind value text text' p q breaks breaks' broken broken' hp _
  cases kind with
  | name => exact (agree_take _ _).bind_eq fun _ => (agree_finish hp rfl).bind hvalue
  | string => exact (agree_take _ _).bind_eq fun _ => (agree_finish hp rfl).bind hvalue
  | _ => exact hfail

/-- Atoms agree. -/
theorem agree_atom : Agree K (Node.Alike K) (atom s e) (atom t e') := by
  refine agree_peek_token (agree_failAtom hs) ?_
  intro kind value text text' p q breaks breaks' broken broken' hp _
  -- An atom of one token is the same for every such token
  have hleaf : ∀ shape : Shape Node, Agree K (Node.Alike K)
      (do take ⟨kind, value, text, p, breaks⟩; finish s shape p)
      (do take ⟨kind, value, text', q, breaks'⟩; finish t shape q) := fun shape =>
    (agree_take _ _).bind_eq fun _ => agree_finish hp rfl
  cases kind with
  | number => exact hleaf _
  | string => exact hleaf _
  | boolean => exact hleaf _
  | name => exact hleaf _
  | leftBracket =>
    refine (agree_take _ _).bind_eq fun _ => ?_
    refine (agree_list hs _ he).bind fun as bs hab => agree_finish hp ?_
    rw [Shape.map, Shape.map, Node.map_erase_of_alike hab]
  | leftBrace =>
    refine (agree_take _ _).bind_eq fun _ => ?_
    refine (agree_list hs _ (agree_objectEntry hs he)).bind fun as bs hab => agree_finish hp ?_
    rw [Shape.map, Shape.map, Node.map_erase_of_alike hab]
  | leftParen =>
    refine (agree_take _ _).bind_eq fun _ => he.bind fun a b hab => ?_
    refine (agree_expect hs _).bind fun _ _ _ => agree_span hp ?_
    -- Parentheses mark the node and give it its place, the rest of it is kept
    have herase := hab.erase
    rw [Node.erase_eq a, Node.erase_eq b, Node.mk.injEq] at herase
    rw [Node.erase_mk, Node.erase_mk, Node.mk.injEq]
    exact ⟨herase.1, rfl, rfl, rfl, rfl, herase.2.2.2.2.2⟩
  | _ => exact agree_failAtom hs

/-- Links of a chain agree. -/
theorem agree_link {a b : Node} (hab : a.Alike K b) :
    Agree K (StepAlike (Node.Alike K)) (link s e a) (link t e' b) := by
  refine agree_peek_token (agree_endChain hab) ?_
  intro kind value text text' p q breaks breaks' broken broken' hp hxy
  cases kind with
  | dot =>
    refine (agree_noteContinuation hxy).bind_eq fun _ => (agree_take _ _).bind_eq fun _ => ?_
    refine (agree_expect hs _).bind fun x y hxy => ?_
    have hshape : (Shape.name x.value : Shape Node).map Node.erase =
        (Shape.name y.value).map Node.erase := by rw [hxy.value]
    -- Both members go on from what was read before, which is alike
    refine (agree_finish hab.position hshape).bind fun m m' hm => .pure (.yield ⟨?_, hm.position⟩)
    rw [Node.erase_chainedFrom, Node.erase_chainedFrom, hm.erase, hab.erase]
  | leftBracket =>
    refine (agree_noteContinuation hxy).bind_eq fun _ => (agree_take _ _).bind_eq fun _ => ?_
    refine he.bind fun key key' hkey => (agree_expect hs _).bind fun _ _ _ => ?_
    have herase : (key.bracketed a).erase = (key'.bracketed b).erase := by
      rw [Node.erase_bracketed, Node.erase_bracketed, hkey.erase, hab.erase]
    exact (agree_span hab.position herase).bind fun m m' hm => .pure (.yield hm)
  | leftParen =>
    refine (agree_noteContinuation hxy).bind_eq fun _ => (agree_take _ _).bind_eq fun _ => ?_
    refine (agree_list hs _ he).bind fun as bs hs' => ?_
    have hshape : (Shape.call as).map Node.erase = (Shape.call bs).map Node.erase := by
      rw [Shape.map, Shape.map, Node.map_erase_of_alike hs']
    refine (agree_finish hab.position hshape).bind fun m m' hm => .pure (.yield ⟨?_, hm.position⟩)
    rw [Node.erase_chainedFrom, Node.erase_chainedFrom, hm.erase, hab.erase]
  | _ => exact agree_endChain hab

/-- Chains agree. -/
theorem agree_chain : Agree K (Node.Alike K) (chain s e) (chain t e') :=
  (agree_atom hs he).bind fun _ _ hab => agree_iterate (fun _ _ => agree_link hs he) hab

end

section Levels

variable (hs : s.Alike K t) {nested nested' : Nat → Parse Node}
  (hn : ∀ level, Agree K (Node.Alike K) (nested level) (nested' level))
include hn

/-- Operands after a sign agree. -/
theorem agree_unaryFrom (level : Nat) (kind : UnaryKind) {x y : Token} (hxy : x.Alike K y) :
    Agree K (Node.Alike K) (unaryFrom s nested level kind x)
      (unaryFrom t nested' level kind y) := by
  refine (agree_take _ _).bind_eq fun _ => (hn level).bind fun a b hab => ?_
  refine agree_finish hxy.position ?_
  rw [Shape.map, Shape.map, hab.erase]

variable {tighter tighter' : Parse Node}
include hs

/-- Right operands agree: which sign is looser depends on its kind. -/
theorem agree_rightOperand (level : Nat) (ht : Agree K (Node.Alike K) tighter tighter') :
    Agree K (Node.Alike K) (rightOperand s nested level tighter)
      (rightOperand t nested' level tighter') := by
  refine (agree_require _ _ _ _).bind_eq fun _ => agree_peek_bind ht fun x y hxy => ?_
  dsimp only
  rw [hs.grammar, (K.token hxy).kind]
  cases t.grammar.looserUnary? level y.token.kind with
  | none => exact ht
  | some result => exact agree_unaryFrom hn result.1 result.2 (K.token hxy)

/-- Steps along a row of operators agree. -/
theorem agree_binaryStep (level : Nat) (kind : BinaryKind) (operators : List TokenKind)
    (ht : Agree K (Node.Alike K) tighter tighter') {a b : Node} (hab : a.Alike K b) :
    Agree K (StepAlike (Node.Alike K)) (binaryStep s nested level kind operators tighter a)
      (binaryStep t nested' level kind operators tighter' b) := by
  refine agree_peek_bind (.pure (.done hab)) fun x y hxy => ?_
  dsimp only
  rw [(K.token hxy).kind]
  by_cases h : operators.contains y.token.kind = true
  · rw [if_pos h, if_pos h]
    refine (agree_noteContinuation hxy).bind_eq fun _ => (agree_take _ _).bind_eq fun _ => ?_
    refine (agree_operatorNode (K.token hxy)).bind fun op op' hop => ?_
    refine (agree_rightOperand hs hn level ht).bind fun right right' hright => ?_
    -- The operands and the operator are alike, so the expressions are
    have hshape : (Shape.binary kind a op right).map Node.erase =
        (Shape.binary kind b op' right').map Node.erase := by
      rw [Shape.map, Shape.map, hab.erase, hop.erase, hright.erase]
    exact (agree_finish hab.position hshape).bind fun m m' hm => .pure (.yield hm)
  · rw [if_neg h, if_neg h]
    exact .pure (.done hab)

/-- The levels of a table agree. -/
theorem agree_climb (level : Nat) (levels : List Level) :
    Agree K (Node.Alike K) (climb s nested level levels) (climb t nested' level levels) := by
  -- Level by level, as far as the table goes
  induction levels generalizing level with
  | nil => exact agree_chain hs (hn 0)
  | cons row levels ih =>
    cases row with
    | binary kind operators =>
      refine (ih (level + 1)).bind fun a b hab => agree_iterate (fun a b hab => ?_) hab
      exact agree_binaryStep hs hn level kind operators (ih (level + 1)) hab
    | unary operators =>
      refine agree_peek_bind (ih (level + 1)) fun x y hxy => ?_
      dsimp only
      rw [(K.token hxy).kind]
      cases operators.lookup y.token.kind with
      | some kind => exact agree_unaryFrom hn level kind (K.token hxy)
      | none => exact ih (level + 1)

end Levels

/-- Expressions agree if they have the same room. -/
theorem agree_nestedLevel (hs : s.Alike K t) (room level : Nat) :
    Agree K (Node.Alike K) (nestedLevel s room level) (nestedLevel t room level) := by
  induction room generalizing level with
  | zero => exact agree_failTooDeep hs
  | succ room ih =>
    refine (agree_enter room).bind_eq fun _ => ?_
    rw [hs.grammar]
    exact agree_climb hs ih level _

/-! ## Declarations -/

section

variable (hs : s.Alike K t)
include hs

/-- Names of types agree. -/
theorem agree_typeName : Agree K (· = ·) (typeName s) (typeName t) := by
  refine (agree_expect hs _).bind fun x y hxy => agree_eats_bind ?_ ?_
  · refine (agree_expect hs _).bind fun _ _ _ => .pure ?_
    rw [hxy.value]
  · exact .pure hxy.value

/-- Parameters agree. -/
theorem agree_param : Agree K (Node.Alike K) (param s) (param t) := by
  refine (agree_expect hs _).bind fun x y hxy => (agree_eats _).bind_eq fun optional => ?_
  -- With a type or without, the parameter is finished in the same way
  have hfinish : ∀ type : Option String, Agree K (Node.Alike K)
      (finish s (.param x.value type optional) x.position)
      (finish t (.param y.value type optional) y.position) := by
    intro type
    refine agree_finish hxy.position ?_
    rw [hxy.value]
  refine agree_eats_bind ?_ (hfinish none)
  exact (agree_typeName hs).bind_eq fun type => hfinish (some type)

/-- Fields of an index agree. -/
theorem agree_indexField : Agree K (· = ·) (indexField s) (indexField t) := by
  refine agree_eats_bind ?_ ?_
  · refine (agree_expect hs _).bind fun x y hxy => ?_
    -- With a direction or without, the field is closed in the same way
    have hclose : ∀ direction : Option Direction, Agree K (· = ·)
        (do let _ ← expect s .rightBracket; return IndexField.mk x.value direction)
        (do let _ ← expect t .rightBracket; return IndexField.mk y.value direction) := by
      intro direction
      refine (agree_expect hs _).bind fun _ _ _ => .pure ?_
      rw [hxy.value]
    refine agree_eats_bind ?_ (hclose none)
    refine (agree_expect hs _).bind fun word word' hword => ?_
    dsimp only
    rw [hword.value]
    cases Direction.ofWord? word'.value with
    | some direction => exact hclose (some direction)
    | none => exact (agree_refuse hword _).bind_eq hclose
  · refine (agree_expect hs _).bind fun x y hxy => .pure ?_
    rw [hxy.value]

/-- Indices agree. -/
theorem agree_index {x y : Token} (hxy : x.Alike K y) :
    Agree K (Node.Alike K) (index s x) (index t y) := by
  refine (agree_take _ _).bind_eq fun _ => (agree_expect hs _).bind fun d d' hd => ?_
  -- The wrong directive is refused before the fields, which agree in any case
  have hfields : Agree K (Node.Alike K)
      (do
        let _ ← expect s .leftParen
        let fields ← list s .rightParen (indexField s)
        finish s (.index fields) x.position)
      (do
        let _ ← expect t .leftParen
        let fields ← list t .rightParen (indexField t)
        finish t (.index fields) y.position) := by
    refine (agree_expect hs _).bind fun _ _ _ => ?_
    refine (agree_list hs _ (agree_indexField hs)).bind fun as bs hab => ?_
    rw [List.forall₂_eq_eq_eq] at hab
    subst hab
    exact agree_finish hxy.position rfl
  dsimp only
  rw [hd.value]
  by_cases h : d'.value ≠ "index"
  · rw [if_pos h, if_pos h]
    exact (agree_refuse hd _).bind_eq fun _ => hfields
  · rw [if_neg h, if_neg h]
    exact hfields

/-- Fields of a collection agree. -/
theorem agree_field {x y : Token} (hxy : x.Alike K y) :
    Agree K (Node.Alike K) (field s x) (field t y) := by
  refine (agree_take _ _).bind_eq fun _ => (agree_eats _).bind_eq fun _ => ?_
  refine (agree_typeName hs).bind_eq fun type => (agree_eats _).bind_eq fun required => ?_
  refine agree_finish hxy.position ?_
  rw [hxy.value]

variable {block block' : Parse (List Node)}
  (hblock : Agree K (List.Forall₂ (Node.Alike K)) block block')
include hblock

/-- Functions agree if their bodies do. -/
theorem agree_function {x y : Token} (hxy : x.Alike K y) :
    Agree K (Node.Alike K) (function s block x) (function t block' y) := by
  refine (agree_take _ _).bind_eq fun _ => (agree_expect hs _).bind fun name name' hname => ?_
  refine (agree_expect hs _).bind fun _ _ _ => ?_
  refine (agree_list hs _ (agree_param hs)).bind fun params params' hparams => ?_
  refine hblock.bind fun body body' hbody => agree_finish hxy.position ?_
  rw [Shape.map, Shape.map, hname.value, Node.map_erase_of_alike hparams,
    Node.map_erase_of_alike hbody]

/-- Items of a collection agree. -/
theorem agree_collectionItem :
    Agree K (Node.Alike K) (collectionItem s block) (collectionItem t block') := by
  -- What begins no item is refused the same way in both
  have hunknown : Agree K (Node.Alike K)
      (do
        expecting (.token (.keyword .function))
        expecting (.token .atSign)
        expecting (.token .name)
        failHere s)
      (do
        expecting (.token (.keyword .function))
        expecting (.token .atSign)
        expecting (.token .name)
        failHere t) :=
    (agree_expecting _).bind_eq fun _ => (agree_expecting _).bind_eq fun _ =>
      (agree_expecting _).bind_eq fun _ => agree_failHere hs
  refine agree_peek_token hunknown ?_
  intro kind value text text' p q breaks breaks' broken broken' hp _
  cases kind with
  | atSign => exact agree_index hs ⟨rfl, rfl, hp⟩
  | name => exact agree_field hs ⟨rfl, rfl, hp⟩
  | keyword word =>
    cases word with
    | function => exact agree_function hs hblock ⟨rfl, rfl, hp⟩
    | _ => exact hunknown
  | _ => exact hunknown

/-- Collections agree. -/
theorem agree_collection {x y : Token} (hxy : x.Alike K y) :
    Agree K (Node.Alike K) (collection s block x) (collection t block' y) := by
  refine (agree_take _ _).bind_eq fun _ => (agree_expect hs _).bind fun name name' hname => ?_
  refine (agree_expect hs _).bind fun _ _ _ => agree_skipSemicolons.bind_eq fun _ => ?_
  refine (agree_gather (R := Node.Alike K) ?_).bind fun items items' hitems => ?_
  · refine (agree_check? _).bind fun a b hab => ?_
    cases hab with
    | some _ => exact .pure .done
    | none =>
      refine (agree_collectionItem hs hblock).bind fun item item' hitem => ?_
      exact agree_skipSemicolons.bind_eq fun _ => .pure (.more hitem)
  · refine (agree_expect hs _).bind fun _ _ _ => agree_finish hxy.position ?_
    rw [Shape.map, Shape.map, hname.value, Node.map_erase_of_alike hitems]

/-! ## Statements -/

variable {e e' : Parse Node} (he : Agree K (Node.Alike K) e e')
include he

omit hs in
/-- Further clauses of a conditional agree. -/
theorem agree_clause :
    Agree K (Round.Alike (Node.Alike K)) (clause s e block) (clause t e' block') := by
  refine (agree_eat? _).bind fun a b hab => ?_
  cases hab with
  | none => exact .pure .done
  | some hxy =>
    refine agree_eats_bind ?_ ?_
    · refine he.bind fun condition condition' hcondition => hblock.bind fun body body' hbody => ?_
      have hshape : (Shape.elseIf condition body).map Node.erase =
          (Shape.elseIf condition' body').map Node.erase := by
        rw [Shape.map, Shape.map, hcondition.erase, Node.map_erase_of_alike hbody]
      exact (agree_finish hxy.position hshape).bind fun _ _ hm => .pure (.more hm)
    · refine hblock.bind fun body body' hbody => ?_
      have hshape : (Shape.elseClause body).map Node.erase =
          (Shape.elseClause body').map Node.erase := by
        rw [Shape.map, Shape.map, Node.map_erase_of_alike hbody]
      exact (agree_finish hxy.position hshape).bind fun _ _ hm => .pure (.last hm)

omit hs in
/-- Conditionals agree. -/
theorem agree_ifStmt {x y : Token} (hxy : x.Alike K y) :
    Agree K (Node.Alike K) (ifStmt s e block x) (ifStmt t e' block' y) := by
  refine (agree_take _ _).bind_eq fun _ => he.bind fun condition condition' hcondition => ?_
  refine hblock.bind fun body body' hbody => ?_
  refine (agree_gather (agree_clause hblock he)).bind fun clauses clauses' hclauses => ?_
  refine agree_finish hxy.position ?_
  rw [Shape.map, Shape.map, hcondition.erase, Node.map_erase_of_alike hbody,
    Node.map_erase_of_alike hclauses]

omit hblock in
/-- Declarations of constants agree. -/
theorem agree_constDecl {x y : Token} (hxy : x.Alike K y) :
    Agree K (Node.Alike K) (constDecl s e x) (constDecl t e' y) := by
  refine (agree_take _ _).bind_eq fun _ => (agree_expect hs _).bind fun name name' hname => ?_
  refine (agree_expect hs _).bind fun _ _ _ => he.bind fun value value' hvalue => ?_
  refine agree_finish hxy.position ?_
  rw [Shape.map, Shape.map, hname.value, hvalue.erase]

omit hblock in
/-- Declarations of variables agree, with a value or without. -/
theorem agree_letDecl {x y : Token} (hxy : x.Alike K y) :
    Agree K (Node.Alike K) (letDecl s e x) (letDecl t e' y) := by
  refine (agree_take _ _).bind_eq fun _ => (agree_expect hs _).bind fun name name' hname => ?_
  refine agree_eats_bind ?_ ?_
  · refine he.bind fun value value' hvalue => agree_finish hxy.position ?_
    rw [Shape.map, Shape.map, hname.value, Option.map_some, Option.map_some, hvalue.erase]
  · refine agree_finish hxy.position ?_
    rw [hname.value]

omit hs hblock in
/-- Returns agree, with a value or without. -/
theorem agree_returnStmt {x y : Token} (hxy : x.Alike K y) :
    Agree K (Node.Alike K) (returnStmt s e x) (returnStmt t e' y) := by
  refine (agree_take _ _).bind_eq fun _ => ?_
  refine agree_peek_bind (agree_finish hxy.position rfl) fun next next' hnext => ?_
  dsimp only
  rw [(K.token hnext).kind]
  -- Whether a value follows depends on the kind of the next token
  by_cases h : (next'.token.kind = .rightBrace || next'.token.kind = .semicolon) = true
  · rw [if_pos h, if_pos h]
    exact agree_finish hxy.position rfl
  · rw [if_neg h, if_neg h]
    refine he.bind fun value value' hvalue => agree_finish hxy.position ?_
    rw [Shape.map, Shape.map, Option.map_some, Option.map_some, hvalue.erase]

omit hs hblock in
/-- An assignment is refused in both parses or in neither, as its target is the same. -/
theorem agree_expressionStmt :
    Agree K (Node.Alike K) (expressionStmt s e) (expressionStmt t e') := by
  refine he.bind fun left left' hleft => (agree_checkAny? _).bind fun a b hab => ?_
  cases hab with
  | none => exact .pure hleft
  | @some x y hxy =>
    have hassign : Agree K (Node.Alike K)
        (do
          take x
          let op ← operatorNode x
          let right ← e
          finish s (.assign left op right) left.position)
        (do
          take y
          let op ← operatorNode y
          let right ← e'
          finish t (.assign left' op right) left'.position) := by
      refine (agree_take _ _).bind_eq fun _ => (agree_operatorNode hxy).bind fun op op' hop => ?_
      refine he.bind fun right right' hright => agree_finish hleft.position ?_
      rw [Shape.map, Shape.map, hleft.erase, hop.erase, hright.erase]
    have htarget : left.isAssignable = left'.isAssignable := by
      rw [← Node.isAssignable_erase left, hleft.erase, Node.isAssignable_erase]
    dsimp only
    rw [htarget]
    by_cases h : (!left'.isAssignable) = true
    · rw [if_pos h, if_pos h]
      -- Both targets are refused, at positions that correspond
      refine Agree.bind (R := fun _ _ => False) (.throw (.invalidTarget hleft.position)) ?_
      exact fun _ _ h => h.elim
    · rw [if_neg h, if_neg h]
      exact hassign

/-- Statements agree. -/
theorem agree_statement :
    Agree K (Node.Alike K) (statement s e block) (statement t e' block') := by
  refine agree_peek_token (agree_expressionStmt he) ?_
  intro kind value text text' p q breaks breaks' broken broken' hp _
  cases kind with
  | keyword word =>
    cases word with
    | ifWord => exact agree_ifStmt hblock he ⟨rfl, rfl, hp⟩
    | constWord => exact agree_constDecl hs he ⟨rfl, rfl, hp⟩
    | letWord => exact agree_letDecl hs he ⟨rfl, rfl, hp⟩
    | returnWord => exact agree_returnStmt he ⟨rfl, rfl, hp⟩
    | _ => exact agree_expressionStmt he
  | _ => exact agree_expressionStmt he

omit hblock in
/-- Statements in braces agree. -/
theorem agree_braced : Agree K (List.Forall₂ (Node.Alike K)) (braced s e) (braced t e') := by
  refine (agree_expect hs _).bind fun _ _ _ => agree_skipSemicolons.bind_eq fun _ => ?_
  refine (agree_gather (R := Node.Alike K) ?_).bind fun body body' hbody => ?_
  · refine (agree_check? _).bind fun a b hab => ?_
    cases hab with
    | some _ => exact .pure .done
    | none =>
      have hnode : Agree K (Round.Alike (Node.Alike K))
          (do let node ← e; skipSemicolons; return .more node)
          (do let node ← e'; skipSemicolons; return .more node) :=
        he.bind fun node node' hn => agree_skipSemicolons.bind_eq fun _ => .pure (.more hn)
      refine agree_peek_bind ?_ fun _ _ _ => hnode
      exact (agree_failHere (R := (· = ·)) hs).bind_eq fun _ => hnode
  · exact (agree_expect hs _).bind fun _ _ _ => .pure hbody

end

/-! ## Sources -/

section

variable (hs : s.Alike K t)
include hs

/-- Blocks agree if they have the same room. -/
theorem agree_nestedBlock (room : Nat) :
    Agree K (List.Forall₂ (Node.Alike K)) (nestedBlock s room) (nestedBlock t room) := by
  induction room with
  | zero => exact agree_failTooDeep hs
  | succ room ih =>
    refine (agree_enter room).bind_eq fun _ => agree_braced hs ?_
    exact agree_statement hs ih (agree_nestedLevel hs room 0)

/-- Expressions that are not nested in anything agree. -/
theorem agree_outermost : Agree K (Node.Alike K) (nestedExpression s s.limit)
    (nestedExpression t t.limit) := by
  rw [hs.limit]
  exact agree_nestedLevel hs t.limit 0

/-- Statements that do not stand in a block agree. -/
theorem agree_topStatement : Agree K (Node.Alike K) (topStatement s) (topStatement t) := by
  have hblock : Agree K (List.Forall₂ (Node.Alike K)) (nestedBlock s s.limit)
      (nestedBlock t t.limit) := by
    rw [hs.limit]
    exact agree_nestedBlock hs t.limit
  have hother := agree_statement hs hblock (agree_outermost hs)
  refine agree_peek_token hother ?_
  intro kind value text text' p q breaks breaks' broken broken' hp _
  cases kind with
  | keyword word =>
    cases word with
    | collection => exact agree_collection hs hblock ⟨rfl, rfl, hp⟩
    | function => exact agree_function hs hblock ⟨rfl, rfl, hp⟩
    | _ => exact hother
  | _ => exact hother

/-- Programs agree. -/
theorem agree_program : Agree K (List.Forall₂ (Node.Alike K)) (program s) (program t) := by
  refine agree_skipSemicolons.bind_eq fun _ => ?_
  refine (agree_gather (R := Node.Alike K) ?_).bind fun nodes nodes' hnodes => ?_
  · refine agree_peek_bind (.pure .done) fun _ _ _ => ?_
    refine (agree_topStatement hs).bind fun node node' hn => ?_
    exact agree_skipSemicolons.bind_eq fun _ => .pure (.more hn)
  · cases hnodes with
    -- Without a statement, both parses fail where they stand
    | nil =>
      refine (agree_expecting _).bind_eq fun _ => ?_
      exact (agree_failHere (R := (· = ·)) hs).bind_eq fun _ => .pure .nil
    | cons hn hrest => exact .pure (.cons hn hrest)

/-- Expressions that are all of a source agree. -/
theorem agree_wholeExpression :
    Agree K (Node.Alike K) (wholeExpression s) (wholeExpression t) := by
  refine (agree_outermost hs).bind fun node node' hn => ?_
  refine agree_peek_bind (.pure hn) fun _ _ _ => ?_
  exact (agree_failHere (R := (· = ·)) hs).bind_eq fun _ => .pure hn

end

end Schemata.Parse

namespace Schemata

/-! ## Two sources -/

/-- Where the tokens of a source stand, trivia left out, and then where the source ends. -/
def Token.places (source : String) (tokens : List Token) : List Position :=
  (tokens.filter fun token => !token.kind.isTrivia).map Token.position ++
    [Position.start.advance source.toList]

/-- The positions have the same index in two lists. -/
def SameIndex (ps qs : List Position) (p q : Position) : Prop :=
  ∃ i : Nat, ps[i]? = some p ∧ qs[i]? = some q

/-- Two parses both succeed with related results, or both fail with errors that differ in their
    positions only. -/
inductive SameOutcome {α : Type} (P : Position → Position → Prop) (R : α → α → Prop) :
    Except ParseError α → Except ParseError α → Prop
  | ok {a b : α} (h : R a b) : SameOutcome P R (.ok a) (.ok b)
  | error {e f : ParseError} (h : e.Alike P f) : SameOutcome P R (.error e) (.error f)

/-- Outcomes stay the same where related results are mapped to related ones. -/
theorem SameOutcome.map {α β : Type} {P : Position → Position → Prop} {R : α → α → Prop}
    {S : β → β → Prop} {f : α → β} {x y : Except ParseError α} (h : SameOutcome P R x y)
    (hf : ∀ a b, R a b → S (f a) (f b)) : SameOutcome P S (x.map f) (y.map f) := by
  cases h with
  | ok hr => exact .ok (hf _ _ hr)
  | error he => exact .error he

/-- Lexemes that say the same are alike where they have the same index. -/
theorem alike_of_map_piece {xs ys : List Lexeme} {ends ends' : List Position}
    (h : xs.map Lexeme.piece = ys.map Lexeme.piece) :
    List.Forall₂ (fun x y : Lexeme => x.token.Alike
      (SameIndex ((xs.map Lexeme.token).map Token.position ++ ends)
        ((ys.map Lexeme.token).map Token.position ++ ends')) y.token) xs ys := by
  -- There are as many on both sides, and those at the same index say the same
  have hlength : xs.length = ys.length := by
    have := congrArg List.length h
    rwa [List.length_map, List.length_map] at this
  refine List.forall₂_iff_get.2 ⟨hlength, fun i hi hi' => ?_⟩
  have hpiece : (xs.get ⟨i, hi⟩).piece = (ys.get ⟨i, hi'⟩).piece := by
    have hget := congrArg (·[i]?) h
    simpa [hi, hi'] using hget
  obtain ⟨hkind, hvalue⟩ := Piece.mk.inj hpiece
  refine ⟨hkind, hvalue, i, ?_, ?_⟩
  · simp [List.getElem?_append_left, hi]
  · simp [List.getElem?_append_left, hi']

/-- The lexemes of two sources that say the same are alike, and the ends of the sources have the
    same index. -/
private theorem alike_start {a b : String} {as bs : List Token}
    (h : Token.visible as = Token.visible bs) :
    (Cursor.start (Lexeme.ofTokens false as)).Alike
        (.ofPositions (SameIndex (Token.places a as) (Token.places b bs)))
        (Cursor.start (Lexeme.ofTokens false bs)) ∧
      SameIndex (Token.places a as) (Token.places b bs) (Position.start.advance a.toList)
        (Position.start.advance b.toList) := by
  rw [← Lexeme.map_piece_ofTokens as false, ← Lexeme.map_piece_ofTokens bs false] at h
  unfold Token.places
  rw [← Lexeme.map_token_ofTokens as false, ← Lexeme.map_token_ofTokens bs false]
  have hlength := congrArg List.length h
  rw [List.length_map, List.length_map] at hlength
  refine ⟨⟨alike_of_map_piece h, rfl, trivial⟩, (Lexeme.ofTokens false as).length, ?_, ?_⟩
  · simp
  · simp [hlength]

/-- Runs that end alike have the same outcome. -/
theorem SameOutcome.of_bothEnd {α : Type} {K : Likeness}
    {R : α → α → Prop} {x y : EStateM.Result ParseError Cursor α} (h : Parse.BothEnd K R x y) :
    SameOutcome K R (Parse.outcome x) (Parse.outcome y) := by
  cases h with
  | ok hr _ => exact .ok hr
  | error he => exact .error he

/-- What a reading gives is the outcome of its parse on the lexemes of the source. -/
private theorem read_fst {α : Type} {parser : Parser} {tokens : List Token}
    (h : (Lexer.ofSource parser.source).tokenize = .ok tokens) (body : Setting → Parse α) :
    (parser.read body).1 =
      Parse.outcome (body ⟨parser.grammar, parser.limit, parser.source.toList,
        Position.start.advance parser.source.toList⟩
        (Cursor.start (Lexeme.ofTokens false tokens))) := by
  have hsource := Lexeme.ofSource_eq_ok.2 ⟨tokens, Lexer.tokenize_eq_ok.1 h, rfl, rfl⟩
  unfold Parser.read Parser.load
  rw [hsource]
  dsimp only [Parser.setting]
  split
  · next hbody => rw [hbody, Parse.outcome]
  · next hbody => rw [hbody, Parse.outcome]

/-- A reading whose two runs agree has the same outcome for two sources that say the same. -/
private theorem read_agree {α : Type} {a b : Parser} {as bs : List Token} {R : α → α → Prop}
    {body : Setting → Parse α} (hgrammar : a.grammar = b.grammar) (hlimit : a.limit = b.limit)
    (ha : (Lexer.ofSource a.source).tokenize = .ok as)
    (hb : (Lexer.ofSource b.source).tokenize = .ok bs)
    (h : Token.visible as = Token.visible bs)
    (hbody : ∀ (K : Likeness) (s t : Setting), s.Alike K t → Parse.Agree K R (body s) (body t)) :
    SameOutcome (SameIndex (Token.places a.source as) (Token.places b.source bs)) R
      (a.read body).1 (b.read body).1 := by
  obtain ⟨hcursor, hstop⟩ := @alike_start a.source b.source as bs h
  rw [read_fst ha, read_fst hb]
  refine SameOutcome.of_bothEnd (K := .ofPositions _) ?_
  exact hbody _ _ _ ⟨hgrammar, hlimit, hstop⟩ _ _ hcursor

/-- Two parsers with the same rules, and with sources whose tokens say the same once trivia is left
    out, read the same statements, or both fail with the same error at the token of the same index;
    and likewise for one expression. -/
theorem read_layout {a b : Parser} {as bs : List Token} (hgrammar : a.grammar = b.grammar)
    (hlimit : a.limit = b.limit) (ha : (Lexer.ofSource a.source).tokenize = .ok as)
    (hb : (Lexer.ofSource b.source).tokenize = .ok bs)
    (h : Token.visible as = Token.visible bs) :
    SameOutcome (SameIndex (Token.places a.source as) (Token.places b.source bs))
        (fun nodes nodes' => Node.sameList nodes nodes' = true)
        a.readStatements.1 b.readStatements.1 ∧
      SameOutcome (SameIndex (Token.places a.source as) (Token.places b.source bs))
        (fun node node' => node.same node' = true) a.readExpression.1 b.readExpression.1 := by
  constructor
  · have hprogram : SameOutcome (SameIndex (Token.places a.source as) (Token.places b.source bs))
        (fun x y : Program => Node.sameList x.statements y.statements = true)
        a.readProgram.1 b.readProgram.1 := by
      unfold Parser.readProgram
      refine read_agree hgrammar hlimit ha hb h fun K s t hs => ?_
      refine (Parse.agree_program hs).bind fun nodes nodes' hnodes => ?_
      intro c d hc
      exact .ok (Node.sameList_iff_erase.2 (Node.map_erase_of_alike hnodes)) hc
    exact hprogram.map fun _ _ hr => hr
  · refine read_agree hgrammar hlimit ha hb h fun K s t hs => ?_
    refine (Parse.agree_wholeExpression hs).mono fun node node' hn => ?_
    exact Node.same_iff_erase.2 hn.erase

/-- A comment, a line break, other quotes and an escape, in a statement that goes on over a line. -/
theorem read_layout_comment :
    ∃ as bs, (Lexer.ofSource "a = b\n+ 'c\"'").tokenize = .ok as ∧
      (Lexer.ofSource "a/* d */=b+\"c\\\"\"").tokenize = .ok bs ∧
      SameOutcome
        (SameIndex (Token.places "a = b\n+ 'c\"'" as) (Token.places "a/* d */=b+\"c\\\"\"" bs))
        (fun nodes nodes' => Node.sameList nodes nodes' = true)
        (parse "a = b\n+ 'c\"'") (parse "a/* d */=b+\"c\\\"\"") := by
  obtain ⟨as, ha, hvisible⟩ := exists_eq_ok_of_map
    (show (Lexer.ofSource "a = b\n+ 'c\"'").tokenize.toOption.map Token.visible =
      some [⟨.name, "a"⟩, ⟨.assign, "="⟩, ⟨.name, "b"⟩, ⟨.plus, "+"⟩, ⟨.string, "c\""⟩] by
      decide +kernel)
  obtain ⟨bs, hb, hvisible'⟩ := exists_eq_ok_of_map
    (show (Lexer.ofSource "a/* d */=b+\"c\\\"\"").tokenize.toOption.map Token.visible =
      some [⟨.name, "a"⟩, ⟨.assign, "="⟩, ⟨.name, "b"⟩, ⟨.plus, "+"⟩, ⟨.string, "c\""⟩] by
      decide +kernel)
  refine ⟨as, bs, ha, hb, ?_⟩
  exact (read_layout (a := Parser.ofSource .standard "a = b\n+ 'c\"'")
    (b := Parser.ofSource .standard "a/* d */=b+\"c\\\"\"") rfl rfl ha hb
    (hvisible.trans hvisible'.symm)).1

end Schemata
