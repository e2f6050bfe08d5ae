import Schemata.Proofs.Guarded
import Schemata.Proofs.Derivation

/-!
# The limit on nesting

The limit on nested expressions and blocks is a guard and nothing more: a source is read as if there
were none, unless more are open together somewhere than the limit lets be.  Then reading fails where
the first one too many begins (`parse_guarded`).

Nothing is nested without a token that opens it, the first expression or block apart.  So a limit
above the length of the source is never reached, and takes the place of having none.
-/

namespace Schemata.Parse

variable {s : Setting} {limit total active opened : Nat}

/-! ## Expressions -/

/-- Making the node of an operator opens nothing. -/
theorem quiet_operatorNode (token : Token) : Quiet (operatorNode token) := by
  unfold operatorNode
  cases Operator.ofKind? token.kind with
  | some op => exact .pure _
  | none => exact quiet_refuse _ _

/-- Failing where no atom begins opens nothing. -/
theorem quiet_failAtom : Quiet (failAtom s) :=
  (quiet_expecting _).bind fun _ => quiet_failHere

/-- Leaving a chain opens nothing. -/
theorem quiet_endChain (node : Node) : Quiet (endChain node) :=
  (quiet_expecting _).bind fun _ => (quiet_expecting _).bind fun _ =>
    (quiet_expecting _).bind fun _ => .pure _

section

variable {e e' : Parse Node} (he : Guarded s limit total active opened e e')
include he

/-- What follows the key of an entry. -/
private theorem guarded_entryValue (key : Node) :
    Guarded s limit total active opened
      (do
        if ← eats .colon then
          let value ← e
          finish s (.entry key value) key.position
        else if key.name?.isSome then
          let value ← pure key
          finish s (.entry key value) key.position
        else
          let value ← failHere s
          finish s (.entry key value) key.position)
      (do
        if ← eats .colon then
          let value ← e'
          finish s (.entry key value) key.position
        else if key.name?.isSome then
          let value ← pure key
          finish s (.entry key value) key.position
        else
          let value ← failHere s
          finish s (.entry key value) key.position) := by
  refine guarded_eats fun colon => ?_
  cases colon with
  | true => exact he.bind fun value => (quiet_finish _ _).guarded
  | false =>
    -- Without a value the key has to be a name
    simp only [Bool.false_eq_true, if_false]
    split
    · exact ((Quiet.pure key).bind fun value => quiet_finish _ _).guarded
    · exact (quiet_failHere.bind fun value => quiet_finish _ _).guarded

/-- An entry of an object is guarded as its value is. -/
theorem guarded_objectEntry :
    Guarded s limit total active opened (objectEntry s e) (objectEntry s e') := by
  have hvalue := @guarded_entryValue s limit total active opened e e' he
  -- Where no key begins, both parses fail
  have hfail := (quiet_expecting (.token .name)).guarded.bind fun _ =>
    (quiet_expecting (.token .string)).guarded.bind fun _ =>
      (quiet_failHere (s := s)).guarded.bind hvalue
  refine guarded_peek hfail fun lexeme => Guarded.before ?_ lexeme
  obtain ⟨⟨kind, value, text, position, breaks⟩, broken⟩ := lexeme
  cases kind with
  | name =>
    exact (quiet_take _).guarded.bind fun _ => (quiet_finish _ _).guarded.bind hvalue
  | string =>
    exact (quiet_take _).guarded.bind fun _ => (quiet_finish _ _).guarded.bind hvalue
  | _ => exact hfail

end

section

variable {e e' : Parse Node} (he : Guarded s limit total active (opened + 1) e e')
include he

/-- An atom is guarded if what stands between its brackets is, with one more token that opens. -/
theorem guarded_atom : Guarded s limit total active opened (atom s e) (atom s e') := by
  refine guarded_peek quiet_failAtom.guarded fun lexeme => ?_
  obtain ⟨⟨kind, value, text, position, breaks⟩, broken⟩ := lexeme
  -- A literal or a name is a single token
  have hleaf : ∀ (token : Token) (shape : Shape Node),
      GuardedBefore s limit total active opened ⟨⟨kind, value, text, position, breaks⟩, broken⟩
        (do take token; finish s shape token.position)
        (do take token; finish s shape token.position) := fun token shape =>
    ((quiet_take token).bind fun _ => quiet_finish _ _).guarded.before _
  cases kind with
  | number => exact hleaf _ _
  | string => exact hleaf _ _
  | boolean => exact hleaf _ _
  | name => exact hleaf _ _
  -- What stands between brackets may nest once more
  | leftBracket =>
    refine GuardedBefore.take rfl ?_
    exact (guarded_list _ he).bind fun _ => (quiet_finish _ _).guarded
  | leftBrace =>
    refine GuardedBefore.take rfl ?_
    exact (guarded_list _ (guarded_objectEntry he)).bind fun _ => (quiet_finish _ _).guarded
  | leftParen =>
    refine GuardedBefore.take rfl ?_
    exact he.bind fun _ => ((quiet_expect _).bind fun _ => quiet_span _ _).guarded
  | _ => exact quiet_failAtom.guarded.before _

/-- A link of a chain is guarded if a key and arguments are, with one more token that opens. -/
theorem guarded_link (node : Node) :
    Guarded s limit total active opened (link s e node) (link s e' node) := by
  refine guarded_peek (quiet_endChain node).guarded fun lexeme => ?_
  obtain ⟨⟨kind, value, text, position, breaks⟩, broken⟩ := lexeme
  -- A member opens nothing, a key and a call do
  cases kind with
  | dot =>
    refine Guarded.before (Quiet.guarded ?_) _
    exact (quiet_noteContinuation _).bind fun _ => (quiet_take _).bind fun _ =>
      (quiet_expect _).bind fun _ => (quiet_finish _ _).bind fun _ => .pure _
  | leftBracket =>
    refine GuardedBefore.note (GuardedBefore.take rfl (he.bind fun key => Quiet.guarded ?_))
    exact (quiet_expect _).bind fun _ => (quiet_span _ _).bind fun _ => .pure _
  | leftParen =>
    refine GuardedBefore.note (GuardedBefore.take rfl ((guarded_list _ he).bind fun args => ?_))
    exact ((quiet_finish _ _).bind fun _ => .pure _).guarded
  | _ => exact (quiet_endChain node).guarded.before _

/-- A chain is guarded if what stands between its brackets is, with one more token that opens. -/
theorem guarded_chain : Guarded s limit total active opened (chain s e) (chain s e') :=
  (guarded_atom he).bind fun node => guarded_iterate (guarded_link he) node

end

section

variable {nested nested' : Nat → Parse Node}
  (hn : ∀ level, Guarded s limit total active (opened + 1) (nested level) (nested' level))
include hn

/-- A unary operator opens what it is applied to. -/
theorem guarded_unaryFrom {lexeme : Lexeme} (hopens : s.grammar.opens lexeme.token.kind = true)
    (level : Nat) (kind : UnaryKind) :
    GuardedBefore s limit total active opened lexeme (unaryFrom s nested level kind lexeme.token)
      (unaryFrom s nested' level kind lexeme.token) :=
  GuardedBefore.take hopens ((hn level).bind fun _ => (quiet_finish _ _).guarded)

/-- A right operand is guarded. A looser unary operator there opens what it is applied to. -/
theorem guarded_rightOperand {tighter tighter' : Parse Node} (level : Nat)
    (ht : Guarded s limit total active opened tighter tighter') :
    Guarded s limit total active opened (rightOperand s nested level tighter)
      (rightOperand s nested' level tighter') := by
  -- The operator belongs to a unary level of the table, so it is one of those that open
  refine (quiet_require _ _).guarded.bind fun _ => guarded_peek ht fun lexeme => ?_
  dsimp only
  cases hlooser : s.grammar.looserUnary? level lexeme.token.kind with
  | none => exact ht.before lexeme
  | some result =>
    obtain ⟨-, operators, hl, hmem⟩ := Grammar.looserUnary?_eq_some hlooser
    exact guarded_unaryFrom hn (Grammar.opens_of_mem (List.mem_of_getElem? hl) hmem) _ _

/-- A further operator of a level, with its right operand, is guarded. -/
theorem guarded_binaryStep {tighter tighter' : Parse Node} (level : Nat) (kind : BinaryKind)
    (operators : List TokenKind) (ht : Guarded s limit total active opened tighter tighter')
    (left : Node) :
    Guarded s limit total active opened (binaryStep s nested level kind operators tighter left)
      (binaryStep s nested' level kind operators tighter' left) := by
  refine guarded_peek (Quiet.pure _).guarded fun lexeme => Guarded.before ?_ lexeme
  dsimp only
  split
  · refine (quiet_noteContinuation _).guarded.bind fun _ => (quiet_take _).guarded.bind fun _ => ?_
    refine (quiet_operatorNode _).guarded.bind fun op => ?_
    refine (guarded_rightOperand hn level ht).bind fun right => ?_
    exact ((quiet_finish _ _).bind fun _ => .pure _).guarded
  · exact (Quiet.pure _).guarded

/-- All levels are guarded if what is nested in them is. -/
theorem guarded_climb (level : Nat) (levels : List Level)
    (hl : ∀ row ∈ levels, row ∈ s.grammar.levels) :
    Guarded s limit total active opened (climb s nested level levels)
      (climb s nested' level levels) := by
  -- Level by level, as far as the table goes
  induction levels generalizing level with
  | nil => exact guarded_chain (hn 0)
  | cons row levels ih =>
    have htighter := ih (level + 1) fun row hrow => hl row (List.mem_cons_of_mem _ hrow)
    cases row with
    | binary kind operators =>
      exact htighter.bind fun left =>
        guarded_iterate (guarded_binaryStep hn level kind operators htighter) left
    | unary operators =>
      refine guarded_peek htighter fun lexeme => ?_
      dsimp only
      cases hlookup : operators.lookup lexeme.token.kind with
      | none => exact htighter.before lexeme
      | some kind =>
        obtain ⟨front, back, hsplit, -⟩ := List.lookup_eq_some_iff.1 hlookup
        have hmem : (lexeme.token.kind, kind) ∈ operators := by simp [hsplit]
        exact guarded_unaryFrom hn (Grammar.opens_of_mem (hl _ List.mem_cons_self) hmem) _ _

end

/-- Climbing the levels does not depend on the limit. -/
private theorem climb_withLimit (nested : Nat → Parse Node) (level : Nat) (levels : List Level) :
    climb (s.withLimit limit) nested level levels = climb s nested level levels := by
  induction levels generalizing level with
  | nil => rfl
  | cons row levels ih =>
    cases row with
    | binary kind operators =>
      simp only [climb, ih]
      rfl
    | unary operators =>
      simp only [climb, ih]
      rfl

/-- A nested expression that may begin, with as many active as have been opened. -/
theorem guarded_nestedLevel (hlimit : s.limit < limit) {room : Nat} (hroom : active + room = limit)
    (level : Nat) :
    Guarded s limit total active active (nestedLevel s (s.limit - active) level)
      (nestedLevel (s.withLimit limit) room level) := by
  -- Induction on the room in the second parse; the first may have run out of it
  induction room generalizing active level with
  | zero =>
    obtain rfl : active = limit := hroom
    exact guarded_full hlimit
  | succ room ih =>
    have hnested := fun j => @ih (active + 1) (by omega) j
    have hclimb := guarded_climb hnested level (s.grammar.levels.drop level) fun row hrow =>
      List.mem_of_mem_drop hrow
    rw [← @climb_withLimit s limit (nestedLevel (s.withLimit limit) room)] at hclimb
    exact guarded_nested (fun room => nestedLevel s room level) rfl (fun _ => rfl) (by omega) hclimb

/-! ## Declarations -/

/-- A type opens nothing. -/
theorem quiet_typeName : Quiet (typeName s) := by
  refine (quiet_expect _).bind fun name => (quiet_eats _).bind fun bracket => ?_
  cases bracket with
  | true => exact (quiet_expect _).bind fun _ => .pure _
  | false => exact .pure _

/-- A parameter opens nothing. -/
theorem quiet_param : Quiet (param s) := by
  refine (quiet_expect _).bind fun name => (quiet_eats _).bind fun optional => ?_
  refine (quiet_eats _).bind fun colon => ?_
  cases colon with
  | true => exact quiet_typeName.bind fun type => quiet_finish _ _
  | false => exact quiet_finish _ _

/-- A field of an index opens nothing. -/
theorem quiet_indexField : Quiet (indexField s) := by
  refine (quiet_eats _).bind fun bracket => ?_
  cases bracket with
  | false => exact (quiet_expect _).bind fun _ => .pure _
  | true =>
    refine (quiet_expect _).bind fun name => (quiet_eats _).bind fun comma => ?_
    -- What comes behind the direction, whether there is one or not
    have hclose : ∀ direction : Option Direction, Quiet
        (do let _ ← expect s .rightBracket; return IndexField.mk name.value direction) :=
      fun direction => (quiet_expect _).bind fun _ => .pure _
    cases comma with
    | false => exact hclose none
    | true =>
      refine (quiet_expect _).bind fun word => ?_
      dsimp only
      cases Direction.ofWord? word.value with
      | some direction => exact hclose (some direction)
      | none => exact (quiet_refuse _ _).bind hclose

/-- An index opens nothing that nests. -/
theorem guarded_index (token : Token) :
    Guarded s limit total active opened (index s token) (index s token) := by
  refine (quiet_take _).guarded.bind fun _ => (quiet_expect _).guarded.bind fun directive => ?_
  -- The fields, with the brackets around them
  have hfields : Guarded s limit total active opened
      (do
        let _ ← expect s .leftParen
        let fields ← list s .rightParen (indexField s)
        finish s (.index fields) token.position)
      (do
        let _ ← expect s .leftParen
        let fields ← list s .rightParen (indexField s)
        finish s (.index fields) token.position) :=
    (quiet_expect _).guarded.bind fun _ => (guarded_list _ quiet_indexField.guarded).bind fun _ =>
      (quiet_finish _ _).guarded
  dsimp only
  split
  · exact (quiet_refuse _ _).guarded.bind fun _ => hfields
  · exact hfields

/-- A field opens nothing. -/
theorem quiet_field (token : Token) : Quiet (field s token) :=
  (quiet_take _).bind fun _ => (quiet_eats _).bind fun _ => quiet_typeName.bind fun _ =>
    (quiet_eats _).bind fun _ => quiet_finish _ _

section

variable {block block' : Parse (List Node)}
  (hblock : Guarded s limit total active opened block block')
include hblock

/-- A function is guarded as its body is. -/
theorem guarded_function (token : Token) :
    Guarded s limit total active opened (function s block token) (function s block' token) := by
  refine (quiet_take _).guarded.bind fun _ => (quiet_expect _).guarded.bind fun name => ?_
  refine (quiet_expect _).guarded.bind fun _ => ?_
  refine (guarded_list _ quiet_param.guarded).bind fun params => ?_
  exact hblock.bind fun body => (quiet_finish _ _).guarded

/-- An item of a collection is guarded as the block of a function is. -/
theorem guarded_collectionItem :
    Guarded s limit total active opened (collectionItem s block) (collectionItem s block') := by
  -- Where no item begins, both parses fail
  have hunknown : Guarded s limit total active opened
      (do
        expecting (.token (.keyword .function))
        expecting (.token .atSign)
        expecting (.token .name)
        failHere s : Parse Node) _ :=
    ((quiet_expecting _).bind fun _ => (quiet_expecting _).bind fun _ =>
      (quiet_expecting _).bind fun _ => quiet_failHere).guarded
  refine guarded_peek hunknown fun lexeme => Guarded.before ?_ lexeme
  obtain ⟨⟨kind, value, text, position, breaks⟩, broken⟩ := lexeme
  cases kind with
  | atSign => exact guarded_index _
  | name => exact (quiet_field _).guarded
  | keyword word =>
    cases word with
    | function => exact guarded_function hblock _
    | _ => exact hunknown
  | _ => exact hunknown

/-- A collection is guarded as the blocks of its functions are. -/
theorem guarded_collection (token : Token) :
    Guarded s limit total active opened (collection s block token)
      (collection s block' token) := by
  refine (quiet_take _).guarded.bind fun _ => (quiet_expect _).guarded.bind fun name => ?_
  refine (quiet_expect _).guarded.bind fun _ => guarded_skipSemicolons.bind fun _ => ?_
  refine (guarded_gather ?_).bind fun items =>
    ((quiet_expect _).bind fun _ => quiet_finish _ _).guarded
  refine (quiet_check? _).guarded.bind fun close => ?_
  cases close with
  | some _ => exact (Quiet.pure _).guarded
  | none =>
    refine (guarded_collectionItem hblock).bind fun item => ?_
    exact guarded_skipSemicolons.bind fun _ => (Quiet.pure _).guarded

/-! ## Statements -/

variable {e e' : Parse Node} (he : Guarded s limit total active opened e e')
include he

/-- An alternative of an `if` statement is guarded as its condition and its body are. -/
theorem guarded_clause :
    Guarded s limit total active opened (clause s e block) (clause s e' block') := by
  refine (quiet_eat? _).guarded.bind fun found => ?_
  cases found with
  | none => exact (Quiet.pure _).guarded
  | some token =>
    refine guarded_eats fun conditional => ?_
    cases conditional with
    | true =>
      refine he.bind fun condition => hblock.bind fun body => ?_
      exact ((quiet_finish _ _).bind fun _ => .pure _).guarded
    | false =>
      exact hblock.bind fun body => ((quiet_finish _ _).bind fun _ => .pure _).guarded

/-- An `if` statement is guarded as its condition and its bodies are. -/
theorem guarded_ifStmt (token : Token) :
    Guarded s limit total active opened (ifStmt s e block token) (ifStmt s e' block' token) := by
  refine (quiet_take _).guarded.bind fun _ => he.bind fun condition => hblock.bind fun body => ?_
  exact (guarded_gather (guarded_clause hblock he)).bind fun _ => (quiet_finish _ _).guarded

omit hblock in
/-- A declaration of a constant is guarded as its value is. -/
theorem guarded_constDecl (token : Token) :
    Guarded s limit total active opened (constDecl s e token) (constDecl s e' token) :=
  (quiet_take _).guarded.bind fun _ => (quiet_expect _).guarded.bind fun _ =>
    (quiet_expect _).guarded.bind fun _ => he.bind fun _ => (quiet_finish _ _).guarded

omit hblock in
/-- A declaration of a variable is guarded as its value is. -/
theorem guarded_letDecl (token : Token) :
    Guarded s limit total active opened (letDecl s e token) (letDecl s e' token) := by
  refine (quiet_take _).guarded.bind fun _ => (quiet_expect _).guarded.bind fun name => ?_
  refine guarded_eats fun assigned => ?_
  cases assigned with
  | true => exact he.bind fun _ => (quiet_finish _ _).guarded
  | false => exact (quiet_finish _ _).guarded

omit hblock in
/-- A return statement is guarded as what it returns is. -/
theorem guarded_returnStmt (token : Token) :
    Guarded s limit total active opened (returnStmt s e token) (returnStmt s e' token) := by
  refine (quiet_take _).guarded.bind fun _ => ?_
  refine guarded_peek (quiet_finish _ _).guarded fun lexeme => Guarded.before ?_ lexeme
  dsimp only
  split
  · exact (quiet_finish _ _).guarded
  · exact he.bind fun _ => (quiet_finish _ _).guarded

omit hblock in
/-- An expression on its own, or an assignment, is guarded as the expressions are. -/
theorem guarded_expressionStmt :
    Guarded s limit total active opened (expressionStmt s e) (expressionStmt s e') := by
  refine he.bind fun left => (quiet_checkAny? _).guarded.bind fun found => ?_
  cases found with
  | none => exact (Quiet.pure _).guarded
  | some token =>
    -- The right side of an assignment, which is read if the left side can be assigned to
    have hassign : Guarded s limit total active opened
        (do
          take token
          let op ← operatorNode token
          let right ← e
          finish s (.assign left op right) left.position)
        (do
          take token
          let op ← operatorNode token
          let right ← e'
          finish s (.assign left op right) left.position) :=
      (quiet_take _).guarded.bind fun _ => (quiet_operatorNode _).guarded.bind fun _ =>
        he.bind fun _ => (quiet_finish _ _).guarded
    dsimp only
    split
    · exact (Quiet.throw fun _ _ h => by cases h).guarded.bind fun _ => hassign
    · exact hassign

/-- A statement is guarded as its expressions and its blocks are. -/
theorem guarded_statement :
    Guarded s limit total active opened (statement s e block) (statement s e' block') := by
  refine guarded_peek (guarded_expressionStmt he) fun lexeme => Guarded.before ?_ lexeme
  obtain ⟨⟨kind, value, text, position, breaks⟩, broken⟩ := lexeme
  cases kind with
  | keyword word =>
    cases word with
    | ifWord => exact guarded_ifStmt hblock he _
    | constWord => exact guarded_constDecl he _
    | letWord => exact guarded_letDecl he _
    | returnWord => exact guarded_returnStmt he _
    | _ => exact guarded_expressionStmt he
  | _ => exact guarded_expressionStmt he

end

/-- The brace of a block opens it. -/
theorem guarded_braced {e e' : Parse Node}
    (he : Guarded s limit total active (opened + 1) e e') :
    Guarded s limit total active opened (braced s e) (braced s e') := by
  refine guarded_expect rfl fun _ => guarded_skipSemicolons.bind fun _ => ?_
  refine (guarded_gather ?_).bind fun body => ((quiet_expect _).bind fun _ => .pure _).guarded
  refine (quiet_check? _).guarded.bind fun close => ?_
  cases close with
  | some _ => exact (Quiet.pure _).guarded
  | none =>
    have hnode : Guarded s limit total active (opened + 1)
        (do let node ← e; skipSemicolons; return Round.more node)
        (do let node ← e'; skipSemicolons; return Round.more node) :=
      he.bind fun node => guarded_skipSemicolons.bind fun _ => (Quiet.pure _).guarded
    refine guarded_peek ?_ fun lexeme => hnode.before lexeme
    exact quiet_failHere.guarded.bind fun _ => hnode

/-- A nested block that may begin, with as many active as have been opened. Induction is on the room
    in the second parse, as for expressions. -/
theorem guarded_nestedBlock (hlimit : s.limit < limit) {room : Nat}
    (hroom : active + room = limit) :
    Guarded s limit total active active (nestedBlock s (s.limit - active))
      (nestedBlock (s.withLimit limit) room) := by
  induction room generalizing active with
  | zero =>
    obtain rfl : active = limit := hroom
    exact guarded_full hlimit
  | succ room ih =>
    -- Inside the block, both an expression and a block may begin
    have hexpression : Guarded s limit total (active + 1) (active + 1)
        (nestedExpression s (s.limit - (active + 1)))
        (nestedExpression (s.withLimit limit) room) :=
      guarded_nestedLevel hlimit (by omega) 0
    have hbody := guarded_braced (guarded_statement (@ih (active + 1) (by omega)) hexpression)
    exact guarded_nested (nestedBlock s) rfl (fun _ => rfl) (by omega) hbody

/-! ## Programs -/

/-- A statement of a program is guarded, with nothing active and nothing opened. -/
theorem guarded_topStatement (hlimit : s.limit < limit) :
    Guarded s limit total 0 0 (topStatement s) (topStatement (s.withLimit limit)) := by
  have hblock : Guarded s limit total 0 0 (nestedBlock s s.limit)
      (nestedBlock (s.withLimit limit) limit) := guarded_nestedBlock hlimit (Nat.zero_add _)
  have hexpression : Guarded s limit total 0 0 (nestedExpression s s.limit)
      (nestedExpression (s.withLimit limit) limit) :=
    guarded_nestedLevel hlimit (Nat.zero_add _) 0
  have hother := guarded_statement hblock hexpression
  refine guarded_peek hother fun lexeme => Guarded.before ?_ lexeme
  obtain ⟨⟨kind, value, text, position, breaks⟩, broken⟩ := lexeme
  cases kind with
  | keyword word =>
    cases word with
    | collection => exact guarded_collection hblock _
    | function => exact guarded_function hblock _
    | _ => exact hother
  | _ => exact hother

/-- A program is guarded, with nothing active and nothing opened. -/
theorem guarded_program (hlimit : s.limit < limit) :
    Guarded s limit total 0 0 (program s) (program (s.withLimit limit)) := by
  refine guarded_skipSemicolons.bind fun _ => (guarded_gather ?_).bind fun nodes => ?_
  · refine guarded_peek (Quiet.pure _).guarded fun lexeme => Guarded.before ?_ lexeme
    refine (guarded_topStatement hlimit).bind fun node => ?_
    exact guarded_skipSemicolons.bind fun _ => (Quiet.pure _).guarded
  · dsimp only
    split
    · exact ((quiet_expecting _).bind fun _ => quiet_failHere.bind fun _ => .pure _).guarded
    · exact (Quiet.pure _).guarded

end Schemata.Parse

namespace Schemata

/-! ## Sources -/

/-- The number of tokens after which something nested may begin: opening parentheses, brackets and
    braces, negations and minus signs. -/
def openings (lexemes : List Lexeme) : Nat :=
  lexemes.countP fun lexeme =>
    [TokenKind.leftParen, .leftBracket, .leftBrace, .not, .minus].contains lexeme.token.kind

/-- With the usual table, the tokens that open are brackets, negations and minus signs. -/
theorem openings_eq {s : Setting} (h : s.grammar = .standard) (lexemes : List Lexeme) :
    (Cursor.start lexemes).openings s = openings lexemes := by
  -- The unary operators of the table are those two
  have hopens : ∀ kind : TokenKind, Grammar.standard.opens kind =
      [TokenKind.leftParen, .leftBracket, .leftBrace, .not, .minus].contains kind := by
    intro kind
    cases kind <;> rfl
  rw [Cursor.openings, Cursor.tokens, List.countP_map, h, openings]
  exact congrArg (fun p => lexemes.countP p) (funext fun lexeme => hopens lexeme.token.kind)

/-- Every token has at least one character of its text. -/
theorem Tiles.length_le {p : Position} {text : List Char} {tokens : List Token}
    (h : Tiles p text tokens) : tokens.length ≤ text.length := by
  induction h with
  | nil => exact Nat.le_refl _
  | @cons p c rest text after value kind tokens hscan hsplit _ ih =>
    obtain ⟨hne, -⟩ := Scan.scan_split hscan
    have hpos := List.length_pos_iff.2 hne
    rw [hsplit, List.length_append, List.length_cons]
    omega

/-- A source has no more tokens that open something than characters. -/
theorem openings_le_length {source : String} {lexemes : List Lexeme} {stop : Position}
    (h : Lexeme.ofSource source = .ok (lexemes, stop)) : openings lexemes ≤ source.length := by
  obtain ⟨tokens, htiles, rfl, -⟩ := Lexeme.ofSource_eq_ok.1 h
  have hlexemes : (Lexeme.ofTokens false tokens).length ≤ tokens.length := by
    rw [← List.length_map (f := Lexeme.token), Lexeme.map_token_ofTokens]
    exact List.length_filter_le _ _
  calc openings (Lexeme.ofTokens false tokens)
    _ ≤ (Lexeme.ofTokens false tokens).length := List.countP_le_length
    _ ≤ tokens.length := hlexemes
    _ ≤ source.toList.length := htiles.length_le
    _ = source.length := String.length_toList

/-- A parser with a limit on nesting that its source does not reach. -/
def Parser.unlimited (source : String) : Parser :=
  .fresh .standard (source.length + 1) source

/-- The largest number of expressions and blocks that are open together where the source is read
    without a limit. -/
def nestingDepth (source : String) : Nat :=
  (Parser.unlimited source).readStatements.2.cursor.deepest

/-- The parse of a program under a limit. -/
private def programRun (source : String) (lexemes : List Lexeme) (stop : Position) (limit : Nat) :
    EStateM.Result ParseError Cursor (List Node) :=
  Parse.program ⟨.standard, limit, source.toList, stop⟩ (Cursor.start lexemes)

section

variable {source : String} {lexemes : List Lexeme} {stop : Position} {limit limit' : Nat}

/-- A program under a limit is comparable with itself under any larger one. -/
private theorem compared_programRun (hlt : limit < limit') :
    Parse.Compared ⟨.standard, limit, source.toList, stop⟩ limit' (openings lexemes)
      (Cursor.start lexemes) (programRun source lexemes stop limit)
      (programRun source lexemes stop limit') := by
  have hopenings := openings_eq (s := ⟨.standard, limit, source.toList, stop⟩) rfl lexemes
  refine Parse.guarded_program (s := ⟨.standard, limit, source.toList, stop⟩) hlt _ ⟨?_, ?_, ?_⟩
  · exact Nat.zero_le _
  · rw [hopenings, Nat.zero_add]
  · rw [hopenings]
    exact Nat.le_succ_of_le (Nat.le_of_eq (Nat.zero_add _))

/-- No more are open together than were opened, and one. -/
private theorem deepest_programRun_le (hlt : limit < limit') :
    (Parse.final (programRun source lexemes stop limit')).deepest ≤ openings lexemes + 1 :=
  Nat.le_trans (Nat.le_add_right _ _) (compared_programRun hlt).bound

/-- Above what is opened, the limit makes no difference. -/
private theorem programRun_eq (hle : openings lexemes < limit) (hlt : limit ≤ limit') :
    programRun source lexemes stop limit = programRun source lexemes stop limit' := by
  rcases Nat.eq_or_lt_of_le hlt with rfl | hlt
  · rfl
  · exact (compared_programRun hlt).same (Nat.zero_le _)
      (Nat.le_trans (deepest_programRun_le hlt) hle)

/-- A parse under any limit beside the one without a limit, which may have the smaller number. -/
private theorem compared_unlimited (h : Lexeme.ofSource source = .ok (lexemes, stop))
    (limit : Nat) :
    ∃ limit', Parse.Compared ⟨.standard, limit, source.toList, stop⟩ limit' (openings lexemes)
      (Cursor.start lexemes) (programRun source lexemes stop limit)
      (programRun source lexemes stop (source.length + 1)) := by
  have hle : openings lexemes < source.length + 1 := Nat.lt_succ_of_le (openings_le_length h)
  refine ⟨limit + (source.length + 1), ?_⟩
  rw [programRun_eq hle (Nat.le_add_left _ limit)]
  exact compared_programRun (Nat.lt_add_of_pos_right (Nat.succ_pos _))

/-- A limit above what is opened is never reached. -/
private theorem outcome_programRun_ne (h : openings lexemes < limit) (n : Nat) (p : Position) :
    Parse.outcome (programRun source lexemes stop limit) ≠ .error (.tooDeep n p) := by
  intro he
  have hcompared := @compared_programRun source lexemes stop _ _ (Nat.zero_lt_of_lt h)
  cases hrun : programRun source lexemes stop limit with
  | ok nodes c =>
    rw [hrun] at he
    cases he
  | error e c =>
    rw [hrun] at he
    obtain rfl := Except.error.inj he
    have hreached := hcompared.reached n p c hrun
    omega

end

/-- A program takes no more room than was needed while it was read. -/
theorem programNesting_le_deepest {source : String} {nodes : List Node}
    (h : parse source = .ok nodes) :
    Node.programNesting nodes ≤
      (Parser.ofSource .standard source).readStatements.2.cursor.deepest := by
  obtain ⟨lexemes, stop, c, hlexemes, hrun⟩ := parse_eq_ok.1 h
  have hcursor : (Parser.ofSource .standard source).readStatements.2.cursor = c := by
    rw [@Parser.readStatements_eq (.ofSource .standard source) lexemes stop hlexemes]
    exact congrArg Parse.final hrun
  rw [hcursor]
  by_cases hdeepest : c.deepest < maxDepth
  -- With what was needed as its limit, the program is read in the same way
  · have hsame : programRun source lexemes stop c.deepest =
        programRun source lexemes stop maxDepth := by
      apply (compared_programRun hdeepest).same (Nat.zero_le _)
      rw [programRun, hrun]
      exact Nat.le_refl _
    obtain ⟨lines, -, rfl, hparsed⟩ := Parse.program_reads (hsame.trans hrun)
    apply largest_map_le_iff.2
    intro n hn
    obtain ⟨s, hs, rfl⟩ := List.mem_map.1 hn
    exact (hparsed.written.written s hs).nesting_le
  · exact Nat.le_trans (parse_form h).2.2 (Nat.le_of_not_lt hdeepest)

/-- The limit on nesting is only a guard.  A limit above the length of the source is never reached,
    and no larger one makes a difference.  If no more are open together in such a reading than the
    usual limit lets be, the source is parsed in the same way.  Otherwise parsing fails, at the next
    token where the first one too many began or at the end of the source.  No more are ever open
    together than tokens that open something, and one. -/
theorem parse_guarded {source : String} {lexemes : List Lexeme} {stop : Position}
    (h : Lexeme.ofSource source = .ok (lexemes, stop)) :
    (∀ limit, source.length < limit →
      (Parser.fresh .standard limit source).readStatements.1 =
          (Parser.unlimited source).readStatements.1 ∧
        (Parser.fresh .standard limit source).readStatements.2.cursor =
          (Parser.unlimited source).readStatements.2.cursor) ∧
    (∀ limit p, (Parser.unlimited source).readStatements.1 ≠ .error (.tooDeep limit p)) ∧
    (nestingDepth source ≤ maxDepth →
      parse source = (Parser.unlimited source).readStatements.1) ∧
    (maxDepth < nestingDepth source → ∃ p ∈ lexemes.map (·.token.position) ++ [stop],
      (Parser.unlimited source).readStatements.2.cursor.descents[maxDepth]? = some p ∧
        ((Parser.ofSource .standard source).readStatements.2.cursor.rest.head?.map
          (·.token.position)).getD stop = p ∧
        parse source = .error (.tooDeep maxDepth p)) ∧
    nestingDepth source ≤ 1 + openings lexemes ∧
    (openings lexemes < maxDepth → ∀ limit p, parse source ≠ .error (.tooDeep limit p)) := by
  have hread : ∀ limit, (Parser.fresh .standard limit source).readStatements =
      (Parse.outcome (programRun source lexemes stop limit),
        { Parser.fresh .standard limit source with
          stop, cursor := Parse.final (programRun source lexemes stop limit) }) :=
    fun limit => @Parser.readStatements_eq (.fresh .standard limit source) lexemes stop h
  have hparse : parse source = Parse.outcome (programRun source lexemes stop maxDepth) :=
    congrArg Prod.fst (hread maxDepth)
  have hstopped : (Parser.ofSource .standard source).readStatements.2.cursor =
      Parse.final (programRun source lexemes stop maxDepth) :=
    congrArg (fun run => run.2.cursor) (hread maxDepth)
  have hfew : openings lexemes < source.length + 1 := Nat.lt_succ_of_le (openings_le_length h)
  have hnever := @outcome_programRun_ne source lexemes stop _ hfew
  have hdeepest := @deepest_programRun_le source lexemes stop _ _ (Nat.zero_lt_of_lt hfew)
  obtain ⟨limit', hcompared⟩ := compared_unlimited h maxDepth
  -- In what follows, the unlimited parse is known by these facts only
  rw [nestingDepth, Parser.unlimited, hread, hparse, hstopped]
  have hwithin : (Parse.final (programRun source lexemes stop (source.length + 1))).deepest ≤
      maxDepth → Parse.outcome (programRun source lexemes stop maxDepth) =
        Parse.outcome (programRun source lexemes stop (source.length + 1)) :=
    fun hle => congrArg Parse.outcome (hcompared.same (Nat.zero_le _) hle)
  refine ⟨fun limit hlt => ?_, hnever, hwithin, fun hlt => ?_, ?_, fun hlt limit p => ?_⟩
  · rw [hread, programRun_eq hfew hlt]
    exact ⟨rfl, rfl⟩
  -- Too deep: the usual limit refuses the nesting whose beginning the unlimited parse recorded
  · obtain ⟨c, hp, hrun⟩ := hcompared.refused (Nat.zero_le _) hlt
    obtain ⟨more, hmore, hplaces⟩ := hcompared.grows.descents
    refine ⟨c.position ⟨.standard, maxDepth, source.toList, stop⟩, ?_, hp, ?_, ?_⟩
    · have hmem := List.mem_of_getElem? hp
      rw [hmore] at hmem
      simpa [Cursor.places, Cursor.tokens, Cursor.start] using hplaces _ hmem
    · rw [hrun]
      rfl
    · rw [hrun]
      rfl
  · rw [Nat.add_comm 1]
    exact hdeepest
  · rw [hwithin (Nat.le_trans hdeepest hlt)]
    exact hnever limit p

/-- One parenthesis more than the limit lets be nested, so that the last expression begins at the
    end of the source. -/
theorem parse_guarded_parentheses :
    ∃ lexemes stop p,
      Lexeme.ofSource (String.ofList (List.replicate 64 '(')) = .ok (lexemes, stop) ∧
      nestingDepth (String.ofList (List.replicate 64 '(')) = 65 ∧
      (Parser.unlimited (String.ofList (List.replicate 64 '('))).readStatements.2.cursor.descents[
        maxDepth]? = some p ∧
      parse (String.ofList (List.replicate 64 '(')) = .error (.tooDeep maxDepth p) := by
  have hdepth : nestingDepth (String.ofList (List.replicate 64 '(')) = 65 := by decide +kernel
  obtain ⟨⟨lexemes, stop⟩, h⟩ := exists_of_isOk
    (show (Lexeme.ofSource (String.ofList (List.replicate 64 '('))).isOk = true by decide +kernel)
  obtain ⟨p, -, hp, -, hparse⟩ := (parse_guarded h).2.2.2.1 (by rw [hdepth]; decide)
  exact ⟨lexemes, stop, p, h, hdepth, hp, hparse⟩

end Schemata
