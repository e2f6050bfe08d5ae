import Schemata.Proofs.Guarded
import Schemata.Proofs.Locality
import Schemata.Proofs.StatementSound

/-!
# No parser looks beyond the next token

Every parser of the language is `Local`, for every precedence table.  Before a fork at which one
text ends and the other has a semicolon this takes a table without semicolons, and a parser that
does not skip them.
-/

namespace Schemata

/-- No row of the table has an operator of this kind. -/
def Grammar.Lacks (grammar : Grammar) (kind : TokenKind) : Prop :=
  ∀ level ∈ grammar.levels, level.binds kind = false ∧ level.begins kind = false

/-- A kind that begins no operation of a row is not found in it. -/
theorem Grammar.lookup_eq_none {operators : List (TokenKind × UnaryKind)} {kind : TokenKind}
    (h : (Level.unary operators).begins kind = false) : operators.lookup kind = none := by
  rw [List.lookup_eq_none_iff]
  intro operator hmem
  have hne := List.any_eq_false.1 h operator hmem
  simpa using fun heq : kind = operator.1 => hne (by simp [heq])

/-- A kind that the table lacks begins no operation of a looser row either. -/
theorem Grammar.Lacks.looserUnary?_eq_none {grammar : Grammar} {kind : TokenKind}
    (h : grammar.Lacks kind) (level : Nat) : grammar.looserUnary? level kind = none := by
  cases hlooser : grammar.looserUnary? level kind with
  | none => rfl
  | some found =>
    obtain ⟨-, operators, hl, hmem⟩ := looserUnary?_eq_some hlooser
    have hbegins := (h _ (List.mem_of_getElem? hl)).2
    exact absurd (beq_self_eq_true kind) (List.any_eq_false.1 hbegins _ hmem)

/-- No row of the standard table has a semicolon. -/
theorem Grammar.standard_lacks_semicolon : Grammar.standard.Lacks .semicolon := by
  unfold Grammar.Lacks
  decide

namespace Parse

variable {k : Fork} {s : Setting}

/-! ## Expressions -/

section Atoms

variable {e : Parse Node} (he : Local k e)
include he

/-- What follows the key of an entry. -/
private theorem local_entryValue (key : Node) :
    Local k (do
      if ← eats .colon then
        let value ← e
        finish s (.entry key value) key.position
      else if key.name?.isSome then
        let value ← pure key
        finish s (.entry key value) key.position
      else
        let value ← failHere s
        finish s (.entry key value) key.position) := by
  refine local_eats_bind (he.bind fun value => local_finish _ _) ?_ rfl
  rw [if_neg Bool.false_ne_true]
  split
  · exact local_finish _ _
  · exact local_failHere.bind fun value => local_finish _ _

/-- An entry of an object is local.  Its first token is its key. -/
theorem local_objectEntry : Local k (objectEntry s e) := by
  have hvalue := fun key => local_entryValue (s := s) he key
  -- Anything but a name or a string is refused where it stands
  have hfail := (local_expecting (k := k) (.token .name)).bind fun _ =>
    (local_expecting (.token .string)).bind fun _ => (local_failHere (s := s)).bind hvalue
  refine local_peek hfail (fun x => ?_) fun _ _ _ _ _ _ => rfl
  obtain ⟨⟨kind, value, text, p, breaks⟩, broken⟩ := x
  cases kind with
  | name => exact .take ((local_finish _ _).bind hvalue)
  | string => exact .take ((local_finish _ _).bind hvalue)
  | _ => exact hfail.before _

omit he in
/-- Where no atom begins, both runs fail alike. -/
theorem local_failAtom : Local k (failAtom s) :=
  (local_expecting _).bind fun _ => local_failHere

/-- An atom is local: its first token tells which one it is. -/
theorem local_atom : Local k (atom s e) := by
  refine local_peek local_failAtom (fun x => ?_) fun _ _ _ _ _ _ => rfl
  obtain ⟨⟨kind, value, text, p, breaks⟩, broken⟩ := x
  cases kind with
  | number => exact .take (local_finish _ _)
  | string => exact .take (local_finish _ _)
  | boolean => exact .take (local_finish _ _)
  | name => exact .take (local_finish _ _)
  | leftBracket =>
    exact .take ((local_list .rightBracket he rfl).bind fun items => local_finish _ _)
  | leftBrace =>
    refine .take ((local_list .rightBrace (local_objectEntry he) rfl).bind fun entries => ?_)
    exact local_finish _ _
  | leftParen =>
    refine .take (he.bind fun inner => ?_)
    exact (local_expect .rightParen rfl).bind fun _ => local_span _ _
  | _ => exact local_failAtom.before _

omit he in
/-- The end of a chain is local. -/
theorem local_endChain (node : Node) : Local k (endChain node) :=
  (local_expecting _).bind fun _ => (local_expecting _).bind fun _ =>
    (local_expecting _).bind fun _ => .pure _

/-- A link is local: its first token tells which one it is, or that the chain ends. -/
theorem local_link (node : Node) : Local k (link s e node) := by
  refine local_peek (local_endChain node) (fun x => ?_) fun _ _ _ _ _ _ => rfl
  obtain ⟨⟨kind, value, text, p, breaks⟩, broken⟩ := x
  cases kind with
  | dot =>
    refine .note (.take ((local_expect .name rfl).bind fun name => ?_)) _
    exact (local_finish _ _).bind fun member => .pure _
  | leftBracket =>
    refine .note (.take (he.bind fun key => ?_)) _
    refine (local_expect .rightBracket rfl).bind fun _ => ?_
    exact (local_span _ _).bind fun node => .pure _
  | leftParen =>
    refine .note (.take ((local_list .rightParen he rfl).bind fun args => ?_)) _
    exact (local_finish _ _).bind fun call => .pure _
  | _ => exact (local_endChain node).before _

/-- A chain is local. -/
theorem local_chain {room : Nat} (hreads : Reads s room .nested 0 e) : Local k (chain s e) :=
  (local_atom he).bind fun node =>
    local_iterate (local_link he) (fun _ _ _ _ h => link_length_lt hreads h) node

end Atoms

section Levels

variable {nested : Nat → Parse Node} (hn : ∀ level, Local k (nested level))
  (hs : k.tied = true → s.grammar.Lacks .semicolon)
include hn

/-- An operand after a sign is local. -/
theorem local_unaryFrom (level : Nat) (kind : UnaryKind) (x : Lexeme) :
    LocalBefore k x (unaryFrom s nested level kind x.token) :=
  .take ((hn level).bind fun _ => local_finish _ _)

include hs

/-- A right operand is local.  Where the left text ends, no sign of a looser row begins. -/
theorem local_rightOperand {level : Nat} {tighter : Parse Node}
    (hlevel : level < s.grammar.levels.length) (ht : Local k tighter) :
    Local k (rightOperand s nested level tighter) := by
  refine (local_require hlevel).bind fun _ => local_peek ht (fun x => ?_) ?_
  · obtain ⟨token, broken⟩ := x
    dsimp only
    cases s.grammar.looserUnary? level token.kind with
    | none => exact ht.before _
    | some found => exact local_unaryFrom hn found.1 found.2 ⟨token, broken⟩
  · intro htied value text p breaks broken
    simp only [(hs htied).looserUnary?_eq_none level]

/-- A step along a row of operators is local. -/
theorem local_binaryStep {level : Nat} {kind : BinaryKind} {operators : List TokenKind}
    {tighter : Parse Node} (hrow : s.grammar.levels[level]? = some (.binary kind operators))
    (ht : Local k tighter) (left : Node) :
    Local k (binaryStep s nested level kind operators tighter left) := by
  obtain ⟨hlevel, -⟩ := List.getElem?_eq_some_iff.1 hrow
  refine local_peek (.pure _) (fun x => ?_) ?_
  · dsimp only
    split
    · refine .note (.take_operator fun op => ?_) x
      refine (local_rightOperand hn hs hlevel ht).bind fun right => ?_
      exact (local_finish _ _).bind fun node => .pure _
    · exact .pure _
  -- The semicolon is no operator of the row, so both runs end it there
  · intro htied value text p breaks broken
    have hbinds := (hs htied _ (List.mem_of_getElem? hrow)).1
    dsimp only
    rw [if_neg (by rw [← Bool.not_eq_false, not_not]; exact hbinds)]

/-- The levels of a table are local, one after the other. -/
theorem local_climb {room level : Nat}
    (hreads : ∀ level, Reads s room .nested level (nested level)) {levels : List Level}
    (hlevels : s.grammar.levels.drop level = levels) :
    Local k (climb s nested level levels) := by
  induction levels generalizing level with
  | nil => exact local_chain (hn 0) (hreads 0)
  | cons row levels ih =>
    -- What is left of the table tells the row at this level, and what is left after it
    have hrow : s.grammar.levels[level]? = some row := by
      rw [← List.head?_drop, hlevels]
      rfl
    have htighter : s.grammar.levels.drop (level + 1) = levels := by
      rw [← List.tail_drop, hlevels]
      rfl
    have hoperand := ih htighter
    cases row with
    | binary kind operators =>
      refine hoperand.bind fun left => local_iterate (local_binaryStep hn hs hrow hoperand)
        (fun left c left' c' h => ?_) left
      exact binaryStep_length_lt hreads (climb_reads hreads htighter) hrow h
    | unary operators =>
      refine local_peek hoperand (fun x => ?_) ?_
      · obtain ⟨token, broken⟩ := x
        dsimp only
        cases operators.lookup token.kind with
        | some kind => exact local_unaryFrom hn level kind ⟨token, broken⟩
        | none => exact hoperand.before _
      · intro htied value text p breaks broken
        have hbegins := (hs htied _ (List.mem_of_getElem? hrow)).2
        simp only [Grammar.lookup_eq_none hbegins]

omit hn

/-- An expression is local if there is room for it. -/
theorem local_nestedLevel {room : Nat} (hroom : room ≤ s.limit) (level : Nat) :
    Local k (nestedLevel s room level) := by
  induction room generalizing level with
  | zero => exact local_failTooDeep
  | succ room ih =>
    refine (local_enter hroom).bind fun _ => ?_
    exact local_climb (ih (Nat.le_of_lt hroom)) hs (nestedLevel_reads room) rfl

end Levels

/-! ## Declarations -/

/-- The name of a type is local. -/
theorem local_typeName : Local k (typeName s) := by
  refine (local_expect .name rfl).bind fun name => local_eats_bind ?_ (.pure _) rfl
  exact (local_expect .rightBracket rfl).bind fun _ => .pure _

/-- A parameter is local. -/
theorem local_param : Local k (param s) := by
  refine (local_expect .name rfl).bind fun name => ?_
  refine (local_eats .question rfl).bind fun optional => ?_
  exact local_eats_bind (local_typeName.bind fun type => local_finish _ _) (local_finish _ _) rfl

/-- A field of an index is local. -/
theorem local_indexField : Local k (indexField s) := by
  refine local_eats_bind ?_ ((local_expect .name rfl).bind fun name => .pure _) rfl
  refine (local_expect .name rfl).bind fun name => ?_
  have hclose : ∀ direction, Local k (do
      let _ ← expect s .rightBracket
      return IndexField.mk name.value direction) :=
    fun direction => (local_expect .rightBracket rfl).bind fun _ => .pure _
  refine local_eats_bind (local_expect_bind (fun x => ?_) rfl) (hclose none) rfl
  -- A word that is no direction is refused after it has been taken
  cases Direction.ofWord? x.token.value with
  | some direction => exact .take (hclose (some direction))
  | none => exact .take_refuse _

/-- An index is local. -/
theorem local_index (x : Lexeme) : LocalBefore k x (index s x.token) := by
  refine .take (local_expect_bind (fun y => ?_) rfl)
  dsimp only
  split
  · exact .take_refuse _
  · refine .take ((local_expect .leftParen rfl).bind fun _ => ?_)
    exact (local_list .rightParen local_indexField rfl).bind fun fields => local_finish _ _

/-- A field of a collection is local. -/
theorem local_field (x : Lexeme) : LocalBefore k x (field s x.token) := by
  refine .take ((local_eats .colon rfl).bind fun _ => local_typeName.bind fun type => ?_)
  exact (local_eats .not rfl).bind fun required => local_finish _ _

section Blocks

variable {block : Parse (List Node)} (hb : Local k block)
include hb

/-- A function is local if its body is. -/
theorem local_function (x : Lexeme) : LocalBefore k x (function s block x.token) := by
  refine .take ((local_expect .name rfl).bind fun name => ?_)
  refine (local_expect .leftParen rfl).bind fun _ => ?_
  refine (local_list .rightParen local_param rfl).bind fun params => ?_
  exact hb.bind fun body => local_finish _ _

/-- An item of a collection is local: its first token tells which one it is. -/
theorem local_collectionItem : Local k (collectionItem s block) := by
  have hunknown : Local k (do
      expecting (.token (.keyword .function))
      expecting (.token .atSign)
      expecting (.token .name)
      failHere s : Parse Node) :=
    (local_expecting _).bind fun _ => (local_expecting _).bind fun _ =>
      (local_expecting _).bind fun _ => local_failHere
  refine local_peek hunknown (fun x => ?_) fun _ _ _ _ _ _ => rfl
  obtain ⟨⟨kind, value, text, p, breaks⟩, broken⟩ := x
  cases kind with
  | atSign => exact local_index ⟨⟨.atSign, value, text, p, breaks⟩, broken⟩
  | name => exact local_field ⟨⟨.name, value, text, p, breaks⟩, broken⟩
  | keyword word =>
    cases word with
    | function => exact local_function hb ⟨⟨.keyword .function, value, text, p, breaks⟩, broken⟩
    | _ => exact hunknown.before _
  | _ => exact hunknown.before _

end Blocks

/-- Items between braces, up to the brace that ends them.  Whether the items are followed by the end
    or by a semicolon does not matter, as a brace has to come after them. -/
private theorem local_body {α β : Type} {round : Parse (Round α)} {f : List α → Parse β}
    (hround : Local k.loose round)
    (hlength : ∀ c a c', round c = .ok (.more a) c' → c'.rest.length < c.rest.length)
    (hf : ∀ items, Local k (f items)) :
    Local k (do
      skipSemicolons
      let items ← gather round
      let _ ← expect s .rightBrace
      f items) := by
  have hitems : Local k.loose (do skipSemicolons; gather round) :=
    (local_skipSemicolons rfl).bind fun _ => local_gather hround hlength
  refine LocalFrom.congr (q := (do skipSemicolons; gather round) >>= fun items => do
    let _ ← expect s .rightBrace
    f items) ?_ fun c => ?_
  -- The brace that ends the items is taken by what follows, so the items end before the fork
  · refine hitems.bindLoose (fun items => (local_expect .rightBrace rfl).bind fun _ => hf items) ?_
    intro items c b c' h
    obtain ⟨t, c₁, hexpect, h⟩ := bind_eq_ok.1 h
    have hrest : Sure c₁ (f items c₁) := (hf items).sure trivial
    rw [h] at hrest
    exact Nat.lt_of_le_of_lt hrest.rest.length_le (expect_took hexpect).2.length_lt
  · rw [bind_assoc]

/-- A collection is local.  It skips semicolons, but only inside its braces. -/
theorem local_collection {block : Parse (List Node)} {room : Nat} (hb : Local k.loose block)
    (hreads : ReadsBlock s room block) (x : Lexeme) :
    LocalBefore k x (collection s block x.token) := by
  refine .take ((local_expect .name rfl).bind fun name => ?_)
  refine (local_expect .leftBrace rfl).bind fun _ => ?_
  refine local_body ?_ (itemRound_reads hreads).length_lt fun items => local_finish _ _
  refine (local_check? .rightBrace rfl).bind fun found => ?_
  split
  · exact .pure _
  · refine (local_collectionItem hb).bind fun item => ?_
    exact (local_skipSemicolons rfl).bind fun _ => .pure _

/-! ## Statements -/

section Statements

variable {e : Parse Node} {block : Parse (List Node)} (he : Local k e) (hb : Local k block)
include he

/-- The declaration of a constant is local. -/
theorem local_constDecl (x : Lexeme) : LocalBefore k x (constDecl s e x.token) := by
  refine .take ((local_expect .name rfl).bind fun name => ?_)
  refine (local_expect .assign rfl).bind fun _ => ?_
  exact he.bind fun value => local_finish _ _

/-- The declaration of a variable is local. -/
theorem local_letDecl (x : Lexeme) : LocalBefore k x (letDecl s e x.token) := by
  refine .take ((local_expect .name rfl).bind fun name => ?_)
  exact local_eats_bind (he.bind fun value => local_finish _ _) (local_finish _ _) rfl

/-- A return is local: at a semicolon it does what it does at the end. -/
theorem local_returnStmt (x : Lexeme) : LocalBefore k x (returnStmt s e x.token) := by
  refine .take (local_peek (local_finish _ _) (fun y => ?_) fun _ _ _ _ _ _ => rfl)
  dsimp only
  split
  · exact (local_finish _ _).before y
  · exact (he.bind fun value => local_finish _ _).before y

/-- An expression that stands as a statement is local, and so is an assignment. -/
theorem local_expressionStmt : Local k (expressionStmt s e) := by
  refine he.bind fun left => local_checkAny?_bind (.pure _) (fun x => ?_) (by decide)
  dsimp only
  split
  · exact .of_fails (fun _ => .invalidTarget left.position) (fun _ => rfl) fun _ _ _ _ _ h => by
      cases h
  · exact .take_operator fun op => he.bind fun right => local_finish _ _

include hb

/-- A further clause of a conditional is local. -/
theorem local_clause : Local k (clause s e block) := by
  refine (local_eat? (.keyword .elseWord) rfl).bind fun found => ?_
  cases found with
  | none => exact .pure _
  | some token =>
    refine local_eats_bind ?_ ?_ rfl
    · refine he.bind fun condition => hb.bind fun body => ?_
      exact (local_finish _ _).bind fun _ => .pure _
    · exact hb.bind fun body => (local_finish _ _).bind fun _ => .pure _

variable {room : Nat} (hexpr : Reads s room .nested 0 e) (hblock : ReadsBlock s room block)
include hexpr hblock

/-- A conditional is local. -/
theorem local_ifStmt (x : Lexeme) : LocalBefore k x (ifStmt s e block x.token) := by
  refine .take (he.bind fun condition => hb.bind fun body => ?_)
  refine (local_gather (local_clause he hb) fun c n c' h => ?_).bind fun clauses => local_finish _ _
  exact clause_length_lt hexpr hblock h

/-- A statement is local: its first token tells which one it is. -/
theorem local_statement : Local k (statement s e block) := by
  have hother : Local k (expressionStmt s e) := local_expressionStmt he
  refine local_peek hother (fun x => ?_) fun _ _ _ _ _ _ => rfl
  obtain ⟨⟨kind, value, text, p, breaks⟩, broken⟩ := x
  cases kind with
  | keyword word =>
    cases word with
    | ifWord => exact local_ifStmt he hb hexpr hblock ⟨⟨_, value, text, p, breaks⟩, broken⟩
    | constWord => exact local_constDecl he ⟨⟨_, value, text, p, breaks⟩, broken⟩
    | letWord => exact local_letDecl he ⟨⟨_, value, text, p, breaks⟩, broken⟩
    | returnWord => exact local_returnStmt he ⟨⟨_, value, text, p, breaks⟩, broken⟩
    | _ => exact hother.before _
  | _ => exact hother.before _

end Statements

/-! ## Blocks and programs -/

/-- Statements in braces are local.  They skip semicolons, but only inside the braces. -/
theorem local_braced {e : Parse Node} {block : Parse (List Node)} {room : Nat}
    (he : Local k.loose e) (hb : Local k.loose block) (hexpr : Reads s room .nested 0 e)
    (hblock : ReadsBlock s room block) : Local k (braced s (statement s e block)) := by
  refine (local_expect .leftBrace rfl).bind fun _ => ?_
  refine local_body ?_ (blockRound_reads hexpr hblock).length_lt fun body => .pure _
  have hnode : Local k.loose (do
      let node ← statement s e block
      skipSemicolons
      return Round.more node) :=
    (local_statement he hb hexpr hblock).bind fun node =>
      (local_skipSemicolons rfl).bind fun _ => .pure _
  refine (local_check? .rightBrace rfl).bind fun found => ?_
  split
  · exact .pure _
  · exact local_peek (local_failHere.bind fun _ => hnode) (fun x => hnode.before x)
      fun htied => absurd htied Bool.false_ne_true

/-- A block is local if there is room for it. -/
theorem local_nestedBlock {room : Nat} (hroom : room ≤ s.limit) :
    Local k (nestedBlock s room) := by
  induction room generalizing k with
  | zero => exact local_failTooDeep
  | succ room ih =>
    have hle := Nat.le_of_lt hroom
    refine (local_enter hroom).bind fun _ => ?_
    exact local_braced
      (local_nestedLevel (fun htied => absurd htied Bool.false_ne_true) hle 0) (ih hle)
      (nestedLevel_reads room 0) (nestedBlock_reads room)

/-- A statement that does not stand in a block is local. -/
theorem local_topStatement (hs : k.tied = true → s.grammar.Lacks .semicolon) :
    Local k (topStatement s) := by
  have hother := local_statement (local_nestedLevel hs (Nat.le_refl s.limit) 0)
    (local_nestedBlock (Nat.le_refl s.limit)) (nestedLevel_reads s.limit 0)
    (nestedBlock_reads s.limit)
  refine local_peek hother (fun x => ?_) fun _ _ _ _ _ _ => rfl
  obtain ⟨⟨kind, value, text, p, breaks⟩, broken⟩ := x
  cases kind with
  | keyword word =>
    cases word with
    | collection =>
      exact local_collection (local_nestedBlock (Nat.le_refl s.limit)) (nestedBlock_reads s.limit)
        ⟨⟨_, value, text, p, breaks⟩, broken⟩
    | function =>
      exact local_function (local_nestedBlock (Nat.le_refl s.limit))
        ⟨⟨_, value, text, p, breaks⟩, broken⟩
    | _ => exact hother.before _
  | _ => exact hother.before _

section Sources

variable (hk : k.tied = false)
include hk

/-- A round of a program is local where the texts have no more in common than they show. -/
theorem local_topRound : Local k (topRound s) := by
  have hs : k.tied = true → s.grammar.Lacks .semicolon :=
    fun htied => absurd (hk.symm.trans htied) Bool.false_ne_true
  -- The tie is excluded here: the semicolons after a statement are skipped
  refine local_peek (.pure _) (fun x => ?_) fun htied => absurd (hk.symm.trans htied) (by decide)
  refine LocalFrom.before ?_ x
  refine (local_topStatement hs).bind fun node => ?_
  exact (local_skipSemicolons hk).bind fun _ => .pure _

/-- A program is local where the texts have no more in common than they show. -/
theorem local_program : Local k (program s) := by
  refine (local_skipSemicolons hk).bind fun _ => ?_
  refine (local_gather (local_topRound hk) topRound_reads.length_lt).bind fun nodes => ?_
  split
  · exact (local_expecting _).bind fun _ => local_failHere.bind fun _ => .pure _
  · exact .pure _

/-- An expression that is all of a source is local in the same way. -/
theorem local_wholeExpression : Local k (wholeExpression s) := by
  have hs : k.tied = true → s.grammar.Lacks .semicolon :=
    fun htied => absurd (hk.symm.trans htied) Bool.false_ne_true
  refine (local_nestedLevel hs (Nat.le_refl s.limit) 0).bind fun node => ?_
  refine local_peek (.pure _) (fun x => ?_) fun htied => absurd (hk.symm.trans htied) (by decide)
  exact (local_failHere.bind fun _ => .pure _).before x

end Sources

/-! ## One run -/

/-- Every run of a program keeps to what holds of a single run. -/
theorem sure_program (s : Setting) (c : Cursor) : Sure c (program s c) :=
  (local_program (k := .ofTexts [] []) rfl).sure trivial

/-- Every run of an expression that is all of a source keeps to what holds of a single run. -/
theorem sure_wholeExpression (s : Setting) (c : Cursor) : Sure c (wholeExpression s c) :=
  (local_wholeExpression (k := .ofTexts [] []) rfl).sure trivial

end Parse

end Schemata
