import Schemata.Proofs.Mending
import Schemata.Proofs.StatementSound

/-!
# Mending expressions

An expression that is parsed beside its mended self goes on together with it, whatever the token
is that was expected.
-/

namespace Schemata

open EStateM (Result)
open Parse

/-! ## The standard table -/

/-- Every operator of the standard table can be written as a node. -/
theorem Grammar.isSome_ofKind? {row : Level} {kind : TokenKind} (hrow : row ∈ standard.levels)
    (h : row.binds kind = true) : (Operator.ofKind? kind).isSome = true := by
  -- The table is finite, and so are the kinds of tokens
  have hrows : ∀ row ∈ standard.levels, ∀ kind ∈ TokenKind.all, row.binds kind = true →
      (Operator.ofKind? kind).isSome = true := by decide
  exact hrows row hrow kind (TokenKind.mem_all kind) h

namespace Mend

variable {m : Mend} {M : Cursor → Prop}

/-- The node of an operator goes on together: nothing is expected there. -/
theorem follows_operatorNode {token : Token} (h : (Operator.ofKind? token.kind).isSome = true) :
    m.FollowsUnless M (operatorNode token) := by
  unfold operatorNode
  split
  · exact .pure _
  · next hnone =>
    rw [hnone] at h
    cases h

section Atoms

variable {expression : Parse Node}

/-- An entry of an object goes on together with its mended self. -/
theorem follows_objectEntry (he : m.Follows expression) :
    m.Follows (objectEntry m.setting expression) := by
  have hvalue : ∀ key : Node, m.Follows (do
      if ← eats .colon then
        let value ← expression
        finish m.setting (.entry key value) key.position
      else
        if key.name?.isSome then
          finish m.setting (.entry key key) key.position
        else
          let value ← failHere m.setting
          finish m.setting (.entry key value) key.position) := by
    intro key
    refine (follows_eats .colon rfl).bind fun colon => ?_
    split
    · exact he.bind fun value => follows_finish _ _ _
    · split
      · exact follows_finish _ _ _
      · exact follows_failHere.bind fun value => follows_finish _ _ _
  -- A name and a string are what an entry is expected to begin with, and both are noted
  refine follows_peek ([TokenKind.name, .string].contains ·) ?_ (fun lexeme hkind => ?_)
    fun lexeme hkind => ?_
  · exact ((follows_failHere.bind hvalue).noted _).expecting rfl rfl |>.expecting rfl rfl
  · dsimp only
    split
    · next hk => simp [hk] at hkind
    · next hk => simp [hk] at hkind
    · rfl
  · dsimp only
    split
    · exact .take ((follows_finish _ _ _).bind hvalue)
    · exact .take ((follows_finish _ _ _).bind hvalue)
    · next hname hstring => exact absurd hkind (by simpa using ⟨hname, hstring⟩)

/-- Where no atom begins, an expression is noted as expected, which is no token. -/
theorem follows_failAtom : m.FollowsUnless M (failAtom m.setting) :=
  (follows_expecting rfl (what_ne fun _ => rfl)).bind fun _ => follows_failHere

/-- The tokens that an atom begins with. -/
def atomKinds : List TokenKind :=
  [.number, .string, .boolean, .name, .leftBracket, .leftBrace, .leftParen]

/-- An atom goes on together with its mended self.  What it is expected to begin with is not noted
    token by token. -/
theorem follows_atom (he : m.Follows expression) : m.Follows (atom m.setting expression) := by
  refine follows_peek (atomKinds.contains ·) (follows_failAtom.noted _) (fun lexeme hkind => ?_)
    fun lexeme hkind => ?_
  -- No other token begins an atom
  · dsimp only
    split
    all_goals first | rfl | next hk => simp [atomKinds, hk] at hkind
  · dsimp only
    split
    · exact .take (follows_finish _ _ _)
    · exact .take (follows_finish _ _ _)
    · exact .take (follows_finish _ _ _)
    · exact .take (follows_finish _ _ _)
    · exact .take ((follows_list .rightBracket he rfl).bind fun _ => follows_finish _ _ _)
    · refine .take ((follows_list .rightBrace (follows_objectEntry he) rfl).bind fun _ => ?_)
      exact follows_finish _ _ _
    · refine .take (he.bind fun inner => ?_)
      exact (follows_expect .rightParen rfl).bind fun _ => follows_span _ _ _
    · next h₁ h₂ h₃ h₄ h₅ h₆ h₇ =>
      exact absurd hkind (by simpa [atomKinds] using ⟨h₁, h₂, h₃, h₄, h₅, h₆, h₇⟩)

/-- A link goes on together: all tokens that a chain goes on with are noted where it ends. -/
theorem follows_link (he : m.Follows expression) (node : Node) :
    m.Follows (link m.setting expression node) := by
  refine follows_peek (chainKinds.contains ·) ?_ (fun lexeme hkind => ?_) fun lexeme hkind => ?_
  · have hend : m.Noted (fun _ => False) (chainKinds.contains ·)
        (pure (.done node) : Parse (ForInStep Node)) := (FollowsUnless.pure _).noted _
    exact ((hend.expecting rfl rfl).expecting rfl rfl).expecting rfl rfl
  · dsimp only
    split
    all_goals first | rfl | next hk => simp [chainKinds, hk] at hkind
  · dsimp only
    split
    · refine .note ((follows_expect .name rfl).bind fun name => ?_)
      exact (follows_finish _ _ _).bind fun _ => .pure _
    · refine .note (he.bind fun key => (follows_expect .rightBracket rfl).bind fun _ => ?_)
      exact (follows_span _ _ _).bind fun _ => .pure _
    · refine .note ((follows_list .rightParen he rfl).bind fun args => ?_)
      exact (follows_finish _ _ _).bind fun _ => .pure _
    · next h₁ h₂ h₃ => exact absurd hkind (by simpa [chainKinds] using ⟨h₁, h₂, h₃⟩)

/-- A chain goes on together with its mended self. -/
theorem follows_chain {room : Nat} (he : m.Follows expression)
    (hreads : Reads m.setting room .nested 0 expression) :
    m.Follows (chain m.setting expression) :=
  (follows_atom he).bind fun node =>
    follows_iterate (follows_link he) (fun _ _ _ _ h => link_length_lt hreads h) node

end Atoms

section Levels

variable {nested : Nat → Parse Node}

/-- A right operand goes on together with its mended self. -/
theorem follows_rightOperand (hn : ∀ level, m.Follows (nested level)) {level : Nat}
    {tighter : Parse Node} (ht : m.Follows tighter) :
    m.Follows (rightOperand m.setting nested level tighter) := by
  refine (follows_require _ _).bind fun _ => ?_
  refine follows_peek (fun kind => (m.setting.grammar.looserUnary? level kind).isSome) (ht.noted _)
    (fun lexeme hkind => ?_) fun lexeme hkind => ?_
  · simp only [Option.isSome_eq_false_iff, Option.isNone_iff_eq_none] at hkind
    simp only [hkind]
  · obtain ⟨⟨looser, kind⟩, hlooser⟩ := Option.isSome_iff_exists.1 hkind
    simp only [hlooser]
    exact .take ((hn looser).bind fun _ => follows_finish _ _ _)

/-- A step along a row of operators goes on together with its mended self. -/
theorem follows_binaryStep (hn : ∀ level, m.Follows (nested level)) {level : Nat}
    {kind : BinaryKind} {operators : List TokenKind} {tighter : Parse Node}
    (hrow : .binary kind operators ∈ Grammar.standard.levels) (ht : m.Follows tighter)
    (left : Node) :
    m.Follows (binaryStep m.setting nested level kind operators tighter left) := by
  refine follows_peek (operators.contains ·) ((FollowsUnless.pure _).noted _)
    (fun lexeme hkind => ?_) fun lexeme hkind => ?_
  · simp only [hkind, Bool.false_eq_true, if_false]
  · simp only [hkind, if_true]
    refine .note ((follows_operatorNode (Grammar.isSome_ofKind? hrow hkind)).bind fun op => ?_)
    refine (follows_rightOperand hn ht).bind fun right => ?_
    exact (follows_finish _ _ _).bind fun _ => .pure _

/-- The levels of the table go on together, one after the other. -/
theorem follows_climb {room level : Nat} (hg : m.setting.grammar = .standard)
    (hreads : ∀ level, Reads m.setting room .nested level (nested level))
    (hn : ∀ level, m.Follows (nested level)) {levels : List Level}
    (hlevels : m.setting.grammar.levels.drop level = levels) :
    m.Follows (climb m.setting nested level levels) := by
  induction levels generalizing level with
  | nil => exact follows_chain (hn 0) (hreads 0)
  | cons row levels ih =>
    -- What is left of the table tells the row at this level, and what is left after it
    have hrow : m.setting.grammar.levels[level]? = some row := by
      rw [← List.head?_drop, hlevels]
      rfl
    have htighter : m.setting.grammar.levels.drop (level + 1) = levels := by
      rw [← List.tail_drop, hlevels]
      rfl
    have hoperand := ih htighter
    cases row with
    | binary kind operators =>
      have hmem : .binary kind operators ∈ Grammar.standard.levels := by
        rw [← hg]
        exact List.mem_of_getElem? hrow
      refine hoperand.bind fun left => follows_iterate
        (follows_binaryStep hn hmem hoperand) (fun left c left' c' h => ?_) left
      exact binaryStep_length_lt hreads (climb_reads hreads htighter) hrow h
    | unary operators =>
      refine follows_peek (fun kind => (operators.lookup kind).isSome) (hoperand.noted _)
        (fun lexeme hkind => ?_) fun lexeme hkind => ?_
      · simp only [Option.isSome_eq_false_iff, Option.isNone_iff_eq_none] at hkind
        simp only [hkind]
      · obtain ⟨kind, hlookup⟩ := Option.isSome_iff_exists.1 hkind
        simp only [hlookup]
        exact .take ((hn level).bind fun _ => follows_finish _ _ _)

/-- An expression goes on together with its mended self, however much room it has. -/
theorem follows_nestedLevel (hg : m.setting.grammar = .standard) (room level : Nat) :
    m.Follows (nestedLevel m.setting room level) := by
  induction room generalizing level with
  | zero => exact follows_failTooDeep
  | succ room ih =>
    exact (follows_enter _ room).bind fun _ => follows_climb hg (nestedLevel_reads room) ih rfl

end Levels

end Mend

end Schemata
