import Schemata.Proofs.Pieces
import Schemata.Proofs.StatementComplete

/-!
# Tables of binary operators

A table may have any rows of binary operators, as long as no token is in two of them and every
token writes an operator.  For each such table, names with operators of the table between them are
read as an expression, and the expression is the one that the table asks for: the operator at the
root is of the loosest row that occurs, and the last one of that row (`parseExpression_arranges`).

`Arranges` says what the table asks for without saying how to read it.  That there is no second
way to arrange a sequence (`Arranges.unique`) is shown from this alone.
-/

namespace Schemata

/-! ## Tables -/

namespace Grammar

/-- The token is a binary operator of the row. -/
def InRow (grammar : Grammar) (i : Nat) (token : TokenKind) : Prop :=
  ∃ level, grammar.levels[i]? = some level ∧ level.binds token = true

/-- The table has rows of binary operators only, each token of a row writes an operator, and no
    token is in two rows. -/
structure BinaryTable (grammar : Grammar) : Prop where
  binary : ∀ level ∈ grammar.levels, ∃ kind operators, level = .binary kind operators
  convertible : ∀ level ∈ grammar.levels, ∀ token, level.binds token = true →
    (Operator.ofKind? token).isSome = true
  disjoint : grammar.levels.Pairwise fun level tighter =>
    ∀ token, level.binds token = true → tighter.binds token = false

variable {grammar : Grammar} {i j : Nat} {token : TokenKind}

namespace BinaryTable

/-- A token is in one row at most. -/
theorem eq_of_inRow (h : grammar.BinaryTable) (hi : grammar.InRow i token)
    (hj : grammar.InRow j token) : i = j := by
  -- The looser of two rows would exclude the token from the tighter one
  have hne : ∀ {m n : Nat}, grammar.InRow m token → grammar.InRow n token → ¬ m < n := by
    intro m n hm hn hlt
    obtain ⟨level, hl, hb⟩ := hm
    obtain ⟨tighter, ht, hb'⟩ := hn
    obtain ⟨hm, rfl⟩ := List.getElem?_eq_some_iff.1 hl
    obtain ⟨hn, rfl⟩ := List.getElem?_eq_some_iff.1 ht
    have hnot := List.pairwise_iff_getElem.1 h.disjoint m n hm hn hlt token hb
    rw [hnot] at hb'
    cases hb'
  have hij := hne hi hj
  have hji := hne hj hi
  omega

/-- A token of a row writes an operator. -/
theorem exists_operator (h : grammar.BinaryTable) (hi : grammar.InRow i token) :
    ∃ op, Operator.ofKind? token = some op := by
  obtain ⟨level, hl, hb⟩ := hi
  exact Option.isSome_iff_exists.1 (h.convertible level (List.mem_of_getElem? hl) token hb)

/-- A token of a row goes on with no tighter expression. -/
theorem stops (h : grammar.BinaryTable) (hi : grammar.InRow i token) :
    grammar.Stops (i + 1) (some token) := by
  rintro _ ⟨⟩
  obtain ⟨op, ho⟩ := h.exists_operator hi
  unfold continues
  rw [Bool.or_eq_false_iff]
  constructor
  · -- What chains something to an expression writes no operator
    rw [Bool.eq_false_iff]
    intro hmem
    simp only [List.contains_iff_mem, List.mem_cons, List.not_mem_nil, or_false] at hmem
    rcases hmem with rfl | rfl | rfl
    all_goals cases ho
  -- A row that is tighter would share the token with this one
  · rw [List.any_eq_false]
    intro level hlevel hb
    obtain ⟨n, hn⟩ := List.mem_iff_getElem?.1 hlevel
    rw [List.getElem?_drop] at hn
    have heq := h.eq_of_inRow hi ⟨level, hn, hb⟩
    omega

/-- No unary operator stands at the right of a binary one, as there are none in the table. -/
theorem looserUnary?_eq_none (h : grammar.BinaryTable) : grammar.looserUnary? i token = none := by
  cases hu : grammar.looserUnary? i token with
  | none => rfl
  | some result =>
    obtain ⟨-, operators, hl, -⟩ := looserUnary?_eq_some hu
    obtain ⟨kind, operators', heq⟩ := h.binary _ (List.mem_of_getElem? hl)
    cases heq

end BinaryTable

/-! ## Sequences -/

/-- Names with operators between them, all of them of row `i` or tighter ones. -/
inductive Alternates (grammar : Grammar) (i : Nat) : List Piece → Prop
  | name {word : String} : Alternates grammar i [Piece.word word]
  | cons {word : String} {operator : Piece} {rest : List Piece} {j : Nat} (hij : i ≤ j)
      (hrow : grammar.InRow j operator.kind) (h : Alternates grammar i rest) :
      Alternates grammar i (Piece.word word :: operator :: rest)

/-- Tighter sequences with operators of row `i` between them, as a loop over the row finds them. -/
inductive Runs (grammar : Grammar) (i : Nat) : List Piece → Prop
  | tighter {pieces : List Piece} (h : Alternates grammar (i + 1) pieces) : Runs grammar i pieces
  | next {left right : List Piece} {operator : Piece} (hl : Runs grammar i left)
      (hrow : grammar.InRow i operator.kind) (hr : Alternates grammar (i + 1) right) :
      Runs grammar i (left ++ operator :: right)

/-- A name and an operator in front of a run make a longer one. -/
private theorem Runs.cons {word : String} {operator : Piece} {rest : List Piece} (hij : i ≤ j)
    (hrow : grammar.InRow j operator.kind) (h : Runs grammar i rest) :
    Runs grammar i (Piece.word word :: operator :: rest) := by
  induction h with
  -- An operator of the row itself begins a new run, a tighter one belongs to the first
  | tighter h =>
    by_cases hj : i = j
    · subst hj
      show Runs grammar i ([Piece.word word] ++ operator :: _)
      exact .next (.tighter .name) hrow h
    · exact .tighter (.cons (by omega) hrow h)
  | next _ hrow' hr ih => exact .next ih hrow' hr

/-- A sequence that alternates is a run of tighter sequences. The operators of the row are where it
    is divided. -/
theorem Alternates.runs {pieces : List Piece} (h : Alternates grammar i pieces) :
    Runs grammar i pieces := by
  induction h with
  | name => exact .tighter .name
  | cons hij hrow _ ih => exact ih.cons hij hrow

end Grammar

/-! ## Arrangements -/

/-- The node is a binary tree whose names and operators are the given pieces from left to right,
    and whose root is an operator of the given row, or a name.  Each operation has the kind of its
    operator's row; its left operand is a name or an operation of the same row or a tighter one,
    and its right operand a name or an operation of a tighter row. -/
inductive Arranges (grammar : Grammar) : List Piece → Option Nat → Node → Prop
  | name {word : String} {p : Position} {b : Nat} {x : String} :
      Arranges grammar [Piece.word word] none ⟨.name word, p, b, x, false, false, none⟩
  | binary {i : Nat} {kind : BinaryKind} {operators : List TokenKind} {l r : List Piece}
      {operator : Piece} {op : Operator} {left right : Node} {rowl rowr : Option Nat}
      {p p' : Position} {b b' : Nat} {x x' : String}
      (hrow : grammar.levels[i]? = some (.binary kind operators))
      (hmem : operators.contains operator.kind = true)
      (hop : Operator.ofKind? operator.kind = some op) (hl : Arranges grammar l rowl left)
      (hleft : ∀ j ∈ rowl, i ≤ j) (hr : Arranges grammar r rowr right)
      (hright : ∀ j ∈ rowr, i < j) :
      Arranges grammar (l ++ operator :: r) (some i)
        ⟨.binary kind left ⟨.operator op, p', b', x', false, false, none⟩ right, p, b, x, false,
          false, none⟩

namespace Arranges

variable {grammar : Grammar} {pieces : List Piece} {row row' : Option Nat} {node node' : Node}

/-- The root is of the loosest row that occurs. -/
theorem le_of_mem (hg : grammar.BinaryTable) (h : Arranges grammar pieces row node)
    {piece : Piece} (hmem : piece ∈ pieces) {k : Nat} (hk : grammar.InRow k piece.kind) :
    ∃ j ∈ row, j ≤ k := by
  -- Induction on the arrangement: the operator is in the left part, at the root or in the right
  -- part
  induction h with
  | name =>
    -- A name is in no row, as it writes no operator
    rw [List.mem_singleton.1 hmem] at hk
    obtain ⟨op, ho⟩ := hg.exists_operator hk
    cases ho
  | @binary i kind operators l r operator op left right rowl rowr _ _ _ _ _ _ hrow hop _ _ hleft _
      hright ihl ihr =>
    refine ⟨i, rfl, ?_⟩
    rcases List.mem_append.1 hmem with hmem | hmem
    · obtain ⟨j, hj, hjk⟩ := ihl hmem
      exact Nat.le_trans (hleft j hj) hjk
    rcases List.mem_cons.1 hmem with rfl | hmem
    · exact Nat.le_of_eq (hg.eq_of_inRow ⟨_, hrow, hop⟩ hk)
    · obtain ⟨j, hj, hjk⟩ := ihr hmem
      exact Nat.le_trans (Nat.le_of_lt (hright j hj)) hjk

/-- A right operand has no operator of its operation's row, and of no looser one. -/
theorem not_inRow (hg : grammar.BinaryTable) (h : Arranges grammar pieces row node) {i : Nat}
    (hright : ∀ j ∈ row, i < j) : ∀ piece ∈ pieces, ¬ grammar.InRow i piece.kind := by
  intro piece hmem hi
  obtain ⟨j, hj, hji⟩ := h.le_of_mem hg hmem hi
  have := hright j hj
  omega

/-- The root is one of the pieces. -/
theorem exists_inRow (h : Arranges grammar pieces row node) {i : Nat} (hi : i ∈ row) :
    ∃ piece ∈ pieces, grammar.InRow i piece.kind := by
  cases h with
  | name => cases hi
  | @binary _ _ _ l r operator _ _ _ _ _ _ _ _ _ _ _ hrow hmem =>
    obtain ⟨⟩ := hi
    exact ⟨operator, by simp, _, hrow, hmem⟩

/-- The row of the root is determined: it is the loosest one of all operators. -/
theorem row_unique (hg : grammar.BinaryTable) (h : Arranges grammar pieces row node)
    (h' : Arranges grammar pieces row' node') : row = row' := by
  -- Each root is at most as loose as any other operator, and so as the other root
  have hle : ∀ {row row' : Option Nat} {node node' : Node}, Arranges grammar pieces row node →
      Arranges grammar pieces row' node' → ∀ j' ∈ row', ∃ j ∈ row, j ≤ j' := by
    intro row row' node node' h h' j' hj'
    obtain ⟨piece, hmem, hrow⟩ := h'.exists_inRow hj'
    exact h.le_of_mem hg hmem hrow
  have hle₁ := hle h h'
  have hle₂ := hle h' h
  cases row with
  | none =>
    cases row' with
    | none => rfl
    | some j' => simpa using hle₁ j' rfl
  | some j =>
    cases row' with
    | none => simpa using hle₂ j rfl
    | some j' =>
      have hle₁ : j ≤ j' := by simpa using hle₁ j' rfl
      have hle₂ : j' ≤ j := by simpa using hle₂ j rfl
      rw [Nat.le_antisymm hle₁ hle₂]

/-- The place of the last operator of a row is determined. -/
private theorem split_unique {i : Nat} {l r l' r' : List Piece} {operator operator' : Piece}
    (heq : l ++ operator :: r = l' ++ operator' :: r') (hi : grammar.InRow i operator.kind)
    (hi' : grammar.InRow i operator'.kind) (hr : ∀ piece ∈ r, ¬ grammar.InRow i piece.kind)
    (hr' : ∀ piece ∈ r', ¬ grammar.InRow i piece.kind) :
    l = l' ∧ operator = operator' ∧ r = r' := by
  obtain ⟨middle, hl, hmiddle⟩ | ⟨middle, hl, hmiddle⟩ := List.append_eq_append_iff.1 heq
  -- Of two places, the one further to the left has the other one to its right
  · cases middle with
    | nil =>
      obtain ⟨rfl, rfl⟩ := List.cons.inj hmiddle
      exact ⟨by simpa using hl.symm, rfl, rfl⟩
    | cons first middle =>
      obtain ⟨-, rfl⟩ := List.cons.inj hmiddle
      exact absurd hi' (hr operator' (by simp))
  · cases middle with
    | nil =>
      obtain ⟨rfl, rfl⟩ := List.cons.inj hmiddle
      exact ⟨by simpa using hl, rfl, rfl⟩
    | cons first middle =>
      obtain ⟨-, rfl⟩ := List.cons.inj hmiddle
      exact absurd hi (hr' operator (by simp))

/-- A sequence is arranged in one way. -/
theorem unique (hg : grammar.BinaryTable) (h : Arranges grammar pieces row node)
    (h' : Arranges grammar pieces row' node') : node.erase = node'.erase := by
  obtain rfl := h.row_unique hg h'
  induction h generalizing node' with
  | @name word =>
    generalize hp : [Piece.word word] = pieces at h'
    cases h' with
    | name =>
      obtain ⟨⟩ := hp
      simp [Shape.map]
  | @binary i kind operators l r operator op left right rowl rowr _ _ _ _ _ _ hrow hmem hop hl hleft
      hr hright ihl ihr =>
    generalize hp : l ++ operator :: r = pieces at h'
    cases h' with
    | binary hrow' hmem' hop' hl' hleft' hr' hright' =>
      -- The root is the last operator of the loosest row, which fixes both operands
      obtain ⟨rfl, rfl, rfl⟩ := split_unique hp ⟨_, hrow, hmem⟩ ⟨_, hrow', hmem'⟩
        (hr.not_inRow hg hright) (hr'.not_inRow hg hright')
      obtain ⟨⟩ := hrow.symm.trans hrow'
      obtain ⟨⟩ := hop.symm.trans hop'
      obtain rfl := hl.row_unique hg hl'
      obtain rfl := hr.row_unique hg hr'
      simp [Shape.map, ihl hl', ihr hr']

end Arranges

/-! ## Reading -/

namespace Parse

variable {setting : Setting} {r i : Nat} {pieces s rest : List Piece}

/-- What is shown of a sequence: the node arranges it, with no looser operator at its root. -/
def ArrangesFrom (grammar : Grammar) (i : Nat) (pieces : List Piece) (node : Node) : Prop :=
  ∃ row, Arranges grammar pieces row node ∧ ∀ j ∈ row, i ≤ j

/-- An arrangement without looser operators at its root is one for any looser row. -/
theorem arrangesFrom_mono {grammar : Grammar} {node : Node} {j : Nat} (hij : i ≤ j)
    (h : ArrangesFrom grammar j pieces node) : ArrangesFrom grammar i pieces node := by
  obtain ⟨row, h, hrow⟩ := h
  exact ⟨row, h, fun k hk => Nat.le_trans hij (hrow k hk)⟩

/-- Without unary operators, a right operand is an expression of the next tighter row. -/
theorem rightOperand_tighter (hg : setting.grammar.BinaryTable) {tighter : Parse Node}
    {R : Node → Prop} (h : Accepts tighter s R rest) :
    Accepts (rightOperand setting (nestedLevel setting r) i tighter) s R rest := by
  unfold rightOperand
  apply accepts_require.bind
  intro _ _
  apply accepts_peek.bind
  intro next _
  cases next with
  | none => exact h
  | some lexeme =>
    simp only [hg.looserUnary?_eq_none]
    exact h

/-- A node that is like a name without marks is one. -/
private theorem eq_name_of_isLike {word : String} {p : Position} {b : Nat} {x : String}
    {node : Node} (h : IsLike ⟨.name word, p, b, x, false, false, none⟩ node) :
    ∃ p b x, node = ⟨.name word, p, b, x, false, false, none⟩ := by
  obtain ⟨shape, p', b', x', parenthesized, bracket, receiver⟩ := node
  simp only [IsLike, Node.erase_mk, Node.mk.injEq, true_and, Option.map_none,
    Option.map_eq_none_iff] at h
  obtain ⟨hshape, rfl, rfl, rfl⟩ := h
  cases shape with
  | name =>
    obtain ⟨⟩ := hshape
    exact ⟨p', b', x', rfl⟩
  | _ => cases hshape

/-- A name is read by the tightest parser, unless it is the beginning of a chain. -/
theorem name_arranges {word : String}
    (hstops : setting.grammar.Stops i (Piece.first? rest)) :
    Accepts (chain setting (nestedLevel setting r 0)) (Piece.word word :: rest)
      (ArrangesFrom setting.grammar i [Piece.word word]) rest := by
  have hatom := @name_accepts setting (Piece.word word).token rest .start 0 ""
    (nestedLevel setting r 0) rfl
  apply (chain_reaches hatom).stop
  intro node hnode
  obtain ⟨p, b, x, rfl⟩ := eq_name_of_isLike hnode
  exact link_stops hstops ⟨none, .name, by simp⟩

/-- The step over one row: if sequences of the tighter rows are read, so are those of the row. -/
theorem runs_reaches (hg : setting.grammar.BinaryTable) {kind : BinaryKind}
    {operators : List TokenKind}
    (hl : setting.grammar.levels[i]? = some (.binary kind operators))
    (htighter : ∀ pieces rest, setting.grammar.Alternates (i + 1) pieces →
      setting.grammar.Stops (i + 1) (Piece.first? rest) →
      Accepts (levelParser setting r (i + 1)) (pieces ++ rest)
        (ArrangesFrom setting.grammar (i + 1) pieces) rest)
    (h : setting.grammar.Runs i pieces)
    (hstops : setting.grammar.Stops (i + 1) (Piece.first? rest)) :
    Reaches (levelParser setting r i) (rowStep setting r i kind operators) (pieces ++ rest)
      (ArrangesFrom setting.grammar i pieces) rest := by
  -- Induction on the run, as the loop over the row goes through it
  induction h generalizing rest with
  | tighter h =>
    apply row_reaches hl
    exact (htighter _ rest h hstops).mono fun _ => arrangesFrom_mono (Nat.le_succ i)
  | @next left right operator _ hrow hr ih =>
    obtain ⟨op, ho⟩ := hg.exists_operator hrow
    have hmem : operators.contains operator.kind = true := by
      obtain ⟨level, hl', hb⟩ := hrow
      obtain ⟨⟩ := hl.symm.trans hl'
      exact hb
    have hleft := @ih (operator :: (right ++ rest)) (hg.stops hrow)
    have hright := rightOperand_tighter (r := r) (i := i) hg (htighter right rest hr hstops)
    rw [List.append_assoc, List.cons_append]
    apply hleft.next
    intro left' hleft'
    apply (rowStep_yields (t := operator.token) hmem ho hright).mono
    rintro _ ⟨node, rfl, right', p, b, x, p', b', x', hright', rfl⟩
    obtain ⟨rowl, hl', hrowl⟩ := hleft'
    obtain ⟨rowr, hr', hrowr⟩ := hright'
    exact ⟨_, rfl, some i, .binary hl hmem ho hl' hrowl hr' hrowr, by simp⟩

/-- A sequence of operators of a row and of tighter ones is read by the parser of the row. -/
theorem levelParser_arranges (hg : setting.grammar.BinaryTable)
    (h : setting.grammar.Alternates i pieces) (hi : i ≤ setting.grammar.levels.length)
    (hstops : setting.grammar.Stops i (Piece.first? rest)) :
    Accepts (levelParser setting r i) (pieces ++ rest) (ArrangesFrom setting.grammar i pieces)
      rest := by
  -- Induction from the tightest row, at which only names are left, to the loosest
  induction hi using Nat.decreasingInduction generalizing pieces rest with
  | self =>
    rw [levelParser_end (Nat.le_refl _)]
    cases h with
    | name => exact name_arranges hstops
    | @cons _ _ _ j hij hrow _ =>
      obtain ⟨level, hl, -⟩ := hrow
      obtain ⟨hlt, -⟩ := List.getElem?_eq_some_iff.1 hl
      omega
  | of_succ i hi ih =>
    have hl := List.getElem?_eq_getElem hi
    obtain ⟨kind, operators, hlevel⟩ := hg.binary _ (List.getElem_mem hi)
    rw [hlevel] at hl
    have hreach := runs_reaches hg hl (fun _ _ h hstops => ih h hstops) h.runs
      (hstops.mono (Nat.le_succ i))
    apply hreach.stop
    intro node hnode
    exact rowStep_stops hl hstops hnode

/-- A sequence that makes up the source is read, since nothing in it is nested. -/
theorem nestedExpression_arranges (hg : setting.grammar.BinaryTable)
    (h : setting.grammar.Alternates 0 pieces) :
    Accepts (nestedExpression setting (r + 1)) pieces (ArrangesFrom setting.grammar 0 pieces)
      [] := by
  have hstops : setting.grammar.Stops 0 (Piece.first? []) := by simp [Grammar.Stops]
  have hlevel := levelParser_arranges (r := r) hg h (Nat.zero_le _) hstops
  rw [List.append_nil] at hlevel
  exact accepts_enter.bind fun _ _ => hlevel

end Parse

/-- Names with operators of a table between them are parsed as the table asks for, and it asks for
    one expression only. -/
theorem parseExpression_arranges {grammar : Grammar} {source : String} {tokens : List Token}
    (hg : grammar.BinaryTable) (ht : (Lexer.ofSource source).tokenize = .ok tokens)
    (h : grammar.Alternates 0 (Token.visible tokens)) :
    ∃ row node, parseExpression grammar source = .ok node ∧
      Arranges grammar (Token.visible tokens) row node ∧
      ∀ row' node', Arranges grammar (Token.visible tokens) row' node' →
        node.same node' = true := by
  have hnested : ∀ stop, Parse.Accepts
      (Parse.nestedExpression ⟨grammar, maxDepth, source.toList, stop⟩ maxDepth)
      (Token.visible tokens) (Parse.ArrangesFrom grammar 0 (Token.visible tokens)) [] :=
    fun stop => Parse.nestedExpression_arranges hg h
  obtain ⟨node, hparse, row, ha, -⟩ :=
    parseExpression_of_accepts (Lexer.tokenize_eq_ok.1 ht).lexes hnested
  refine ⟨row, node, hparse, ha, ?_⟩
  intro row' node' ha'
  exact Node.same_iff_erase.2 (ha.unique hg ha')

/-- A table in which sums are tighter than products. -/
def Grammar.sumsFirst : Grammar where
  levels := [.binary .product [.star, .slash], .binary .sum [.plus, .minus]]

/-- The table is one of binary operators. -/
private theorem binaryTable_sumsFirst : Grammar.sumsFirst.BinaryTable := by
  constructor
  · simp [Grammar.sumsFirst]
  · intro level hlevel token hb
    simp only [Grammar.sumsFirst, List.mem_cons, List.not_mem_nil, or_false] at hlevel
    rcases hlevel with rfl | rfl
    all_goals
      simp only [Level.binds, List.contains_iff_mem, List.mem_cons, List.not_mem_nil, or_false]
        at hb
      rcases hb with rfl | rfl
      all_goals rfl
  · simp [Grammar.sumsFirst, Level.binds]

/-- Both sums are operands of the product, which is an operand of the quotient after it. -/
theorem parseExpression_arranges_sumsFirst :
    Grammar.sumsFirst.BinaryTable ∧ ∃ tokens,
      (Lexer.ofSource "a + b * c - d\n/ e").tokenize = .ok tokens ∧
      Grammar.sumsFirst.Alternates 0 (Token.visible tokens) ∧
      ∃ row node, parseExpression .sumsFirst "a + b * c - d\n/ e" = .ok node ∧
        Arranges .sumsFirst (Token.visible tokens) row node ∧
        ∀ row' node', Arranges .sumsFirst (Token.visible tokens) row' node' →
          node.same node' = true := by
  obtain ⟨tokens, ht, hvisible⟩ := exists_eq_ok_of_map
    (show (Lexer.ofSource "a + b * c - d\n/ e").tokenize.toOption.map Token.visible =
      some [⟨.name, "a"⟩, ⟨.plus, "+"⟩, ⟨.name, "b"⟩, ⟨.star, "*"⟩, ⟨.name, "c"⟩, ⟨.minus, "-"⟩,
        ⟨.name, "d"⟩, ⟨.slash, "/"⟩, ⟨.name, "e"⟩] by
      decide +kernel)
  -- In the table product and quotient are the loosest row, sum and difference the next
  have hproduct : ∀ token, [TokenKind.star, .slash].contains token = true →
      Grammar.sumsFirst.InRow 0 token := fun token h => ⟨_, rfl, h⟩
  have hsum : ∀ token, [TokenKind.plus, .minus].contains token = true →
      Grammar.sumsFirst.InRow 1 token := fun token h => ⟨_, rfl, h⟩
  have ha : Grammar.sumsFirst.Alternates 0 (Token.visible tokens) := by
    rw [hvisible]
    exact .cons (Nat.zero_le _) (hsum .plus rfl) (.cons (Nat.zero_le _) (hproduct .star rfl)
      (.cons (Nat.zero_le _) (hsum .minus rfl) (.cons (Nat.zero_le _) (hproduct .slash rfl)
        .name)))
  exact ⟨binaryTable_sumsFirst, tokens, ht, ha,
    parseExpression_arranges binaryTable_sumsFirst ht ha⟩

end Schemata
