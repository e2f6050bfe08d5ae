import Schemata.Proofs.WellFormed

/-!
# Levels of a precedence table

Which tokens an expression of a level goes on with, and what is special about the standard table:
each family has one row, there is one row of unary operations, and no token is in two rows of
binary operators.
-/

namespace Schemata

/-- Whether a row has the token as a binary operator. -/
def Level.binds (token : TokenKind) : Level → Bool
  | .binary _ operators => operators.contains token
  | .unary _ => false

namespace Grammar

variable {grammar : Grammar} {next : Option TokenKind} {i j : Nat}

/-- Whether the token goes on with an expression of the given level: it chains something to it,
    or is a binary operator of that level or a tighter one. -/
def continues (grammar : Grammar) (level : Nat) (token : TokenKind) : Bool :=
  [TokenKind.dot, .leftBracket, .leftParen].contains token ||
    (grammar.levels.drop level).any (·.binds token)

/-- No expression of the given level goes on with the next token, if there is one. -/
def Stops (grammar : Grammar) (level : Nat) (next : Option TokenKind) : Prop :=
  ∀ kind ∈ next, grammar.continues level kind = false

/-- What does not go on with an expression does not go on with a tighter one. -/
theorem Stops.mono (h : grammar.Stops i next) (hij : i ≤ j) : grammar.Stops j next := by
  intro kind hk
  have hi := h kind hk
  simp only [continues, Bool.or_eq_false_iff, List.any_eq_false] at hi ⊢
  refine ⟨hi.1, fun level hl => hi.2 level ?_⟩
  -- The tighter rows are a tail of the looser ones
  obtain ⟨n, rfl⟩ := Nat.exists_eq_add_of_le hij
  rw [← List.drop_drop] at hl
  exact List.mem_of_mem_drop hl

/-- An expression stops at a level if it stops at the next one and the row of the level has nothing
    to add. -/
theorem Stops.of_succ {level : Level} (h : grammar.Stops (i + 1) next)
    (hl : grammar.levels[i]? = some level) (hn : ∀ kind ∈ next, level.binds kind = false) :
    grammar.Stops i next := by
  intro kind hk
  obtain ⟨hi, rfl⟩ := List.getElem?_eq_some_iff.1 hl
  have h' := h kind hk
  simp only [continues, Bool.or_eq_false_iff, List.any_eq_false] at h' ⊢
  refine ⟨h'.1, fun level hl => ?_⟩
  -- Row `i` comes before the rows that are known to stop
  rw [List.drop_eq_getElem_cons hi, List.mem_cons] at hl
  obtain rfl | hl := hl
  · simpa using hn kind hk
  · exact h'.2 level hl

/-- A binary operator of a row goes on with an expression of that row. -/
theorem continues_of_binds {level : Level} {token : TokenKind}
    (hl : grammar.levels[i]? = some level) (hb : level.binds token = true) (hji : j ≤ i) :
    grammar.continues j token = true := by
  simp only [continues, Bool.or_eq_true, List.any_eq_true]
  refine .inr ⟨level, ?_, hb⟩
  obtain ⟨n, rfl⟩ := Nat.exists_eq_add_of_le hji
  rw [← List.getElem?_drop] at hl
  exact List.mem_of_getElem? hl

/-- The looser unary level that a token begins an operation of. -/
theorem looserUnary?_eq_some {token : TokenKind} {kind : UnaryKind}
    (h : grammar.looserUnary? i token = some (j, kind)) :
    j < i ∧ ∃ operators, grammar.levels[j]? = some (.unary operators) ∧
      (token, kind) ∈ operators := by
  obtain ⟨⟨level, n⟩, hmem, hl⟩ := List.exists_of_findSome?_eq_some h
  obtain ⟨k, hk, hj⟩ := Option.map_eq_some_iff.1 hl
  obtain ⟨rfl, rfl⟩ := Prod.mk.inj hj
  -- A level that is found stands before row `i` in the table
  have hget := List.mem_zipIdx_iff_getElem?.1 (List.mem_reverse.1 hmem)
  simp only [List.getElem?_take, Option.ite_none_right_eq_some] at hget
  refine ⟨hget.1, ?_⟩
  cases level with
  | binary _ _ => cases hk
  | unary operators =>
    obtain ⟨front, back, hops, -⟩ := List.lookup_eq_some_iff.1 hk
    exact ⟨operators, hget.2, by simp [hops]⟩

/-! ## The standard table -/

/-- A family of binary operators is in its row only. -/
theorem row_of_getElem? {kind : BinaryKind} {operators : List TokenKind}
    (h : standard.levels[i]? = some (.binary kind operators)) : kind.row = i := by
  -- The table has eight rows, and each family is in one of them
  have hrows : ∀ n : Fin 8, ∀ kind ∈ (standard.levels[n]).kind?, kind.row = n := by decide
  obtain ⟨hi, h⟩ := List.getElem?_eq_some_iff.1 h
  exact hrows ⟨i, hi⟩ kind (by simp [h, Level.kind?])

/-- There is one row of unary operators. -/
theorem eq_unaryRow_of_getElem? {operators : List (TokenKind × UnaryKind)}
    (h : standard.levels[i]? = some (.unary operators)) : i = unaryRow := by
  have hrows : ∀ n : Fin 8, (standard.levels[n]).kind? = none → n.val = unaryRow := by decide
  obtain ⟨hi, h⟩ := List.getElem?_eq_some_iff.1 h
  exact hrows ⟨i, hi⟩ (by simp [h, Level.kind?])

/-- An operator of a row is not one of a tighter row, and chains nothing. -/
theorem stops_of_binds {level : Level} {token : TokenKind}
    (hl : standard.levels[i]? = some level) (hb : level.binds token = true) :
    standard.Stops (i + 1) (some token) := by
  -- The table is small enough to look at every row and every kind of token
  have hrows : ∀ n : Fin 8, ∀ kind ∈ TokenKind.all, (standard.levels[n]).binds kind = true →
      standard.continues (n + 1) kind = false := by decide
  obtain ⟨hi, rfl⟩ := List.getElem?_eq_some_iff.1 hl
  rintro _ ⟨⟩
  exact hrows ⟨i, hi⟩ token (TokenKind.mem_all token) hb

/-- The operators of the row of unary operations. -/
def unaryOperators : List (TokenKind × UnaryKind) := [(.not, .not), (.minus, .negate)]

/-- The row of unary operators is where the table has them. -/
theorem getElem?_unaryRow : standard.levels[unaryRow]? = some (.unary unaryOperators) := rfl

/-- There is nothing to go on with in the row of the unary operations. -/
theorem Stops.unaryRow (h : standard.Stops (unaryRow + 1) next) : standard.Stops unaryRow next :=
  h.of_succ getElem?_unaryRow fun _ _ => rfl

/-- The tokens that begin a unary operation are those two. -/
theorem begins_cases {kind : UnaryKind} {token : TokenKind} (h : standard.Begins kind token) :
    token = .not ∧ kind = .not ∨ token = .minus ∧ kind = .negate := by
  obtain ⟨operators, hmem, htoken⟩ := h
  obtain rfl : operators = unaryOperators := by
    simpa [standard, unaryOperators] using hmem
  simpa [unaryOperators] using htoken

/-- A token begins a unary operation if it is among the unary operators. -/
theorem begins_iff {kind : UnaryKind} {token : TokenKind} :
    standard.Begins kind token ↔ unaryOperators.lookup token = some kind := by
  constructor
  · intro h
    obtain ⟨rfl, rfl⟩ | ⟨rfl, rfl⟩ := begins_cases h
    all_goals rfl
  · intro h
    obtain ⟨front, back, hops, -⟩ := List.lookup_eq_some_iff.1 h
    exact ⟨_, List.mem_of_getElem? getElem?_unaryRow, by simp [hops]⟩

/-- No token that begins a unary operation can be passed over by a looser level. -/
theorem looserUnary?_eq_none {token : TokenKind}
    (h : i ≤ unaryRow ∨ unaryOperators.lookup token = none) :
    standard.looserUnary? i token = none := by
  rw [Option.eq_none_iff_forall_ne_some]
  rintro ⟨j, kind⟩ hj
  obtain ⟨hlt, operators, hl, hmem⟩ := looserUnary?_eq_some hj
  obtain rfl := eq_unaryRow_of_getElem? hl
  -- The only unary row is at or after row `i`, or does not have the token
  rcases h with h | h
  · omega
  · rw [begins_iff.1 ⟨operators, List.mem_of_getElem? hl, hmem⟩] at h
    cases h

/-- At the next tighter row, a unary operator begins an operation of its own row. -/
theorem looserUnary?_eq_of_lookup {token : TokenKind} {kind : UnaryKind}
    (h : unaryOperators.lookup token = some kind) :
    standard.looserUnary? (unaryRow + 1) token = some (unaryRow, kind) := by
  have hlookup : List.lookup token [(TokenKind.not, UnaryKind.not), (.minus, .negate)] =
      some kind := h
  simp [looserUnary?, standard, Level.unary?, hlookup]

/-- Every binary family has a row, which is not that of the unary operators. -/
theorem row_lt (kind : BinaryKind) : kind.row < 8 ∧ kind.row ≠ unaryRow := by
  cases kind <;> decide

/-- Every family has its row. -/
theorem getElem?_row (kind : BinaryKind) :
    ∃ operators, standard.levels[kind.row]? = some (.binary kind operators) := by
  cases kind <;> exact ⟨_, rfl⟩

/-- Different families are in different rows. -/
theorem row_injective {kind kind' : BinaryKind} (h : kind.row = kind'.row) : kind = kind' := by
  cases kind <;> cases kind' <;> first | rfl | exact absurd h (by decide)

/-- A token of a family is in the row of the family. -/
theorem mem_row_of_binds {kind : BinaryKind} {token : TokenKind} {operators : List TokenKind}
    (hb : standard.Binds kind token)
    (hl : standard.levels[kind.row]? = some (.binary kind operators)) :
    operators.contains token = true := by
  obtain ⟨operators', hmem, htoken⟩ := hb
  obtain ⟨i, hi⟩ := List.getElem?_of_mem hmem
  -- A family has one row, so this is the row that was meant
  rw [row_of_getElem? hi] at hl
  obtain ⟨-, rfl⟩ := Level.binary.inj (Option.some.inj (hi.symm.trans hl))
  simpa using htoken

end Grammar

end Schemata
