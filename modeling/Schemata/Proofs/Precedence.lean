import Schemata.Proofs.Derivation

/-!
# Precedence and associativity

In every program that is parsed, operands are grouped as the standard table says: wherever an
operand is not set apart by parentheses or brackets, its row is one that the operator above it lets
stand there, and nothing is chained from an operation that is not set apart.
-/

namespace Schemata

/-- In a program that is parsed, the operands of every node are grouped as the table says. -/
theorem parse_ordered {source : String} {nodes : List Node} (h : parse source = .ok nodes) :
    ∀ n ∈ nodes, ∀ m ∈ n.subtrees, m.Ordered := by
  intro n hn m hm
  exact ((parse_form h).2.1 n hn).2 m hm |>.ordered

/-- The right operand of the first power goes back to the looser unary level, where it takes the
    second power for its operand. -/
theorem parse_ordered_power :
    ∃ nodes, parse "a ^ -b ^ c or (not d).e[1 + 2]" = .ok nodes ∧
      ∀ n ∈ nodes, ∀ m ∈ n.subtrees, m.Ordered := by
  obtain ⟨nodes, h⟩ := exists_of_isOk
    (show (parse "a ^ -b ^ c or (not d).e[1 + 2]").isOk = true by decide +kernel)
  exact ⟨nodes, h, parse_ordered h⟩

end Schemata
