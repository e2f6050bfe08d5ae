import Schemata.Check
import Schemata.Node.Slot
import Schemata.Parse.Program
import Schemata.Proofs.Lexing

/-!
# Arguments and parameters

Arguments are bound to parameters by position: the first to the first parameter and so on.  A call
is accepted by counting, whatever the order of the parameters.  The two agree for all numbers of
arguments just when no required parameter comes after an optional one (`checkArity_counts`).
-/

namespace Schemata

/-- So many arguments, bound by position, leave out no required parameter. -/
def Covers (args : Nat) (params : List Node) : Prop :=
  args ≤ params.length ∧ ∀ param ∈ params.drop args, param.isOptionalParam

instance (args : Nat) (params : List Node) : Decidable (Covers args params) :=
  inferInstanceAs (Decidable (_ ∧ _))

/-- No required parameter comes after an optional one. -/
def OptionalLast (params : List Node) : Prop :=
  params.Pairwise fun earlier later => earlier.isOptionalParam → later.isOptionalParam

/-- The number of parameters that have to be given. -/
def requiredCount (params : List Node) : Nat :=
  params.countP (!·.isOptionalParam)

section

variable {params : List Node} {args : Nat}

/-- A call is accepted just when there are as many arguments as there are required parameters, and
    no more than there are parameters. -/
theorem checkArity_eq_ok {function : Node} {name : String} {body : List Node}
    (h : function.shape = .function name params body) :
    checkArity function args = .ok () ↔ requiredCount params ≤ args ∧ args ≤ params.length := by
  unfold checkArity
  rw [h]
  show (if args < requiredCount params then _ else _) = _ ↔ _
  -- Too few arguments, too many, or neither
  split
  · simp
    omega
  · split
    · simp
      omega
    · simp
      omega

/-- No parameter is required just when all are optional. -/
theorem requiredCount_eq_zero :
    requiredCount params = 0 ↔ ∀ param ∈ params, param.isOptionalParam := by
  simp [requiredCount]

/-- A required parameter counts as one. -/
theorem requiredCount_cons_of_required {param : Node} (h : ¬param.isOptionalParam) :
    requiredCount (param :: params) = requiredCount params + 1 :=
  List.countP_cons_of_pos (by simp [h])

/-- The required parameters are among the first ones and those left out. -/
theorem requiredCount_eq_add (args : Nat) :
    requiredCount params =
      requiredCount (params.take args) + requiredCount (params.drop args) := by
  rw [requiredCount, requiredCount, requiredCount, ← List.countP_append, List.take_append_drop]

/-- If no required parameter is left out, all of them are among the first ones. -/
theorem Covers.requiredCount_le (h : Covers args params) : requiredCount params ≤ args := by
  have hdrop : requiredCount (params.drop args) = 0 := requiredCount_eq_zero.2 h.2
  calc requiredCount params
      = requiredCount (params.take args) := by rw [requiredCount_eq_add args, hdrop, Nat.add_zero]
    _ ≤ (params.take args).length := List.countP_le_length
    _ ≤ args := List.length_take_le ..

/-- If the first parameters are as many as are required and leave out none of these, they are
    required themselves. -/
theorem Covers.optionalLast (h : Covers (requiredCount params) params) : OptionalLast params := by
  have hdrop : requiredCount (params.drop (requiredCount params)) = 0 :=
    requiredCount_eq_zero.2 h.2
  have htake : ∀ param ∈ params.take (requiredCount params), !param.isOptionalParam := by
    rw [← List.countP_eq_length, List.length_take_of_le h.1]
    have hsplit := @requiredCount_eq_add params (requiredCount params)
    rw [hdrop, Nat.add_zero] at hsplit
    exact hsplit.symm
  have hparts : params =
      params.take (requiredCount params) ++ params.drop (requiredCount params) :=
    (List.take_append_drop ..).symm
  -- Only optional parameters come after the required ones, and after an optional one
  rw [hparts, OptionalLast, List.pairwise_append]
  refine ⟨?_, ?_, ?_⟩
  · exact List.pairwise_of_forall_mem_list fun param hparam _ _ hopt => by
      simpa [hopt] using htake param hparam
  · exact List.pairwise_of_forall_mem_list fun _ _ param hparam _ => h.2 param hparam
  · exact fun _ _ param hparam _ => h.2 param hparam

/-- If the required parameters come first, enough arguments leave none of them out. Induction is on
    the parameters, each with its argument. -/
theorem OptionalLast.covers (h : OptionalLast params) (hcount : requiredCount params ≤ args)
    (hlength : args ≤ params.length) : Covers args params := by
  refine ⟨hlength, ?_⟩
  induction params generalizing args with
  | nil => simp
  | cons param params ih =>
    obtain ⟨hhead, htail⟩ := List.pairwise_cons.1 h
    -- Once a parameter is optional, all are
    by_cases hopt : param.isOptionalParam
    · have hall : ∀ later ∈ param :: params, later.isOptionalParam :=
        List.forall_mem_cons.2 ⟨hopt, fun later hlater => hhead later hlater hopt⟩
      exact fun later hlater => hall later (List.mem_of_mem_drop hlater)
    · rw [requiredCount_cons_of_required hopt] at hcount
      cases args with
      | zero => omega
      | succ args => exact ih htail (by omega) (by simpa using hlength)

end

/-- A call is accepted just when there are as many arguments as there are required parameters, and
    no more than there are parameters.  Every number of arguments that leaves out no required
    parameter is accepted, and no other number if and only if no required parameter comes after an
    optional one. -/
theorem checkArity_counts {function : Node} {name : String} {params body : List Node}
    (h : function.shape = .function name params body) :
    (∀ args, checkArity function args = .ok () ↔
      requiredCount params ≤ args ∧ args ≤ params.length) ∧
    (∀ args, Covers args params → checkArity function args = .ok ()) ∧
    ((∀ args, checkArity function args = .ok () → Covers args params) ↔ OptionalLast params) := by
  refine ⟨fun args => checkArity_eq_ok h, ?_, ?_, ?_⟩
  · exact fun args hargs => (checkArity_eq_ok h).2 ⟨hargs.requiredCount_le, hargs.1⟩
  · intro hcovers
    exact (hcovers _ ((checkArity_eq_ok h).2 ⟨Nat.le_refl _, List.countP_le_length⟩)).optionalLast
  · intro hlast args hargs
    obtain ⟨hcount, hlength⟩ := (checkArity_eq_ok h).1 hargs
    exact hlast.covers hcount hlength

/-- A function whose required parameters come first. -/
theorem checkArity_counts_optionalLast :
    let a : Node := .ofShape (.param "a" none false) .start
    let b : Node := .ofShape (.param "b" none true) .start
    let function : Node := .ofShape (.function "f" [a, b] []) .start
    function.shape = .function "f" [a, b] [] ∧ OptionalLast [a, b] ∧
      ∀ args, checkArity function args = .ok () → Covers args [a, b] := by
  intro a b function
  have h : function.shape = .function "f" [a, b] [] := rfl
  have hlast : OptionalLast [a, b] :=
    .cons (fun _ _ hopt => by cases hopt) (.cons (fun _ hlater => by cases hlater) .nil)
  exact ⟨h, hlast, (checkArity_counts h).2.2.2 hlast⟩

/-- One argument is bound to the optional parameter and leaves out the required one. -/
theorem not_covers_of_optional_first :
    ∃ function params body, parse "function f(a?, b) \x7b\x7d" = .ok [function] ∧
      function.shape = .function "f" params body ∧
        checkArity function 1 = .ok () ∧ ¬Covers 1 params := by
  -- The source has one function, with an optional parameter before a required one
  have hread : (parse "function f(a?, b) \x7b\x7d").toOption.map (·.map fun function =>
      (function.functionName?, (function.children .params).map Node.isOptionalParam)) =
        some [(some "f", [true, false])] := by
    decide +kernel
  obtain ⟨nodes, hparse, hnodes⟩ := exists_eq_ok_of_map hread
  obtain ⟨function, rfl, hfunction⟩ := List.map_eq_singleton_iff.1 hnodes
  obtain ⟨hname, hparams⟩ := Prod.mk.inj hfunction
  cases hs : function.shape with
  | function name params body =>
    have hname : name = "f" := by simpa [Node.functionName?, hs] using hname
    have hparams : params.map Node.isOptionalParam = [true, false] := by
      simpa [Node.children, Shape.inSlot, hs] using hparams
    obtain ⟨a, _, rfl, ha, hrest⟩ := List.map_eq_cons_iff.1 hparams
    obtain ⟨b, rfl, hb⟩ := List.map_eq_singleton_iff.1 hrest
    refine ⟨function, [a, b], body, hparse, hname ▸ hs, (checkArity_eq_ok hs).2 ?_, ?_⟩
    · simp [requiredCount, ha, hb]
    · simp [Covers, hb]
  | _ => simp [Node.functionName?, hs] at hname

end Schemata
