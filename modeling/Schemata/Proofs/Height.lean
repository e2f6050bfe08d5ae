import Schemata.Node.Slot
import Schemata.Proofs.NodeText
import Schemata.Proofs.Printing

/-!
# The height of a tree

The limit on nesting is a limit on the expressions and blocks that are open together while a source
is read.  It does not limit the height of the trees that are read: the members of a chain and the
operands of one row are read by loops, with nothing open, and make a tree as tall as they are many
(`height_unbounded`).

The two ways in which a tree grows there, to a receiver and to a left operand, are the only ones
without a limit.  `Node.reach` is the height without them, and what is written with room for `r`
nested constructs reaches down no further than a multiple of `r` (`Written.reach_le`).  Next to what
is nested, only the rows of the precedence table count: from a row to a tighter one, a right operand
goes down by one step.
-/

namespace Schemata

variable {note : SourceNote} {r b : Nat} {place : Place} {ts : List Token} {n : Node}

/-! ## Height -/

@[simp] private theorem largest_nil : largest [] = 0 := rfl

@[simp] private theorem largest_cons (m : Nat) (numbers : List Nat) :
    largest (m :: numbers) = max m (largest numbers) := rfl

@[simp] private theorem largest_append (numbers numbers' : List Nat) :
    largest (numbers ++ numbers') = max (largest numbers) (largest numbers') := by
  induction numbers with
  | nil => simp
  | cons m numbers ih => simp [ih, Nat.max_assoc]

namespace Node

/-- A list is as tall as its tallest node. -/
theorem listHeight_eq (nodes : List Node) :
    listHeight nodes = largest (nodes.map height) := by
  induction nodes with
  | nil => simp [listHeight]
  | cons node rest ih => simp [listHeight, ih]

/-- An optional node is as tall as the list of it. -/
private theorem optionHeight_eq (node : Option Node) :
    optionHeight node = largest (node.toList.map height) := by
  cases node <;> simp [optionHeight]

/-- A shape is as tall as its tallest part. -/
private theorem shapeHeight_eq (shape : Shape Node) :
    shapeHeight shape = largest (shape.parts.map height) := by
  cases shape <;> simp [shapeHeight, Shape.parts, listHeight_eq, optionHeight_eq]

/-- A node is taller by one than its tallest part. -/
theorem height_eq (node : Node) : node.height = largest (node.parts.map height) + 1 := by
  obtain ⟨shape, p, b, x, parenthesized, bracket, receiver⟩ := node
  rw [height, shapeHeight_eq, optionHeight_eq, parts_mk, List.map_append, largest_append,
    Nat.max_comm]

/-- A part is less tall than its node. -/
theorem height_lt_of_mem_parts {part node : Node} (h : part ∈ node.parts) :
    part.height < node.height := by
  rw [height_eq node]
  exact Nat.lt_succ_of_le (largest_map_le_iff.1 (Nat.le_refl _) part h)

/-- What nodes say about their source does not matter for their height. -/
@[simp] theorem height_erase (node : Node) : node.erase.height = node.height := by
  induction node using Node.induction with
  | step node ih =>
    rw [height_eq, height_eq node, parts_erase, List.map_map]
    exact congrArg (largest · + 1) (List.map_congr_left ih)

end Node

/-! ## Trees without a limit -/

section Links

open Piece

/-- A text that can be put after an expression that fits before it, to make a taller one that fits
    before it again. -/
private structure Link (text : String) (pieces : List Piece) (extend : Node → Node)
    (fits : Node → Prop) : Prop where
  spells : Spells text.toList pieces
  boundary : ∀ rest, isBoundary (text.toList ++ rest) = true
  written : ∀ {r ts n}, Written .standard .any r .expression ts n →
    Written .standard .any r .expression (ts ++ pieces.map token) (extend n)
  grouped : ∀ {n : Node}, fits n → n.Grouped → fits (extend n) ∧ (extend n).Grouped
  height : ∀ n : Node, (extend n).height = n.height + 1

/-- The name that all of them begin with. -/
private def letter : Node :=
  ⟨.name "a", Position.start, 0, "", false, false, none⟩

/-- A name alone is grouped. -/
private theorem grouped_letter : letter.Grouped :=
  .of_parts trivial (by simp [Shape.parts])

/-- A name is one piece before any text that does not go on with it. -/
private theorem spells_letter : Spells "a".toList [word "a"] := fun _ _ hb hl =>
  lexes_name (by decide) hb hl

namespace Link

variable {text : String} {pieces : List Piece} {extend : Node → Node} {fits : Node → Prop}

/-- Links after one another are read as the pieces of each, and do not go on with what stands before
    them. -/
private theorem lexes_replicate (h : Link text pieces extend fits) (k : Nat) :
    isBoundary (String.join (List.replicate k text)).toList = true ∧
      Lexes (String.join (List.replicate k text)).toList (List.replicate k pieces).flatten := by
  induction k with
  | zero => exact ⟨rfl, .nil⟩
  | succ k ih =>
    simp only [List.replicate_succ, String.join_cons, String.toList_append, List.flatten_cons]
    exact ⟨h.boundary _, h.spells _ _ ih.1 ih.2⟩

/-- The letter, extended over and over. -/
private theorem iterate (h : Link text pieces extend fits) (hfits : fits letter) (k : Nat) :
    Written .standard .any r .expression
        ((word "a" :: (List.replicate k pieces).flatten).map token) (extend^[k] letter) ∧
      fits (extend^[k] letter) ∧ (extend^[k] letter).Grouped ∧
      (extend^[k] letter).height = k + 1 := by
  -- Induction on the number of links, each of which makes the tree taller by one
  induction k with
  | zero => exact ⟨.name rfl trivial, hfits, grouped_letter, rfl⟩
  | succ k ih =>
    obtain ⟨hw, hf, hg, hh⟩ := ih
    rw [Function.iterate_succ_apply']
    refine ⟨?_, (h.grouped hf hg).1, (h.grouped hf hg).2, ?_⟩
    · have htokens : word "a" :: (List.replicate (k + 1) pieces).flatten =
          (word "a" :: (List.replicate k pieces).flatten) ++ pieces := by
        simp [List.replicate_succ']
      rw [htokens, List.map_append]
      exact h.written hw
    · rw [h.height, hh]

/-- The letter with links after it is parsed as a tree as tall as they are many. -/
private theorem parse_join (h : Link text pieces extend fits) (hfits : fits letter) (k : Nat) :
    ∃ n, parse (String.join ("a" :: List.replicate k text)) = .ok [n] ∧ n.height = k + 1 := by
  obtain ⟨hw, -, hg, hh⟩ := h.iterate hfits (r := maxDepth - 1) k
  obtain ⟨hb, hl⟩ := h.lexes_replicate k
  have hlexes : Lexes (String.join ("a" :: List.replicate k text)).toList
      (((word "a" :: (List.replicate k pieces).flatten).map token).map Token.piece) := by
    simpa [Function.comp_def] using spells_letter _ _ hb hl
  obtain ⟨n, hparse, herase⟩ :=
    parse_of_written_top (.statement (.expression (.nested hw))) hg hlexes
  exact ⟨n, hparse, by rw [← n.height_erase, herase, Node.height_erase, hh]⟩

end Link

/-- A point and a name after something that is not an open operation. -/
private theorem link_member :
    Link ".a" [usual .dot, word "a"] (fun n => { letter with receiver := some n }) Node.Closed where
  spells rest ps hb hl := lexes_delimiter (by decide) (spells_letter rest ps hb hl)
  boundary rest := by simp [isBoundary, Scan.isWordRest]
  written hw := .member hw rfl rfl trivial
  grouped {n} hc hg := by
    refine ⟨⟨rfl, rfl⟩, Node.grouped_iff.2 ⟨⟨trivial, ?_⟩, ?_⟩⟩
    · rintro _ ⟨⟩
      exact hc
    · simpa [letter, Node.parts, Shape.parts] using hg
  height n := by
    rw [Node.height_eq]
    simp [letter, Node.parts, Shape.parts]

/-- The operator of an operation, noting nothing. -/
private def sign (op : Operator) : Node :=
  ⟨.operator op, Position.start, 0, "", false, false, none⟩

/-- An operator of the table and a name, after an operand that is not looser. -/
private theorem link_operand {kind : BinaryKind} {op : Operator}
    (hb : Grammar.standard.Binds kind op.kind) :
    Link (" " ++ op.symbol ++ " a") [⟨op.kind, op.symbol⟩, word "a"]
      (fun n => ⟨.binary kind n (sign op) letter, Position.start, 0, "", false, false, none⟩)
      (fun n => (∀ k, n.openBinary? = some k → kind.row ≤ k.row) ∧ n.isOpenUnary = false ∧
        n.endsInUnary = false) where
  spells rest ps hrest hl := by
    have hsymbol : op.symbol ∈ op.kind.spellings := by cases op <;> decide
    have hlexes := lexes_space (lexes_operator hsymbol (spells_letter rest ps hrest hl))
    simpa using hlexes
  boundary rest := by simp [isBoundary, Scan.isWordRest]
  written hw := .binary hw hb (Operator.ofKind?_kind op) trivial (.name rfl trivial) trivial
  grouped {n} hf hg := by
    -- The operand is not looser than the operator, so no grouping is needed
    have hordered : Shape.Ordered (.binary kind n (sign op) letter) := by
      refine ⟨⟨op, rfl, hb⟩, hf.1, ?_, fun _ => hf.2⟩
      rintro _ ⟨⟩
    have hsign : (sign op).Grouped := .of_parts trivial (by simp [Shape.parts])
    refine ⟨⟨?_, rfl, by cases kind <;> rfl⟩, .of_parts hordered ?_⟩
    · rintro _ ⟨⟩
      exact Nat.le_refl _
    · simpa [Shape.parts] using ⟨hg, hsign, grouped_letter⟩
  height n := by
    -- The name and the operator are one level high, and the operand is at least that
    have hpos : 1 ≤ n.height := by
      rw [Node.height_eq]
      exact Nat.le_add_left 1 _
    calc
      _ = largest [n.height, 1, 1] + 1 := Node.height_eq _
      _ = n.height + 1 := by simp [Nat.max_eq_left hpos]

/-- No bound on the height of trees holds of all sources: members that follow one another make trees
    as tall as their number, and so do operands of any operator. -/
theorem height_unbounded :
    (¬ ∃ bound, ∀ source nodes, parse source = .ok nodes → ∀ n ∈ nodes, n.height ≤ bound) ∧
    (∀ k, ∃ n, parse (String.join ("a" :: List.replicate k ".a")) = .ok [n] ∧
      n.height = k + 1) ∧
    ∀ kind (op : Operator), Grammar.standard.Binds kind op.kind → ∀ k, ∃ n,
      parse (String.join ("a" :: List.replicate k (" " ++ op.symbol ++ " a"))) = .ok [n] ∧
      n.height = k + 1 := by
  have hmembers := link_member.parse_join ⟨rfl, rfl⟩
  refine ⟨?_, hmembers, fun kind op hb => (link_operand hb).parse_join ⟨by rintro _ ⟨⟩, rfl, rfl⟩⟩
  rintro ⟨bound, hbound⟩
  obtain ⟨n, hparse, hheight⟩ := hmembers bound
  have hle := hbound _ _ hparse n (by simp)
  omega

end Links

/-! ## Reach -/

/-- The steps down to the parts of a shape, each with what it counts.  A step to the left operand of
    a binary operation counts nothing. -/
def Shape.steps {ν : Type} : Shape ν → List (ν × Nat)
  | binary _ left op right => [(left, 0), (op, 1), (right, 1)]
  | shape => shape.parts.map (·, 1)

namespace Shape

variable {μ ν : Type}

/-- The steps of a mapped shape are those of the shape, mapped. -/
private theorem steps_map (f : μ → ν) (shape : Shape μ) :
    (shape.map f).steps = shape.steps.map fun step => (f step.1, step.2) := by
  cases shape <;> simp [map, steps, parts, Option.toList_map, Function.comp_def]

/-- Every step leads to a part, and counts one at most. -/
private theorem mem_parts_of_mem_steps {shape : Shape ν} {step : ν × Nat} (h : step ∈ shape.steps) :
    step.1 ∈ shape.parts ∧ step.2 ≤ 1 := by
  have hone : step ∈ shape.parts.map (·, 1) → step.1 ∈ shape.parts ∧ step.2 ≤ 1 := by
    intro h
    obtain ⟨part, hpart, rfl⟩ := List.mem_map.1 h
    exact ⟨hpart, Nat.le_refl 1⟩
  cases shape with
  | binary kind left op right =>
    simp only [steps, List.mem_cons, List.not_mem_nil, or_false] at h
    rcases h with rfl | rfl | rfl <;> simp [parts]
  | _ => exact hone h

end Shape

namespace Node

/-- The number of steps on the longest way down from a node, where steps to a receiver and to the
    left operand of a binary operation do not count. -/
def reach (node : Node) : Nat :=
  node.fold fun _ shape receiver =>
    max (receiver.elim 0 Prod.snd) (largest (shape.steps.map fun step => step.1.2 + step.2))

/-- A node reaches as far as its receiver, and as far as each step and the part behind it. -/
theorem reach_eq (node : Node) :
    node.reach =
      max (node.receiver.elim 0 reach)
        (largest (node.shape.steps.map fun step => step.1.reach + step.2)) := by
  rw [reach, fold_eq, Shape.steps_map, List.map_map]
  cases node.receiver <;> rfl

/-- A bound on how far a node reaches is one for its receiver and for each of its steps. -/
theorem reach_le_iff :
    n.reach ≤ b ↔ (∀ receiver, n.receiver = some receiver → receiver.reach ≤ b) ∧
      ∀ step ∈ n.shape.steps, step.1.reach + step.2 ≤ b := by
  rw [reach_eq, Nat.max_le, largest_map_le_iff]
  cases n.receiver <;> simp

/-- A node reaches down one step further than the parts of its shape, and as far as its receiver. -/
theorem reach_le_of_parts (hr : ∀ receiver, n.receiver = some receiver → receiver.reach ≤ b)
    (hp : ∀ part ∈ n.shape.parts, part.reach < b) : n.reach ≤ b := by
  refine reach_le_iff.2 ⟨hr, fun step hstep => ?_⟩
  obtain ⟨hpart, hone⟩ := Shape.mem_parts_of_mem_steps hstep
  have hlt := hp _ hpart
  omega

/-- How far a node reaches depends only on the shape and the receiver. -/
theorem reach_congr {m : Node} (hs : n.shape = m.shape) (hr : n.receiver = m.receiver) :
    n.reach = m.reach := by
  rw [reach_eq, reach_eq m, hs, hr]

/-- The row of an open binary operation.  All other expressions count as tighter than every row. -/
def row (node : Node) : Nat :=
  node.openBinary?.elim Grammar.standard.levels.length BinaryKind.row

end Node

/-- How far a node can reach in a place with some room for nesting.  In each of the nested
    constructs there is a step for each row of the table, and two more. -/
def Place.reach (r : Nat) (node : Node) : Place → Nat
  | .expression =>
    (Grammar.standard.levels.length + 2) * r + 2 + (Grammar.standard.levels.length - node.row)
  | .nested | .item | .function => (Grammar.standard.levels.length + 2) * r
  | .entry | .clause => (Grammar.standard.levels.length + 2) * r + 1
  | .param => 0
  | .statement | .top => (Grammar.standard.levels.length + 2) * r + 2

@[simp] private theorem length_levels : Grammar.standard.levels.length = 8 := rfl

namespace Node

/-- What is not open counts as tighter than every row. -/
private theorem row_of_closed (h : n.Closed) : n.row = 8 := by
  simp [row, h.1]

/-- An expression that is not an open operation has no row to go down from. -/
private theorem Closed.reach_le (h : n.Closed) (hn : n.reach ≤ Place.expression.reach r n) :
    n.reach ≤ (Grammar.standard.levels.length + 2) * r + 2 := by
  simpa [Place.reach, row_of_closed h] using hn

/-- The row of an operand that is grouped as the table says. -/
private theorem le_row {i : Nat} (hi : i ≤ 8)
    (h : ∀ kind, n.openBinary? = some kind → i ≤ kind.row) : i ≤ n.row := by
  unfold row
  cases hn : n.openBinary? with
  | none => exact hi
  | some kind => exact h kind hn

section Parts

variable {shape : Shape Node} {p : Position} {breaks : Nat} {x : String}
  {parenthesized bracket : Bool}

/-- The case of a node without receiver. -/
private theorem reach_unmarked_le (hp : ∀ part ∈ shape.parts, part.reach < b) :
    (Node.mk shape p breaks x parenthesized bracket none).reach ≤ b :=
  reach_le_of_parts (by simp) hp

/-- The case of a node that is chained from another. -/
private theorem reach_chained_le {receiver : Node} (hr : receiver.reach ≤ b)
    (hp : ∀ part ∈ shape.parts, part.reach < b) :
    (Node.mk shape p breaks x parenthesized bracket (some receiver)).reach ≤ b :=
  reach_le_of_parts (by simpa using hr) hp

@[simp] private theorem reach_operator (op : Operator) :
    (Node.mk (.operator op) p breaks x parenthesized bracket none).reach = 0 := rfl

/-- A binary operation reaches as far as its left operand, and one step further than the right. -/
private theorem reach_binary_le {left right : Node} {kind : BinaryKind} {op : Operator}
    {p' : Position} {breaks' : Nat} {x' : String} (hl : left.reach ≤ b) (hr : right.reach < b) :
    (Node.mk (.binary kind left ⟨.operator op, p', breaks', x', false, false, none⟩ right) p breaks
      x parenthesized bracket none).reach ≤ b := by
  refine reach_le_iff.2 ⟨by simp, ?_⟩
  simp only [Shape.steps, List.mem_cons, List.not_mem_nil, or_false, forall_eq_or_imp, forall_eq,
    reach_operator]
  omega

end Parts

/-- A key reaches down one step further in brackets, unless it gives its shape to the access. -/
private theorem reach_bracketed_le {key object : Node} {p : Position} {breaks : Nat} {x : String}
    {parenthesized : Bool} (hk : key.reach < b) (ho : object.reach ≤ b) :
    (Node.mk (key.bracketed object).shape p breaks x parenthesized true (some object)).reach ≤
      b := by
  obtain ⟨-, he⟩ | ⟨shape, p', b', x', rfl, he⟩ := bracketed_cases key object <;> rw [he]
  · exact reach_chained_le ho (by simpa [Shape.parts] using hk)
  · exact reach_le_iff.2 ⟨by simpa using ho, (reach_le_iff.1 (Nat.le_of_lt hk)).2⟩

end Node

/-- The key of an entry reaches down to nothing. -/
private theorem reach_key {t : Token} {key : Node} (h : KeyWritten note t key) : key.reach = 0 := by
  cases h <;> rfl

/-- Items in a place reach less far than what a larger place allows. -/
private theorem reach_items_lt {items : List (List Token × Node)}
    (ih : ∀ i ∈ items, i.2.Grouped → i.2.reach ≤ place.reach r i.2)
    (hg : ∀ part ∈ items.map Prod.snd, part.Grouped) (hb : ∀ m, place.reach r m < b) :
    ∀ part ∈ items.map Prod.snd, part.reach < b := by
  intro part hpart
  obtain ⟨i, hi, rfl⟩ := List.mem_map.1 hpart
  exact Nat.lt_of_le_of_lt (ih i hi (hg _ hpart)) (hb i.2)

/-- The case of statements and items of collections. -/
private theorem reach_lines_lt {lines : Lines}
    (ih : ∀ s ∈ lines.stretches, s.node.Grouped → s.node.reach ≤ place.reach r s.node)
    (hg : ∀ part ∈ lines.nodes, part.Grouped) (hb : ∀ m, place.reach r m < b) :
    ∀ part ∈ lines.nodes, part.reach < b := by
  intro part hpart
  obtain ⟨s, hs, rfl⟩ := List.mem_map.1 hpart
  exact Nat.lt_of_le_of_lt (ih s hs (hg _ hpart)) (hb s.node)

/-- What is written with some room for nesting reaches down no further than that room allows. -/
theorem Written.reach_le (h : Written .standard note r place ts n) (hg : n.Grouped) :
    n.reach ≤ place.reach r n := by
  induction h with
  -- One case for each way of writing a node, with the room it takes from what is around it
  | number | string | boolean | name | param | field | index | letBare | returnBare =>
    exact Node.reach_unmarked_le (by simp [Shape.parts])
  | nested _ ih =>
    have hle := ih hg
    simp only [Place.reach, length_levels] at hle ⊢
    omega
  | functionItem _ ih => exact ih hg
  | functionTop _ ih | expression _ ih | statement _ ih =>
    exact Nat.le_trans (ih hg) (by simp [Place.reach])
  | array _ _ _ _ _ ih | object _ _ _ _ _ ih =>
    refine Node.reach_unmarked_le (reach_items_lt ih (Node.grouped_iff.1 hg).2 fun m => ?_)
    simp only [Place.reach]
    omega
  | entry hkey _ _ _ ih =>
    have hvalue := ih ((Node.grouped_iff.1 hg).2 _ (by simp [Shape.parts]))
    refine Node.reach_unmarked_le ?_
    simpa [Shape.parts, reach_key hkey, Place.reach, Nat.lt_succ_iff] using hvalue
  | shorthand hk hkey hvalue =>
    refine Node.reach_unmarked_le ?_
    simp [Shape.parts, reach_key (.name hk hkey), reach_key (.name hk hvalue), Place.reach]
  -- Parentheses neither add a step nor take one away
  | @group r o c ts n p b x _ _ _ _ ih =>
    have hreach : (Node.mk n.shape p b x true n.bracket n.receiver).reach = n.reach :=
      Node.reach_congr rfl rfl
    have hgrouped : n.Grouped := by
      refine (Node.grouped_congr ?_ ?_).1 hg <;> rfl
    have hle := ih hgrouped
    rw [hreach]
    simp only [Place.reach] at hle ⊢
    omega
  -- A chain reaches as far as the furthest of its links, whatever its length
  | @member r ts receiver d t p b x _ _ _ _ ih =>
    obtain ⟨ho, hparts⟩ := Node.grouped_iff.1 hg
    have hreceiver := Node.Closed.reach_le (ho.2 receiver rfl) (ih (hparts receiver (by simp)))
    exact Nat.le_trans (Node.reach_chained_le hreceiver (by simp [Shape.parts]))
      (Nat.le_add_right _ _)
  | @key r ts tk object key o c p b x _ _ _ _ _ ih ihk =>
    have hclosed : object.Closed := (Node.grouped_iff.1 hg).1.2 object rfl
    have hbracketed : (key.bracketed object).Grouped := by
      refine (Node.grouped_congr ?_ ?_).1 hg <;> rfl
    obtain ⟨hkey, hobject⟩ := hbracketed.of_bracketed
    refine Nat.le_trans (Node.reach_bracketed_le ?_ (hclosed.reach_le (ih hobject)))
      (Nat.le_add_right _ _)
    exact Nat.lt_of_le_of_lt (ihk hkey) (by simp [Place.reach])
  | @call r ts body receiver o c args p b x _ _ _ _ _ _ ih iha =>
    obtain ⟨ho, hparts⟩ := Node.grouped_iff.1 hg
    have hreceiver := Node.Closed.reach_le (ho.2 receiver rfl) (ih (hparts receiver (by simp)))
    have hargs := reach_items_lt (b := (Grammar.standard.levels.length + 2) * r + 2) iha
      (fun part hpart => hparts part (List.mem_cons_of_mem _ hpart))
      (fun m => by simp [Place.reach])
    exact Nat.le_trans (Node.reach_chained_le hreceiver hargs) (Nat.le_add_right _ _)
  -- A left operand may be of the same row, but the step to it is free; a right one is tighter
  | @binary r tl tr left right t kind op p p' b b' x x' _ _ _ _ _ _ ihl ihr =>
    obtain ⟨⟨⟨-, hleft, hright, -⟩, -⟩, hparts⟩ := Node.grouped_iff.1 hg
    have hkind := (Grammar.row_lt kind).1
    have hl := ihl (hparts left (by simp [Shape.parts]))
    have hr := ihr (hparts right (by simp [Shape.parts]))
    have hlrow : kind.row ≤ left.row := Node.le_row (Nat.le_of_lt hkind) hleft
    have hrrow : kind.row + 1 ≤ right.row := Node.le_row hkind hright
    have hrow : (Node.mk (.binary kind left ⟨.operator op, p', b', x', false, false, none⟩ right) p
      b x false false none).row = kind.row := rfl
    simp only [Place.reach, length_levels, hrow] at hl hr ⊢
    exact Node.reach_binary_le (by omega) (by omega)
  | @unary r t ts value kind p b x _ _ _ ih =>
    have hle := ih ((Node.grouped_iff.1 hg).2 value (by simp [Shape.parts]))
    refine Node.reach_unmarked_le ?_
    simp only [Shape.parts, List.mem_singleton, forall_eq, Place.reach] at hle ⊢
    omega
  | @function r k t o c ob cb params body block p b x _ _ _ _ _ _ _ _ _ _ _ ihi ihb =>
    have hparts : ∀ part ∈ params.map Prod.snd ++ block.nodes, part.Grouped :=
      (Node.grouped_iff.1 hg).2
    obtain ⟨hparams, hblock⟩ := List.forall_mem_append.1 hparts
    refine Node.reach_unmarked_le (List.forall_mem_append.2
      ⟨reach_items_lt ihi hparams fun m => ?_, reach_lines_lt ihb hblock fun m => ?_⟩) <;>
    · simp only [Place.reach, length_levels]
      omega
  | collection _ _ _ _ _ _ _ ih =>
    refine Node.reach_unmarked_le (reach_lines_lt ih (Node.grouped_iff.1 hg).2 fun m => ?_)
    simp only [Place.reach]
    omega
  | @elseIf r e k o c ts condition block p b x _ _ _ _ _ _ _ _ ihv ihb =>
    have hparts : ∀ part ∈ condition :: block.nodes, part.Grouped := (Node.grouped_iff.1 hg).2
    obtain ⟨hcondition, hblock⟩ := List.forall_mem_cons.1 hparts
    refine Node.reach_unmarked_le (List.forall_mem_cons.2
      ⟨Nat.lt_succ_of_le (ihv hcondition), reach_lines_lt ihb hblock fun m => ?_⟩)
    simp only [Place.reach, length_levels]
    omega
  | elseClause _ _ _ _ _ _ ih =>
    refine Node.reach_unmarked_le (reach_lines_lt ih (Node.grouped_iff.1 hg).2 fun m => ?_)
    simp only [Place.reach, length_levels]
    omega
  | @ifStmt r k o c ts condition block clauses p b x _ _ _ _ _ _ _ _ _ ihv ihb ihi =>
    have hparts : ∀ part ∈ condition :: (block.nodes ++ clauses.map Prod.snd), part.Grouped :=
      (Node.grouped_iff.1 hg).2
    obtain ⟨hcondition, hrest⟩ := List.forall_mem_cons.1 hparts
    obtain ⟨hblock, hclauses⟩ := List.forall_mem_append.1 hrest
    have hv := ihv hcondition
    refine Node.reach_unmarked_le (List.forall_mem_cons.2 ⟨?_, List.forall_mem_append.2
      ⟨reach_lines_lt ihb hblock fun m => ?_, reach_items_lt ihi hclauses fun m => ?_⟩⟩)
    all_goals simp only [Place.reach, length_levels] at hv ⊢; omega
  | constDecl _ _ _ _ _ ih | letValue _ _ _ _ _ ih | returnValue _ _ _ ih =>
    have hle := ih ((Node.grouped_iff.1 hg).2 _ (by simp [Shape.parts]))
    refine Node.reach_unmarked_le ?_
    simp only [Shape.parts, Option.toList_some, List.mem_singleton, forall_eq, Place.reach] at hle ⊢
    omega
  | @assign r tl tr left right t op p p' b b' x x' _ _ _ _ _ _ _ ihl ihr =>
    have hparts := (Node.grouped_iff.1 hg).2
    have hl := ihl (hparts left (by simp [Shape.parts]))
    have hr := ihr (hparts right (by simp [Shape.parts]))
    refine Node.reach_unmarked_le ?_
    simp only [Shape.parts, List.mem_cons, List.not_mem_nil, or_false, forall_eq_or_imp, forall_eq,
      Node.reach_operator, Place.reach] at hl hr ⊢
    omega

/-- On every way down a tree that is parsed, the steps other than those to a receiver and to the
    left operand of a binary operation are limited by the limit on nesting and the rows of the
    table. -/
theorem reach_le_of_parse {source : String} {nodes : List Node} (h : parse source = .ok nodes) :
    ∀ n ∈ nodes, n.reach ≤ (Grammar.standard.levels.length + 2) * maxDepth + 2 := by
  intro n hn
  obtain ⟨lexemes, stop, lines, -, -, rfl, hparsed⟩ := parse_reads h
  have hgrouped := hparsed.grouped rfl n hn
  obtain ⟨s, hs, rfl⟩ := List.mem_map.1 hn
  exact (hparsed.written.written s hs).reach_le hgrouped

/-- A program with steps of both kinds: to receivers, to both operands of operators of different
    rows, into brackets and into a block. -/
theorem reach_le_of_parse_if :
    ∃ nodes, parse "if a or b.c[d + e] + f * 2 \x7b return -(g()[h.i]) ^ -j \x7d" = .ok nodes ∧
      ∀ n ∈ nodes, n.reach ≤ (Grammar.standard.levels.length + 2) * maxDepth + 2 := by
  obtain ⟨nodes, h⟩ := exists_of_isOk (show (parse
    "if a or b.c[d + e] + f * 2 \x7b return -(g()[h.i]) ^ -j \x7d").isOk = true by decide +kernel)
  exact ⟨nodes, h, reach_le_of_parse h⟩

end Schemata
