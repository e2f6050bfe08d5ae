import Schemata.Proofs.StatementSound

/-!
# What a derivation says about its node

`Written` leaves open what its nodes are like.  Two things follow by induction on how a node was
written:

- `Written.nesting_le`: the node needs no more room than there was
- `Written.printable`: the node and all nodes below it are `Printable`, that is well-formed and, if
  they are operators, spelled as such
-/

namespace Schemata

/-! ## Room -/

/-- The room that a node takes in a place. -/
def Place.nesting (node : Node) : Place → Nat
  | .nested => node.nesting + 1
  | .param => 0
  | .statement | .top => node.standing node.nesting
  | _ => node.nesting

namespace Node

@[simp] theorem nesting_mk_unmarked (shape : Shape Node) (p : Position) (b : Nat) (x : String) :
    (Node.mk shape p b x false false none).nesting =
      shapeNesting (shape.map fun part => (part, part.nesting)) := by
  rw [nesting_eq]
  simp

/-- An access by key needs the room of its object, or that of its key and one more. -/
theorem nesting_bracketed_le {key object : Node} {p : Position} {b : Nat} {x : String} {r : Nat}
    (hk : key.nesting + 1 ≤ r) (ho : object.nesting ≤ r) :
    (Node.mk (key.bracketed object).shape p b x (key.bracketed object).parenthesized true
      (some object)).nesting ≤ r := by
  rw [nesting_eq]
  simp only [Option.elim_some, if_true]
  obtain ⟨-, he⟩ | ⟨shape, p', b', x', rfl, he⟩ := bracketed_cases key object
  -- A key that is kept whole counts as a nested expression of its own
  · simp only [he, Shape.map, shapeNesting, Bool.false_eq_true, if_false]
    omega
  -- A key without marks gives its shape to the whole, brackets included
  · rw [nesting_mk_unmarked] at hk
    simp only [he, Bool.false_eq_true, if_false]
    omega

end Node

/-- A block needs one level more than its statements. -/
private theorem blockNesting_le {lines : Lines} {r : Nat}
    (h : ∀ s ∈ lines.stretches, Place.statement.nesting s.node ≤ r) :
    Node.blockNesting (lines.nodes.map fun part => (part, part.nesting)) ≤ r + 1 := by
  refine Nat.succ_le_succ ?_
  rw [List.map_map, Lines.nodes, List.map_map, largest_map_le_iff]
  exact h

/-- A node that is written with some room needs no more. -/
theorem Written.nesting_le {grammar : Grammar} {note : SourceNote} {r : Nat} {place : Place}
    {ts : List Token} {n : Node} (h : Written grammar note r place ts n) :
    place.nesting n ≤ r := by
  induction h with
  -- Room is spent in `nested` and by blocks; everywhere else it is passed on
  | nested _ ih => exact Nat.succ_le_succ ih
  | number | string | boolean | name | param | field | index | letBare | returnBare =>
    simp [Place.nesting, Node.standing, Shape.map, Node.shapeNesting, Shape.role]
  | array _ _ _ _ _ ih | object _ _ _ _ _ ih =>
    simp only [Place.nesting, Node.nesting_mk_unmarked, Shape.map, Node.shapeNesting,
      List.map_map, largest_map_le_iff]
    exact ih
  | entry _ _ _ _ ih =>
    simp only [Place.nesting, Node.nesting_mk_unmarked, Shape.map, Node.shapeNesting]
    split
    · exact Nat.zero_le _
    · exact ih
  | shorthand =>
    simp [Place.nesting, Shape.map, Node.shapeNesting, Node.isShorthand, Node.isPlainName,
      Node.name?, Node.same_iff_erase]
  -- The parentheses are the nesting: what stands inside them was read as nested
  | @group r o c ts n p b x _ _ _ _ ih =>
    refine Nat.le_trans ?_ ih
    simp only [Place.nesting]
    rw [Node.nesting_eq, Node.nesting_eq n]
    simp only [if_true]
    split <;> split <;> omega
  | member _ _ _ _ ih =>
    simp only [Place.nesting]
    rw [Node.nesting_eq]
    simp only [Option.elim_some, Shape.map, Node.shapeNesting, Bool.false_eq_true, if_false]
    exact Nat.max_le.2 ⟨ih, Nat.zero_le _⟩
  | key _ _ _ _ _ ih ihk => exact Node.nesting_bracketed_le ihk ih
  | call _ _ _ _ _ _ ih iha =>
    simp only [Place.nesting]
    rw [Node.nesting_eq]
    simp only [Option.elim_some, Shape.map, Node.shapeNesting, Bool.false_eq_true, if_false,
      List.map_map, Nat.max_le, largest_map_le_iff]
    exact ⟨ih, iha⟩
  | binary _ _ _ _ _ _ ihl ihr =>
    simp only [Place.nesting, Node.nesting_mk_unmarked, Shape.map, Node.shapeNesting, Nat.max_le]
    exact ⟨ihl, ihr⟩
  | unary _ _ _ ih =>
    simp only [Place.nesting, Node.nesting_mk_unmarked, Shape.map, Node.shapeNesting]
    exact ih
  | function _ _ _ _ _ _ _ _ _ _ _ _ ih =>
    simp only [Place.nesting, Node.nesting_mk_unmarked, Shape.map, Node.shapeNesting]
    exact blockNesting_le ih
  | functionItem _ ih => exact ih
  -- Only expressions need more room as a statement than on their own
  | functionTop h ih =>
    have hrole := h.admits
    simp only [Place.admits, beq_iff_eq] at hrole
    simp only [Place.nesting, Node.standing, hrole, reduceCtorEq, if_false]
    exact ih
  | collection _ _ _ _ _ _ _ ih =>
    simp only [Place.nesting, Node.standing, Node.role_mk, Shape.role, reduceCtorEq, if_false,
      Node.nesting_mk_unmarked, Shape.map, Node.shapeNesting, Lines.nodes, List.map_map,
      largest_map_le_iff]
    exact ih
  | elseIf _ _ _ _ _ _ _ _ ihv ihb =>
    simp only [Place.nesting, Node.nesting_mk_unmarked, Shape.map, Node.shapeNesting, Nat.max_le]
    exact ⟨ihv, blockNesting_le ihb⟩
  | elseClause _ _ _ _ _ _ ih =>
    simp only [Place.nesting, Node.nesting_mk_unmarked, Shape.map, Node.shapeNesting]
    exact blockNesting_le ih
  | ifStmt _ _ _ _ _ _ _ _ _ ihv ihb ihc =>
    simp only [Place.nesting, Node.standing, Node.role_mk, Shape.role, reduceCtorEq, if_false,
      Node.nesting_mk_unmarked, Shape.map, Node.shapeNesting, List.map_map, Nat.max_le,
      largest_map_le_iff]
    exact ⟨ihv, blockNesting_le ihb, ihc⟩
  | constDecl _ _ _ _ _ ih | letValue _ _ _ _ _ ih | returnValue _ _ _ ih =>
    simp only [Place.nesting, Node.standing, Node.role_mk, Shape.role, reduceCtorEq, if_false,
      Node.nesting_mk_unmarked, Shape.map, Node.shapeNesting, Option.map_some, Option.elim_some]
    exact ih
  | assign _ _ _ _ _ _ _ ihl ihr =>
    simp only [Place.nesting, Node.standing, Node.role_mk, Shape.role, reduceCtorEq, if_false,
      Node.nesting_mk_unmarked, Shape.map, Node.shapeNesting] at ihl ihr ⊢
    omega
  | expression h ih =>
    have hrole := h.admits
    simp only [Place.admits, beq_iff_eq] at hrole
    simp only [Place.nesting, Node.standing, hrole, if_true]
    exact ih
  | statement _ ih => exact ih

/-! ## Form -/

/-- The tokens of an item are among those of the sequence. -/
theorem Separated.mem {items : List (List Token)} {body item : List Token} {t : Token}
    (h : Separated items body) (hi : item ∈ items) (ht : t ∈ item) : t ∈ body := by
  induction h with
  | nil => cases hi
  | last =>
    obtain rfl := List.mem_singleton.1 hi
    exact ht
  | comma _ _ ih =>
    rcases List.mem_cons.1 hi with rfl | hi
    · exact List.mem_append_left _ ht
    · exact List.mem_append_right _ (List.mem_cons_of_mem _ (ih hi))

/-- The tokens of a stretch are among those of the lines. -/
theorem Lines.mem_tokens {lines : Lines} {stretch : Stretch} {t : Token}
    (hs : stretch ∈ lines.stretches) (ht : t ∈ stretch.tokens) : t ∈ lines.tokens :=
  List.mem_append_right _ (List.mem_flatMap.2 ⟨stretch, hs, List.mem_append_left _ ht⟩)

/-- A type is a name, with or without brackets. -/
theorem TypeWritten.isType {ts : List Token} {type : String} (h : TypeWritten ts type)
    (hs : ∀ t ∈ ts, t.Scanned) : Scan.IsType type := by
  cases h with
  | name hk => exact ⟨_, (hs _ (by simp)).isName hk, .inl rfl⟩
  | list hk _ _ => exact ⟨_, (hs _ (by simp)).isName hk, .inr rfl⟩

/-- The field of an index has a name. -/
theorem IndexFieldWritten.isName {ts : List Token} {field : IndexField}
    (h : IndexFieldWritten ts field) (hs : ∀ t ∈ ts, t.Scanned) :
    Scan.isName field.name = true := by
  cases h with
  | plain hk | bracketed _ hk _ | directed _ hk _ _ _ _ => exact (hs _ (by simp)).isName hk

namespace Node

/-- The node and all nodes below it are printable. -/
def AllPrintable (node : Node) : Prop :=
  ∀ m ∈ node.subtrees, m.Printable

/-- A tree is printable if its root is and the trees of its parts are. -/
theorem allPrintable_iff {node : Node} :
    node.AllPrintable ↔ node.Printable ∧ ∀ part ∈ node.parts, part.AllPrintable :=
  forall_subtrees_iff

/-- A node is printable in all its parts if they are and it is well-formed itself. -/
theorem AllPrintable.of_parts {node : Node} (hg : node.Grouped) (hrole : node.role ≠ .operator)
    (hw : node.shape.WordsValid) (hm : node.MarksValid) (hp : node.shape.PartsValid)
    (hr : ∀ receiver, node.receiver = some receiver → receiver.role = .expression)
    (hparts : ∀ part ∈ node.parts, part.Grouped → part.AllPrintable) : node.AllPrintable := by
  obtain ⟨hordered, hgrouped⟩ := grouped_iff.1 hg
  refine allPrintable_iff.2 ⟨⟨⟨hw, hm, hp, hr, hordered⟩, fun op hop => ?_⟩, fun part hmem => ?_⟩
  · rw [role, hop] at hrole
    exact absurd rfl hrole
  · exact hparts part hmem (hgrouped part hmem)

/-- The case of a node without marks. -/
theorem AllPrintable.of_unmarked {shape : Shape Node} {p : Position} {b : Nat} {x : String}
    (hg : (Node.mk shape p b x false false none).Grouped)
    (hrole : (shape.role == .operator) = false) (hm : shape.standsAlone = true)
    (hw : shape.WordsValid) (hp : shape.PartsValid)
    (hparts : ∀ part ∈ shape.parts, part.Grouped → part.AllPrintable) :
    (Node.mk shape p b x false false none).AllPrintable :=
  .of_parts hg (beq_eq_false_iff_ne.1 hrole) hw (marksValid_of_standsAlone hm) hp (by simp) hparts

/-- The case of a node without parts. -/
theorem AllPrintable.of_leaf {shape : Shape Node} {p : Position} {b : Nat} {x : String}
    (hleaf : shape.parts = []) (hrole : (shape.role == .operator) = false)
    (hm : shape.standsAlone = true) (ho : shape.Ordered) (hw : shape.WordsValid)
    (hp : shape.PartsValid) : (Node.mk shape p b x false false none).AllPrintable :=
  .of_unmarked (.of_parts ho (by simp [hleaf])) hrole hm hw hp (by simp [hleaf])

/-- An operator with one of its spellings is printable. -/
theorem allPrintable_operator {op : Operator} {p : Position} {b : Nat} {x : String}
    (hx : x ∈ op.kind.spellings) :
    (Node.mk (.operator op) p b x false false none).AllPrintable := by
  have hwf : (Node.mk (.operator op) p b x false false none).WellFormed :=
    ⟨trivial, marksValid_of_standsAlone rfl, trivial, by simp, trivial, by simp⟩
  refine allPrintable_iff.2 ⟨⟨hwf, ?_⟩, by simp [Shape.parts]⟩
  rintro _ ⟨⟩
  exact .inr hx

end Node

section

variable {grammar : Grammar} {note : SourceNote} {r : Nat}

/-- What is nested is an expression. -/
private theorem role_of_nested {ts : List Token} {n : Node}
    (h : Written grammar note r .nested ts n) : n.role = .expression :=
  beq_iff_eq.1 h.admits

/-- What is an operand is an expression. -/
private theorem role_of_expression {ts : List Token} {n : Node}
    (h : Written grammar note r .expression ts n) : n.role = .expression :=
  beq_iff_eq.1 h.admits

/-- The items of a sequence are admitted in their place. -/
private theorem items_admitted {place : Place} {items : List (List Token × Node)}
    (hi : ∀ item ∈ items, Written grammar note r place item.1 item.2) :
    ∀ n ∈ items.map Prod.snd, place.admits n = true := by
  intro n hn
  obtain ⟨item, hmem, rfl⟩ := List.mem_map.1 hn
  exact (hi item hmem).admits

/-- The nodes of lines are admitted in their place. -/
private theorem lines_admitted {place : Place} {lines : Lines}
    (hb : ∀ s ∈ lines.stretches, Written grammar note r place s.tokens s.node) :
    ∀ n ∈ lines.nodes, place.admits n = true := by
  intro n hn
  obtain ⟨s, hmem, rfl⟩ := List.mem_map.1 hn
  exact (hb s hmem).admits

/-- The items of a sequence are printable if each of them is. -/
private theorem items_printable {items : List (List Token × Node)} {body : List Token}
    (hsep : Separated (items.map Prod.fst) body) (hs : ∀ t ∈ body, t.Scanned)
    (ih : ∀ item ∈ items, (∀ t ∈ item.1, t.Scanned) → item.2.Grouped → item.2.AllPrintable) :
    ∀ n ∈ items.map Prod.snd, n.Grouped → n.AllPrintable := by
  intro n hn
  obtain ⟨item, hmem, rfl⟩ := List.mem_map.1 hn
  exact ih item hmem fun t ht => hs t (hsep.mem (List.mem_map_of_mem hmem) ht)

/-- The nodes of lines are printable if each of them is. -/
private theorem lines_printable {lines : Lines} (hs : ∀ t ∈ lines.tokens, t.Scanned)
    (ih : ∀ s ∈ lines.stretches, (∀ t ∈ s.tokens, t.Scanned) → s.node.Grouped →
      s.node.AllPrintable) :
    ∀ n ∈ lines.nodes, n.Grouped → n.AllPrintable := by
  intro n hn
  obtain ⟨s, hmem, rfl⟩ := List.mem_map.1 hn
  exact ih s hmem fun t ht => hs t (Lines.mem_tokens hmem ht)

end

/-- Parentheses do not change how a node is well-formed. -/
private theorem group_printable {n : Node} (h : n.AllPrintable) (hrole : n.role = .expression)
    (p : Position) (b : Nat) (x : String) :
    (Node.mk n.shape p b x true n.bracket n.receiver).AllPrintable := by
  obtain ⟨hn, hparts⟩ := Node.allPrintable_iff.1 h
  obtain ⟨shape, p', b', x', parenthesized, bracket, receiver⟩ := n
  refine Node.allPrintable_iff.2 ⟨⟨hn.congr_parenthesized hrole, fun op hop => ?_⟩, hparts⟩
  obtain rfl : shape = .operator op := hop
  cases hrole

/-- A key in brackets is well-formed whether or not it is wrapped. -/
private theorem bracketed_printable {key object : Node} (hk : key.AllPrintable)
    (hkey : key.role = .expression) (ho : object.AllPrintable) (hobject : object.role = .expression)
    (hc : object.Closed) (p : Position) (b : Nat) (x : String) :
    (Node.mk (key.bracketed object).shape p b x (key.bracketed object).parenthesized true
      (some object)).AllPrintable := by
  have hreceiver : ∀ receiver, some object = some receiver → receiver.role = .expression := by
    rintro _ ⟨⟩
    exact hobject
  have hclosed : ∀ receiver, some object = some receiver → receiver.Closed := by
    rintro _ ⟨⟩
    exact hc
  obtain ⟨hprintable, hparts⟩ := Node.allPrintable_iff.1 hk
  obtain ⟨hmarks, he⟩ | ⟨shape, p', b', x', rfl, he⟩ := Node.bracketed_cases key object <;>
    rw [he, Node.allPrintable_iff]
  -- The wrapping node has nothing of its own that could be ill-formed
  · refine ⟨⟨⟨trivial, ⟨fun _ => rfl, rfl, hmarks⟩, hkey, hreceiver, trivial, hclosed⟩,
      fun _ h => by cases h⟩, ?_⟩
    simpa [Shape.parts] using ⟨ho, hk⟩
  · have hmarksValid := hprintable.marks
    refine ⟨⟨⟨hprintable.words, ⟨fun _ => rfl, ?_⟩, hprintable.parts, hreceiver,
      hprintable.ordered.1, hclosed⟩, fun op hop => ?_⟩, ?_⟩
    · -- an unmarked key is neither a call nor wrapped, which would need marks
      cases shape <;> simp_all [Node.MarksValid, Shape.role]
    · obtain rfl : shape = .operator op := hop
      cases hkey
    · simpa using ⟨ho, hparts⟩

/-- An operator that was read is spelled in one of its ways. -/
private theorem operator_printable {text : List Char} {t : Token} {op : Operator} {p : Position}
    {b : Nat} {x : String} (hs : t.Scanned) (ho : Operator.ofKind? t.kind = some op)
    (ht : (SourceNote.ofText text).operator t p b x) :
    (Node.mk (.operator op) p b x false false none).AllPrintable := by
  obtain ⟨-, -, rfl⟩ := ht
  have hkind := Parse.kind_of_ofKind? ho
  -- No operator is spelled freely, so its token has one of the fixed spellings
  have hopen : op.kind.isOpenClass = false := by cases op <;> rfl
  obtain ⟨hvalue, htext⟩ := hs.mem_spellings (hkind ▸ hopen)
  refine Node.allPrintable_operator ?_
  rw [htext, hkind]
  exact hvalue

/-- The key of an entry is a name or a string, and printable. -/
private theorem key_printable {note : SourceNote} {t : Token} {key : Node} (hs : t.Scanned)
    (h : KeyWritten note t key) : key.isKey = true ∧ key.AllPrintable := by
  cases h with
  | name hk =>
    exact ⟨rfl, .of_leaf rfl rfl rfl trivial (hs.isName hk) trivial⟩
  | string hk =>
    exact ⟨rfl, .of_leaf rfl rfl rfl trivial trivial trivial⟩

/-- What is written by tokens of a source is printable if its operators are grouped. Induction is on
    how it was written. -/
theorem Written.printable {grammar : Grammar} {text : List Char} {r : Nat} {place : Place}
    {ts : List Token} {n : Node} (h : Written grammar (.ofText text) r place ts n)
    (hs : ∀ t ∈ ts, t.Scanned) (hg : n.Grouped) : n.AllPrintable := by
  induction h with
  -- Rules that only change the place leave the node as it is
  | nested _ ih | functionItem _ ih | functionTop _ ih | expression _ ih | statement _ ih =>
    exact ih hs hg
  | number hk =>
    exact .of_leaf rfl rfl rfl trivial ((hs _ (by simp)).isNumber hk) trivial
  | name hk =>
    exact .of_leaf rfl rfl rfl trivial ((hs _ (by simp)).isName hk) trivial
  | string | boolean => exact .of_leaf rfl rfl rfl trivial trivial trivial
  | array _ hsep _ hi _ ih =>
    refine .of_unmarked hg rfl rfl trivial ?_ ?_
    · exact fun n hn => beq_iff_eq.1 (items_admitted hi n hn)
    · exact items_printable hsep (fun t ht => hs t (by simp [ht])) ih
  | object _ hsep _ hi _ ih =>
    refine .of_unmarked hg rfl rfl trivial ?_ ?_
    · exact fun n hn => beq_iff_eq.1 (items_admitted hi n hn)
    · exact items_printable hsep (fun t ht => hs t (by simp [ht])) ih
  | entry hkey _ hv _ ih =>
    obtain ⟨hiskey, hprintable⟩ := key_printable (hs _ (by simp)) hkey
    refine .of_unmarked hg rfl rfl trivial ⟨hiskey, role_of_nested hv⟩ ?_
    simp only [Shape.parts, List.mem_cons, List.not_mem_nil, or_false, forall_eq_or_imp, forall_eq]
    exact ⟨fun _ => hprintable, ih fun t ht => hs t (by simp [ht])⟩
  -- The name stands for both the key and the value
  | shorthand hk =>
    have hname := (hs _ (by simp)).isName hk
    refine .of_unmarked hg rfl rfl trivial ⟨rfl, rfl⟩ ?_
    simp only [Shape.parts, List.mem_cons, List.not_mem_nil, or_false, forall_eq_or_imp, forall_eq]
    exact ⟨fun _ => .of_leaf rfl rfl rfl trivial hname trivial,
      fun _ => .of_leaf rfl rfl rfl trivial hname trivial⟩
  | group _ hi _ _ ih =>
    refine group_printable (ih (fun t ht => hs t (by simp [ht])) ?_) (role_of_nested hi) _ _ _
    refine (Node.grouped_congr ?_ ?_).1 hg <;> rfl
  | member hr _ hk _ ih =>
    refine .of_parts hg (by simp [Shape.role]) ((hs _ (by simp)).isName hk)
      ⟨fun _ => rfl, trivial⟩ trivial ?_ ?_
    · rintro _ ⟨⟩
      exact role_of_expression hr
    · simpa [Node.parts, Shape.parts] using ih fun t ht => hs t (by simp [ht])
  | @key r ts tk object key o c p b x hr _ hk _ _ ihr ihk =>
    have hbracketed : (key.bracketed object).Grouped := by
      refine (Node.grouped_congr ?_ ?_).1 hg <;> rfl
    obtain ⟨hgkey, hgobject⟩ := hbracketed.of_bracketed
    exact bracketed_printable (ihk (fun t ht => hs t (by simp [ht])) hgkey) (role_of_nested hk)
      (ihr (fun t ht => hs t (by simp [ht])) hgobject) (role_of_expression hr)
      ((Node.grouped_iff.1 hg).1.2 _ rfl) p b x
  | call hr _ hsep _ hi _ ihr ihi =>
    refine .of_parts hg (by simp [Shape.role]) trivial ⟨fun _ => rfl, rfl, rfl⟩ ?_ ?_ ?_
    · exact fun n hn => beq_iff_eq.1 (items_admitted hi n hn)
    · rintro _ ⟨⟩
      exact role_of_expression hr
    · intro part hpart
      rcases List.mem_cons.1 hpart with rfl | hpart
      · exact ihr fun t ht => hs t (by simp [ht])
      · exact items_printable hsep (fun t ht => hs t (by simp [ht])) ihi part hpart
  | @binary r tl tr left right t kind op p p' b b' x x' hl _ ho ht hr _ ihl ihr =>
    refine .of_unmarked hg rfl rfl trivial
      ⟨role_of_expression hl, rfl, role_of_expression hr⟩ ?_
    simp only [Shape.parts, List.mem_cons, List.not_mem_nil, or_false, forall_eq_or_imp, forall_eq]
    refine ⟨ihl fun t ht => hs t (by simp [ht]), fun _ => ?_, ihr fun t ht => hs t (by simp [ht])⟩
    exact operator_printable (hs t (by simp)) ho ht
  | unary _ hv _ ih =>
    refine .of_unmarked hg rfl rfl trivial (role_of_nested hv) ?_
    simpa [Shape.parts] using ih fun t ht => hs t (by simp [ht])
  | param hk _ ht _ =>
    refine .of_leaf rfl rfl rfl trivial ⟨(hs _ (by simp)).isName hk, ?_⟩ trivial
    rintro _ rfl
    cases ht with
    | present _ ht => exact ht.isType fun t hmem => hs t (by simp [hmem])
  | field hk _ ht _ _ =>
    refine .of_leaf rfl rfl rfl trivial ⟨(hs _ (by simp)).isName hk, ?_⟩ trivial
    exact ht.isType fun t hmem => hs t (by simp [hmem])
  | index _ _ _ _ hsep hi _ _ =>
    refine .of_leaf rfl rfl rfl trivial (fun field hf => ?_) trivial
    obtain ⟨item, hmem, rfl⟩ := List.mem_map.1 hf
    refine (hi item hmem).isName fun t ht => hs t ?_
    simp [hsep.mem (List.mem_map_of_mem hmem) ht]
  | function _ ht _ hsep hi _ _ _ hb _ _ ihi ihb =>
    refine .of_unmarked hg rfl rfl ((hs _ (by simp)).isName ht)
      ⟨fun n hn => beq_iff_eq.1 (items_admitted hi n hn), lines_admitted hb⟩ fun part hpart => ?_
    rcases List.mem_append.1 hpart with hpart | hpart
    · exact items_printable hsep (fun t ht => hs t (by simp [ht])) ihi part hpart
    · exact lines_printable (fun t ht => hs t (by simp [ht])) ihb part hpart
  | collection _ ht _ _ hi _ _ ih =>
    exact .of_unmarked hg rfl rfl ((hs _ (by simp)).isName ht) (lines_admitted hi)
      (lines_printable (fun t ht => hs t (by simp [ht])) ih)
  | elseIf _ _ hv _ _ hb _ _ ihv ihb =>
    refine .of_unmarked hg rfl rfl trivial ⟨role_of_nested hv, lines_admitted hb⟩
      fun part hpart => ?_
    rcases List.mem_cons.1 hpart with rfl | hpart
    · exact ihv fun t ht => hs t (by simp [ht])
    · exact lines_printable (fun t ht => hs t (by simp [ht])) ihb part hpart
  | elseClause _ _ _ hb _ _ ih =>
    exact .of_unmarked hg rfl rfl trivial (lines_admitted hb)
      (lines_printable (fun t ht => hs t (by simp [ht])) ih)
  | ifStmt _ hv _ _ hb _ hi hl _ ihv ihb ihi =>
    refine .of_unmarked hg rfl rfl trivial ⟨role_of_nested hv, lines_admitted hb,
      fun n hn => beq_iff_eq.1 (items_admitted hi n hn), ?_⟩ fun part hpart => ?_
    · intro n hn
      rw [← List.map_dropLast] at hn
      obtain ⟨clause, hmem, rfl⟩ := List.mem_map.1 hn
      exact hl clause hmem
    · rcases List.mem_cons.1 hpart with rfl | hpart
      · exact ihv fun t ht => hs t (by simp [ht])
      rcases List.mem_append.1 hpart with hpart | hpart
      · exact lines_printable (fun t ht => hs t (by simp [ht])) ihb part hpart
      · obtain ⟨clause, hmem, rfl⟩ := List.mem_map.1 hpart
        refine ihi clause hmem fun t ht => hs t ?_
        have : t ∈ List.flatMap Prod.fst _ := List.mem_flatMap.2 ⟨clause, hmem, ht⟩
        simp [this]
  | constDecl _ ht _ hv _ ih =>
    refine .of_unmarked hg rfl rfl ((hs _ (by simp)).isName ht) (role_of_nested hv) ?_
    simpa [Shape.parts] using ih fun t ht => hs t (by simp [ht])
  | letValue _ ht _ hv _ ih =>
    refine .of_unmarked hg rfl rfl ((hs _ (by simp)).isName ht) ?_ ?_
    · rintro _ ⟨⟩
      exact role_of_nested hv
    · simpa [Shape.parts] using ih fun t ht => hs t (by simp [ht])
  | letBare _ ht _ =>
    exact .of_leaf rfl rfl rfl trivial ((hs _ (by simp)).isName ht) (by simp [Shape.PartsValid])
  | returnValue _ hv _ ih =>
    refine .of_unmarked hg rfl rfl trivial ?_ ?_
    · rintro _ ⟨⟩
      exact role_of_nested hv
    · simpa [Shape.parts] using ih fun t ht => hs t (by simp [ht])
  | returnBare => exact .of_leaf rfl rfl rfl trivial trivial (by simp [Shape.PartsValid])
  | @assign r tl tr left right t op p p' b b' x x' hl ha hk ho ht hr _ ihl ihr =>
    refine .of_unmarked hg rfl rfl trivial
      ⟨role_of_nested hl, ha, ⟨op, rfl, ?_⟩, role_of_nested hr⟩ ?_
    -- The three tokens that assign are those of the three assigning operators
    · have hkind := Parse.kind_of_ofKind? ho
      rw [← hkind] at hk
      revert hk
      cases op <;> decide
    · simp only [Shape.parts, List.mem_cons, List.not_mem_nil, or_false, forall_eq_or_imp,
        forall_eq]
      refine ⟨ihl fun t ht => hs t (by simp [ht]), fun _ => ?_,
        ihr fun t ht => hs t (by simp [ht])⟩
      exact operator_printable (hs t (by simp)) ho ht

/-! ## Programs -/

/-- A result that is no error is a value. -/
theorem exists_of_isOk {ε α : Type} {x : Except ε α} (h : x.isOk = true) : ∃ a, x = .ok a := by
  cases x with
  | ok a => exact ⟨a, rfl⟩
  | error e => cases h

/-- What holds of the statements of every program that is parsed. -/
theorem parse_form {source : String} {nodes : List Node} (h : parse source = .ok nodes) :
    nodes ≠ [] ∧ (∀ n ∈ nodes, n.isTop = true ∧ n.AllPrintable) ∧
      Node.programNesting nodes ≤ maxDepth := by
  obtain ⟨lexemes, stop, lines, hsource, htokens, rfl, hparsed⟩ := parse_reads h
  -- Every token comes from the text, so its words are words of the language
  have hscanned : ∀ t ∈ lines.tokens, t.Scanned := by
    rw [← htokens]
    simpa using Lexeme.scanned_of_ofSource hsource
  refine ⟨?_, fun n hn => ?_, largest_map_le_iff.2 fun n hn => ?_⟩
  · simpa [Lines.nodes] using hparsed.written.nonempty
  -- A statement is printable because of how it was written and of how its operators are grouped
  · have hgrouped := hparsed.grouped rfl n hn
    obtain ⟨s, hs, rfl⟩ := List.mem_map.1 hn
    have hwritten := hparsed.written.written s hs
    exact ⟨hwritten.admits, hwritten.printable
      (fun t ht => hscanned t (Lines.mem_tokens hs ht)) hgrouped⟩
  · obtain ⟨s, hs, rfl⟩ := List.mem_map.1 hn
    exact (hparsed.written.written s hs).nesting_le

end Schemata
