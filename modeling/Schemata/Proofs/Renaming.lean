import Schemata.Proofs.DepthLimit
import Schemata.Proofs.Height
import Schemata.Proofs.RoundTrip
import Schemata.Proofs.Walk

/-!
# Renaming

A walk (`Node.transform`) does not come to the keys of objects and to the further clauses of a
conditional, so one that replaces names (`Node.rename`) renames a tree only in part, and leaves all
texts as they were: `Node.renamed` says what becomes of the tree.

If names stay names, a renamed tree is well-formed, and it takes one level of nesting more at most.
So it survives being printed and parsed (`parse_printAll_rename`).
-/

namespace Schemata

/-! ## Renaming -/

namespace Node

/-- The node with all names in it replaced that a walk comes to. -/
def renamed (r : String → String) (node : Node) : Node :=
  node.fold fun node shape receiver =>
    { node with
      shape := (shape.mapReached Prod.snd Prod.fst).rename r
      receiver := receiver.map Prod.snd }

variable {r : String → String}

/-- Renaming, one level at a time. -/
theorem renamed_eq (node : Node) :
    node.renamed r =
      { node with
        shape := (node.shape.mapReached (renamed r) id).rename r
        receiver := node.receiver.map (renamed r) } := by
  rw [renamed, fold_eq, Shape.mapReached_map, Option.map_map]
  rfl

/-- A walk that goes down far enough renames the whole tree. -/
theorem transform_rename {levels : Nat} {node : Node} (h : node.height ≤ levels) :
    node.transform (rename r) levels = node.renamed r := by
  induction levels generalizing node with
  | zero =>
    rw [height_eq] at h
    cases h
  | succ levels ih =>
    -- The levels that are left are enough for all parts
    have hparts : ∀ part ∈ node.parts, part.transform (rename r) levels = part.renamed r := by
      intro part hpart
      have hlt := height_lt_of_mem_parts hpart
      exact ih (by omega)
    have hshape : node.shape.mapReached (transform (rename r) levels) id =
        node.shape.mapReached (renamed r) id :=
      Shape.mapReached_congr fun part hpart => hparts part (List.mem_append_right _ hpart)
    have hreceiver : node.receiver.map (transform (rename r) levels) =
        node.receiver.map (renamed r) :=
      Option.map_congr fun part hpart =>
        hparts part (List.mem_append_left _ (Option.mem_toList.2 hpart))
    rw [transform_succ, mapChildren, renamed_eq, rename, Shape.mapReached_rename, hshape, hreceiver]

/-! ## Well-formedness

Renaming keeps what a node is used as and every mark, so it looks the same from its place. -/

/-- Renaming of a node by its fields. -/
theorem renamed_mk (shape : Shape Node) (p : Position) (b : Nat) (x : String)
    (parenthesized bracket : Bool) (receiver : Option Node) :
    (Node.mk shape p b x parenthesized bracket receiver).renamed r =
      ⟨(shape.mapReached (renamed r) id).rename r, p, b, x, parenthesized, bracket,
        receiver.map (renamed r)⟩ :=
  renamed_eq _

/-- The shape of a renamed node is renamed where a walk comes to. -/
private theorem shape_renamed (node : Node) :
    (node.renamed r).shape = (node.shape.mapReached (renamed r) id).rename r := by
  rw [renamed_eq node]

/-- The receiver of a renamed node is renamed. -/
private theorem receiver_renamed (node : Node) :
    (node.renamed r).receiver = node.receiver.map (renamed r) := by
  rw [renamed_eq node]

/-- Renaming a shape keeps its role. -/
private theorem role_renamedShape {μ ν : Type} (f g : μ → ν) (shape : Shape μ) :
    ((shape.mapReached f g).rename r).role = shape.role := by
  cases shape <;> rfl

section

variable (node : Node)

@[simp] theorem role_renamed : (node.renamed r).role = node.role := by
  rw [role, shape_renamed, role_renamedShape]
  rfl

@[simp] theorem isStatement_renamed : (node.renamed r).isStatement = node.isStatement := by
  simp [isStatement]

@[simp] theorem isTop_renamed : (node.renamed r).isTop = node.isTop := by
  simp [isTop]

@[simp] theorem isItem_renamed : (node.renamed r).isItem = node.isItem := by
  simp [isItem]

@[simp] theorem isUnmarked_renamed : (node.renamed r).isUnmarked = node.isUnmarked := by
  simp [isUnmarked, renamed_eq node]

@[simp] theorem isAssignable_renamed : (node.renamed r).isAssignable = node.isAssignable := by
  obtain ⟨shape, p, b, x, parenthesized, bracket, receiver⟩ := node
  rw [renamed_mk]
  cases shape <;> rfl

/-- Renaming keeps the family of an open binary expression. -/
@[simp] theorem openBinary?_renamed : (node.renamed r).openBinary? = node.openBinary? := by
  obtain ⟨shape, p, b, x, parenthesized, bracket, receiver⟩ := node
  rw [renamed_mk]
  cases shape <;> rfl

/-- Renaming keeps open unary operations. -/
@[simp] theorem isOpenUnary_renamed : (node.renamed r).isOpenUnary = node.isOpenUnary := by
  obtain ⟨shape, p, b, x, parenthesized, bracket, receiver⟩ := node
  rw [renamed_mk]
  cases shape <;> rfl

/-- Renaming keeps powers that end in an open unary operation. -/
@[simp] theorem endsInUnary_renamed : (node.renamed r).endsInUnary = node.endsInUnary := by
  have hunary : ∀ n : Node, (n.renamed r).isOpenUnary = n.isOpenUnary := isOpenUnary_renamed
  obtain ⟨shape, p, b, x, parenthesized, bracket, receiver⟩ := node
  rw [renamed_mk]
  cases shape with
  | binary kind left op right =>
    cases kind with
    | power => exact congrArg (_ && ·) (hunary right)
    | _ => rfl
  | _ => rfl

/-- Renaming keeps operators. -/
@[simp] theorem operator?_renamed : (node.renamed r).operator? = node.operator? := by
  have hmarks := isUnmarked_renamed (r := r) node
  obtain ⟨shape, p, b, x, parenthesized, bracket, receiver⟩ := node
  rw [renamed_mk] at *
  cases shape with
  | operator op => exact congrArg (if · then some op else none) hmarks
  | _ => rfl

/-- An operator stays what it is. -/
theorem shape_renamed_of_operator {op : Operator} (h : node.shape = .operator op) :
    (node.renamed r).shape = .operator op := by
  rw [shape_renamed, h]
  rfl

end

variable {node : Node}

/-- Words stay valid if names stay names.  Of all words only names change. -/
private theorem wordsValid_renamed {shape : Shape Node} {f : Node → Node}
    (hr : ∀ word, Scan.isName word = true → Scan.isName (r word) = true) (h : shape.WordsValid) :
    ((shape.mapReached f id).rename r).WordsValid := by
  cases shape with
  | name word => exact hr word h
  | _ => exact h

/-- Parts stay valid where they stand. -/
private theorem partsValid_renamed {shape : Shape Node} (h : shape.PartsValid) :
    ((shape.mapReached (renamed r) id).rename r).PartsValid := by
  cases shape <;>
    simp_all [Shape.mapReached, Shape.map, Shape.rename, Shape.PartsValid]

/-- Marks stay valid. -/
private theorem marksValid_renamed (h : node.MarksValid) : (node.renamed r).MarksValid := by
  have hmarks := isUnmarked_renamed (r := r) node
  obtain ⟨shape, p, b, x, parenthesized, bracket, receiver⟩ := node
  rw [renamed_mk] at *
  cases shape <;>
    simp_all [MarksValid, Shape.mapReached, Shape.map, Shape.rename, Shape.role]

/-- Operands stay grouped. -/
private theorem shapeOrdered_renamed {shape : Shape Node} (h : shape.Ordered) :
    ((shape.mapReached (renamed r) id).rename r).Ordered := by
  cases shape with
  | binary kind left op right =>
    obtain ⟨⟨o, ho, hbinds⟩, hleft, hright, hpower⟩ := h
    refine ⟨⟨o, shape_renamed_of_operator op ho, hbinds⟩, ?_⟩
    simpa using ⟨hleft, hright, hpower⟩
  | unary kind value =>
    intro k hk
    rw [openBinary?_renamed] at hk
    exact h k hk
  | _ => trivial

/-- Closed nodes stay closed. -/
private theorem closed_renamed (h : node.Closed) : (node.renamed r).Closed := by
  simpa [Closed] using h

/-- Renaming keeps a tree printable, if names stay names. -/
theorem Printable.renamed
    (hr : ∀ word, Scan.isName word = true → Scan.isName (r word) = true) (h : node.Printable) :
    (node.renamed r).Printable := by
  -- A renamed node has a receiver just where the node has one
  have hreceiver : ∀ receiver, (node.renamed r).receiver = some receiver →
      ∃ old, node.receiver = some old ∧ old.renamed r = receiver := by
    intro receiver heq
    rw [receiver_renamed] at heq
    exact Option.map_eq_some_iff.1 heq
  constructor
  · constructor
    · rw [shape_renamed]
      exact wordsValid_renamed hr h.words
    · exact marksValid_renamed h.marks
    · rw [shape_renamed]
      exact partsValid_renamed h.parts
    · intro receiver heq
      obtain ⟨old, hold, rfl⟩ := hreceiver receiver heq
      rw [role_renamed]
      exact h.receiver old hold
    · constructor
      · rw [shape_renamed]
        exact shapeOrdered_renamed h.ordered.1
      · intro receiver heq
        obtain ⟨old, hold, rfl⟩ := hreceiver receiver heq
        exact closed_renamed (h.ordered.2 old hold)
  · intro op hop
    -- A renamed operator was one before
    have hold : node.shape = .operator op := by
      rw [shape_renamed] at hop
      cases hs : node.shape with
      | operator op' =>
        rw [hs] at hop
        exact hop
      | _ =>
        rw [hs] at hop
        cases hop
    have htext : (node.renamed r).text = node.text := by rw [renamed_eq]
    rw [htext]
    exact h.spelled op hold

/-- The parts of a renamed node are renamed parts, or parts that a walk does not come to. -/
private theorem mem_parts_renamed {part : Node} (h : part ∈ (node.renamed r).parts) :
    part ∈ node.parts ∨ ∃ old ∈ node.parts, part = old.renamed r := by
  unfold parts at h ⊢
  rw [shape_renamed, receiver_renamed, Shape.parts_rename] at h
  rcases List.mem_append.1 h with h | h
  · obtain ⟨old, hold, rfl⟩ := Option.map_eq_some_iff.1 (Option.mem_toList.1 h)
    exact .inr ⟨old, List.mem_append_left _ (Option.mem_toList.2 hold), rfl⟩
  · rcases Shape.mem_parts_mapReached h with h | ⟨old, hold, rfl⟩
    · exact .inl (List.mem_append_right _ h)
    · exact .inr ⟨old, List.mem_append_right _ hold, rfl⟩

/-- Renaming keeps a whole tree printable. -/
theorem AllPrintable.renamed
    (hr : ∀ word, Scan.isName word = true → Scan.isName (r word) = true) (h : node.AllPrintable) :
    (node.renamed r).AllPrintable := by
  induction node using Node.induction with
  | step node ih =>
    obtain ⟨hnode, hparts⟩ := allPrintable_iff.1 h
    apply allPrintable_iff.2
    refine ⟨hnode.renamed hr, fun part hpart => ?_⟩
    -- A part is renamed, or is one that the walk does not come to and stays as it was
    rcases mem_parts_renamed hpart with hpart | ⟨old, hold, rfl⟩
    · exact hparts part hpart
    · exact ih old hold (hparts old hold)

/-! ## Nesting

An entry that was written as a name alone gets a key and a value when only its value is renamed, and
the value is then nested.  There is nothing further inside, so a tree takes one level more at
most. -/

/-- If all values grow by one at most, so does the largest. -/
private theorem largest_map_le_succ {α : Type} {f g : α → Nat} {xs : List α}
    (h : ∀ x ∈ xs, g x ≤ f x + 1) : largest (xs.map g) ≤ largest (xs.map f) + 1 := by
  rw [largest_map_le_iff]
  intro x hx
  have hbound := largest_map_le_iff.1 (Nat.le_refl (largest (xs.map f))) x hx
  have hstep := h x hx
  omega

/-- The room of a statement grows by one at most if that inside does. -/
private theorem standing_renamed_le {bound bound' : Nat} (h : bound' ≤ bound + 1) :
    (node.renamed r).standing bound' ≤ node.standing bound + 1 := by
  unfold standing
  rw [role_renamed]
  split <;> omega

/-- The room of a block grows by one at most if those of its statements do. -/
private theorem blockNesting_renamed_le {body : List Node}
    (h : ∀ n ∈ body, (n.renamed r).nesting ≤ n.nesting + 1) :
    blockNesting ((body.map (renamed r)).map fun part => (part, part.nesting)) ≤
      blockNesting (body.map fun part => (part, part.nesting)) + 1 := by
  unfold blockNesting
  rw [List.map_map, List.map_map, List.map_map]
  apply Nat.succ_le_succ
  exact largest_map_le_succ fun n hn => standing_renamed_le (h n hn)

/-- The room of an entry grows by one at most.  It may be written out where it was a name alone, but
    then its value is a name. -/
private theorem entryNesting_renamed_le {key value : Node} (hkey : key.isKey = true)
    (h : (value.renamed r).nesting ≤ value.nesting + 1) :
    (if isShorthand key (value.renamed r) then 0 else (value.renamed r).nesting + 1) ≤
      (if isShorthand key value then 0 else value.nesting + 1) + 1 := by
  by_cases hshort : isShorthand key value = true
  -- The value is a name, which nests nothing however it is called
  · obtain ⟨word, p, b, x, p', b', x', -, rfl⟩ := (isShorthand_iff hkey).1 hshort
    have hzero : (Node.renamed r ⟨.name word, p', b', x', false, false, none⟩).nesting = 0 := by
      rw [renamed_mk]
      exact nesting_mk_unmarked ..
    rw [hzero]
    split <;> omega
  · rw [if_neg hshort]
    split <;> omega

/-- The room of a shape grows by one at most if those of its parts do. -/
private theorem shapeNesting_renamed_le {shape : Shape Node} (hvalid : shape.PartsValid)
    (h : ∀ part ∈ shape.parts, (part.renamed r).nesting ≤ part.nesting + 1) :
    shapeNesting (((shape.mapReached (renamed r) id).rename r).map
      fun part => (part, part.nesting)) ≤
      shapeNesting (shape.map fun part => (part, part.nesting)) + 1 := by
  cases shape with
  | array items | call items =>
    simp only [Shape.mapReached, Shape.map, Shape.rename, shapeNesting, List.map_map]
    exact largest_map_le_succ fun item hitem => Nat.succ_le_succ (h item hitem)
  | object items | collection _ items =>
    simp only [Shape.mapReached, Shape.map, Shape.rename, shapeNesting, List.map_map]
    exact largest_map_le_succ h
  | entry key value =>
    exact entryNesting_renamed_le hvalid.1 (h value (.tail _ List.mem_cons_self))
  | binary _ left op right | assign left op right =>
    have hleft := h left List.mem_cons_self
    have hright := h right (.tail _ (.tail _ List.mem_cons_self))
    simp only [Shape.mapReached, Shape.map, Shape.rename, shapeNesting]
    omega
  | unary _ value | constDecl _ value | computed value =>
    have hvalue := h value List.mem_cons_self
    simp only [Shape.mapReached, Shape.map, Shape.rename, shapeNesting]
    omega
  | returnStmt value | letDecl _ value =>
    cases value with
    | none => exact Nat.zero_le _
    | some value => exact Nat.succ_le_succ (h value List.mem_cons_self)
  -- The further clauses stay as they are
  | ifStmt condition body clauses =>
    have hcondition := h condition List.mem_cons_self
    have hbody := blockNesting_renamed_le (r := r) fun n hn =>
      h n (.tail _ (List.mem_append_left clauses hn))
    simp only [Shape.mapReached, Shape.map, Shape.rename, shapeNesting, List.map_id]
    omega
  | elseIf condition body =>
    have hcondition := h condition List.mem_cons_self
    have hbody := blockNesting_renamed_le (r := r) fun n hn => h n (.tail _ hn)
    simp only [Shape.mapReached, Shape.map, Shape.rename, shapeNesting]
    omega
  | elseClause body => exact blockNesting_renamed_le h
  | function _ params body =>
    exact blockNesting_renamed_le fun n hn => h n (List.mem_append_right params hn)
  | _ => exact Nat.zero_le _

/-- Renaming takes one level more at most. -/
theorem nesting_renamed_le (h : node.AllPrintable) :
    (node.renamed r).nesting ≤ node.nesting + 1 := by
  induction node using Node.induction with
  | step node ih =>
    obtain ⟨hnode, hparts⟩ := allPrintable_iff.1 h
    have hshape := shapeNesting_renamed_le (r := r) hnode.parts fun part hpart =>
      ih part (List.mem_append_right _ hpart) (hparts part (List.mem_append_right _ hpart))
    have hreceiver : (node.receiver.map (renamed r)).elim 0 nesting ≤
        node.receiver.elim 0 nesting + 1 := by
      cases hr : node.receiver with
      | none => exact Nat.zero_le _
      | some receiver =>
        have hmem : receiver ∈ node.parts := by simp [parts, hr]
        exact ih receiver hmem (hparts receiver hmem)
    rw [nesting_eq, nesting_eq node, renamed_eq]
    dsimp only
    split <;> split <;> omega

/-- The room of a program grows by one at most. -/
theorem programNesting_renamed_le {nodes : List Node} (h : ∀ n ∈ nodes, n.AllPrintable) :
    programNesting (nodes.map (renamed r)) ≤ programNesting nodes + 1 := by
  unfold programNesting
  rw [List.map_map]
  apply largest_map_le_succ
  exact fun n hn => standing_renamed_le (nesting_renamed_le (h n hn))

end Node

/-! ## Programs -/

/-- A program in which names are replaced by names is what its canonical text is parsed as, if it
    was read with a level of nesting to spare.  The tree need not be one that comes out of the
    parser: its texts are those of the old names, and a key keeps its name beside a value with
    another. -/
theorem parse_printAll_rename {source : String} {nodes : List Node} {r : String → String}
    {levels : Nat} (h : parse source = .ok nodes)
    (hdepth : (Parser.ofSource .standard source).readStatements.2.cursor.deepest < maxDepth)
    (hr : ∀ word, Scan.isName word = true → Scan.isName (r word) = true)
    (hlevels : Node.listHeight nodes ≤ levels) :
    ∃ nodes', parse (Node.printAll (nodes.map (Node.transform (Node.rename r) levels))) =
        .ok nodes' ∧
      Node.sameList nodes' (nodes.map (Node.transform (Node.rename r) levels)) = true := by
  obtain ⟨hne, hnodes, -⟩ := parse_form h
  have hrenamed : nodes.map (Node.transform (Node.rename r) levels) =
      nodes.map (Node.renamed r) := by
    apply List.map_congr_left
    intro n hn
    rw [Node.listHeight_eq] at hlevels
    exact Node.transform_rename (largest_map_le_iff.1 hlevels n hn)
  have hne' : nodes.map (Node.renamed r) ≠ [] := by simpa using hne
  -- The places and the printable form survive, and the nesting grows by one at most
  have htop : ∀ n ∈ nodes.map (Node.renamed r), n.isTop = true := by
    simpa using fun n hn => (hnodes n hn).1
  have hprintable : ∀ n ∈ nodes.map (Node.renamed r), n.AllPrintable := by
    intro n hn
    obtain ⟨old, hold, rfl⟩ := List.mem_map.1 hn
    exact (hnodes old hold).2.renamed hr
  have hnesting : Node.programNesting (nodes.map (Node.renamed r)) ≤ maxDepth :=
    calc Node.programNesting (nodes.map (Node.renamed r))
      _ ≤ Node.programNesting nodes + 1 :=
        Node.programNesting_renamed_le fun n hn => (hnodes n hn).2
      _ ≤ (Parser.ofSource .standard source).readStatements.2.cursor.deepest + 1 :=
        Nat.succ_le_succ (programNesting_le_deepest h)
      _ ≤ maxDepth := hdepth
  rw [hrenamed]
  obtain ⟨nodes', hparse, herase⟩ := parse_printAll hne' htop hprintable hnesting
  exact ⟨nodes', hparse, Node.sameList_iff_erase.2 herase⟩

/-- One entry gets a key beside its value and another loses it. -/
theorem parse_printAll_rename_entries :
    let swap := fun word => if word = "a" then "b" else if word = "b" then "a" else word
    ∃ nodes nodes' : List Node, parse "x.a[\x7b a, b: a \x7d] = not b" = .ok nodes ∧
      let renamed := nodes.map (Node.transform (Node.rename swap) (Node.listHeight nodes))
      parse (Node.printAll renamed) = .ok nodes' ∧ Node.sameList nodes' renamed = true := by
  intro swap
  obtain ⟨nodes, h⟩ := exists_of_isOk
    (show (parse "x.a[\x7b a, b: a \x7d] = not b").isOk = true by decide +kernel)
  have hdepth : (Parser.ofSource .standard
      "x.a[\x7b a, b: a \x7d] = not b").readStatements.2.cursor.deepest < maxDepth := by
    decide +kernel
  have hswap : ∀ word, Scan.isName word = true → Scan.isName (swap word) = true := by
    intro word hword
    unfold swap
    split
    · decide
    · split
      · decide
      · exact hword
  obtain ⟨nodes', hparse, hsame⟩ := parse_printAll_rename h hdepth hswap (Nat.le_refl _)
  exact ⟨nodes, nodes', h, hparse, hsame⟩

end Schemata
