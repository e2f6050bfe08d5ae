import Schemata.Node.Dump
import Schemata.Proofs.NodeText

/-!
# Dumps and programs

`Node.dump` forgets things: a number becomes the double that is nearest to it, or null, a field of
an index always has a direction, and an operator is only spelled.  But every statement keeps the
text that it was read from, and that text alone is parsed as the statement again
(`parse_statement_text`).  So a program can be told from its dump (`sameList_of_dump`).
-/

namespace Schemata

/-! ## Members of objects -/

namespace Json

variable {name key : String} {value : Json} {members : List (String × Json)}

/-- The first member counts if it has the name. -/
private theorem lookup_cons_eq (key : String) (value : Json) (members : List (String × Json)) :
    ((key, value) :: members).lookup name =
      if name = key then some value else members.lookup name := by
  rw [List.lookup_cons]
  by_cases h : name = key
  · simp [h]
  · simp [h, beq_false_of_ne h]

/-- A member that is put among others takes the place of the one with its key. -/
theorem lookup_insertMember :
    (insertMember key value members).lookup name =
      if name = key then some value else members.lookup name := by
  -- Induction along the members: the new one goes to the front, in the place of another or further
  -- back
  induction members with
  | nil => exact lookup_cons_eq key value []
  | cons member members ih =>
    obtain ⟨k, v⟩ := member
    unfold insertMember
    split
    · exact lookup_cons_eq ..
    · split
      · next hk =>
        subst hk
        rw [lookup_cons_eq, lookup_cons_eq]
        split <;> rfl
      · next hk =>
        rw [lookup_cons_eq, lookup_cons_eq, ih]
        by_cases hname : name = k
        · subst hname
          simp [Ne.symm hk]
        · simp [hname]

/-- Putting members in one after another, the last one with a key counts. Induction is on the
    members, for any object to begin with. -/
private theorem lookup_foldl_insertMember (ordered : List (String × Json)) :
    (members.foldl (fun ordered (key, value) => insertMember key value ordered) ordered).lookup
      name = (members.reverse.lookup name).or (ordered.lookup name) := by
  induction members generalizing ordered with
  | nil => rfl
  | cons member members ih =>
    rw [List.foldl_cons, ih, lookup_insertMember, List.reverse_cons, List.lookup_append,
      Option.or_assoc, lookup_cons_eq]
    split <;> rfl

/-- Of the members with a key, the last one counts. -/
theorem get?_ofMembers (name : String) (members : List (String × Json)) :
    (ofMembers members).get? name = members.reverse.lookup name := by
  have hlookup := @lookup_foldl_insertMember name members []
  rw [List.lookup_nil, Option.or_none] at hlookup
  exact hlookup

end Json

/-! ## The texts in a dump -/

/-- A node as JSON says what the text of the node is. -/
theorem Node.get?_toJson_text (n : Node) : n.toJson.get? "text" = some (.string n.text) := by
  obtain ⟨shape, position, lineBreaks, text, parenthesized, bracket, receiver⟩ := n
  unfold toJson
  rw [Json.get?_ofMembers, List.reverse_append, List.lookup_append]
  have hcommon : (commonMembers shape.label text position lineBreaks parenthesized bracket
      (optionToJson receiver)).reverse.lookup "text" = some (.string text) := by
    unfold commonMembers
    cases parenthesized <;> cases bracket <;> cases optionToJson receiver <;> rfl
  rw [hcommon]
  rfl

/-- The list is dumped node by node. -/
theorem Node.listToJson_eq_map (nodes : List Node) : listToJson nodes = nodes.map toJson := by
  induction nodes with
  | nil => rfl
  | cons n nodes ih =>
    rw [List.map_cons, ← ih]
    rfl

/-- What is dumped alike has the same texts, statement by statement. -/
theorem Node.texts_of_dump {nodes nodes' : List Node} (h : dump nodes = dump nodes') :
    nodes.map text = nodes'.map text := by
  have hitems : nodes.map toJson = nodes'.map toJson := by
    rw [← listToJson_eq_map, ← listToJson_eq_map]
    exact Json.array.inj h
  have htexts : ∀ ns : List Node,
      (ns.map toJson).map (Json.get? "text") =
        (ns.map text).map fun text => some (.string text) := by
    intro ns
    rw [List.map_map, List.map_map]
    apply List.map_congr_left
    exact fun n _ => n.get?_toJson_text
  have hinjective : Function.Injective fun text => some (Json.string text) := by
    intro text text' heq
    exact Json.string.inj (Option.some.inj heq)
  apply List.map_injective_iff.2 hinjective
  rw [← htexts, ← htexts, hitems]

/-! ## Programs -/

/-- Statements of programs that were read from the same text are the same. -/
theorem same_of_text {source source' : String} {nodes nodes' : List Node}
    (h : parse source = .ok nodes) (h' : parse source' = .ok nodes') {n n' : Node}
    (hn : n ∈ nodes) (hn' : n' ∈ nodes') (htext : n.text = n'.text) : n.same n' = true := by
  obtain ⟨m, hm, hsame⟩ := parse_statement_text h n hn
  obtain ⟨m', hm', hsame'⟩ := parse_statement_text h' n' hn'
  rw [htext, hm'] at hm
  obtain rfl := List.singleton_injective (Except.ok.inj hm)
  rw [Node.same_iff_erase] at hsame hsame' ⊢
  rw [← hsame, hsame']

/-- Lists of nodes are the same if their texts are, and nodes with one text are the same. -/
private theorem sameList_of_texts {nodes nodes' : List Node}
    (h : ∀ n ∈ nodes, ∀ n' ∈ nodes', n.text = n'.text → n.same n' = true)
    (htexts : nodes.map Node.text = nodes'.map Node.text) :
    Node.sameList nodes nodes' = true := by
  induction nodes generalizing nodes' with
  | nil =>
    obtain rfl := List.map_eq_nil_iff.1 htexts.symm
    rfl
  | cons n nodes ih =>
    cases nodes' with
    | nil => cases htexts
    | cons n' nodes' =>
      obtain ⟨htext, htexts⟩ := List.cons.inj htexts
      have hfirst := h n List.mem_cons_self n' List.mem_cons_self htext
      have hrest := ih (fun m hm m' hm' => h m (.tail _ hm) m' (.tail _ hm')) htexts
      unfold Node.sameList
      rw [hfirst, hrest]
      rfl

/-- Programs that are dumped alike are the same. -/
theorem sameList_of_dump {source source' : String} {nodes nodes' : List Node}
    (h : parse source = .ok nodes) (h' : parse source' = .ok nodes')
    (hdump : Node.dump nodes = Node.dump nodes') : Node.sameList nodes nodes' = true := by
  apply sameList_of_texts _ (Node.texts_of_dump hdump)
  intro n hn n' hn' htext
  exact same_of_text h h' hn hn' htext

/-- Whether two sources are parsed into the same nodes, read from the same places. -/
private def readAlike (source source' : String) : Bool :=
  match parse source, parse source' with
  | .ok nodes, .ok nodes' =>
    Node.sameList nodes nodes' && Node.origins nodes == Node.origins nodes'
  | _, _ => false

/-- If two sources are read alike, both are parsed into the same nodes. -/
private theorem parse_eq_of_readAlike {source source' : String}
    (h : readAlike source source' = true) :
    ∃ nodes, parse source = .ok nodes ∧ parse source' = .ok nodes := by
  unfold readAlike at h
  split at h
  case h_1 nodes nodes' hparse hparse' =>
    obtain ⟨hsame, horigins⟩ := Bool.and_eq_true_iff.1 h
    obtain rfl := Node.eq_of_sameList hsame (eq_of_beq horigins)
    exact ⟨nodes, hparse, hparse'⟩
  case h_2 => cases h

/-- What separates statements and what follows the last one is not in a dump.  The direction of a
    field, the literal of a number and the spelling of an operator are told by the texts alone. -/
theorem sameList_of_dump_separated :
    ∃ nodes nodes', parse "collection C { @index(b) };1.50 || y" = .ok nodes ∧
      parse "collection C { @index(b) } 1.50 || y // z" = .ok nodes' ∧
      Node.dump nodes = Node.dump nodes' ∧ Node.sameList nodes nodes' = true := by
  obtain ⟨nodes, h, h'⟩ := @parse_eq_of_readAlike "collection C { @index(b) };1.50 || y"
    "collection C { @index(b) } 1.50 || y // z" (by decide +kernel)
  exact ⟨nodes, nodes, h, h', rfl, sameList_of_dump h h' rfl⟩

end Schemata
