import Schemata.Proofs.Derivation
import Schemata.Proofs.Spelling

/-!
# The shape of parsed programs

A `Node` may stand anywhere and carry any mark, but the trees that are parsed are of one shape.
`Node.Shaped` says what that shape is, of one node and the nodes right below it; `parse_shaped`
says that it holds everywhere in a parsed program.

Names are compared with the lexer itself: a word is a name if it is read as one name and nothing
else (`isName_iff_lexes`).
-/

namespace Schemata

open Scan

/-! ## Names -/

/-- A name means the text that it is read from. -/
private theorem eq_text_of_scan {c : Char} {rest value text : List Char} {kind : TokenKind}
    (h : scan c rest = .token kind value text) (hkind : .name = kind) : value = text := by
  cases reading_of_scan h with
  | word | symbol => rfl
  | _ => cases hkind

/-- What a text reads as is no longer than the text, if it is a name. -/
private theorem length_le_of_lexes {text : List Char} {ps : List Piece} {name : String}
    (h : Lexes text ps) (hp : ps = [Piece.word name]) : name.toList.length ≤ text.length := by
  -- Induction on how the text is read: what is passed over only makes it longer
  induction h with
  | nil => cases hp
  | trivia hscan hsplit _ _ ih =>
    have hlen := congrArg List.length hsplit
    rw [List.length_append] at hlen
    have := ih hp
    omega
  | @piece c rest text after value kind pieces hscan hsplit _ _ _ =>
    obtain ⟨hpiece, -⟩ := List.cons.inj hp
    obtain ⟨hkind, rfl⟩ := Piece.mk.inj hpiece
    -- A name means the text it is read from, which is a front part
    have hvalue : value = text := eq_text_of_scan hscan hkind.symm
    rw [← hvalue] at hsplit
    have hlen := congrArg List.length hsplit
    rw [List.length_append] at hlen
    rw [String.toList_ofList]
    omega

/-- A word is a valid name exactly if the lexer reads it as one name and nothing else. -/
theorem isName_iff_lexes {name : String} :
    isName name = true ↔ Lexes name.toList [Piece.word name] := by
  constructor
  · intro h
    have hlexes : Lexes (name.toList ++ []) [Piece.word name] := lexes_name h rfl .nil
    rwa [List.append_nil] at hlexes
  · intro h
    cases hcs : name.toList with
    | nil =>
      rw [hcs] at h
      cases h
    | cons c cs =>
      have hfull := h
      rw [hcs] at h
      generalize hp : [Piece.word name] = ps at h
      cases h with
      -- Without its leading blanks or comments the text would be too short for the name
      | trivia hscan hsplit _ hafter =>
        have hshort := length_le_of_lexes hafter hp.symm
        have hpos := List.length_pos_iff.2 (scan_split hscan).1
        have hlen := congrArg List.length hsplit
        rw [List.length_append] at hlen
        rw [hcs] at hshort
        omega
      | @piece c rest text after value kind pieces hscan hsplit hkind hafter =>
        obtain ⟨hpiece, -⟩ := List.cons.inj hp
        obtain ⟨hk, hv⟩ := Piece.mk.inj hpiece
        rw [hv]
        exact isName_of_scan hscan hk.symm

/-- The name of a type: the type less a final pair of brackets. -/
def Scan.typeStem (type : String) : String :=
  if ['[', ']'] <:+ type.toList then
    String.ofList (type.toList.take (type.toList.length - 2))
  else type

/-- The name of a type that is a name is that name. -/
private theorem typeStem_name {name : String} (h : isName name = true) : typeStem name = name := by
  obtain ⟨c, cs, ht, -, hrest, -⟩ := exists_of_isName h
  unfold typeStem
  rw [if_neg]
  intro hsuffix
  have hmem : ']' ∈ c :: cs := by
    rw [← ht]
    exact hsuffix.subset (by simp)
  exact absurd (hrest ']' hmem) (by decide)

/-- The name of a type of lists is what stands before the brackets. -/
private theorem typeStem_list (name : String) : typeStem (name ++ "[]") = name := by
  have htext : (name ++ "[]").toList = name.toList ++ ['[', ']'] := String.toList_append
  unfold typeStem
  rw [htext, if_pos (List.suffix_append _ _)]
  simp

/-- The name of a type is a name. -/
theorem isName_typeStem {type : String} (h : IsType type) : isName (typeStem type) = true := by
  obtain ⟨name, hname, rfl | rfl⟩ := h
  · rw [typeStem_name hname]
    exact hname
  · rw [typeStem_list]
    exact hname

/-- The names that a shape holds itself, those of types among them. -/
def Shape.names {ν : Type} : Shape ν → List String
  | name word | constDecl word _ | letDecl word _ | function word _ _ | collection word _ => [word]
  | param word type _ => word :: (type.map typeStem).toList
  | field word type _ => [word, typeStem type]
  | index fields => fields.map IndexField.name
  | _ => []

/-- All names of a shape whose words are valid are names. -/
theorem Shape.WordsValid.isName {ν : Type} {shape : Shape ν} (h : shape.WordsValid) :
    ∀ word ∈ shape.names, Scan.isName word = true := by
  intro word hword
  cases shape with
  | param name type optional =>
    rcases List.mem_cons.1 hword with rfl | hword
    · exact h.1
    · obtain ⟨t, ht, rfl⟩ := Option.map_eq_some_iff.1 (Option.mem_toList.1 hword)
      exact isName_typeStem (h.2 t ht)
  | field name type required =>
    rcases List.mem_cons.1 hword with rfl | hword
    · exact h.1
    · rw [List.mem_singleton.1 hword]
      exact isName_typeStem h.2
  | index fields =>
    obtain ⟨field, hf, rfl⟩ := List.mem_map.1 hword
    exact h field hf
  | name | constDecl | letDecl | function | collection =>
    rw [List.mem_singleton.1 hword]
    exact h
  | _ => cases hword

/-! ## Shapes -/

namespace Node

/-- The node is what a value may be assigned to: a bare name or a member, neither of them in
    brackets, or something that brackets reach from an object; and never in parentheses. -/
def IsTarget (node : Node) : Prop :=
  node.parenthesized = false ∧
    ((∃ word, node.shape = .name word ∧ node.bracket = false) ∨
      node.bracket = true ∧ node.receiver.isSome = true)

/-- What is assignable and well-formed is a bare name, a member or what brackets reach. -/
theorem isTarget_of_isAssignable {node : Node} (h : node.isAssignable = true)
    (hm : node.MarksValid) : node.IsTarget := by
  obtain ⟨hbracket, -⟩ := hm
  unfold isAssignable at h
  rw [Bool.and_eq_true, Bool.not_eq_true'] at h
  refine ⟨h.1, ?_⟩
  by_cases hb : node.bracket = true
  · exact .inr ⟨hb, hbracket hb⟩
  · rw [Bool.not_eq_true] at hb
    have hshape := h.2
    rw [hb] at hshape
    cases hs : node.shape with
    | name word => exact .inl ⟨word, rfl, hb⟩
    | _ =>
      rw [hs] at hshape
      cases hshape

/-- What every node of a parsed program is like. -/
structure Shaped (node : Node) : Prop where
  /-- Names are read as such, and so are types less a final pair of brackets. -/
  names : ∀ word ∈ node.shape.names, Lexes word.toList [Piece.word word]
  /-- Parentheses, brackets and receivers are only where they may be. -/
  marks : node.MarksValid
  /-- Each part is what it may be in its place. -/
  parts : node.shape.PartsValid
  /-- Only from an expression anything is chained. -/
  receiver : ∀ receiver, node.receiver = some receiver → receiver.role = .expression
  /-- Values are assigned to names, members and what brackets reach. -/
  target : ∀ left op right, node.shape = .assign left op right → left.IsTarget
  /-- A collection is a part of nothing, and a function only of a collection. -/
  placed : ∀ part ∈ node.parts,
    part.role ≠ .collection ∧ (part.role = .function → node.role = .collection)

/-- The role is that of neither a function nor a collection. -/
private def isInner (role : Role) : Bool :=
  role != .function && role != .collection

/-- A statement is neither a function nor a collection. -/
private theorem isInner_of_isStatement {node : Node} (h : node.isStatement = true) :
    isInner node.role = true := by
  unfold isStatement at h
  cases hr : node.role <;> first | rfl | (rw [hr] at h; cases h)

/-- What has such a role is neither a function nor a collection. -/
private theorem isInner_of_role {node : Node} {role : Role} (h : node.role = role)
    (hrole : isInner role = true) : isInner node.role = true := by
  rw [h]
  exact hrole

/-- The key of an entry is neither a function nor a collection. -/
private theorem isInner_of_isKey {node : Node} (h : node.isKey = true) :
    isInner node.role = true := by
  obtain ⟨p, b, x, ⟨word, rfl⟩ | ⟨value, rfl⟩⟩ := eq_of_isKey h <;> rfl

/-- An operator is neither a function nor a collection. -/
private theorem isInner_of_operator? {node : Node} {op : Operator} (h : node.operator? = some op) :
    isInner node.role = true := by
  obtain ⟨p, b, x, rfl⟩ := eq_of_operator? h
  rfl

/-- The parts of a shape that is not that of a collection are neither functions nor
    collections. -/
private theorem isInner_of_partsValid {shape : Shape Node} (h : shape.PartsValid)
    (hc : shape.role ≠ .collection) : ∀ part ∈ shape.parts, isInner part.role = true := by
  intro part hpart
  -- One case for each group of shapes whose parts have the same roles
  cases shape with
  | array | call => exact isInner_of_role (h part hpart) rfl
  | object => exact isInner_of_role (h part hpart) rfl
  | unary | computed | constDecl =>
    rw [List.mem_singleton.1 hpart]
    exact isInner_of_role h rfl
  | returnStmt | letDecl => exact isInner_of_role (h part (Option.mem_toList.1 hpart)) rfl
  | entry key value =>
    obtain ⟨hkey, hvalue⟩ := h
    rcases List.mem_pair.1 hpart with rfl | rfl
    · exact isInner_of_isKey hkey
    · exact isInner_of_role hvalue rfl
  | binary kind left op right =>
    obtain ⟨hleft, hop, hright⟩ := h
    obtain ⟨o, ho⟩ := Option.isSome_iff_exists.1 hop
    simp only [Shape.parts, List.mem_cons, List.not_mem_nil, or_false] at hpart
    rcases hpart with rfl | rfl | rfl
    · exact isInner_of_role hleft rfl
    · exact isInner_of_operator? ho
    · exact isInner_of_role hright rfl
  | assign left op right =>
    obtain ⟨hleft, -, ⟨o, ho, -⟩, hright⟩ := h
    simp only [Shape.parts, List.mem_cons, List.not_mem_nil, or_false] at hpart
    rcases hpart with rfl | rfl | rfl
    · exact isInner_of_role hleft rfl
    · exact isInner_of_operator? ho
    · exact isInner_of_role hright rfl
  | ifStmt condition body clauses =>
    obtain ⟨hcondition, hbody, hclauses, -⟩ := h
    simp only [Shape.parts, List.mem_cons, List.mem_append] at hpart
    rcases hpart with rfl | hpart | hpart
    · exact isInner_of_role hcondition rfl
    · exact isInner_of_isStatement (hbody part hpart)
    · exact isInner_of_role (hclauses part hpart) rfl
  | elseIf condition body =>
    obtain ⟨hcondition, hbody⟩ := h
    rcases List.mem_cons.1 hpart with rfl | hpart
    · exact isInner_of_role hcondition rfl
    · exact isInner_of_isStatement (hbody part hpart)
  | elseClause => exact isInner_of_isStatement (h part hpart)
  | function name params body =>
    obtain ⟨hparams, hbody⟩ := h
    rcases List.mem_append.1 hpart with hpart | hpart
    · exact isInner_of_role (hparams part hpart) rfl
    · exact isInner_of_isStatement (hbody part hpart)
  | collection => exact absurd rfl hc
  | _ => cases hpart

/-- Parts of well-formed nodes are collections nowhere, and functions only in a collection. -/
private theorem placed_of_wellFormed {node : Node} (h : node.WellFormed) :
    ∀ part ∈ node.parts,
      part.role ≠ .collection ∧ (part.role = .function → node.role = .collection) := by
  intro part hpart
  by_cases hc : node.role = .collection
  · -- Items are fields, functions and indexes
    have hitem : part.isItem = true := by
      rcases List.mem_append.1 hpart with hpart | hpart
      · rw [h.eq_unmarked (by rw [hc]; decide)] at hpart
        cases hpart
      · have hparts := h.parts
        unfold role at hc
        cases hs : node.shape with
        | collection name items =>
          rw [hs] at hparts hpart
          exact hparts part hpart
        | _ =>
          rw [hs] at hc
          cases hc
    refine ⟨?_, fun _ => hc⟩
    intro hr
    rw [isItem, hr] at hitem
    cases hitem
  -- All other nodes have inner nodes as parts, which are neither
  · have hinner : isInner part.role = true := by
      rcases List.mem_append.1 hpart with hpart | hpart
      · exact isInner_of_role (h.receiver part (Option.mem_toList.1 hpart)) rfl
      · exact isInner_of_partsValid h.parts hc part hpart
    refine ⟨?_, ?_⟩
    all_goals
      intro hr
      rw [hr] at hinner
      cases hinner

/-- A node is of the shape of parsed programs if it and its parts are well-formed. -/
theorem shaped_of_wellFormed {node : Node} (h : node.WellFormed)
    (hparts : ∀ part ∈ node.parts, part.WellFormed) : node.Shaped where
  names word hword := isName_iff_lexes.1 (h.words.isName word hword)
  marks := h.marks
  parts := h.parts
  receiver := h.receiver
  target := by
    intro left op right hs
    have hvalid := h.parts
    rw [hs] at hvalid
    have hleft : left ∈ node.parts := by
      unfold Node.parts
      rw [hs]
      exact List.mem_append_right _ (List.mem_cons_self ..)
    exact isTarget_of_isAssignable hvalid.2.1 (hparts left hleft).marks
  placed := placed_of_wellFormed h

/-- Where every node is well-formed, every node is of the shape of parsed programs. -/
theorem AllPrintable.shaped {node : Node} (h : node.AllPrintable) :
    ∀ m ∈ node.subtrees, m.Shaped := by
  induction node using Node.induction with
  | step node ih =>
    obtain ⟨hnode, hparts⟩ := allPrintable_iff.1 h
    have hwf : ∀ part ∈ node.parts, part.WellFormed := fun part hpart =>
      (allPrintable_iff.1 (hparts part hpart)).1.toWellFormed
    exact forall_subtrees_iff.2 ⟨shaped_of_wellFormed hnode.toWellFormed hwf,
      fun part hpart => ih part hpart (hparts part hpart)⟩

end Node

/-! ## Parsed programs -/

/-- A program that is parsed has statements, functions and collections at its top, at least one of
    them, and every node in it is of the shape of parsed programs. -/
theorem parse_shaped {source : String} {nodes : List Node} (h : parse source = .ok nodes) :
    nodes ≠ [] ∧ (∀ node ∈ nodes, node.isTop = true) ∧
      ∀ node ∈ nodes, ∀ m ∈ node.subtrees, m.Shaped := by
  obtain ⟨hne, hform, -⟩ := parse_form h
  exact ⟨hne, fun node hn => (hform node hn).1, fun node hn => (hform node hn).2.shaped⟩

/-- A program with an assignment through brackets whose key has a receiver of its own, a clause
    of each sort, and a function in a collection. -/
theorem parse_shaped_collection :
    ∃ nodes, parse ("a.b[c.d] += \x7b e, 'f': (g) \x7d\n" ++
        "if h \x7b i(1) \x7d else if j \x7b \x7d else \x7b return \x7d\n" ++
        "collection K \x7b l: m[]; function n(o?: p) \x7b \x7d \x7d") = .ok nodes ∧
      nodes ≠ [] ∧ (∀ node ∈ nodes, node.isTop = true) ∧
        ∀ node ∈ nodes, ∀ m ∈ node.subtrees, m.Shaped := by
  obtain ⟨nodes, h⟩ := exists_of_isOk
    (show (parse ("a.b[c.d] += \x7b e, 'f': (g) \x7d\n" ++
        "if h \x7b i(1) \x7d else if j \x7b \x7d else \x7b return \x7d\n" ++
        "collection K \x7b l: m[]; function n(o?: p) \x7b \x7d \x7d")).isOk = true by
      decide +kernel)
  exact ⟨nodes, h, parse_shaped h⟩

end Schemata
