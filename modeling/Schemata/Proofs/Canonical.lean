import Schemata.Proofs.Derivation
import Schemata.Proofs.Pieces

/-!
# The canonical pieces are a way of writing the tree

A well-formed node is written by its own pieces in every place that admits it, as soon as there is
room for its nesting (`Node.canonical`).  The proof goes along the layers of a node from the inside:
its bare shape, what it is chained from or reached through, and its parentheses.
-/

namespace Schemata

open Piece

/-- Tokens that say what the canonical text of a node says. -/
def Node.tokens (node : Node) : List Token :=
  node.pieces.map Piece.token

/-- The node is written by its own pieces wherever there is room for it. -/
def Node.Canonical (node : Node) : Prop :=
  ∀ r place, place.admits node = true → place.nesting node ≤ r →
    Written .standard .any r place node.tokens node

/-! ## Sequences -/

/-- Items with commas between them are separated. -/
theorem separated_commas (items : List (List Piece)) :
    Separated (items.map (List.map Piece.token)) ((commas items).map Piece.token) := by
  -- The printer never puts a comma after the last item
  induction items with
  | nil => exact .nil
  | cons item rest ih =>
    cases rest with
    | nil =>
      rw [commas_singleton]
      exact .last
    | cons next rest =>
      rw [commas_cons_cons, List.map_append, List.map_cons]
      exact .comma rfl ih

/-- The nodes of a sequence with commas, each with its tokens. -/
private theorem exists_items {place : Place} {r : Nat} {nodes : List Node}
    (h : ∀ n ∈ nodes, Written .standard .any r place n.tokens n) :
    ∃ items : List (List Token × Node), items.map Prod.snd = nodes ∧
      Separated (items.map Prod.fst)
        ((commas ((nodes.map Node.withPieces).map (·.2))).map Piece.token) ∧
      ∀ item ∈ items, Written .standard .any r place item.1 item.2 := by
  refine ⟨nodes.map fun n => (n.tokens, n), by simp [Function.comp_def], ?_, by simpa using h⟩
  have := separated_commas (nodes.map Node.pieces)
  simpa [Function.comp_def, Node.tokens] using this

/-! ## Lines -/

/-- A statement ends before whatever may begin another, if that cannot go on with it. -/
theorem continues_of_starts {place : Place} {kind : TokenKind}
    (h : place.starts kind = true)
    (hc : [TokenKind.leftParen, .leftBracket, .minus].contains kind = false) :
    Grammar.standard.continues 0 kind = false := by
  -- There are finitely many kinds of tokens: try them all
  have hall : ∀ kind ∈ TokenKind.all, place.starts kind = true →
      [TokenKind.leftParen, .leftBracket, .minus].contains kind = false →
      Grammar.standard.continues 0 kind = false := by
    cases place <;> decide
  exact hall kind (TokenKind.mem_all kind) h hc

/-- Where the printer leaves the semicolon out, the statement before ends at the next one. -/
private theorem ends_of_ofBreak {r : Nat} {place : Place} {n m : Node}
    (hm : Written .standard .any r place m.tokens m)
    (hb : ofBreak n.withPieces m.withPieces = []) :
    Grammar.standard.Ends n (Token.first? m.tokens) := by
  rw [Node.ofBreak_withPieces] at hb
  -- Where the printer leaves the semicolon out, its own test has failed
  split at hb
  · cases hb
  · next hbreak =>
    simp only [Bool.or_eq_true, not_or, Bool.not_eq_true] at hbreak
    obtain ⟨t, us, hts, hstart⟩ := hm.starts
    obtain ⟨piece, pieces, hpieces, rfl, -⟩ := List.map_eq_cons_iff.1 hts
    refine ⟨fun h => absurd h (by simp [hbreak.1]), fun _ kind hk => ?_⟩
    simp only [Token.first?, hts, List.head?_cons, Option.map_some, Option.mem_some_iff] at hk
    subst hk
    rw [hpieces] at hbreak
    exact continues_of_starts hstart hbreak.2

/-- The statements of a list, with semicolons where they are needed. -/
private def stretches : List Node → List Stretch
  | [] => []
  | [n] => [⟨n.tokens, n, []⟩]
  | n :: m :: rest =>
    ⟨n.tokens, n, (ofBreak n.withPieces m.withPieces).map Piece.token⟩ :: stretches (m :: rest)

/-- A stretch is a statement of the list with semicolons behind it. -/
private theorem mem_stretches {nodes : List Node} {s : Stretch} (h : s ∈ stretches nodes) :
    s.node ∈ nodes ∧ s.tokens = s.node.tokens ∧ ∀ t ∈ s.breaks, t.kind = .semicolon := by
  -- The cases are those of the function: no statement, the last one or one before others
  fun_induction stretches nodes with
  | case1 => cases h
  | case2 n =>
    obtain rfl := List.mem_singleton.1 h
    exact ⟨by simp, rfl, by simp⟩
  | case3 n m rest ih =>
    rcases List.mem_cons.1 h with rfl | h
    · refine ⟨by simp, rfl, fun t ht => ?_⟩
      unfold ofBreak at ht
      split at ht
      · obtain rfl := List.mem_singleton.1 ht
        rfl
      · cases ht
    · obtain ⟨hmem, hs⟩ := ih h
      exact ⟨List.mem_cons_of_mem _ hmem, hs⟩

/-- Where no semicolon stands between two statements, the first one ends at the second. -/
private theorem stretches_isChain {r : Nat} {place : Place} {nodes : List Node}
    (h : ∀ n ∈ nodes, Written .standard .any r place n.tokens n) :
    (stretches nodes).IsChain fun stretch next =>
      stretch.breaks = [] → Grammar.standard.Ends stretch.node (Token.first? next.tokens) := by
  fun_induction stretches nodes with
  | case1 => exact .nil
  | case2 n => exact .singleton _
  | case3 n m rest ih =>
    have hrest := ih fun k hk => h k (List.mem_cons_of_mem _ hk)
    -- What comes next is the next statement, whether or not it is the last one
    have hfirst : ∃ breaks us, stretches (m :: rest) = ⟨m.tokens, m, breaks⟩ :: us := by
      cases rest with
      | nil => exact ⟨_, _, rfl⟩
      | cons k rest => exact ⟨_, _, rfl⟩
    obtain ⟨breaks, us, hfirst⟩ := hfirst
    rw [hfirst] at hrest ⊢
    refine hrest.cons_cons fun hb => ?_
    exact ends_of_ofBreak (h m (by simp)) (List.map_eq_nil_iff.1 hb)

/-- Statements as the printer puts them together are lines. -/
theorem exists_lines {place : Place} {r : Nat} {nodes : List Node}
    (h : ∀ n ∈ nodes, Written .standard .any r place n.tokens n) :
    ∃ lines : Lines, lines.nodes = nodes ∧
      lines.tokens = (ofLines (nodes.map Node.withPieces)).map Piece.token ∧
      lines.Spaced .standard ∧
      ∀ s ∈ lines.stretches, Written .standard .any r place s.tokens s.node := by
  -- Their nodes and their tokens are read off the stretches, one after another
  refine ⟨⟨[], stretches nodes⟩, ?_, ?_, ⟨by simp, fun s hs => (mem_stretches hs).2.2,
    stretches_isChain h⟩, fun s hs => ?_⟩
  · clear h
    fun_induction stretches nodes with
    | case1 | case2 => rfl
    | case3 n m rest ih => exact congrArg (n :: ·) ih
  · clear h
    fun_induction stretches nodes with
    | case1 => rfl
    | case2 n => simp [Lines.tokens, ofLines, Node.tokens]
    | case3 n m rest ih =>
      simp only [Lines.tokens, List.nil_append, List.flatMap_cons] at ih ⊢
      rw [ih]
      simp [ofLines, Node.tokens]
  · obtain ⟨hmem, htokens, -⟩ := mem_stretches hs
    rw [htokens]
    exact h _ hmem

/-! ## Expressions -/

section Expressions

variable {r : Nat} {p : Position} {b : Nat} {x : String}

/-- An expression is written where an operand may stand. -/
private theorem Node.Canonical.expression {n : Node} (h : n.Canonical)
    (hrole : n.role = .expression) (hr : n.nesting ≤ r) :
    Written .standard .any r .expression n.tokens n :=
  h r .expression (by simp [Place.admits, hrole]) hr

/-- An expression is written where it is nested, at the cost of one level. -/
private theorem Node.Canonical.nested {n : Node} (h : n.Canonical)
    (hrole : n.role = .expression) (hr : n.nesting + 1 ≤ r) :
    Written .standard .any r .nested n.tokens n :=
  h r .nested (by simp [Place.admits, hrole]) hr

/-- An unmarked expression is written by the pieces of its shape. -/
private theorem bare_canonical {shape : Shape Node} (hw : shape.WordsValid) (hp : shape.PartsValid)
    (ho : shape.Ordered) (hm : (Node.mk shape p b x false false none).MarksValid)
    (hrole : shape.role = .expression) (ih : ∀ part ∈ shape.parts, part.Canonical)
    (hr : Node.shapeNesting (shape.map fun part => (part, part.nesting)) ≤ r) :
    Written .standard .any r .expression
      ((Node.shapePieces x none (shape.map Node.withPieces)).map Piece.token)
      ⟨shape, p, b, x, false, false, none⟩ := by
  cases shape with
  -- One case for each shape that an expression may have without marks
  | array items =>
    simp only [Shape.map, Node.shapeNesting, List.map_map, largest_map_le_iff] at hr
    obtain ⟨items', rfl, hsep, hitems⟩ := @exists_items .nested r items
      fun n hn => (ih n hn).nested (hp n hn) (hr n hn)
    simp only [Shape.map, Node.shapePieces, enclosed, List.map_cons, List.map_append, List.map_nil]
    exact .array rfl hsep rfl hitems trivial
  | object entries =>
    simp only [Shape.map, Node.shapeNesting, List.map_map, largest_map_le_iff] at hr
    obtain ⟨entries', rfl, hsep, hentries⟩ := @exists_items .entry r entries
      fun n hn => ih n hn r .entry (beq_iff_eq.2 (hp n hn)) (hr n hn)
    simp only [Shape.map, Node.shapePieces, enclosed, List.map_cons, List.map_append, List.map_nil]
    exact .object rfl hsep rfl hentries trivial
  | number literal => exact .number rfl trivial
  | string value => exact .string rfl trivial
  | boolean value =>
    cases value with
    | true => exact @Written.boolean _ _ r (token ⟨.boolean, "true"⟩) p b x rfl trivial
    | false => exact @Written.boolean _ _ r (token ⟨.boolean, "false"⟩) p b x rfl trivial
  | name word => exact .name rfl trivial
  -- The operands are written at their own levels: no room is spent on them
  | binary kind left op right =>
    obtain ⟨hleft, hop, hright⟩ := hp
    obtain ⟨o, hop⟩ := Option.isSome_iff_exists.1 hop
    obtain ⟨p', b', x', rfl⟩ := Node.eq_of_operator? hop
    obtain ⟨_, ⟨⟩, hbinds⟩ := ho.1
    simp only [Shape.parts, List.mem_cons, List.not_mem_nil, or_false, forall_eq_or_imp,
      forall_eq] at ih
    simp only [Shape.map, Node.shapeNesting, Nat.max_le] at hr
    simp only [Shape.map, Node.shapePieces, Node.withPieces_snd, Node.pieces_mk_unmarked,
      List.map_append, List.map_cons, List.cons_append, List.nil_append]
    exact .binary (ih.1.expression hleft hr.1) hbinds (Operator.ofKind?_kind o) trivial
      (ih.2.2.expression hright hr.2) trivial
  | unary kind value =>
    have hvalue := (ih value (by simp [Shape.parts])).nested hp hr
    have hbegins : Grammar.standard.Begins kind kind.token := by
      cases kind <;> exact Grammar.begins_iff.2 rfl
    exact @Written.unary _ _ r (token (usual kind.token)) value.tokens value kind p b x hbegins
      hvalue trivial
  -- A call and a wrapped key always have a receiver
  | call args => cases hm.2.1
  | computed key => cases hm.2.1
  | _ => cases hrole

/-- What stands in brackets is a key with marks, or the shape without any. -/
private theorem exists_key {shape : Shape Node} {object : Node}
    (h : (Node.mk shape p b x false true (some object)).WellFormed)
    (hrole : shape.role = .expression) (ih : ∀ part ∈ shape.parts, part.Canonical)
    (hr : Node.shapeNesting (shape.map fun part => (part, part.nesting)) + 1 ≤ r) :
    ∃ key, Written .standard .any r .nested
        ((Node.shapePieces x none (shape.map Node.withPieces)).map Piece.token) key ∧
      (key.bracketed object).shape = shape ∧ (key.bracketed object).parenthesized = false := by
  obtain ⟨n, rfl⟩ : ∃ n, r = n + 1 := ⟨r - 1, by omega⟩
  -- A shape that can stand alone is its own key, without any marks
  have hbare : shape.standsAlone = true →
      ∃ key, Written .standard .any (n + 1) .nested
          ((Node.shapePieces x none (shape.map Node.withPieces)).map Piece.token) key ∧
        (key.bracketed object).shape = shape ∧ (key.bracketed object).parenthesized = false :=
    fun hm => ⟨⟨shape, p, b, x, false, false, none⟩,
      .nested (bare_canonical h.words h.parts h.ordered.1 (Node.marksValid_of_standsAlone hm) hrole
        ih (Nat.le_of_succ_le_succ hr)), rfl, rfl⟩
  cases shape with
  | computed key =>
    have hmarked : (key.receiver.isSome || key.bracket || key.parenthesized) = true := by
      have := h.marks.2.2
      cases hp : key.parenthesized <;> cases hb : key.bracket <;> simp_all [Node.isUnmarked]
    refine ⟨key, (ih key (by simp [Shape.parts])).nested h.parts hr, ?_, ?_⟩
    all_goals simp [Node.bracketed, hmarked, Node.ofShape]
  | call args => cases h.marks.2.2
  | _ => exact hbare rfl

/-- An expression without parentheses is written by its pieces. -/
private theorem chained_canonical {shape : Shape Node} {bracket : Bool} {receiver : Option Node}
    (h : (Node.mk shape p b x false bracket receiver).WellFormed) (hrole : shape.role = .expression)
    (ih : ∀ part ∈ (Node.mk shape p b x false bracket receiver).parts, part.Canonical)
    (hr : (Node.mk shape p b x false bracket receiver).nesting ≤ r) :
    Written .standard .any r .expression (Node.mk shape p b x false bracket receiver).tokens
      ⟨shape, p, b, x, false, bracket, receiver⟩ := by
  have ihs : ∀ part ∈ shape.parts, part.Canonical :=
    fun part hpart => ih part (List.mem_append_right _ hpart)
  rw [Node.nesting_eq] at hr
  simp only [Bool.false_eq_true, if_false, Nat.max_le] at hr
  obtain ⟨hobject, hinner⟩ := hr
  -- The mark that is outermost decides: brackets, a member, a call or none
  cases receiver with
  | none =>
    -- There are no brackets without an object before them
    obtain rfl : bracket = false := by
      cases bracket with
      | false => rfl
      | true => cases h.marks.1 rfl
    rw [Node.tokens, Node.pieces_mk_unmarked]
    exact bare_canonical h.words h.parts h.ordered.1 h.marks hrole ihs hinner
  | some object =>
    have hwritten := (ih object (by simp)).expression (h.receiver object rfl) hobject
    cases bracket with
    | true =>
      obtain ⟨key, hkey, hshape, hparenthesized⟩ := exists_key h hrole ihs hinner
      have hwhole := @Written.key .standard .any r object.tokens _ object key
        (usual .leftBracket).token (usual .rightBracket).token p b x hwritten rfl hkey rfl trivial
      rw [hshape, hparenthesized] at hwhole
      simpa [Node.tokens, Node.pieces_bracket, enclosed] using hwhole
    | false =>
      cases shape with
      | name word =>
        have hwhole := @Written.member .standard .any r object.tokens object
          (usual .dot).token (Piece.word word).token p b x hwritten rfl rfl trivial
        simpa [Node.tokens, Node.pieces_member] using hwhole
      | call args =>
        simp only [Shape.map, Node.shapeNesting, List.map_map, largest_map_le_iff,
          Bool.false_eq_true, if_false] at hinner
        obtain ⟨args', rfl, hsep, hargs⟩ := @exists_items .nested r args
          fun n hn => (ihs n hn).nested (h.parts n hn) (hinner n hn)
        have hwhole := @Written.call .standard .any r object.tokens _ object
          (usual .leftParen).token (usual .rightParen).token args' p b x hwritten rfl hsep rfl hargs
          trivial
        simpa [Node.tokens, Node.pieces_call, enclosed] using hwhole
      | computed key => cases h.marks.2.1
      | array | object | number | string | boolean | binary | unary => cases h.marks.2 rfl
      | _ => cases hrole

/-- An expression is written by its pieces. -/
private theorem expression_canonical {n : Node} (h : n.WellFormed) (hrole : n.role = .expression)
    (ih : ∀ part ∈ n.parts, part.Canonical) (hr : n.nesting ≤ r) :
    Written .standard .any r .expression n.tokens n := by
  obtain ⟨shape, p, b, x, parenthesized, bracket, receiver⟩ := n
  cases parenthesized with
  | false => exact chained_canonical h hrole ih hr
  | true =>
    -- The parentheses cost one nesting, which the inner expression is read with
    have hnesting : (Node.mk shape p b x true bracket receiver).nesting =
        (Node.mk shape p b x false bracket receiver).nesting + 1 := by
      rw [Node.nesting_eq, Node.nesting_eq ⟨shape, p, b, x, false, bracket, receiver⟩]
      rfl
    rw [hnesting] at hr
    obtain ⟨n, rfl⟩ : ∃ n, r = n + 1 := ⟨r - 1, by omega⟩
    have hwritten := chained_canonical (h.congr_parenthesized hrole) hrole ih
      (Nat.le_of_succ_le_succ hr)
    have hwhole := @Written.group .standard .any (n + 1) (usual .leftParen).token
      (usual .rightParen).token _ _ p b x rfl (.nested hwritten) rfl trivial
    simpa [Node.tokens, Node.pieces_parenthesized, enclosed] using hwhole

end Expressions

/-! ## Declarations -/

/-- A type is written by its pieces. -/
private theorem type_canonical {type : String} (h : Scan.IsType type) :
    TypeWritten ((ofType type).map Piece.token) type := by
  obtain ⟨name, hname, rfl | rfl⟩ := h
  · rw [ofType_name hname]
    exact .name rfl
  · rw [ofType_list hname]
    exact .list rfl rfl rfl

/-- A field of an index is written by its pieces. -/
private theorem indexField_canonical (field : IndexField) :
    IndexFieldWritten ((ofIndexField field).map Piece.token) field := by
  obtain ⟨name, direction⟩ := field
  cases direction with
  | none => exact .plain rfl
  | some direction => exact .directed rfl rfl rfl rfl (Direction.ofWord?_word direction) rfl

/-- What may be left out is written by its piece, or by none. -/
private theorem flag_canonical (kind : TokenKind) (present : Bool) :
    Flag kind ((if present then [usual kind] else []).map Piece.token) present := by
  cases present with
  | false => exact .absent
  | true => exact .present rfl

/-- An entry is written by its pieces, which leave out a value that repeats the key. -/
private theorem entry_canonical {r : Nat} {key value : Node} {p : Position} {b : Nat} {x : String}
    (hkey : key.isKey = true) (hrole : value.role = .expression) (ih : value.Canonical)
    (hr : (Node.mk (.entry key value) p b x false false none).nesting ≤ r) :
    Written .standard .any r .entry (Node.mk (.entry key value) p b x false false none).tokens
      ⟨.entry key value, p, b, x, false, false, none⟩ := by
  rw [Node.tokens, Node.pieces_entry]
  rw [Node.nesting_mk_unmarked] at hr
  simp only [Shape.map, Node.shapeNesting] at hr
  by_cases hshort : Node.isShorthand key value = true
  · rw [if_pos hshort]
    obtain ⟨name, p₁, b₁, x₁, p₂, b₂, x₂, rfl, rfl⟩ := (Node.isShorthand_iff hkey).1 hshort
    exact .shorthand rfl trivial trivial trivial
  · rw [if_neg hshort] at hr ⊢
    have hvalue := ih.nested hrole hr
    obtain ⟨p', b', x', ⟨name, rfl⟩ | ⟨text, rfl⟩⟩ := Node.eq_of_isKey hkey
    · exact .entry (.name rfl trivial) rfl hvalue trivial
    · exact .entry (.string rfl trivial) rfl hvalue trivial

/-- A parameter is written by its pieces. -/
private theorem param_canonical {r : Nat} {name : String} {type : Option String} {optional : Bool}
    {p : Position} {b : Nat} {x : String} (h : ∀ t, type = some t → Scan.IsType t) :
    Written .standard .any r .param
      (Node.mk (.param name type optional) p b x false false none).tokens
      ⟨.param name type optional, p, b, x, false, false, none⟩ := by
  have hnote : TypeNote ((type.elim [] (usual .colon :: ofType ·)).map Piece.token) type := by
    cases type with
    | none => exact .absent
    | some type => exact .present rfl (type_canonical (h type rfl))
  have hwhole := @Written.param .standard .any r (word name).token _ _ type optional p b x rfl
    (flag_canonical .question optional) hnote trivial
  simpa [Node.tokens, Shape.map, Node.shapePieces] using hwhole

/-- A field is written by its pieces. -/
private theorem field_canonical {r : Nat} {name type : String} {required : Bool} {p : Position}
    {b : Nat} {x : String} (h : Scan.IsType type) :
    Written .standard .any r .item
      (Node.mk (.field name type required) p b x false false none).tokens
      ⟨.field name type required, p, b, x, false, false, none⟩ := by
  have hwhole := @Written.field .standard .any r (word name).token _ _ _ type true required p b x
    rfl (flag_canonical .colon true) (type_canonical h) (flag_canonical .not required) trivial
  simpa [Node.tokens, Shape.map, Node.shapePieces] using hwhole

/-- An index is written by its pieces. -/
private theorem index_canonical {r : Nat} {fields : List IndexField} {p : Position} {b : Nat}
    {x : String} :
    Written .standard .any r .item (Node.mk (.index fields) p b x false false none).tokens
      ⟨.index fields, p, b, x, false, false, none⟩ := by
  have hwhole := @Written.index .standard .any r (usual .atSign).token (word "index").token
    (usual .leftParen).token (usual .rightParen).token
    (fields.map fun field => ((ofIndexField field).map Piece.token, field))
    ((commas (fields.map ofIndexField)).map Piece.token) p b x rfl rfl rfl rfl ?_ ?_ rfl trivial
  · simpa [Node.tokens, Shape.map, Node.shapePieces, enclosed, Function.comp_def] using hwhole
  · simpa [Function.comp_def] using separated_commas (fields.map ofIndexField)
  · simpa using fun field _ => indexField_canonical field

/-! ## Statements -/

section Statements

variable {r : Nat} {p : Position} {b : Nat} {x : String}

/-- The statements of a block are written one level further in. -/
private theorem exists_block {body : List Node} (hb : ∀ n ∈ body, n.isStatement = true)
    (ih : ∀ n ∈ body, n.Canonical)
    (hr : Node.blockNesting (body.map fun part => (part, part.nesting)) ≤ r) :
    ∃ n, r = n + 1 ∧ ∃ block : Lines, block.nodes = body ∧
      block.tokens = (ofLines (body.map Node.withPieces)).map Piece.token ∧
      block.Spaced .standard ∧
      ∀ s ∈ block.stretches, Written .standard .any n .statement s.tokens s.node := by
  -- A block has room for itself, so there is one nesting to give away
  simp only [Node.blockNesting, List.map_map] at hr
  refine ⟨r - 1, by omega, exists_lines fun n hn => ih n hn _ .statement (hb n hn) ?_⟩
  exact largest_map_le_iff.1 (Nat.le_sub_one_of_lt hr) n hn

/-- A function is written by its pieces. -/
private theorem function_canonical {name : String} {params body : List Node}
    (hp : ∀ n ∈ params, n.role = .param) (hb : ∀ n ∈ body, n.isStatement = true)
    (ihp : ∀ n ∈ params, n.Canonical) (ihb : ∀ n ∈ body, n.Canonical)
    (hr : (Node.mk (.function name params body) p b x false false none).nesting ≤ r) :
    Written .standard .any r .function
      (Node.mk (.function name params body) p b x false false none).tokens
      ⟨.function name params body, p, b, x, false, false, none⟩ := by
  rw [Node.nesting_mk_unmarked] at hr
  obtain ⟨n, rfl, block, rfl, htokens, hspaced, hblock⟩ := exists_block hb ihb hr
  obtain ⟨params', rfl, hsep, hparams⟩ := @exists_items .param (n + 1) params
    fun m hm => ihp m hm _ .param (beq_iff_eq.2 (hp m hm)) (Nat.zero_le _)
  have hwhole := @Written.function .standard .any n (usual (.keyword .function)).token
    (word name).token (usual .leftParen).token (usual .rightParen).token (usual .leftBrace).token
    (usual .rightBrace).token params' _ block p b x rfl rfl rfl hsep hparams rfl rfl hspaced hblock
    rfl trivial
  rw [htokens] at hwhole
  simpa [Node.tokens, Shape.map, Node.shapePieces, enclosed, ofBlock] using hwhole

/-- An `else if` is written by its pieces. -/
private theorem elseIf_canonical {condition : Node} {body : List Node}
    (hc : condition.role = .expression) (hb : ∀ n ∈ body, n.isStatement = true)
    (ihc : condition.Canonical) (ihb : ∀ n ∈ body, n.Canonical)
    (hr : (Node.mk (.elseIf condition body) p b x false false none).nesting ≤ r) :
    Written .standard .any r .clause
      (Node.mk (.elseIf condition body) p b x false false none).tokens
      ⟨.elseIf condition body, p, b, x, false, false, none⟩ := by
  rw [Node.nesting_mk_unmarked] at hr
  simp only [Shape.map, Node.shapeNesting, Nat.max_le] at hr
  obtain ⟨n, rfl, block, rfl, htokens, hspaced, hblock⟩ := exists_block hb ihb hr.2
  have hwhole := @Written.elseIf .standard .any n (usual (.keyword .elseWord)).token
    (usual (.keyword .ifWord)).token (usual .leftBrace).token (usual .rightBrace).token _ _ block
    p b x rfl rfl (ihc.nested hc hr.1) rfl hspaced hblock rfl trivial
  rw [htokens] at hwhole
  simpa [Node.tokens, Shape.map, Node.shapePieces, enclosed, ofBlock] using hwhole

/-- An `else` is written by its pieces. -/
private theorem elseClause_canonical {body : List Node} (hb : ∀ n ∈ body, n.isStatement = true)
    (ihb : ∀ n ∈ body, n.Canonical)
    (hr : (Node.mk (.elseClause body) p b x false false none).nesting ≤ r) :
    Written .standard .any r .clause (Node.mk (.elseClause body) p b x false false none).tokens
      ⟨.elseClause body, p, b, x, false, false, none⟩ := by
  rw [Node.nesting_mk_unmarked] at hr
  obtain ⟨n, rfl, block, rfl, htokens, hspaced, hblock⟩ := exists_block hb ihb hr
  have hwhole := @Written.elseClause .standard .any n (usual (.keyword .elseWord)).token
    (usual .leftBrace).token (usual .rightBrace).token block p b x rfl rfl hspaced hblock rfl
    trivial
  rw [htokens] at hwhole
  simpa [Node.tokens, Shape.map, Node.shapePieces, enclosed, ofBlock] using hwhole

/-- An `if` statement is written by its pieces, and those of its alternatives. -/
private theorem ifStmt_canonical {condition : Node} {body clauses : List Node}
    (hc : condition.role = .expression) (hb : ∀ n ∈ body, n.isStatement = true)
    (hcs : ∀ n ∈ clauses, n.role = .clause) (hl : ∀ n ∈ clauses.dropLast, n.isElseIf = true)
    (ihc : condition.Canonical) (ihb : ∀ n ∈ body, n.Canonical)
    (ihs : ∀ n ∈ clauses, n.Canonical)
    (hr : (Node.mk (.ifStmt condition body clauses) p b x false false none).nesting ≤ r) :
    Written .standard .any r .statement
      (Node.mk (.ifStmt condition body clauses) p b x false false none).tokens
      ⟨.ifStmt condition body clauses, p, b, x, false, false, none⟩ := by
  rw [Node.nesting_mk_unmarked] at hr
  simp only [Shape.map, Node.shapeNesting, Nat.max_le, List.map_map, largest_map_le_iff] at hr
  obtain ⟨hcondition, hbody, hclauses⟩ := hr
  -- The block spends one nesting, and the clauses stand at the level of the statement
  obtain ⟨n, rfl, block, rfl, htokens, hspaced, hblock⟩ := exists_block hb ihb hbody
  have hwhole := @Written.ifStmt .standard .any n (usual (.keyword .ifWord)).token
    (usual .leftBrace).token (usual .rightBrace).token _ _ block
    (clauses.map fun clause => (clause.tokens, clause)) p b x rfl (ihc.nested hc hcondition) rfl
    hspaced hblock rfl ?_ ?_ trivial
  · rw [htokens] at hwhole
    simpa [Node.tokens, Shape.map, Node.shapePieces, enclosed, ofBlock, Function.comp_def,
      List.flatMap_map, List.map_flatMap] using hwhole
  · simpa using fun clause hmem => ihs clause hmem _ .clause (beq_iff_eq.2 (hcs clause hmem))
      (hclauses clause hmem)
  · simpa [← List.map_dropLast] using hl

/-- A statement that is not an expression is written by its pieces. -/
private theorem statement_canonical {shape : Shape Node}
    (h : (Node.mk shape p b x false false none).WellFormed) (hrole : shape.role = .statement)
    (ih : ∀ part ∈ shape.parts, part.Canonical)
    (hr : (Node.mk shape p b x false false none).nesting ≤ r) :
    Written .standard .any r .statement (Node.mk shape p b x false false none).tokens
      ⟨shape, p, b, x, false, false, none⟩ := by
  have hparts := h.parts
  rw [Node.nesting_mk_unmarked] at hr
  rw [Node.tokens, Node.pieces_mk_unmarked]
  -- One case for each shape that only a statement may have
  cases shape with
  | returnStmt value =>
    cases value with
    | none => exact .returnBare rfl trivial
    | some value =>
      have hvalue := (ih value (by simp [Shape.parts])).nested (hparts value rfl) hr
      exact .returnValue rfl hvalue trivial
  | constDecl name value =>
    have hvalue := (ih value (by simp [Shape.parts])).nested hparts hr
    exact .constDecl rfl rfl rfl hvalue trivial
  | letDecl name value =>
    cases value with
    | none => exact .letBare rfl rfl trivial
    | some value =>
      have hvalue := (ih value (by simp [Shape.parts])).nested (hparts value rfl) hr
      exact .letValue rfl rfl rfl hvalue trivial
  | assign left op right =>
    obtain ⟨hleft, hassignable, ⟨o, hop, ho⟩, hright⟩ := hparts
    obtain ⟨p', b', x', rfl⟩ := Node.eq_of_operator? hop
    simp only [Shape.map, Node.shapeNesting] at hr
    have hl : Written .standard .any r .nested left.tokens left :=
      (ih left (by simp [Shape.parts])).nested hleft (by omega)
    have hr : Written .standard .any r .nested right.tokens right :=
      (ih right (by simp [Shape.parts])).nested hright (by omega)
    have hkind : o.kind ∈ [TokenKind.assign, .addAssign, .subAssign] := by
      revert ho
      cases o <;> decide
    simp only [Shape.map, Node.shapePieces, Node.withPieces_snd, Node.pieces_mk_unmarked,
      List.map_append, List.map_cons, List.cons_append, List.nil_append]
    exact .assign hl hassignable hkind (Operator.ofKind?_kind o) trivial hr trivial
  | ifStmt condition body clauses =>
    obtain ⟨hc, hb, hcs, hl⟩ := hparts
    have hwhole := @ifStmt_canonical r p b x condition body clauses hc hb hcs hl
      (ih _ (by simp [Shape.parts])) (fun n hn => ih n (by simp [Shape.parts, hn]))
      (fun n hn => ih n (by simp [Shape.parts, hn])) (by rwa [Node.nesting_mk_unmarked])
    rwa [Node.tokens, Node.pieces_mk_unmarked] at hwhole
  | _ => cases hrole

/-- A collection is written by its pieces. -/
private theorem collection_canonical {name : String} {items : List Node}
    (hi : ∀ n ∈ items, n.isItem = true) (ih : ∀ n ∈ items, n.Canonical)
    (hr : (Node.mk (.collection name items) p b x false false none).nesting ≤ r) :
    Written .standard .any r .top (Node.mk (.collection name items) p b x false false none).tokens
      ⟨.collection name items, p, b, x, false, false, none⟩ := by
  rw [Node.nesting_mk_unmarked] at hr
  simp only [Shape.map, Node.shapeNesting, List.map_map, largest_map_le_iff] at hr
  obtain ⟨lines, rfl, htokens, hspaced, hitems⟩ := @exists_lines .item r items
    fun n hn => ih n hn _ .item (hi n hn) (hr n hn)
  have hwhole := @Written.collection .standard .any r (usual (.keyword .collection)).token
    (word name).token (usual .leftBrace).token (usual .rightBrace).token lines p b x rfl rfl rfl
    hspaced hitems rfl trivial
  rw [htokens] at hwhole
  simpa [Node.tokens, Shape.map, Node.shapePieces, enclosed, ofBlock] using hwhole

end Statements

/-! ## All nodes -/

/-- A node that is not an expression is written by its pieces in the places for it. -/
private theorem canonical_of_unmarked {shape : Shape Node} {p : Position} {b : Nat} {x : String}
    (h : (Node.mk shape p b x false false none).WellFormed) (hrole : shape.role ≠ .expression)
    (ih : ∀ part ∈ shape.parts, part.Canonical) :
    (Node.mk shape p b x false false none).Canonical := by
  intro r place hplace hr
  have hparts := h.parts
  have hwords := h.words
  -- Each shape has its places, and is not admitted in any other
  cases shape with
  | entry key value =>
    cases place with
    | entry => exact entry_canonical hparts.1 hparts.2 (ih value (by simp [Shape.parts])) hr
    | _ => cases hplace
  | param name type optional =>
    cases place with
    | param => exact param_canonical hwords.2
    | _ => cases hplace
  | field name type required =>
    cases place with
    | item => exact field_canonical hwords.2
    | _ => cases hplace
  | index fields =>
    cases place with
    | item => exact index_canonical
    | _ => cases hplace
  | elseIf condition body =>
    cases place with
    | clause =>
      exact elseIf_canonical hparts.1 hparts.2 (ih _ (by simp [Shape.parts]))
        (fun n hn => ih n (by simp [Shape.parts, hn])) hr
    | _ => cases hplace
  | elseClause body =>
    cases place with
    | clause => exact elseClause_canonical hparts ih hr
    | _ => cases hplace
  | function name params body =>
    have hfunction := @function_canonical r p b x name params body hparts.1 hparts.2
      (fun n hn => ih n (by simp [Shape.parts, hn])) (fun n hn => ih n (by simp [Shape.parts, hn]))
    cases place with
    | function => exact hfunction hr
    | item => exact .functionItem (hfunction hr)
    | top => exact .functionTop (hfunction hr)
    | _ => cases hplace
  | collection name items =>
    cases place with
    | top => exact collection_canonical hparts ih hr
    | _ => cases hplace
  | returnStmt | constDecl | letDecl | assign | ifStmt =>
    cases place with
    | statement => exact statement_canonical h rfl ih hr
    | top => exact .statement (statement_canonical h rfl ih hr)
    | _ => cases hplace
  | operator op => cases place <;> cases hplace
  | _ => exact absurd rfl hrole

/-- An expression that is written by its pieces is so in every place for expressions. -/
private theorem canonical_of_expression {n : Node} (hrole : n.role = .expression)
    (h : ∀ r, n.nesting ≤ r → Written .standard .any r .expression n.tokens n) : n.Canonical := by
  have hnested : ∀ r, n.nesting + 1 ≤ r → Written .standard .any r .nested n.tokens n := by
    intro r hr
    obtain ⟨k, rfl⟩ : ∃ k, r = k + 1 := ⟨r - 1, by omega⟩
    exact .nested (h k (Nat.le_of_succ_le_succ hr))
  intro r place hplace hr
  -- As an operand, nested, or alone as a statement; no other place admits it
  cases place with
  | expression => exact h r hr
  | nested => exact hnested r hr
  | statement | top =>
    simp only [Place.nesting, Node.standing, hrole, if_true] at hr
    first
    | exact .expression (hnested r hr)
    | exact .statement (.expression (hnested r hr))
  | _ => simp [Place.admits, Node.isItem, hrole] at hplace

/-- A well-formed node is written by its own pieces. -/
theorem Node.canonical {n : Node} (h : ∀ m ∈ n.subtrees, m.WellFormed) : n.Canonical := by
  induction n using Node.induction with
  | step n ih =>
    obtain ⟨hn, hparts⟩ := forall_subtrees_iff.1 h
    have ih : ∀ part ∈ n.parts, part.Canonical := fun part hp => ih part hp (hparts part hp)
    -- Only expressions carry marks, and only they fit in more than one kind of place
    by_cases hrole : n.role = .expression
    · exact canonical_of_expression hrole fun r hr => expression_canonical hn hrole ih hr
    · have hunmarked := hn.eq_unmarked hrole
      rw [hunmarked]
      exact canonical_of_unmarked (by rwa [← hunmarked]) hrole
        fun part hp => ih part (List.mem_append_right _ hp)

end Schemata
