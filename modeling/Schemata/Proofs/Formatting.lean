import Schemata.Command.Basic
import Schemata.Proofs.Content
import Schemata.Proofs.RoundTrip

/-!
# Formatting

The canonical text of a source can take the place of the source.  That its statements come back is
known already, but only up to what `Node.same` looks at, and the canonical text depends on more: an
operator with two spellings is printed as it was written.  So a tree is compared here with its
operators as they are printed (`Node.spelled`).

Main results:

- `Node.spelled_eq_of_varied`: the shape of a tree and the operators in its pieces decide how its
  operators are spelled
- `printAll_parse`: the canonical text of a source is its own canonical text
- `validateInput_erase`: checking a record does not look at how a collection was written
- `Command.execute_formatted`: no command can tell the canonical text of a source from the source
-/

namespace Schemata

/-! ## Shapes with equal parts -/

/-- Shapes that differ in their parts only are equal as soon as these are. -/
theorem Shape.map_eq_of_parts {μ ν ξ : Type} {f : μ → ν} {g : μ → ξ} {a b : Shape μ}
    (h : a.map f = b.map f) (hparts : a.parts.map g = b.parts.map g) : a.map g = b.map g := by
  -- With all parts taken away, the images look as the shapes do
  have hbare : (a.map g).map (fun _ => ()) = (b.map g).map fun _ => () := by
    simpa only [Shape.map_map] using congrArg (Shape.map fun _ => ()) h
  exact Shape.eq_of_parts hbare (by simpa using hparts)

namespace Node

/-! ## Trees with their operators as they are printed -/

/-- The text that an operator is printed as, and no text for any other node. -/
def spelling (node : Node) : String :=
  match node.shape with
  | .operator op => if node.text.isEmpty then op.symbol else node.text
  | _ => ""

/-- The node without what it says about its source, but for the spelling of operators. -/
def spelled (node : Node) : Node :=
  node.fold fun node shape receiver =>
    { shape := shape.map Prod.snd
      position := Position.start
      lineBreaks := 0
      text := node.spelling
      parenthesized := node.parenthesized
      bracket := node.bracket
      receiver := receiver.map Prod.snd }

/-- The spelled tree, part by part. -/
theorem spelled_eq (node : Node) :
    node.spelled =
      ⟨node.shape.map spelled, Position.start, 0, node.spelling, node.parenthesized, node.bracket,
        node.receiver.map spelled⟩ := by
  rw [spelled, fold_eq]
  simp only [Shape.map_map, Option.map_map]
  rfl

/-- Whether a return statement returns something does not depend on spelling. -/
@[simp] theorem isBareReturn_spelled (node : Node) :
    node.spelled.isBareReturn = node.isBareReturn := by
  obtain ⟨shape, p, b, x, parenthesized, bracket, receiver⟩ := node
  rw [spelled_eq]
  cases shape with
  | returnStmt value => cases value <;> rfl
  | _ => rfl

/-- Whether a node is a name on its own does not depend on spelling. -/
@[simp] theorem isPlainName_spelled (node : Node) :
    node.spelled.isPlainName = node.isPlainName := by
  obtain ⟨shape, p, b, x, parenthesized, bracket, receiver⟩ := node
  rw [spelled_eq]
  cases shape <;> cases receiver <;> rfl

/-- A list of nodes is printed alike if each of them is. -/
private theorem printList_spelled {nodes : List Node}
    (h : ∀ node ∈ nodes, node.spelled.print = node.print) :
    printList (nodes.map spelled) = printList nodes := by
  rw [printList_eq_map, printList_eq_map, List.map_map]
  exact List.map_congr_left h

/-- Lines are printed alike if each of them is. -/
private theorem printLines_spelled {nodes : List Node}
    (h : ∀ node ∈ nodes, node.spelled.print = node.print) :
    printLines (nodes.map spelled) = printLines nodes := by
  rw [printLines_eq_map, printLines_eq_map, List.map_map]
  apply List.map_congr_left
  intro node hnode
  simp [h node hnode]

/-- An optional node is printed alike if it is. -/
private theorem printOption_spelled {node : Option Node}
    (h : ∀ part ∈ node.toList, part.spelled.print = part.print) :
    printOption (node.map spelled) = printOption node := by
  cases node with
  | none => rfl
  | some part => simp [h part (by simp)]

/-- A shape is printed alike if its parts are. The cases are those that print their parts in the
    same way, as a list, as an option or as lines. -/
private theorem printShape_spelled {shape : Shape Node} {p : Position} {b : Nat} {x : String}
    {parenthesized bracket : Bool} {receiver : Option Node} (object : Option String)
    (h : ∀ part ∈ shape.parts, part.spelled.print = part.print) :
    printShape (shape.map spelled) (spelling ⟨shape, p, b, x, parenthesized, bracket, receiver⟩)
      object = printShape shape x object := by
  cases shape with
  | array nodes | object nodes | call nodes =>
    simp only [Shape.map, printShape, @printList_spelled nodes h]
  | returnStmt value | letDecl name value =>
    simp only [Shape.map, printShape, printOption_spelled h]
  | elseClause nodes | collection name nodes =>
    simp only [Shape.map, printShape, @printLines_spelled nodes h]
  | elseIf condition body =>
    have hbody := printLines_spelled fun part hp => h part (List.mem_cons_of_mem _ hp)
    simp only [Shape.map, printShape, hbody, h condition (by simp [Shape.parts])]
  | ifStmt condition body clauses =>
    have hbody := @printLines_spelled body fun part hp => h part (by simp [Shape.parts, hp])
    have hclauses := @printList_spelled clauses fun part hp => h part (by simp [Shape.parts, hp])
    simp only [Shape.map, printShape, hbody, hclauses, h condition (by simp [Shape.parts])]
  | function name params body =>
    have hparams := @printList_spelled params fun part hp => h part (by simp [Shape.parts, hp])
    have hbody := @printLines_spelled body fun part hp => h part (by simp [Shape.parts, hp])
    simp only [Shape.map, printShape, hparams, hbody]
  | operator op =>
    -- What is printed is printed once more as it is, for no operator has an empty symbol
    have hsymbol : op.symbol.isEmpty = false := by cases op <;> decide
    simp only [Shape.map, printShape, spelling]
    split <;> simp_all
  | _ => simp_all [Shape.map, printShape, Shape.parts]

/-- The canonical text of a tree depends only on the tree with its operators as they are printed. -/
theorem print_spelled (node : Node) : node.spelled.print = node.print := by
  induction node using Node.induction with
  | step node ih =>
    obtain ⟨shape, p, b, x, parenthesized, bracket, receiver⟩ := node
    have hreceiver : printOption (receiver.map spelled) = printOption receiver :=
      printOption_spelled fun part hp => ih part (List.mem_append_left _ hp)
    have hshape : ∀ object, printShape (shape.map spelled)
        (spelling ⟨shape, p, b, x, parenthesized, bracket, receiver⟩) object =
          printShape shape x object :=
      fun object => printShape_spelled object fun part hp => ih part (List.mem_append_right _ hp)
    rw [spelled_eq, print, print, hreceiver, hshape, hshape]

/-- Programs that are spelled alike are printed alike. -/
theorem printAll_eq_of_spelled {as bs : List Node} (h : as.map spelled = bs.map spelled) :
    printAll as = printAll bs := by
  have hlines : ∀ nodes : List Node, printLines (nodes.map spelled) = printLines nodes :=
    fun nodes => printLines_spelled fun node _ => print_spelled node
  rw [printAll, printAll, ← hlines as, h, hlines]

end Node

/-! ## Operators among pieces -/

namespace Piece

/-- Whether the piece is an operator with two spellings. -/
def isVaried (piece : Piece) : Bool :=
  piece.kind == .or || piece.kind == .power

/-- The operators with two spellings among the pieces. -/
def varied (pieces : List Piece) : List Piece :=
  pieces.filter isVaried

@[simp] theorem varied_nil : varied [] = [] := rfl

@[simp] theorem varied_append (ps qs : List Piece) : varied (ps ++ qs) = varied ps ++ varied qs :=
  List.filter_append ..

@[simp] theorem varied_flatMap {α : Type} (f : α → List Piece) (items : List α) :
    varied (items.flatMap f) = items.flatMap fun item => varied (f item) :=
  List.filter_flatMap ..

/-- The operators of a list of pieces, piece by piece. -/
theorem varied_cons (p : Piece) (ps : List Piece) :
    varied (p :: ps) = if p.isVaried then p :: varied ps else varied ps :=
  List.filter_cons

@[simp] theorem varied_word (name : String) (ps : List Piece) :
    varied (word name :: ps) = varied ps := rfl

/-- Separating items by commas adds no operator. -/
@[simp] theorem varied_commas (items : List (List Piece)) :
    varied (commas items) = items.flatMap varied := by
  induction items with
  | nil => rfl
  | cons item items ih =>
    cases items with
    | nil => simp
    | cons next items =>
      rw [commas_cons_cons, varied_append, List.flatMap_cons, ← ih]
      rfl

/-- A type has no operator. -/
@[simp] theorem varied_ofType (type : String) : varied (ofType type) = [] := by
  unfold ofType
  split <;> rfl

/-- A field of an index has no operator. -/
@[simp] theorem varied_ofIndexField (field : IndexField) : varied (ofIndexField field) = [] := by
  unfold ofIndexField
  split <;> rfl

/-- Between two lines there is at most a semicolon, which is no operator. -/
@[simp] theorem varied_ofBreak (line next : Node × List Piece) :
    varied (ofBreak line next) = [] := by
  unfold ofBreak
  split <;> rfl

/-- The operators of lines are those of each line. -/
@[simp] theorem varied_ofLines (lines : List (Node × List Piece)) :
    varied (ofLines lines) = lines.flatMap fun line => varied line.2 := by
  induction lines with
  | nil => rfl
  | cons line lines ih =>
    cases lines with
    | nil => simp [ofLines]
    | cons next lines => simp [ofLines, ih]

/-- A token that is printed in one way only is no operator with two spellings. -/
@[simp] theorem varied_usual {kind : TokenKind} (hor : kind ≠ .or) (hpower : kind ≠ .power)
    (ps : List Piece) : varied (usual kind :: ps) = varied ps := by
  have hvaried : (usual kind).isVaried = false := by simp [isVaried, hor, hpower]
  simp [varied_cons, hvaried]

/-- Of the operators, only the spelling of negations is left out of what pieces say. -/
theorem varied_content (ps : List Piece) : varied (content ps) = varied ps := by
  induction ps with
  | nil => rfl
  | cons p ps ih =>
    have hcontent : content (p :: ps) =
        if p.isContent then p.unspelled :: content ps else content ps := by
      simp only [content, List.filter_cons]
      split <;> rfl
    rw [hcontent, varied_cons]
    -- The operators that vary are content, and keep their spelling in it
    by_cases hvaried : p.isVaried = true
    · have hkind : p.kind = .or ∨ p.kind = .power := by simpa [isVaried] using hvaried
      have hp : p.isContent = true ∧ p.unspelled = p := by
        obtain hk | hk := hkind <;>
          simp [isContent, unspelled, hk, TokenKind.isPunctuation]
      rw [if_pos hp.1, hp.2, varied_cons, if_pos hvaried, if_pos hvaried, ih]
    · have hp : p.unspelled.isVaried = false := by
        unfold unspelled
        split
        · rfl
        · simpa using hvaried
      rw [if_neg hvaried]
      split
      · simp [varied_cons, hp, ih]
      · exact ih

end Piece

open Piece

/-- Keeping what is said keeps the operators with two spellings. -/
theorem Keeps.varied_eq {ps qs : List Piece} (h : Keeps ps qs) : varied qs = varied ps := by
  rw [← varied_content qs, h.content, varied_content]

namespace Node

/-- The operators of a shape that goes on from nothing are those of its parts. -/
private theorem varied_shapePieces {shape : Shape Node} {x : String}
    (hrole : shape.role ≠ .operator) (hparts : shape.PartsValid) :
    varied (shapePieces x none (shape.map withPieces)) =
      shape.parts.flatMap fun part => varied part.pieces := by
  cases shape with
  | operator op => exact absurd rfl hrole
  -- Most shapes are their parts with fixed tokens around them
  | entry key value =>
    rw [shapePieces_entry]
    split
    · next hshort =>
      -- The value that is left out is a name
      obtain ⟨word, p, b, x, p', b', x', rfl, rfl⟩ := (isShorthand_iff hparts.1).1 hshort
      rfl
    · simp [Shape.parts]
  | unary kind value =>
    cases kind <;> simp [shapePieces, Shape.map, Shape.parts, UnaryKind.token]
  | number literal | string value | boolean value => rfl
  | returnStmt value | letDecl name value =>
    cases value <;> simp [shapePieces, Shape.map, Shape.parts]
  | param name type optional =>
    cases type <;> cases optional <;> simp [shapePieces, Shape.map, Shape.parts]
  | field name type required => cases required <;> simp [shapePieces, Shape.map, Shape.parts]
  | _ =>
    simp [shapePieces, Shape.map, Shape.parts, enclosed, ofBlock, List.flatMap_map]

/-- The operators in the pieces of a node are those of its parts, in their order. -/
theorem varied_pieces {node : Node} (h : node.WellFormed) (hrole : node.role ≠ .operator) :
    varied node.pieces = node.parts.flatMap fun part => varied part.pieces := by
  obtain ⟨shape, p, b, x, parenthesized, bracket, receiver⟩ := node
  have hshape := @varied_shapePieces shape x hrole h.parts
  have hinner : varied (Node.mk shape p b x false bracket receiver).pieces =
      (receiver.toList ++ shape.parts).flatMap fun part => varied part.pieces := by
    cases receiver with
    | none =>
      cases bracket with
      | false => simpa using hshape
      | true => exact absurd (h.marks.1 rfl) (by simp)
    | some object =>
      cases bracket with
      | true => simp [pieces_bracket, enclosed, hshape]
      | false =>
        -- Without brackets only a name and a call go on from something
        have hmarks := h.marks.2
        cases shape with
        | name word => simp [pieces_member, Shape.parts]
        | call args => simp [pieces_call, enclosed, Shape.parts, List.flatMap_map]
        | _ => simp_all [Shape.role, isUnmarked]
  cases parenthesized with
  | false => exact hinner
  | true => simpa [pieces_parenthesized, enclosed] using hinner

/-- An operator is printed in one of the ways to write it. -/
theorem spelling_mem {node : Node} {op : Operator} (h : node.Printable)
    (hop : node.shape = .operator op) : node.spelling ∈ op.kind.spellings := by
  have hsymbol : op.symbol ∈ op.kind.spellings := by cases op <;> decide
  have hprinted : node.spelling = if node.text.isEmpty then op.symbol else node.text := by
    rw [spelling, hop]
  rw [hprinted]
  split
  · exact hsymbol
  · next htext =>
    obtain hempty | hspelled := h.spelled op hop
    · simp [hempty] at htext
    · exact hspelled

/-- Two operators that are the same are spelled alike if the pieces show it.  What comes after them
    among the pieces is then the same too. -/
private theorem operator_spelling {a b : Node} {op : Operator} {ps qs : List Piece}
    (ha : a.Printable) (hb : b.Printable) (hop : a.shape = .operator op)
    (hop' : b.shape = .operator op) (h : varied a.pieces ++ ps = varied b.pieces ++ qs) :
    a.spelling = b.spelling ∧ ps = qs := by
  have hpieces : ∀ {n : Node}, n.Printable → n.shape = .operator op →
      n.pieces = [⟨op.kind, n.spelling⟩] := by
    intro n hn hshape
    have hunmarked := hn.eq_unmarked (by rw [role, hshape]; simp [Shape.role])
    rw [hunmarked, hshape]
    simp [shapePieces, Shape.map, spelling]
  rw [hpieces ha hop, hpieces hb hop', varied_cons, varied_cons] at h
  by_cases hvaried : op.kind = .or ∨ op.kind = .power
  · have hyes : ∀ x, Piece.isVaried ⟨op.kind, x⟩ = true := by simpa [isVaried] using hvaried
    simpa [hyes] using h
  · have hno : ∀ x, Piece.isVaried ⟨op.kind, x⟩ = false := by simpa [isVaried] using hvaried
    -- Any other operator has one spelling
    have hfixed : op.kind.isFixed = true := by
      cases op <;> first | rfl | exact absurd (by decide) hvaried
    have hlabel : ∀ {n : Node}, n.Printable → n.shape = .operator op →
        n.spelling = op.kind.label := by
      intro n hn hshape
      have hmem := spelling_mem hn hshape
      rwa [TokenKind.spellings_of_isFixed hfixed, List.mem_singleton] at hmem
    exact ⟨(hlabel ha hop).trans (hlabel hb hop').symm, by simpa [hno] using h⟩

/-- How the operators of a list of trees are spelled, if that is decided for each tree. -/
private theorem map_spelled_eq {as bs : List Node} {ps qs : List Piece}
    (ih : ∀ a ∈ as, ∀ b ∈ bs, ∀ ps qs, a.erase = b.erase →
      varied a.pieces ++ ps = varied b.pieces ++ qs → a.spelled = b.spelled ∧ ps = qs)
    (herase : as.map erase = bs.map erase)
    (h : (as.flatMap fun a => varied a.pieces) ++ ps =
      (bs.flatMap fun b => varied b.pieces) ++ qs) :
    as.map spelled = bs.map spelled ∧ ps = qs := by
  induction as generalizing bs with
  | nil =>
    obtain rfl := List.map_eq_nil_iff.1 herase.symm
    exact ⟨rfl, h⟩
  | cons a as ihas =>
    obtain ⟨b, bs, rfl, hb, hbs⟩ := List.map_eq_cons_iff.1 herase.symm
    rw [List.flatMap_cons, List.flatMap_cons, List.append_assoc, List.append_assoc] at h
    obtain ⟨hhead, hrest⟩ := ih a (by simp) b (by simp) _ _ hb.symm h
    obtain ⟨htail, hps⟩ := ihas (fun a ha b hb => ih a (by simp [ha]) b (by simp [hb])) hbs.symm
      hrest
    exact ⟨by rw [List.map_cons, List.map_cons, hhead, htail], hps⟩

/-- Only operators have the role of an operator. -/
private theorem exists_operator {node : Node} (h : node.role = .operator) :
    ∃ op, node.shape = .operator op := by
  obtain ⟨shape, p, b, x, parenthesized, bracket, receiver⟩ := node
  cases shape <;> simp_all [Shape.role]

/-- Two nodes that are the same are spelled alike as soon as they and their parts are. -/
private theorem spelled_eq_of_parts {a b : Node} (herase : a.erase = b.erase)
    (hspelling : a.spelling = b.spelling) (hparts : a.parts.map spelled = b.parts.map spelled) :
    a.spelled = b.spelled := by
  rw [erase_eq a, erase_eq b] at herase
  injection herase with hshape _ _ _ hparenthesized hbracket hreceiver
  have hlength : a.receiver.toList.length = b.receiver.toList.length := by
    have herased := congrArg (fun receiver => receiver.toList.length) hreceiver
    simpa [Option.toList_map] using herased
  rw [parts, parts, List.map_append, List.map_append] at hparts
  obtain ⟨hreceivers, hshapes⟩ := List.append_inj hparts (by simpa using hlength)
  have hreceiver' : a.receiver.map spelled = b.receiver.map spelled := by
    cases ha : a.receiver <;> cases hb : b.receiver <;> simp_all
  rw [spelled_eq a, spelled_eq b, Shape.map_eq_of_parts hshape hshapes, hspelling, hparenthesized,
    hbracket, hreceiver']

/-- Two trees that are the same and have the same operators in their pieces are spelled alike.
    Read from left to right, the pieces of one tree end where those of the other do. -/
theorem spelled_eq_of_varied {a b : Node} {ps qs : List Piece} (ha : a.AllPrintable)
    (hb : b.AllPrintable) (herase : a.erase = b.erase)
    (h : varied a.pieces ++ ps = varied b.pieces ++ qs) : a.spelled = b.spelled ∧ ps = qs := by
  induction a using Node.induction generalizing b ps qs with
  | step a ih =>
    obtain ⟨ha, hparts⟩ := allPrintable_iff.1 ha
    obtain ⟨hb, hparts'⟩ := allPrintable_iff.1 hb
    have hroles : a.role = b.role := by rw [← role_erase, herase, role_erase]
    -- The trees have the same role and the same parts, as they are the same after erasure
    have herased : a.parts.map erase = b.parts.map erase := by
      rw [← parts_erase, herase, parts_erase]
    by_cases hrole : a.role = .operator
    · obtain ⟨op, hop⟩ := exists_operator hrole
      have hop' : b.shape = .operator op := by
        rw [← shape_erase_eq_operator, ← herase, shape_erase_eq_operator]
        exact hop
      obtain ⟨hspelling, hps⟩ := operator_spelling ha hb hop hop' h
      -- An operator has no parts
      have hnone : a.parts = [] := by
        rw [ha.eq_unmarked (by simp [hrole]), hop]
        rfl
      have hnone' : b.parts = [] := List.map_eq_nil_iff.1 (by rw [← herased, hnone]; rfl)
      exact ⟨spelled_eq_of_parts herase hspelling (by rw [hnone, hnone']), hps⟩
    -- Any other node has no spelling of its own, and its parts are compared in their order
    · have hnone : ∀ {n : Node}, n.role ≠ .operator → n.spelling = "" := by
        intro n hn
        unfold spelling
        split
        · next hs => exact absurd (by rw [role, hs]; rfl) hn
        · rfl
      rw [varied_pieces ha.toWellFormed hrole, varied_pieces hb.toWellFormed (hroles ▸ hrole)] at h
      obtain ⟨hspelled, hps⟩ := map_spelled_eq
        (fun part hp part' hp' ps qs => ih part hp (hparts part hp) (hparts' part' hp')) herased h
      have hspelling := (hnone hrole).trans (hnone (hroles ▸ hrole)).symm
      exact ⟨spelled_eq_of_parts herase hspelling hspelled, hps⟩

end Node

/-! ## Parsing the canonical text -/

/-- What a source that is parsed says is kept in its statements. -/
theorem parse_keeps {source : String} {nodes : List Node} {pieces : List Piece}
    (h : parse source = .ok nodes) (hl : Lexes source.toList pieces) :
    Keeps pieces (Node.programPieces nodes) := by
  obtain ⟨lexemes, stop, lines, hsource, htokens, rfl, hparsed⟩ := parse_reads h
  have hscanned : ∀ t ∈ lines.tokens, t.Scanned := by
    rw [← htokens]
    simpa using Lexeme.scanned_of_ofSource hsource
  have hlexes : Lexes source.toList (lines.tokens.map Token.piece) := by
    refine Lexeme.ofSource_iff_lexes.1 ⟨lexemes, stop, hsource, ?_⟩
    rw [← htokens, List.map_map]
    rfl
  obtain rfl := hl.unique hlexes
  exact keeps_lines hparsed.written.spaced fun s hs =>
    (hparsed.written.written s hs).keeps fun t ht => hscanned t (Lines.mem_tokens hs ht)

/-- The statements of a source come back from their canonical text, and are printed as the same
    text once more. -/
theorem printAll_parse {source : String} {nodes : List Node} (h : parse source = .ok nodes) :
    ∃ nodes', parse (Node.printAll nodes) = .ok nodes' ∧
      nodes'.map Node.erase = nodes.map Node.erase ∧
      Node.printAll nodes' = Node.printAll nodes := by
  obtain ⟨hne, hnodes, hnesting⟩ := parse_form h
  obtain ⟨nodes', hparse, herase⟩ := parse_printAll hne (fun n hn => (hnodes n hn).1)
    (fun n hn => (hnodes n hn).2) hnesting
  have hnodes' := (parse_form hparse).2.1
  have hkeeps := parse_keeps hparse
    (lexes_printAll (fun n hn => (hnodes n hn).1) fun n hn => (hnodes n hn).2)
  have hvaried := hkeeps.varied_eq
  simp only [Node.programPieces, varied_ofLines, List.flatMap_map, Node.withPieces_snd] at hvaried
  refine ⟨nodes', hparse, herase, Node.printAll_eq_of_spelled ?_⟩
  -- The operators of both programs are the same, and decide how they are spelled
  refine (@Node.map_spelled_eq _ _ [] [] (fun n hn m hm ps qs => ?_) herase ?_).1
  · exact Node.spelled_eq_of_varied (hnodes' n hn).2 (hnodes m hm).2
  · rw [hvaried]

/-! ## Checking records -/

namespace Node

/-- Errors name a node in the same way after erasure. -/
@[simp] theorem label_erase (node : Node) : node.erase.label = node.label := by
  obtain ⟨shape, p, b, x, parenthesized, bracket, receiver⟩ := node
  rw [erase_mk]
  cases shape <;> rfl

/-- A collection keeps its name. -/
@[simp] theorem collectionName?_erase (node : Node) :
    node.erase.collectionName? = node.collectionName? := by
  obtain ⟨shape, p, b, x, parenthesized, bracket, receiver⟩ := node
  rw [erase_mk]
  cases shape <;> rfl

/-- A field stays a field. -/
@[simp] theorem isField_erase (node : Node) : node.erase.isField = node.isField := by
  obtain ⟨shape, p, b, x, parenthesized, bracket, receiver⟩ := node
  rw [erase_mk]
  cases shape <;> rfl

/-- The items of a collection are erased one by one. -/
theorem items_erase (node : Node) : node.erase.items = node.items.map erase := by
  obtain ⟨shape, p, b, x, parenthesized, bracket, receiver⟩ := node
  rw [erase_mk]
  cases shape <;> rfl

/-- The fields of a collection are erased one by one. -/
theorem fields_erase (node : Node) : node.erase.fields = node.fields.map erase := by
  rw [fields, fields, items_erase, List.filter_map]
  simp [Function.comp_def]

/-- The collection of a name is found at the same place. -/
theorem findCollection?_erase (nodes : List Node) (name : String) :
    findCollection? (nodes.map erase) name = (findCollection? nodes name).map erase := by
  rw [findCollection?, findCollection?, List.find?_map]
  simp only [Function.comp_def, collectionName?_erase]

end Node

/-- A field is checked in the same way after erasure. -/
theorem checkField_erase (members : List (String × Json)) (field : Node) :
    checkField members field.erase = checkField members field := by
  obtain ⟨shape, p, b, x, parenthesized, bracket, receiver⟩ := field
  rw [Node.erase_mk]
  cases shape <;> rfl

/-- A record is checked in the same way after erasure. -/
theorem checkRecord_erase (collection : Node) (record : Json) :
    checkRecord collection.erase record = checkRecord collection record := by
  have hfields : ∀ members, collection.erase.fields.forM (checkField members) =
      collection.fields.forM (checkField members) := by
    intro members
    simp [Node.fields_erase, checkField_erase]
  simp only [checkRecord, Node.collectionName?_erase, Node.label_erase, hfields]

namespace Command

variable {readJson : JsonReader}

/-- Checking a record does not look at how a collection was written. -/
theorem validateInput_erase (nodes : List Node) (collection : String) (input : Option String) :
    validateInput readJson (nodes.map Node.erase) collection input =
      validateInput readJson nodes collection input := by
  unfold validateInput
  rw [Node.findCollection?_erase]
  cases Node.findCollection? nodes collection with
  | none => rfl
  | some declared => simp only [Option.map_some, checkRecord_erase]

/-! ## Commands -/

/-- A failed check of a record says nothing about the source. -/
theorem message_of_validateInput {nodes : List Node} {collection : String}
    {input : Option String} {failure : Failure}
    (h : validateInput readJson nodes collection input = .error failure)
    (source source' : String) : failure.message source = failure.message source' := by
  cases failure with
  | parse e =>
    unfold validateInput at h
    repeat' split at h
    all_goals cases h
  | _ => rfl

/-- The canonical text of a source can take its place.  It passes the check of its syntax, it is its
    own canonical text, and every record is checked against it with the same result and the same
    message, whatever the reader of JSON makes of the text of the record. -/
theorem execute_formatted {source text : String}
    (h : execute source .format readJson = .ok (.formatted text)) :
    execute text .check readJson = .ok .syntaxValid ∧
    execute text .format readJson = .ok (.formatted text) ∧
    ∀ collection input,
      execute text (.validate collection input) readJson =
        execute source (.validate collection input) readJson ∧
      (execute text (.validate collection input) readJson).mapError (·.message text) =
        (execute source (.validate collection input) readJson).mapError (·.message source) := by
  cases hparse : parse source with
  | error e => simp [execute, hparse] at h
  | ok nodes =>
    obtain rfl : Node.printAll nodes = text := by simpa [execute, hparse, answer] using h
    obtain ⟨nodes', hparse', herase, hprint⟩ := printAll_parse hparse
    -- Both trees are the same after erasure, and the check of a record sees no more than that
    have hvalidate : ∀ collection input,
        validateInput readJson nodes' collection input =
          validateInput readJson nodes collection input := by
      intro collection input
      rw [← validateInput_erase nodes', herase, validateInput_erase]
    simp only [execute, hparse, hparse', answer, hprint, hvalidate, true_and]
    intro collection input
    cases hresult : validateInput readJson nodes collection input with
    | ok found => simp only [Except.mapError]
    | error failure =>
      simp only [Except.mapError]
      rw [message_of_validateInput hresult (Node.printAll nodes) source]

/-- Operators that are spelled in their other way, and a field whose value does not fit. -/
theorem execute_formatted_spellings :
    ∃ source text, execute source .format = .ok (.formatted text) ∧ source ≠ text ∧
      execute text .format = .ok (.formatted text) ∧
      execute text (.validate "c" (some "\x7b\"n\": \"x\"\x7d")) =
        .error (.check (.fieldType "n" "number" "string")) := by
  have hformat : execute "collection c \x7bn number\x7d x=a  or\nb**2" .format =
      .ok (.formatted "collection c \x7b\nn: number\n\x7d\nx = a or b ** 2") := by
    decide +kernel
  obtain ⟨-, hagain, hvalidate⟩ := execute_formatted hformat
  refine ⟨_, _, hformat, by decide, hagain, ?_⟩
  rw [(hvalidate _ _).1]
  decide +kernel

end Command

end Schemata
