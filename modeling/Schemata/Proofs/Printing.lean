import Schemata.Proofs.Derivation
import Schemata.Proofs.Spelling

/-!
# What the canonical text says

The canonical text of a printable node is read as the pieces of the node (`Node.printed`), and
that of a list of statements as their pieces (`lexes_printAll`).
-/

namespace Schemata

open Scan Piece

/-! ## Texts that are read as given pieces -/

/-- The first character of a text and the first of its pieces agree on whether they could be read
    as going on with a statement, and the text does not begin with a sign of equality. -/
def Opens (text : List Char) (pieces : List Piece) : Prop :=
  ∃ c cs piece ps, text = c :: cs ∧ pieces = piece :: ps ∧ c ≠ '=' ∧
    ['(', '[', '-'].contains c = [TokenKind.leftParen, .leftBracket, .minus].contains piece.kind

/-- The text is read as the pieces, whatever follows that does not go on with its last token. -/
def Spells (text : List Char) (pieces : List Piece) : Prop :=
  ∀ rest ps, isBoundary rest = true → Lexes rest ps → Lexes (text ++ rest) (pieces ++ ps)

/-- What opens a text opens it with anything behind. -/
theorem Opens.append {text : List Char} {pieces : List Piece} (h : Opens text pieces)
    (text' : List Char) (pieces' : List Piece) : Opens (text ++ text') (pieces ++ pieces') := by
  obtain ⟨c, cs, piece, ps, rfl, rfl, hc, hp⟩ := h
  exact ⟨c, cs ++ text', piece, ps ++ pieces', rfl, rfl, hc, hp⟩

/-- What opens a text is no equals sign. -/
theorem Opens.head?_ne {text : List Char} {pieces : List Piece} (h : Opens text pieces)
    (rest : List Char) : (text ++ rest).head? ≠ some '=' := by
  obtain ⟨c, cs, piece, ps, rfl, rfl, hc, -⟩ := h
  simpa using hc

/-- A text opens with a character of a class that has none of the special characters. -/
private theorem opens_of_class {class? : Char → Bool} {c : Char} {cs : List Char} {piece : Piece}
    (hc : class? c = true) (hclass : ['=', '(', '[', '-'].all (!class? ·) = true)
    (hk : [TokenKind.leftParen, .leftBracket, .minus].contains piece.kind = false)
    (ps : List Piece) : Opens (c :: cs) (piece :: ps) := by
  have hne : ∀ d ∈ ['=', '(', '[', '-'], c ≠ d := by
    rintro d hd rfl
    have hnot := List.all_eq_true.1 hclass c hd
    rw [hc] at hnot
    cases hnot
  refine ⟨c, cs, piece, ps, rfl, rfl, hne '=' (by simp), ?_⟩
  rw [hk]
  simpa using ⟨hne '(' (by simp), hne '[' (by simp), hne '-' (by simp)⟩

/-- A name opens its text. -/
theorem opens_name {name : String} (hn : isName name = true) : Opens name.toList [word name] := by
  obtain ⟨c, cs, ht, hc, -, -⟩ := exists_of_isName hn
  rw [ht]
  exact opens_of_class hc (by decide) rfl _

/-- A number opens its text. -/
theorem opens_number {literal : String} (hn : isNumber literal = true) :
    Opens literal.toList [⟨.number, literal⟩] := by
  obtain ⟨whole, part, ht, hw, -⟩ := isNumber_iff.1 hn
  cases whole with
  | nil => cases hw
  | cons c cs =>
    simp only [isWhole, Bool.and_eq_true] at hw
    rw [ht]
    exact opens_of_class hw.1.1 (by decide) rfl _

/-- Texts with commas between them are read as their pieces with commas between them. -/
theorem lexes_commas {α : Type} (text : α → String) (pieces : α → List Piece) {xs : List α}
    {rest : List Char} {ps : List Piece} (hxs : ∀ a ∈ xs, Spells (text a).toList (pieces a))
    (hb : isBoundary rest = true) (h : Lexes rest ps) :
    Lexes ((", ".intercalate (xs.map text)).toList ++ rest) (commas (xs.map pieces) ++ ps) := by
  induction xs with
  | nil => simpa using h
  | cons a xs ih =>
    have ih := ih fun b hmem => hxs b (List.mem_cons_of_mem _ hmem)
    have ha := hxs a (by simp)
    cases xs with
    | nil => simpa using ha rest ps hb h
    | cons b xs =>
      simp only [List.map_cons, String.intercalate_cons_cons, commas_cons_cons,
        String.toList_append, List.append_assoc] at ih ⊢
      exact ha _ _ rfl (lexes_delimiter (by decide) (lexes_space ih))

/-- The same between brackets of any kind. -/
theorem lexes_enclosed {α : Type} (text : α → String) (pieces : α → List Piece) {xs : List α}
    {rest : List Char} {ps : List Piece} {l r : Char} {left right : TokenKind}
    (hl : (l, left) ∈ delimiters) (hr : (r, right) ∈ delimiters)
    (hb : isBoundary (r :: rest) = true) (hxs : ∀ a ∈ xs, Spells (text a).toList (pieces a))
    (h : Lexes rest ps) :
    Lexes (l :: ((", ".intercalate (xs.map text)).toList ++ r :: rest))
      (enclosed left right (commas (xs.map pieces)) ++ ps) := by
  have hinner := lexes_commas text pieces hxs hb (lexes_delimiter hr h)
  simpa [enclosed] using lexes_delimiter hl hinner

/-! ## Lines -/

/-- The printer sees at a line what its first piece is. -/
theorem Line.continues_eq {text : String} {pieces : List Piece} (h : Opens text.toList pieces)
    (bareReturn : Bool) : (Line.mk text bareReturn).continues = Piece.continues pieces := by
  obtain ⟨c, cs, piece, ps, ht, rfl, -, hp⟩ := h
  rw [Piece.continues, ← hp, Line.continues, ht]
  split <;> simp_all

/-- What is shown of the canonical text of a node. -/
structure Node.Printed (node : Node) : Prop where
  opens : Opens node.print.toList node.pieces
  spells : Spells node.print.toList node.pieces

/-- Printed statements, line by line, are read as their pieces. -/
theorem spells_lines {nodes : List Node} (h : ∀ n ∈ nodes, n.Printed) :
    Spells (Line.join (Node.printLines nodes)).toList (ofLines (nodes.map Node.withPieces)) := by
  rw [Node.printLines_eq_map]
  -- Induction on the statements: a semicolon is printed where the next one would go on with the one
  -- before
  induction nodes with
  | nil => exact fun rest ps _ h => h
  | cons n nodes ih =>
    have ih := ih fun m hm => h m (List.mem_cons_of_mem _ hm)
    have hn := (h n (by simp)).spells
    cases nodes with
    | nil => exact hn
    | cons m nodes =>
      intro rest ps hb hl
      have hm := Line.continues_eq (h m (by simp)).opens m.isBareReturn
      have hrest := ih rest ps hb hl
      simp only [List.map_cons, Line.join, ofLines, String.toList_append,
        List.append_assoc] at hrest ⊢
      rw [Line.separator, hm, Node.ofBreak_withPieces]
      cases (n.isBareReturn || Piece.continues m.pieces) with
      | true => exact hn _ _ rfl (lexes_delimiter (by decide) (lexes_newline hrest))
      | false => exact hn _ _ rfl (lexes_newline hrest)

/-- A printed block is read as its pieces. -/
theorem lexes_block {nodes : List Node} {rest : List Char} {ps : List Piece}
    (hn : ∀ n ∈ nodes, n.Printed) (h : Lexes rest ps) :
    Lexes ((Line.block (Node.printLines nodes)).toList ++ rest)
      (ofBlock (nodes.map Node.withPieces) ++ ps) := by
  have hclose := spells_lines hn ('\n' :: '\x7d' :: rest) (usual .rightBrace :: ps) rfl
    (lexes_newline (lexes_delimiter (by decide) h))
  simp only [Line.block, ofBlock, enclosed, String.toList_append, List.append_assoc,
    List.cons_append, List.nil_append]
  exact lexes_delimiter (by decide) (lexes_newline hclose)

/-! ## Parts with a form of their own -/

/-- What a text can end before does not begin with an equals sign. -/
private theorem head?_ne_of_isBoundary {rest : List Char} (hb : isBoundary rest = true) :
    rest.head? ≠ some '=' := by
  cases rest with
  | nil => simp
  | cons c rest =>
    rintro ⟨⟩
    exact absurd hb (by simp [isBoundary])

/-- Printed clauses are read as their pieces. -/
theorem lexes_clauses {nodes : List Node} {rest : List Char} {ps : List Piece}
    (hn : ∀ n ∈ nodes, Spells n.print.toList n.pieces) (hb : isBoundary rest = true)
    (h : Lexes rest ps) :
    Lexes ((String.join (nodes.map ((" " ++ ·) ∘ Node.print))).toList ++ rest)
      ((nodes.map Node.withPieces).flatMap (·.2) ++ ps) := by
  induction nodes with
  | nil => exact h
  | cons n nodes ih =>
    have ih := ih fun m hm => hn m (List.mem_cons_of_mem _ hm)
    -- A further clause begins with a space, so it does not go on with the one before
    have hboundary : isBoundary
        ((String.join (nodes.map ((" " ++ ·) ∘ Node.print))).toList ++ rest) = true := by
      cases nodes with
      | nil => exact hb
      | cons m nodes =>
        simp only [List.map_cons, String.join_cons, Function.comp_apply, String.toList_append,
          List.append_assoc]
        rfl
    simp only [List.map_cons, String.join_cons, Function.comp_apply, String.toList_append,
      List.append_assoc, List.flatMap_cons]
    exact lexes_space (hn n (by simp) _ _ hboundary ih)

/-- A type is read as its pieces. -/
theorem spells_type {type : String} (h : IsType type) : Spells type.toList (ofType type) := by
  intro rest ps hb hl
  obtain ⟨name, hname, rfl | rfl⟩ := h
  · rw [ofType_name hname]
    exact lexes_name hname hb hl
  · rw [ofType_list hname, String.toList_append, List.append_assoc]
    exact lexes_name hname rfl (lexes_delimiter (by decide) (lexes_delimiter (by decide) hl))

/-- A field of an index is read as its pieces. -/
theorem spells_indexField {field : IndexField} (h : isName field.name = true) :
    Spells field.print.toList (ofIndexField field) := by
  intro rest ps hb hl
  obtain ⟨name, direction⟩ := field
  cases direction with
  | none => exact lexes_name h hb hl
  | some direction =>
    have hword : isName direction.word = true := by cases direction <;> decide
    simp only [IndexField.print, ofIndexField, enclosed, String.toList_append, List.append_assoc,
      List.cons_append, List.nil_append]
    refine lexes_delimiter (by decide) (lexes_name h rfl ?_)
    refine lexes_delimiter (by decide) (lexes_space (lexes_name hword rfl ?_))
    exact lexes_delimiter (by decide) hl

/-- An operator node is read as its piece before a space. -/
theorem lexes_operatorNode {node : Node} {op : Operator} {rest : List Char} {ps : List Piece}
    (h : node.operator? = some op) (hp : node.Printable) (hl : Lexes rest ps) :
    Lexes (node.print.toList ++ ' ' :: rest) (node.pieces ++ ps) := by
  obtain ⟨p, b, x, rfl⟩ := Node.eq_of_operator? h
  have hsymbol : op.symbol ∈ op.kind.spellings := by cases op <;> decide
  have hspelled : (if x.isEmpty then op.symbol else x) ∈ op.kind.spellings := by
    split
    · exact hsymbol
    · next hne =>
      refine (hp.spelled op rfl).resolve_left ?_
      rintro rfl
      exact hne rfl
  have hlexes := lexes_operator hspelled hl
  simpa [Node.print, Node.printShape, Shape.map, Node.shapePieces] using hlexes

/-- Only a name alone has the pieces of a name. -/
private theorem eq_name_of_pieces {n : Node} {name : String} (h : n.WellFormed)
    (hrole : n.role = .expression) (hpieces : n.pieces = [word name]) :
    ∃ p b x, n = ⟨.name name, p, b, x, false, false, none⟩ := by
  have hall : ∀ piece ∈ n.pieces, piece = word name := by simp [hpieces]
  obtain ⟨shape, p, b, x, parenthesized, bracket, receiver⟩ := n
  rw [Node.pieces_eq] at hall
  -- A mark or a shape of another kind would have a piece that is no name
  have hne : ∀ kind, usual kind = word name → kind = .name := fun kind h => congrArg Piece.kind h
  cases parenthesized with
  | true => cases hne .leftParen (hall _ (by simp [Node.markPieces, enclosed]))
  | false =>
    cases bracket with
    | true => cases hne .leftBracket (hall _ (by simp [Node.markPieces, enclosed]))
    | false =>
      simp only [Node.markPieces, Bool.false_eq_true, if_false] at hall
      cases shape with
      | name name' =>
        cases receiver with
        | none =>
          obtain ⟨⟩ := hall (word name') (by simp [Shape.map, Node.shapePieces])
          exact ⟨p, b, x, rfl⟩
        | some object =>
          cases hne .dot (hall _ (by simp [Shape.map, Node.shapePieces]))
      | array =>
        cases hne .leftBracket (hall _ (by simp [Shape.map, Node.shapePieces, enclosed]))
      | object =>
        cases hne .leftBrace (hall _ (by simp [Shape.map, Node.shapePieces, enclosed]))
      | call =>
        cases hne .leftParen (hall _ (by simp [Shape.map, Node.shapePieces, enclosed]))
      | number | string | boolean =>
        cases congrArg Piece.kind (hall _ (List.mem_singleton_self _))
      | unary kind =>
        have := hne kind.token (hall _ (by simp [Shape.map, Node.shapePieces]))
        cases kind <;> cases this
      | binary kind left op right =>
        obtain ⟨o, hop⟩ := Option.isSome_iff_exists.1 h.parts.2.1
        obtain ⟨p', b', x', rfl⟩ := Node.eq_of_operator? hop
        have := congrArg Piece.kind (hall ⟨o.kind, if x'.isEmpty then o.symbol else x'⟩
          (by simp [Shape.map, Node.shapePieces]))
        cases o <;> cases this
      | computed => cases h.marks.2.1
      | _ => cases hrole

/-- An entry whose key and value are printed alike is one whose key and value are the same name. -/
private theorem printedAlike_eq_isShorthand {key value : Node} (hk : key.isKey = true)
    (hw : key.WellFormed) (hv : value.WellFormed) (hrole : value.role = .expression)
    (hs : Spells value.print.toList value.pieces) :
    (key.isPlainName && key.print == value.print) = Node.isShorthand key value := by
  rw [Bool.eq_iff_iff, Node.isShorthand_iff hk]
  obtain ⟨p, b, x, ⟨name, rfl⟩ | ⟨text, rfl⟩⟩ := Node.eq_of_isKey hk
  · have hname : isName name = true := hw.words
    constructor
    · intro hsame
      have hprint : name = value.print := beq_iff_eq.1 (Bool.and_eq_true_iff.1 hsame).2
      have hlexes := hs [] [] rfl .nil
      rw [← hprint] at hlexes
      have hpieces := hlexes.unique (lexes_name hname rfl .nil)
      rw [List.append_nil] at hpieces
      obtain ⟨p', b', x', rfl⟩ := eq_name_of_pieces hv hrole hpieces
      exact ⟨name, p, b, x, p', b', x', rfl, rfl⟩
    · rintro ⟨_, _, _, _, p', b', x', ⟨⟩, rfl⟩
      simp [Node.print, Node.printShape, Node.isPlainName, Node.name?]
  · simp [Node.isPlainName, Node.name?]

/-! ## Shapes -/

section Shapes

variable {x : String}

/-- The key of an entry is no operator. -/
private theorem role_of_isKey {key : Node} (h : key.isKey = true) : key.role ≠ .operator := by
  obtain ⟨p, b, x, ⟨name, rfl⟩ | ⟨text, rfl⟩⟩ := Node.eq_of_isKey h
  all_goals simp [Shape.role]

/-- A statement is no operator. -/
private theorem role_of_isStatement {n : Node} (h : n.isStatement = true) :
    n.role ≠ .operator := by
  intro hrole
  simp [Node.isStatement, hrole] at h

/-- An item of a collection is no operator. -/
private theorem role_of_isItem {n : Node} (h : n.isItem = true) : n.role ≠ .operator := by
  intro hrole
  simp [Node.isItem, hrole] at h

/-- The text of a shape without receiver opens as its pieces do. -/
private theorem shape_opens {shape : Shape Node} (hw : shape.WordsValid) (hp : shape.PartsValid)
    (hrole : shape.role ≠ .operator)
    (ih : ∀ part ∈ shape.parts, part.role ≠ .operator → part.Printed) :
    Opens (Node.printShape shape x none).toList
      (Node.shapePieces x none (shape.map Node.withPieces)) := by
  cases shape with
  | operator op => exact absurd rfl hrole
  | name word => exact opens_name hw
  | number literal => exact opens_number hw
  | string value => exact ⟨'"', _, _, _, String.toList_ofList, rfl, by decide, rfl⟩
  | boolean value =>
    cases value with
    | true => exact ⟨'t', _, _, _, by rw [Node.printShape]; rfl, rfl, by decide, rfl⟩
    | false => exact ⟨'f', _, _, _, by rw [Node.printShape]; rfl, rfl, by decide, rfl⟩
  | object entries =>
    simp only [Node.printShape]
    split
    · exact ⟨_, _, _, _, rfl, rfl, by decide, rfl⟩
    · simp only [String.toList_append, List.append_assoc]
      exact ⟨_, _, _, _, rfl, rfl, by decide, rfl⟩
  | entry key value =>
    have hkey := (ih key (by simp [Shape.parts]) (role_of_isKey hp.1)).opens
    simp only [Node.printShape]
    rw [Node.shapePieces_entry]
    -- Whichever form is printed, it begins with the key
    cases Node.isShorthand key value <;> split
    all_goals simp only [Bool.false_eq_true, if_false, if_true, String.toList_append,
      List.append_assoc]
    · simpa using hkey.append [] (usual .colon :: value.pieces)
    · exact hkey.append _ _
    · exact hkey
    · simpa using hkey.append (": ".toList ++ value.print.toList) []
  | binary kind left op right =>
    have hleft := (ih left (by simp [Shape.parts]) (by simp [hp.1])).opens
    simp only [Node.printShape, String.toList_append, List.append_assoc]
    exact hleft.append _ _
  | assign left op right =>
    have hleft := (ih left (by simp [Shape.parts]) (by simp [hp.1])).opens
    simp only [Node.printShape, String.toList_append, List.append_assoc]
    exact hleft.append _ _
  | unary kind value =>
    simp only [Node.printShape, String.toList_append]
    cases kind <;> exact ⟨_, _, _, _, rfl, rfl, by decide, rfl⟩
  | computed key =>
    have hkey : key.role = .expression := hp
    exact (ih key (by simp [Shape.parts]) (by simp [hkey])).opens
  | returnStmt value =>
    cases value <;> simp only [Node.printShape, Node.printOption, String.toList_append] <;>
      exact ⟨_, _, _, _, rfl, rfl, by decide, rfl⟩
  | letDecl name value =>
    cases value <;>
      simp only [Node.printShape, Node.printOption, String.toList_append, List.append_assoc] <;>
      exact ⟨_, _, _, _, rfl, rfl, by decide, rfl⟩
  | param name type optional =>
    simp only [Node.printShape, String.toList_append, List.append_assoc]
    exact (opens_name hw.1).append _ _
  | field name type required =>
    simp only [Node.printShape, String.toList_append, List.append_assoc]
    exact (opens_name hw.1).append _ _
  | array | call | constDecl | ifStmt | elseIf | elseClause | function | index | collection =>
    simp only [Node.printShape, String.toList_append, List.append_assoc]
    exact ⟨_, _, _, _, rfl, rfl, by decide, rfl⟩

/-- The text of a shape without receiver is read as its pieces. -/
private theorem shape_spells {shape : Shape Node} (hw : shape.WordsValid) (hp : shape.PartsValid)
    (hrole : shape.role ≠ .operator) (hprintable : ∀ part ∈ shape.parts, part.Printable)
    (ih : ∀ part ∈ shape.parts, part.role ≠ .operator → part.Printed) :
    Spells (Node.printShape shape x none).toList
      (Node.shapePieces x none (shape.map Node.withPieces)) := by
  intro rest ps hb hl
  -- One case for each shape, piece by piece as it is printed
  cases shape with
  | operator op => exact absurd rfl hrole
  | name word => exact lexes_name hw hb hl
  | number literal => exact lexes_number hw hb hl
  | string value => exact lexes_string value hl
  | boolean value =>
    cases value with
    | true => exact @lexes_reserved rest ps "true" .boolean (by decide) hb hl
    | false => exact @lexes_reserved rest ps "false" .boolean (by decide) hb hl
  | array items =>
    simp only [Node.printShape, Node.printList_eq_map, Shape.map, Node.shapePieces, List.map_map,
      String.toList_append, List.append_assoc]
    exact lexes_enclosed Node.print Node.pieces (by decide) (by decide) rfl
      (fun n hn => (ih n hn (by simp [hp n hn])).spells) hl
  | call args =>
    simp only [Node.printShape, Node.printList_eq_map, Shape.map, Node.shapePieces, List.map_map,
      String.toList_append, List.append_assoc]
    exact lexes_enclosed Node.print Node.pieces (by decide) (by decide) rfl
      (fun n hn => (ih n hn (by simp [hp n hn])).spells) hl
  | object entries =>
    have hentries : ∀ n ∈ entries, Spells n.print.toList n.pieces :=
      fun n hn => (ih n hn (by simp [hp n hn])).spells
    cases entries with
    | nil =>
      have hclose : Lexes ('\x7d' :: rest) (usual .rightBrace :: ps) :=
        lexes_delimiter (by decide) hl
      simp only [Node.printShape, Node.printList_eq_map, List.map_nil]
      exact lexes_delimiter (by decide) hclose
    | cons entry entries =>
      have hclose : Lexes (' ' :: '\x7d' :: rest) (usual .rightBrace :: ps) :=
        lexes_space (lexes_delimiter (by decide) hl)
      have hinner := lexes_commas Node.print Node.pieces hentries rfl hclose
      simp only [Node.printShape, Node.printList_eq_map, Shape.map, Node.shapePieces, enclosed,
        List.map_map, List.map_cons, String.toList_append, List.append_assoc, List.cons_append,
        List.nil_append]
      exact lexes_delimiter (by decide) (lexes_space hinner)
  | entry key value =>
    obtain ⟨hkey, hvalue⟩ := hp
    have hk := (ih key (by simp [Shape.parts]) (role_of_isKey hkey)).spells
    have hv := (ih value (by simp [Shape.parts]) (by simp [hvalue])).spells
    have halike := printedAlike_eq_isShorthand hkey
      (hprintable key (by simp [Shape.parts])).toWellFormed
      (hprintable value (by simp [Shape.parts])).toWellFormed hvalue hv
    simp only [Node.printShape]
    rw [Node.shapePieces_entry, halike]
    cases Node.isShorthand key value with
    | true => exact hk rest ps hb hl
    | false =>
      simp only [Bool.false_eq_true, if_false, String.toList_append, List.append_assoc]
      exact hk _ _ rfl (lexes_delimiter (by decide) (lexes_space (hv rest ps hb hl)))
  | binary kind left op right =>
    obtain ⟨hleft, hop, hright⟩ := hp
    obtain ⟨o, hop⟩ := Option.isSome_iff_exists.1 hop
    have hl := (ih right (by simp [Shape.parts]) (by simp [hright])).spells rest ps hb hl
    have hl := lexes_operatorNode hop (hprintable op (by simp [Shape.parts])) hl
    have hl := (ih left (by simp [Shape.parts]) (by simp [hleft])).spells _ _ rfl (lexes_space hl)
    simpa [Node.printShape, Shape.map, Node.shapePieces] using hl
  | assign left op right =>
    obtain ⟨hleft, -, ⟨o, hop, -⟩, hright⟩ := hp
    have hl := (ih right (by simp [Shape.parts]) (by simp [hright])).spells rest ps hb hl
    have hl := lexes_operatorNode hop (hprintable op (by simp [Shape.parts])) hl
    have hl := (ih left (by simp [Shape.parts]) (by simp [hleft])).spells _ _ rfl (lexes_space hl)
    simpa [Node.printShape, Shape.map, Node.shapePieces] using hl
  | unary kind value =>
    have hrole : value.role = .expression := hp
    obtain ⟨hopens, hspells⟩ := ih value (by simp [Shape.parts]) (by simp [hrole])
    have hl := lexes_unary kind (hopens.head?_ne rest) (hspells rest ps hb hl)
    simpa [Node.printShape, Shape.map, Node.shapePieces] using hl
  | computed key =>
    have hrole : key.role = .expression := hp
    exact (ih key (by simp [Shape.parts]) (by simp [hrole])).spells rest ps hb hl
  | returnStmt value =>
    cases value with
    | none => exact lexes_keyword .returnWord hb hl
    | some value =>
      have hprinted := ih value (by simp [Shape.parts]) (by simp [hp value rfl])
      have hvalue := hprinted.spells rest ps hb hl
      simp only [Node.printShape, Node.printOption, String.toList_append, List.append_assoc]
      exact lexes_keyword .returnWord rfl (lexes_space hvalue)
  | constDecl name value =>
    have hrole : value.role = .expression := hp
    have hvalue := (ih value (by simp [Shape.parts]) (by simp [hrole])).spells rest ps hb hl
    have hassign := @lexes_symbol _ _ ['='] .assign (by decide) hvalue
    simp only [Node.printShape, String.toList_append, List.append_assoc]
    exact lexes_keyword .constWord rfl (lexes_space (lexes_name hw rfl (lexes_space hassign)))
  | letDecl name value =>
    cases value with
    | none =>
      simp only [Node.printShape, Node.printOption, String.toList_append, List.append_assoc]
      exact lexes_keyword .letWord rfl (lexes_space (lexes_name hw hb hl))
    | some value =>
      have hprinted := ih value (by simp [Shape.parts]) (by simp [hp value rfl])
      have hvalue := hprinted.spells rest ps hb hl
      have hassign := @lexes_symbol _ _ ['='] .assign (by decide) hvalue
      simp only [Node.printShape, Node.printOption, String.toList_append, List.append_assoc]
      exact lexes_keyword .letWord rfl (lexes_space (lexes_name hw rfl (lexes_space hassign)))
  | ifStmt condition body clauses =>
    obtain ⟨hcondition, hbody, hclauses, -⟩ := hp
    have hclauses : ∀ n ∈ clauses, Spells n.print.toList n.pieces :=
      fun n hn => (ih n (by simp [Shape.parts, hn]) (by simp [hclauses n hn])).spells
    have hblock := lexes_block (fun n hn => ih n (by simp [Shape.parts, hn])
      (role_of_isStatement (hbody n hn))) (lexes_clauses hclauses hb hl)
    have hl := (ih condition (by simp [Shape.parts]) (by simp [hcondition])).spells _ _ rfl
      (lexes_space hblock)
    simp only [Node.printShape, Node.printList_eq_map, List.map_map, String.toList_append,
      List.append_assoc, Shape.map, Node.shapePieces, List.cons_append]
    exact lexes_keyword .ifWord rfl (lexes_space hl)
  | elseIf condition body =>
    obtain ⟨hcondition, hbody⟩ := hp
    have hblock := lexes_block (fun n hn => ih n (by simp [Shape.parts, hn])
      (role_of_isStatement (hbody n hn))) hl
    have hl := (ih condition (by simp [Shape.parts]) (by simp [hcondition])).spells _ _ rfl
      (lexes_space hblock)
    have hif := lexes_keyword .ifWord rfl (lexes_space hl)
    simp only [Node.printShape, String.toList_append, List.append_assoc, Shape.map,
      Node.shapePieces, List.cons_append]
    exact lexes_keyword .elseWord rfl (lexes_space hif)
  | elseClause body =>
    have hblock := lexes_block (fun n hn => ih n hn (role_of_isStatement (hp n hn))) hl
    simp only [Node.printShape, String.toList_append, List.append_assoc]
    exact lexes_keyword .elseWord rfl (lexes_space hblock)
  | function name params body =>
    obtain ⟨hparams, hbody⟩ := hp
    have hblock := lexes_block (fun n hn => ih n (by simp [Shape.parts, hn])
      (role_of_isStatement (hbody n hn))) hl
    have hparams : ∀ n ∈ params, Spells n.print.toList n.pieces :=
      fun n hn => (ih n (by simp [Shape.parts, hn]) (by simp [hparams n hn])).spells
    simp only [Node.printShape, Node.printList_eq_map, List.map_map, String.toList_append,
      List.append_assoc, Shape.map, Node.shapePieces, List.cons_append]
    refine lexes_keyword .function rfl (lexes_space (lexes_name hw rfl (lexes_space ?_)))
    exact lexes_enclosed Node.print Node.pieces (by decide) (by decide) rfl hparams
      (lexes_space hblock)
  | param name type optional =>
    simp only [Node.printShape, String.toList_append, List.append_assoc, Shape.map,
      Node.shapePieces, List.cons_append]
    cases type with
    | none =>
      cases optional with
      | true => exact lexes_name hw.1 rfl (lexes_delimiter (by decide) hl)
      | false => exact lexes_name hw.1 hb hl
    | some type =>
      have htype : Lexes (':' :: ' ' :: (type.toList ++ rest))
          (usual .colon :: (ofType type ++ ps)) :=
        lexes_delimiter (by decide) (lexes_space (spells_type (hw.2 type rfl) rest ps hb hl))
      simp only [String.toList_append, List.append_assoc]
      cases optional with
      | true => exact lexes_name hw.1 rfl (lexes_delimiter (by decide) htype)
      | false => exact lexes_name hw.1 rfl htype
  | field name type required =>
    simp only [Node.printShape, String.toList_append, List.append_assoc, Shape.map,
      Node.shapePieces, List.cons_append]
    refine lexes_name hw.1 rfl (lexes_delimiter (by decide) (lexes_space ?_))
    cases required with
    | true => exact spells_type hw.2 _ _ rfl (lexes_unary .not (head?_ne_of_isBoundary hb) hl)
    | false => exact spells_type hw.2 rest ps hb hl
  | index fields =>
    have hindex : isName "index" = true := by decide
    simp only [Node.printShape, String.toList_append, List.append_assoc, Shape.map,
      Node.shapePieces, List.cons_append]
    refine lexes_delimiter (by decide) (lexes_name hindex rfl ?_)
    exact lexes_enclosed IndexField.print ofIndexField (by decide) (by decide) rfl
      (fun field hf => spells_indexField (hw field hf)) hl
  | collection name items =>
    have hblock := lexes_block (fun n hn => ih n hn (role_of_isItem (hp n hn))) hl
    simp only [Node.printShape, String.toList_append, List.append_assoc]
    exact lexes_keyword .collection rfl (lexes_space (lexes_name hw rfl (lexes_space hblock)))

end Shapes

/-! ## Nodes -/

section Nodes

variable {shape : Shape Node} {p : Position} {b : Nat} {x : String} {receiver : Option Node}

/-- A point and a name do not go on with the token before them. -/
private theorem isBoundary_member {name : String} (hn : isName name = true) (rest : List Char) :
    isBoundary ('.' :: (name.toList ++ rest)) = true := by
  obtain ⟨c, cs, ht, hc, -, -⟩ := exists_of_isName hn
  have hrange := (isWordStart_iff c).1 hc
  have hdigit : c.isDigit = false := by
    rw [Bool.eq_false_iff, ne_eq, isDigit_iff]
    omega
  simp [isBoundary, ht, hdigit, isWordRest]

/-- A node is printed as what it is chained from and then the rest of it. -/
private theorem printed_of_append {n object : Node} {text : List Char} {pieces : List Piece}
    (h : object.Printed) (ht : n.print.toList = object.print.toList ++ text)
    (hp : n.pieces = object.pieces ++ pieces) (hb : ∀ rest, isBoundary (text ++ rest) = true)
    (hs : Spells text pieces) : n.Printed := by
  refine ⟨?_, fun rest ps hrest hl => ?_⟩ <;> rw [ht, hp]
  · exact h.opens.append text pieces
  · rw [List.append_assoc, List.append_assoc]
    exact h.spells _ _ (hb rest) (hs rest ps hrest hl)

/-- A node without parentheses is printed as its pieces. -/
private theorem chained_printed {bracket : Bool}
    (h : (Node.mk shape p b x false bracket receiver).Printable) (hrole : shape.role ≠ .operator)
    (hparts : ∀ part ∈ shape.parts, part.Printable)
    (ih : ∀ part ∈ (Node.mk shape p b x false bracket receiver).parts,
      part.role ≠ .operator → part.Printed) :
    (Node.mk shape p b x false bracket receiver).Printed := by
  have ihs : ∀ part ∈ shape.parts, part.role ≠ .operator → part.Printed :=
    fun part hpart => ih part (List.mem_append_right _ hpart)
  have hopens := @shape_opens x shape h.words h.parts hrole ihs
  have hspells := @shape_spells x shape h.words h.parts hrole hparts ihs
  -- With a receiver there are three links: by a key, by a name and by a call
  cases receiver with
  | none =>
    cases bracket with
    | true => cases h.marks.1 rfl
    | false =>
      constructor
      all_goals
        rw [Node.pieces_mk_unmarked, Node.print]
      · exact hopens
      · exact hspells
  | some object =>
    have hobject : object.Printed := ih object (by simp) (by simp [h.receiver object rfl])
    cases bracket with
    | true =>
      refine @printed_of_append _ object
        ('[' :: ((Node.printShape shape x none).toList ++ [']']))
        (enclosed .leftBracket .rightBracket
          (Node.shapePieces x none (shape.map Node.withPieces))) hobject ?_ ?_ (fun _ => rfl) ?_
      · simp [Node.print]
      · exact Node.pieces_bracket ..
      · intro rest ps _ hl
        have hinner := hspells (']' :: rest) (usual .rightBracket :: ps) rfl
          (lexes_delimiter (by decide) hl)
        simpa [enclosed] using lexes_delimiter (by decide) hinner
    | false =>
      cases shape with
      | name name =>
        refine @printed_of_append _ object ('.' :: name.toList) [usual .dot, word name] hobject
          ?_ ?_ (isBoundary_member h.words) fun rest ps hb hl => ?_
        · simp [Node.print, Node.printShape]
        · exact Node.pieces_member ..
        · exact lexes_delimiter (by decide) (lexes_name h.words hb hl)
      | call args =>
        refine @printed_of_append _ object (Node.printShape (.call args) x none).toList
          (Node.shapePieces x none ((Shape.call args).map Node.withPieces)) hobject ?_ ?_
          (fun rest => ?_) hspells
        · simp [Node.print, Node.printShape]
        · exact Node.pieces_call ..
        · simp only [Node.printShape, String.toList_append, List.append_assoc]
          rfl
      | computed => cases h.marks.2.1
      | operator => exact absurd rfl hrole
      -- Nothing else has a receiver
      | array | object | number | string | boolean | binary | unary => cases h.marks.2 rfl
      | _ => cases h.marks.2

/-- The canonical text of a printable node is read as its pieces. -/
theorem Node.printed {n : Node} (h : n.AllPrintable) (hrole : n.role ≠ .operator) : n.Printed := by
  induction n using Node.induction with
  | step n ih =>
    obtain ⟨hn, hparts⟩ := allPrintable_iff.1 h
    have ih : ∀ part ∈ n.parts, part.role ≠ .operator → part.Printed :=
      fun part hp => ih part hp (hparts part hp)
    have hprintable : ∀ part ∈ n.shape.parts, part.Printable :=
      fun part hp => (allPrintable_iff.1 (hparts part (List.mem_append_right _ hp))).1
    obtain ⟨shape, p, b, x, parenthesized, bracket, receiver⟩ := n
    cases parenthesized with
    | false => exact chained_printed hn hrole hprintable ih
    | true =>
      -- Parentheses are around expressions only, and what is in them is printed as without them
      have hexpression : shape.role = .expression := by
        by_contra hother
        cases congrArg Node.parenthesized (hn.eq_unmarked hother)
      have hprinted : (Node.mk shape p b x false bracket receiver).Printed :=
        chained_printed ⟨hn.congr_parenthesized hexpression, hn.spelled⟩ hrole hprintable ih
      have hprint : (Node.mk shape p b x true bracket receiver).print =
          "(" ++ (Node.mk shape p b x false bracket receiver).print ++ ")" := by
        rw [Node.print, Node.print]
        rfl
      refine ⟨?_, fun rest ps _ hl => ?_⟩
      · rw [hprint, pieces_parenthesized, String.toList_append, String.toList_append,
          List.append_assoc]
        exact ⟨_, _, _, _, rfl, rfl, by decide, rfl⟩
      · have hclose := hprinted.spells (')' :: rest) (usual .rightParen :: ps) rfl
          (lexes_delimiter (by decide) hl)
        rw [hprint, pieces_parenthesized]
        simpa [enclosed] using lexes_delimiter (by decide) hclose

end Nodes

/-- The canonical text of printable statements is read as their pieces. -/
theorem lexes_printAll {nodes : List Node} (htop : ∀ n ∈ nodes, n.isTop = true)
    (h : ∀ n ∈ nodes, n.AllPrintable) :
    Lexes (Node.printAll nodes).toList (Node.programPieces nodes) := by
  have hprinted : ∀ n ∈ nodes, n.Printed := by
    refine fun n hn => Node.printed (h n hn) fun hrole => ?_
    simpa [Node.isTop, Node.isStatement, hrole] using htop n hn
  simpa [Node.printAll, Node.programPieces] using spells_lines hprinted [] [] rfl .nil

end Schemata
