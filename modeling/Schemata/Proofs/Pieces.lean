import Schemata.Proofs.WellFormed

/-!
# The pieces of a tree

`Node.pieces` is what the canonical text of a node says, as a list of pieces: it follows
`Node.print` rule by rule, without the blanks.  It is defined on all nodes, well-formed or not.
-/

namespace Schemata

namespace Piece

/-- A piece of the given kind, written in the usual way. -/
def usual (kind : TokenKind) : Piece :=
  ⟨kind, kind.label⟩

@[simp] theorem usual_kind (kind : TokenKind) : (usual kind).kind = kind := rfl

/-- A name. -/
def word (name : String) : Piece :=
  ⟨.name, name⟩

@[simp] theorem word_kind (name : String) : (word name).kind = .name := rfl

@[simp] theorem word_value (name : String) : (word name).value = name := rfl

/-- A token that says what the piece says, read from nowhere. -/
def token (piece : Piece) : Token :=
  ⟨piece.kind, piece.value, piece.value, Position.start, 0⟩

@[simp] theorem token_kind (piece : Piece) : piece.token.kind = piece.kind := rfl

@[simp] theorem token_value (piece : Piece) : piece.token.value = piece.value := rfl

@[simp] theorem piece_token (piece : Piece) : piece.token.piece = piece := rfl

/-- Lists of pieces with commas between them. -/
def commas (items : List (List Piece)) : List Piece :=
  [usual .comma].intercalate items

/-- No lists have no commas between them. -/
@[simp] theorem commas_nil : commas [] = [] := rfl

/-- A single item has no commas around it. -/
@[simp] theorem commas_singleton (item : List Piece) : commas [item] = item := by
  simp [commas, List.intercalate]

/-- A comma stands before every list but the first. -/
@[simp] theorem commas_cons_cons (item next : List Piece) (rest : List (List Piece)) :
    commas (item :: next :: rest) = item ++ usual .comma :: commas (next :: rest) := by
  simp [commas, List.intercalate]

/-- The pieces between brackets of any kind. -/
def enclosed (left right : TokenKind) (pieces : List Piece) : List Piece :=
  usual left :: (pieces ++ [usual right])

/-- The pieces of a type, with brackets after its word where it is more than one. -/
def ofType (type : String) : List Piece :=
  if type.toList.all Scan.isWordRest then [word type]
  else
    [word (String.ofList (type.toList.takeWhile Scan.isWordRest)), usual .leftBracket,
      usual .rightBracket]

/-- A type that is a name is that word alone. -/
theorem ofType_name {name : String} (h : Scan.isName name = true) :
    ofType name = [word name] := by
  obtain ⟨c, cs, ht, -, hrest, -⟩ := Scan.exists_of_isName h
  rw [← ht] at hrest
  rw [ofType, if_pos (List.all_eq_true.2 hrest)]

/-- A type that is a list of a named one is a word with brackets after it. -/
theorem ofType_list {name : String} (h : Scan.isName name = true) :
    ofType (name ++ "[]") = [word name, usual .leftBracket, usual .rightBracket] := by
  obtain ⟨c, cs, ht, -, hrest, -⟩ := Scan.exists_of_isName h
  rw [← ht] at hrest
  have hbracket : ['[', ']'].takeWhile Scan.isWordRest = [] := by decide
  -- The brackets are what makes the text more than a word
  have hall : ¬(name ++ "[]").toList.all Scan.isWordRest = true := by
    simp [Scan.isWordRest]
  rw [ofType, if_neg hall, String.toList_append, List.takeWhile_append_of_pos hrest,
    String.toList_ofList, hbracket, List.append_nil, String.ofList_toList]

/-- The pieces of a field of an index directive. -/
def ofIndexField (field : IndexField) : List Piece :=
  match field.direction with
  | some direction =>
    enclosed .leftBracket .rightBracket [word field.name, usual .comma, word direction.word]
  | none => [word field.name]

/-- Whether pieces could be read as going on with the statement before them. -/
def continues : List Piece → Bool
  | [] => false
  | piece :: _ => [TokenKind.leftParen, .leftBracket, .minus].contains piece.kind

/-- The semicolon between two statements, where one is needed. -/
def ofBreak (line next : Node × List Piece) : List Piece :=
  if line.1.isBareReturn || continues next.2 then [usual .semicolon] else []

/-- The pieces of statements after one another. -/
def ofLines : List (Node × List Piece) → List Piece
  | [] => []
  | [line] => line.2
  | line :: next :: rest => line.2 ++ (ofBreak line next ++ ofLines (next :: rest))

/-- The pieces of a block. -/
def ofBlock (body : List (Node × List Piece)) : List Piece :=
  enclosed .leftBrace .rightBrace (ofLines body)

end Piece

/-- The kind of token that begins the operation. -/
def UnaryKind.token : UnaryKind → TokenKind
  | not => .not
  | negate => .minus

namespace Node

open Piece

/-- The pieces of a shape, from its parts and their pieces.  The `text` is that of the node, and
    the `object` are the pieces of the receiver that a name or a call goes on from. -/
def shapePieces (text : String) (object : Option (List Piece)) :
    Shape (Node × List Piece) → List Piece
  | .name name => object.elim [] (· ++ [usual .dot]) ++ [word name]
  | .call args => object.getD [] ++ enclosed .leftParen .rightParen (commas (args.map (·.2)))
  | .computed key => key.2
  | .number literal => [⟨.number, literal⟩]
  | .string value => [⟨.string, value⟩]
  | .boolean value => [⟨.boolean, if value then "true" else "false"⟩]
  | .array items => enclosed .leftBracket .rightBracket (commas (items.map (·.2)))
  | .object entries => enclosed .leftBrace .rightBrace (commas (entries.map (·.2)))
  | .entry key value =>
    if isShorthand key.1 value.1 then key.2 else key.2 ++ usual .colon :: value.2
  | .binary _ left op right | .assign left op right => left.2 ++ (op.2 ++ right.2)
  | .operator op => [⟨op.kind, if text.isEmpty then op.symbol else text⟩]
  | .unary kind value => usual kind.token :: value.2
  | .returnStmt value => usual (.keyword .returnWord) :: value.elim [] (·.2)
  | .constDecl name value =>
    usual (.keyword .constWord) :: word name :: usual .assign :: value.2
  | .letDecl name value =>
    usual (.keyword .letWord) :: word name :: value.elim [] (usual .assign :: ·.2)
  | .ifStmt condition body clauses =>
    usual (.keyword .ifWord) :: (condition.2 ++ (ofBlock body ++ clauses.flatMap (·.2)))
  | .elseIf condition body =>
    usual (.keyword .elseWord) :: usual (.keyword .ifWord) :: (condition.2 ++ ofBlock body)
  | .elseClause body => usual (.keyword .elseWord) :: ofBlock body
  | .function name params body =>
    usual (.keyword .function) :: word name ::
      (enclosed .leftParen .rightParen (commas (params.map (·.2))) ++ ofBlock body)
  | .param name type optional =>
    word name :: ((if optional then [usual .question] else []) ++
      type.elim [] (usual .colon :: ofType ·))
  | .field name type required =>
    word name :: usual .colon :: (ofType type ++ if required then [usual .not] else [])
  | .index fields =>
    usual .atSign :: word "index" ::
      enclosed .leftParen .rightParen (commas (fields.map ofIndexField))
  | .collection name items => usual (.keyword .collection) :: word name :: ofBlock items

/-- The pieces of a node from those of its shape, which stand in brackets or go on from the
    receiver themselves. -/
def markPieces (node : Node) (shape : Shape (Node × List Piece)) (object : Option (List Piece)) :
    List Piece :=
  let inner :=
    if node.bracket then
      object.getD [] ++ enclosed .leftBracket .rightBracket (shapePieces node.text none shape)
    else shapePieces node.text object shape
  if node.parenthesized then enclosed .leftParen .rightParen inner else inner

/-- What the canonical text of a node says. -/
def pieces (node : Node) : List Piece :=
  node.fold fun node shape receiver => node.markPieces shape (receiver.map (·.2))

/-- The node with its pieces. -/
def withPieces (node : Node) : Node × List Piece :=
  (node, node.pieces)

@[simp] theorem withPieces_fst (node : Node) : node.withPieces.1 = node := rfl

@[simp] theorem withPieces_snd (node : Node) : node.withPieces.2 = node.pieces := rfl

/-- The semicolon between two nodes depends on what the first is and how the second begins. -/
theorem ofBreak_withPieces (node next : Node) :
    ofBreak node.withPieces next.withPieces =
      if node.isBareReturn || continues next.pieces then [usual .semicolon] else [] := rfl

/-- The pieces of a node, one level at a time. -/
theorem pieces_eq (node : Node) :
    node.pieces =
      node.markPieces (node.shape.map withPieces) (node.receiver.map pieces) := by
  rw [pieces, fold_eq, Option.map_map]
  rfl

/-- The pieces of an unmarked node are those of its shape. -/
@[simp] theorem pieces_mk_unmarked (shape : Shape Node) (p : Position) (b : Nat) (x : String) :
    (Node.mk shape p b x false false none).pieces = shapePieces x none (shape.map withPieces) := by
  rw [pieces_eq]
  rfl

/-- The pieces of an expression do not depend on where it was read. -/
theorem pieces_congr {shape : Shape Node} (hrole : shape.role = .expression) {p p' : Position}
    {b b' : Nat} {x x' : String} {parenthesized bracket : Bool} {receiver : Option Node} :
    (Node.mk shape p b x parenthesized bracket receiver).pieces =
      (Node.mk shape p' b' x' parenthesized bracket receiver).pieces := by
  rw [pieces_eq, pieces_eq]
  -- Only the operator of an expression is written by the text that was read, and that is no
  -- expression
  cases shape <;> first | rfl | cases hrole

/-- Parentheses stand around the pieces of the node without them. -/
theorem pieces_parenthesized (shape : Shape Node) (p : Position) (b : Nat) (x : String)
    (bracket : Bool) (receiver : Option Node) :
    (Node.mk shape p b x true bracket receiver).pieces =
      enclosed .leftParen .rightParen (Node.mk shape p b x false bracket receiver).pieces := by
  rw [pieces_eq, pieces_eq ⟨shape, p, b, x, false, bracket, receiver⟩]
  rfl

/-- A key in brackets comes after what it is looked up in. -/
theorem pieces_bracket (shape : Shape Node) (p : Position) (b : Nat) (x : String)
    (object : Node) :
    (Node.mk shape p b x false true (some object)).pieces =
      object.pieces ++ enclosed .leftBracket .rightBracket
        (shapePieces x none (shape.map withPieces)) := by
  rw [pieces_eq]
  rfl

/-- The name of a member comes after a dot. -/
theorem pieces_member (name : String) (p : Position) (b : Nat) (x : String) (object : Node) :
    (Node.mk (.name name) p b x false false (some object)).pieces =
      object.pieces ++ [usual .dot, word name] := by
  rw [pieces_eq]
  simp [markPieces, shapePieces, Shape.map]

/-- The arguments of a call come after what is called. -/
theorem pieces_call (args : List Node) (p : Position) (b : Nat) (x : String) (object : Node) :
    (Node.mk (.call args) p b x false false (some object)).pieces =
      object.pieces ++ enclosed .leftParen .rightParen
        (commas ((args.map withPieces).map (·.2))) := by
  rw [pieces_eq]
  rfl

/-- An entry is its key alone where the value can be left out. -/
theorem shapePieces_entry (key value : Node) (x : String) (object : Option (List Piece)) :
    shapePieces x object ((Shape.entry key value).map withPieces) =
      if isShorthand key value then key.pieces
      else key.pieces ++ usual .colon :: value.pieces := rfl

/-- The pieces of an entry, which carries no marks. -/
theorem pieces_entry (key value : Node) (p : Position) (b : Nat) (x : String) :
    (Node.mk (.entry key value) p b x false false none).pieces =
      if isShorthand key value then key.pieces
      else key.pieces ++ usual .colon :: value.pieces := by
  rw [pieces_mk_unmarked, shapePieces_entry]

/-- What the canonical text of a list of statements says. -/
def programPieces (nodes : List Node) : List Piece :=
  ofLines (nodes.map withPieces)

end Node

end Schemata
