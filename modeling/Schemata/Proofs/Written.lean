import Mathlib.Data.List.Chain
import Schemata.Proofs.Levels

/-!
# The grammar of the language

`Written grammar note room place tokens node` says that the tokens, as they stand in the source,
are a way of writing the node in the given place, with no more than `room` expressions and blocks
nested inside.  It is the grammar of the language as a relation: one rule for each way of writing
a construct, with no order in which the rules are tried.  Where a rule leaves open how operands
are grouped, `Node.Ordered` decides; where a statement may end is decided by `Lines.Spaced`.

What a node notes about its source is a parameter (`SourceNote`), so that the grammar can be used
both for nodes that were read from a source and for nodes that were not.
-/

namespace Schemata

/-! ## Where a statement ends -/

/-- Whether a statement ends with an expression. -/
def Node.endsInExpression (node : Node) : Bool :=
  match node.shape with
  | .returnStmt value | .letDecl _ value => value.isSome
  | .constDecl _ _ | .assign _ _ _ => true
  | shape => shape.role == .expression

/-- A statement ends before the next token, if there is one. -/
structure Grammar.Ends (grammar : Grammar) (node : Node) (next : Option TokenKind) : Prop where
  bare : node.isBareReturn = true → ∀ kind ∈ next, kind = .rightBrace ∨ kind = .semicolon
  expression : node.endsInExpression = true → grammar.Stops 0 next

namespace Grammar.Ends

variable {grammar : Grammar} {node : Node} {next : Option TokenKind}

/-- A statement that is not a bare return ends where an expression would. -/
theorem of_stops (hbare : node.isBareReturn = false) (h : grammar.Stops 0 next) :
    grammar.Ends node next :=
  ⟨fun hb => by simp [hbare] at hb, fun _ => h⟩

/-- A statement that ends with neither a bare return nor an expression ends anywhere. -/
theorem of_endsInExpression_eq_false (hbare : node.isBareReturn = false)
    (he : node.endsInExpression = false) : grammar.Ends node next :=
  ⟨fun hb => by simp [hbare] at hb, fun h => by simp [he] at h⟩

end Grammar.Ends

/-- The kind of the first of some tokens. -/
def Token.first? (tokens : List Token) : Option TokenKind :=
  tokens.head?.map Token.kind

/-! ## Sequences -/

/-- Tokens of items with commas between them, and perhaps one after the last. -/
inductive Separated : List (List Token) → List Token → Prop
  | nil : Separated [] []
  | last {item : List Token} : Separated [item] item
  | comma {item body : List Token} {items : List (List Token)} {token : Token}
      (hk : token.kind = .comma) (hs : Separated items body) :
      Separated (item :: items) (item ++ token :: body)

/-- A statement with its tokens and the semicolons after it. -/
structure Stretch where
  tokens : List Token
  node : Node
  breaks : List Token

/-- Statements after one another, with semicolons before the first and after each. -/
structure Lines where
  leading : List Token
  stretches : List Stretch

namespace Lines

/-- The tokens of the statements and semicolons. -/
def tokens (lines : Lines) : List Token :=
  lines.leading ++ lines.stretches.flatMap fun stretch => stretch.tokens ++ stretch.breaks

/-- The statements. -/
def nodes (lines : Lines) : List Node :=
  lines.stretches.map Stretch.node

/-- There is nothing but semicolons between the statements, and a statement without one ends
    where the next begins. -/
structure Spaced (grammar : Grammar) (lines : Lines) : Prop where
  leading : ∀ token ∈ lines.leading, token.kind = .semicolon
  breaks : ∀ stretch ∈ lines.stretches, ∀ token ∈ stretch.breaks, token.kind = .semicolon
  apart : lines.stretches.IsChain fun stretch next =>
    stretch.breaks = [] → grammar.Ends stretch.node (Token.first? next.tokens)

end Lines

/-! ## Small constructs -/

/-- Tokens of a type. -/
inductive TypeWritten : List Token → String → Prop
  | name {token : Token} (hk : token.kind = .name) : TypeWritten [token] token.value
  | list {token l r : Token} (hk : token.kind = .name) (hl : l.kind = .leftBracket)
      (hr : r.kind = .rightBracket) : TypeWritten [token, l, r] (token.value ++ "[]")

/-- A token of the given kind, or none. -/
inductive Flag (kind : TokenKind) : List Token → Bool → Prop
  | absent : Flag kind [] false
  | present {token : Token} (hk : token.kind = kind) : Flag kind [token] true

/-- A colon and a type, or nothing. -/
inductive TypeNote : List Token → Option String → Prop
  | absent : TypeNote [] none
  | present {colon : Token} {tokens : List Token} {type : String} (hc : colon.kind = .colon)
      (ht : TypeWritten tokens type) : TypeNote (colon :: tokens) (some type)

/-- Tokens of a field of an index. -/
inductive IndexFieldWritten : List Token → IndexField → Prop
  | plain {token : Token} (hk : token.kind = .name) : IndexFieldWritten [token] ⟨token.value, none⟩
  | bracketed {l token r : Token} (hl : l.kind = .leftBracket) (hk : token.kind = .name)
      (hr : r.kind = .rightBracket) : IndexFieldWritten [l, token, r] ⟨token.value, none⟩
  | directed {l token comma word r : Token} {direction : Direction} (hl : l.kind = .leftBracket)
      (hk : token.kind = .name) (hc : comma.kind = .comma) (hw : word.kind = .name)
      (hd : Direction.ofWord? word.value = some direction) (hr : r.kind = .rightBracket) :
      IndexFieldWritten [l, token, comma, word, r] ⟨token.value, some direction⟩

/-- What a node may note about the tokens it was written with, an operator apart: its position,
    its line breaks and its text. -/
structure SourceNote where
  node : List Token → Position → Nat → String → Prop
  operator : Token → Position → Nat → String → Prop

/-- The note that says nothing. -/
def SourceNote.any : SourceNote where
  node _ _ _ _ := True
  operator _ _ _ _ := True

/-- A key of an object. -/
inductive KeyWritten (note : SourceNote) (token : Token) : Node → Prop
  | name {p : Position} {b : Nat} {x : String} (hk : token.kind = .name)
      (hn : note.node [token] p b x) :
      KeyWritten note token ⟨.name token.value, p, b, x, false, false, none⟩
  | string {p : Position} {b : Nat} {x : String} (hk : token.kind = .string)
      (hn : note.node [token] p b x) :
      KeyWritten note token ⟨.string token.value, p, b, x, false, false, none⟩

/-! ## The rules -/

/-- The places in which a node may be written. -/
inductive Place where
  /-- A nested expression. -/
  | nested
  | expression
  | entry
  | param
  /-- An item of a collection. -/
  | item
  /-- A further clause of a conditional. -/
  | clause
  /-- A function, in a collection or at the top. -/
  | function
  /-- A statement in a block. -/
  | statement
  /-- A statement at the top of a program. -/
  | top
  deriving DecidableEq, Repr

/-- The tokens are a way of writing the node in the place, with `room` for nesting. -/
inductive Written (grammar : Grammar) (note : SourceNote) :
    Nat → Place → List Token → Node → Prop
  | nested {r : Nat} {ts : List Token} {n : Node} (h : Written grammar note r .expression ts n) :
      Written grammar note (r + 1) .nested ts n
  | number {r : Nat} {t : Token} {p : Position} {b : Nat} {x : String} (hk : t.kind = .number)
      (hn : note.node [t] p b x) :
      Written grammar note r .expression [t] ⟨.number t.value, p, b, x, false, false, none⟩
  | string {r : Nat} {t : Token} {p : Position} {b : Nat} {x : String} (hk : t.kind = .string)
      (hn : note.node [t] p b x) :
      Written grammar note r .expression [t] ⟨.string t.value, p, b, x, false, false, none⟩
  | boolean {r : Nat} {t : Token} {p : Position} {b : Nat} {x : String} (hk : t.kind = .boolean)
      (hn : note.node [t] p b x) :
      Written grammar note r .expression [t]
        ⟨.boolean (t.value == "true"), p, b, x, false, false, none⟩
  | name {r : Nat} {t : Token} {p : Position} {b : Nat} {x : String} (hk : t.kind = .name)
      (hn : note.node [t] p b x) :
      Written grammar note r .expression [t] ⟨.name t.value, p, b, x, false, false, none⟩
  | array {r : Nat} {o c : Token} {items : List (List Token × Node)} {body : List Token}
      {p : Position} {b : Nat} {x : String} (ho : o.kind = .leftBracket)
      (hs : Separated (items.map Prod.fst) body) (hc : c.kind = .rightBracket)
      (hi : ∀ item ∈ items, Written grammar note r .nested item.1 item.2)
      (hn : note.node (o :: (body ++ [c])) p b x) :
      Written grammar note r .expression (o :: (body ++ [c]))
        ⟨.array (items.map Prod.snd), p, b, x, false, false, none⟩
  | object {r : Nat} {o c : Token} {entries : List (List Token × Node)} {body : List Token}
      {p : Position} {b : Nat} {x : String} (ho : o.kind = .leftBrace)
      (hs : Separated (entries.map Prod.fst) body) (hc : c.kind = .rightBrace)
      (hi : ∀ entry ∈ entries, Written grammar note r .entry entry.1 entry.2)
      (hn : note.node (o :: (body ++ [c])) p b x) :
      Written grammar note r .expression (o :: (body ++ [c]))
        ⟨.object (entries.map Prod.snd), p, b, x, false, false, none⟩
  | entry {r : Nat} {t c : Token} {ts : List Token} {key value : Node} {p : Position} {b : Nat}
      {x : String} (hkey : KeyWritten note t key) (hc : c.kind = .colon)
      (hv : Written grammar note r .nested ts value) (hn : note.node (t :: c :: ts) p b x) :
      Written grammar note r .entry (t :: c :: ts)
        ⟨.entry key value, p, b, x, false, false, none⟩
  | shorthand {r : Nat} {t : Token} {p p' p'' : Position} {b b' b'' : Nat} {x x' x'' : String}
      (hk : t.kind = .name) (hkey : note.node [t] p' b' x') (hvalue : note.node [t] p'' b'' x'')
      (hn : note.node [t] p b x) :
      Written grammar note r .entry [t]
        ⟨.entry ⟨.name t.value, p', b', x', false, false, none⟩
          ⟨.name t.value, p'', b'', x'', false, false, none⟩, p, b, x, false, false, none⟩
  | group {r : Nat} {o c : Token} {ts : List Token} {n : Node} {p : Position} {b : Nat}
      {x : String} (ho : o.kind = .leftParen) (hi : Written grammar note r .nested ts n)
      (hc : c.kind = .rightParen) (hn : note.node (o :: (ts ++ [c])) p b x) :
      Written grammar note r .expression (o :: (ts ++ [c]))
        ⟨n.shape, p, b, x, true, n.bracket, n.receiver⟩
  | member {r : Nat} {ts : List Token} {receiver : Node} {d t : Token} {p : Position} {b : Nat}
      {x : String} (hr : Written grammar note r .expression ts receiver) (hd : d.kind = .dot)
      (hk : t.kind = .name) (hn : note.node (ts ++ [d, t]) p b x) :
      Written grammar note r .expression (ts ++ [d, t])
        ⟨.name t.value, p, b, x, false, false, some receiver⟩
  | key {r : Nat} {ts tk : List Token} {object key : Node} {o c : Token} {p : Position} {b : Nat}
      {x : String} (hr : Written grammar note r .expression ts object)
      (ho : o.kind = .leftBracket) (hk : Written grammar note r .nested tk key)
      (hc : c.kind = .rightBracket) (hn : note.node (ts ++ o :: (tk ++ [c])) p b x) :
      Written grammar note r .expression (ts ++ o :: (tk ++ [c]))
        ⟨(key.bracketed object).shape, p, b, x, (key.bracketed object).parenthesized, true,
          some object⟩
  | call {r : Nat} {ts body : List Token} {receiver : Node} {o c : Token}
      {args : List (List Token × Node)} {p : Position} {b : Nat} {x : String}
      (hr : Written grammar note r .expression ts receiver) (ho : o.kind = .leftParen)
      (hs : Separated (args.map Prod.fst) body) (hc : c.kind = .rightParen)
      (hi : ∀ arg ∈ args, Written grammar note r .nested arg.1 arg.2)
      (hn : note.node (ts ++ o :: (body ++ [c])) p b x) :
      Written grammar note r .expression (ts ++ o :: (body ++ [c]))
        ⟨.call (args.map Prod.snd), p, b, x, false, false, some receiver⟩
  | binary {r : Nat} {tl tr : List Token} {left right : Node} {t : Token} {kind : BinaryKind}
      {op : Operator} {p p' : Position} {b b' : Nat} {x x' : String}
      (hl : Written grammar note r .expression tl left) (hb : grammar.Binds kind t.kind)
      (ho : Operator.ofKind? t.kind = some op) (ht : note.operator t p' b' x')
      (hr : Written grammar note r .expression tr right)
      (hn : note.node (tl ++ t :: tr) p b x) :
      Written grammar note r .expression (tl ++ t :: tr)
        ⟨.binary kind left ⟨.operator op, p', b', x', false, false, none⟩ right, p, b, x, false,
          false, none⟩
  | unary {r : Nat} {t : Token} {ts : List Token} {value : Node} {kind : UnaryKind} {p : Position}
      {b : Nat} {x : String} (hb : grammar.Begins kind t.kind)
      (hv : Written grammar note r .nested ts value) (hn : note.node (t :: ts) p b x) :
      Written grammar note r .expression (t :: ts)
        ⟨.unary kind value, p, b, x, false, false, none⟩
  | param {r : Nat} {t : Token} {q ts : List Token} {type : Option String} {optional : Bool}
      {p : Position} {b : Nat} {x : String} (hk : t.kind = .name) (hq : Flag .question q optional)
      (ht : TypeNote ts type) (hn : note.node (t :: (q ++ ts)) p b x) :
      Written grammar note r .param (t :: (q ++ ts))
        ⟨.param t.value type optional, p, b, x, false, false, none⟩
  | field {r : Nat} {t : Token} {cs ts fs : List Token} {type : String} {colon required : Bool}
      {p : Position} {b : Nat} {x : String} (hk : t.kind = .name) (hc : Flag .colon cs colon)
      (ht : TypeWritten ts type) (hf : Flag .not fs required)
      (hn : note.node (t :: (cs ++ (ts ++ fs))) p b x) :
      Written grammar note r .item (t :: (cs ++ (ts ++ fs)))
        ⟨.field t.value type required, p, b, x, false, false, none⟩
  | index {r : Nat} {a d o c : Token} {fields : List (List Token × IndexField)}
      {body : List Token} {p : Position} {b : Nat} {x : String} (ha : a.kind = .atSign)
      (hk : d.kind = .name) (hd : d.value = "index") (ho : o.kind = .leftParen)
      (hs : Separated (fields.map Prod.fst) body)
      (hi : ∀ field ∈ fields, IndexFieldWritten field.1 field.2) (hc : c.kind = .rightParen)
      (hn : note.node (a :: d :: o :: (body ++ [c])) p b x) :
      Written grammar note r .item (a :: d :: o :: (body ++ [c]))
        ⟨.index (fields.map Prod.snd), p, b, x, false, false, none⟩
  | function {r : Nat} {k t o c ob cb : Token} {params : List (List Token × Node)}
      {body : List Token} {block : Lines} {p : Position} {b : Nat} {x : String}
      (hk : k.kind = .keyword .function) (ht : t.kind = .name) (ho : o.kind = .leftParen)
      (hs : Separated (params.map Prod.fst) body)
      (hi : ∀ param ∈ params, Written grammar note (r + 1) .param param.1 param.2)
      (hc : c.kind = .rightParen) (hob : ob.kind = .leftBrace) (hsp : block.Spaced grammar)
      (hb : ∀ s ∈ block.stretches, Written grammar note r .statement s.tokens s.node)
      (hcb : cb.kind = .rightBrace)
      (hn : note.node (k :: t :: o :: (body ++ c :: ob :: (block.tokens ++ [cb]))) p b x) :
      Written grammar note (r + 1) .function
        (k :: t :: o :: (body ++ c :: ob :: (block.tokens ++ [cb])))
        ⟨.function t.value (params.map Prod.snd) block.nodes, p, b, x, false, false, none⟩
  | functionItem {r : Nat} {ts : List Token} {n : Node}
      (h : Written grammar note r .function ts n) : Written grammar note r .item ts n
  | functionTop {r : Nat} {ts : List Token} {n : Node}
      (h : Written grammar note r .function ts n) : Written grammar note r .top ts n
  | collection {r : Nat} {k t o c : Token} {items : Lines} {p : Position} {b : Nat} {x : String}
      (hk : k.kind = .keyword .collection) (ht : t.kind = .name) (ho : o.kind = .leftBrace)
      (hsp : items.Spaced grammar)
      (hi : ∀ s ∈ items.stretches, Written grammar note r .item s.tokens s.node)
      (hc : c.kind = .rightBrace) (hn : note.node (k :: t :: o :: (items.tokens ++ [c])) p b x) :
      Written grammar note r .top (k :: t :: o :: (items.tokens ++ [c]))
        ⟨.collection t.value items.nodes, p, b, x, false, false, none⟩
  | elseIf {r : Nat} {e k o c : Token} {ts : List Token} {condition : Node} {block : Lines}
      {p : Position} {b : Nat} {x : String} (he : e.kind = .keyword .elseWord)
      (hk : k.kind = .keyword .ifWord) (hv : Written grammar note (r + 1) .nested ts condition)
      (ho : o.kind = .leftBrace) (hsp : block.Spaced grammar)
      (hb : ∀ s ∈ block.stretches, Written grammar note r .statement s.tokens s.node)
      (hc : c.kind = .rightBrace)
      (hn : note.node (e :: k :: (ts ++ o :: (block.tokens ++ [c]))) p b x) :
      Written grammar note (r + 1) .clause (e :: k :: (ts ++ o :: (block.tokens ++ [c])))
        ⟨.elseIf condition block.nodes, p, b, x, false, false, none⟩
  | elseClause {r : Nat} {e o c : Token} {block : Lines} {p : Position} {b : Nat} {x : String}
      (he : e.kind = .keyword .elseWord) (ho : o.kind = .leftBrace) (hsp : block.Spaced grammar)
      (hb : ∀ s ∈ block.stretches, Written grammar note r .statement s.tokens s.node)
      (hc : c.kind = .rightBrace) (hn : note.node (e :: o :: (block.tokens ++ [c])) p b x) :
      Written grammar note (r + 1) .clause (e :: o :: (block.tokens ++ [c]))
        ⟨.elseClause block.nodes, p, b, x, false, false, none⟩
  | ifStmt {r : Nat} {k o c : Token} {ts : List Token} {condition : Node} {block : Lines}
      {clauses : List (List Token × Node)} {p : Position} {b : Nat} {x : String}
      (hk : k.kind = .keyword .ifWord) (hv : Written grammar note (r + 1) .nested ts condition)
      (ho : o.kind = .leftBrace) (hsp : block.Spaced grammar)
      (hb : ∀ s ∈ block.stretches, Written grammar note r .statement s.tokens s.node)
      (hc : c.kind = .rightBrace)
      (hi : ∀ clause ∈ clauses, Written grammar note (r + 1) .clause clause.1 clause.2)
      (hl : ∀ clause ∈ clauses.dropLast, clause.2.isElseIf = true)
      (hn : note.node (k :: (ts ++ o :: (block.tokens ++ c :: clauses.flatMap Prod.fst))) p b x) :
      Written grammar note (r + 1) .statement
        (k :: (ts ++ o :: (block.tokens ++ c :: clauses.flatMap Prod.fst)))
        ⟨.ifStmt condition block.nodes (clauses.map Prod.snd), p, b, x, false, false, none⟩
  | constDecl {r : Nat} {k t a : Token} {ts : List Token} {value : Node} {p : Position} {b : Nat}
      {x : String} (hk : k.kind = .keyword .constWord) (ht : t.kind = .name)
      (ha : a.kind = .assign) (hv : Written grammar note r .nested ts value)
      (hn : note.node (k :: t :: a :: ts) p b x) :
      Written grammar note r .statement (k :: t :: a :: ts)
        ⟨.constDecl t.value value, p, b, x, false, false, none⟩
  | letValue {r : Nat} {k t a : Token} {ts : List Token} {value : Node} {p : Position} {b : Nat}
      {x : String} (hk : k.kind = .keyword .letWord) (ht : t.kind = .name)
      (ha : a.kind = .assign) (hv : Written grammar note r .nested ts value)
      (hn : note.node (k :: t :: a :: ts) p b x) :
      Written grammar note r .statement (k :: t :: a :: ts)
        ⟨.letDecl t.value (some value), p, b, x, false, false, none⟩
  | letBare {r : Nat} {k t : Token} {p : Position} {b : Nat} {x : String}
      (hk : k.kind = .keyword .letWord) (ht : t.kind = .name) (hn : note.node [k, t] p b x) :
      Written grammar note r .statement [k, t]
        ⟨.letDecl t.value none, p, b, x, false, false, none⟩
  | returnValue {r : Nat} {k : Token} {ts : List Token} {value : Node} {p : Position} {b : Nat}
      {x : String} (hk : k.kind = .keyword .returnWord)
      (hv : Written grammar note r .nested ts value) (hn : note.node (k :: ts) p b x) :
      Written grammar note r .statement (k :: ts)
        ⟨.returnStmt (some value), p, b, x, false, false, none⟩
  | returnBare {r : Nat} {k : Token} {p : Position} {b : Nat} {x : String}
      (hk : k.kind = .keyword .returnWord) (hn : note.node [k] p b x) :
      Written grammar note r .statement [k] ⟨.returnStmt none, p, b, x, false, false, none⟩
  | assign {r : Nat} {tl tr : List Token} {left right : Node} {t : Token} {op : Operator}
      {p p' : Position} {b b' : Nat} {x x' : String}
      (hl : Written grammar note r .nested tl left) (ha : left.isAssignable = true)
      (hk : t.kind ∈ [TokenKind.assign, .addAssign, .subAssign])
      (ho : Operator.ofKind? t.kind = some op) (ht : note.operator t p' b' x')
      (hr : Written grammar note r .nested tr right) (hn : note.node (tl ++ t :: tr) p b x) :
      Written grammar note r .statement (tl ++ t :: tr)
        ⟨.assign left ⟨.operator op, p', b', x', false, false, none⟩ right, p, b, x, false, false,
          none⟩
  | expression {r : Nat} {ts : List Token} {n : Node} (h : Written grammar note r .nested ts n) :
      Written grammar note r .statement ts n
  | statement {r : Nat} {ts : List Token} {n : Node} (h : Written grammar note r .statement ts n) :
      Written grammar note r .top ts n

/-- The tokens are a way of writing the statements of a program. -/
structure ProgramWritten (grammar : Grammar) (note : SourceNote) (room : Nat) (lines : Lines) :
    Prop where
  nonempty : lines.stretches ≠ []
  spaced : lines.Spaced grammar
  written : ∀ s ∈ lines.stretches, Written grammar note room .top s.tokens s.node

/-! ## What stands in a place -/

/-- Whether the node may stand in the place. -/
def Place.admits (node : Node) : Place → Bool
  | .nested | .expression => node.role == .expression
  | .entry => node.role == .entry
  | .param => node.role == .param
  | .item => node.isItem
  | .clause => node.role == .clause
  | .function => node.role == .function
  | .statement => node.isStatement
  | .top => node.isTop

/-- What is written in a place may stand there. -/
theorem Written.admits {grammar : Grammar} {note : SourceNote} {r : Nat} {place : Place}
    {ts : List Token} {n : Node} (h : Written grammar note r place ts n) :
    place.admits n = true := by
  -- Links and groups are what their objects and contents are; all else has its role by its shape
  induction h with
  | @key r ts tk object key o c p b x _ _ _ _ _ _ ih =>
    exact beq_iff_eq.2 (Node.role_bracketed (beq_iff_eq.1 ih) object)
  | nested _ ih | group _ _ _ _ ih => exact ih
  | functionItem _ ih | functionTop _ ih | expression _ ih | statement _ ih =>
    simp_all [Place.admits, Node.isItem, Node.isStatement, Node.isTop]
  | _ => rfl

/-! ## How what stands in a place begins -/

/-- Whether a node may begin with the token in the place. -/
def Place.starts (token : TokenKind) : Place → Bool
  | .nested | .expression => expressionKinds.contains token
  | .entry => [TokenKind.name, .string].contains token
  | .param => token == .name
  | .item => [TokenKind.keyword .function, .atSign, .name].contains token
  | .clause => token == .keyword .elseWord
  | .function => token == .keyword .function
  | .statement => (statementKinds ++ expressionKinds).contains token
  | .top =>
    (.keyword .function :: .keyword .collection :: (statementKinds ++ expressionKinds)).contains
      token
where
  /-- The kinds of token that an expression may begin with. -/
  expressionKinds : List TokenKind :=
    [.number, .string, .boolean, .name, .leftBracket, .leftBrace, .leftParen, .not, .minus]
  /-- The kinds of token that only a statement may begin with. -/
  statementKinds : List TokenKind :=
    [.keyword .ifWord, .keyword .constWord, .keyword .letWord, .keyword .returnWord]

namespace Written

variable {note : SourceNote} {r : Nat} {place : Place} {ts : List Token} {n : Node}

/-- What is written in a place begins with a token that may begin it there. -/
theorem starts (h : Written .standard note r place ts n) :
    ∃ t us, ts = t :: us ∧ place.starts t.kind = true := by
  -- A link and an operation begin with what stands first in them, by induction
  induction h with
  | nested _ ih | functionItem _ ih | functionTop _ ih | expression _ ih | statement _ ih =>
    obtain ⟨t, us, rfl, ht⟩ := ih
    refine ⟨t, us, rfl, ?_⟩
    revert ht
    cases t.kind with
    | keyword word => cases word <;> decide
    | _ => decide
  | member _ _ _ _ ih | key _ _ _ _ _ ih _ | call _ _ _ _ _ _ ih _ | binary _ _ _ _ _ _ ih _ =>
    obtain ⟨t, us, rfl, ht⟩ := ih
    exact ⟨t, _, rfl, ht⟩
  | assign _ _ _ _ _ _ _ ih _ =>
    obtain ⟨t, us, rfl, ht⟩ := ih
    refine ⟨t, _, rfl, ?_⟩
    revert ht
    cases t.kind with
    | keyword word => cases word <;> decide
    | _ => decide
  | @unary r t ts value kind p b x hb _ _ _ =>
    refine ⟨t, ts, rfl, ?_⟩
    obtain ⟨h, -⟩ | ⟨h, -⟩ := Grammar.begins_cases hb
    all_goals rw [h]; rfl
  | entry hkey =>
    refine ⟨_, _, rfl, ?_⟩
    cases hkey with
    | name hk _ | string hk _ => rw [hk]; rfl
  | _ =>
    exact ⟨_, _, rfl, by
      simp [*, Place.starts, Place.starts.expressionKinds, Place.starts.statementKinds]⟩

/-- What stands in a place does not begin with a token that nothing there begins with. -/
theorem first?_ne {kind : TokenKind} (h : Written .standard note r place ts n)
    (hk : place.starts kind = false) : ts ≠ [] ∧ Token.first? ts ≠ some kind := by
  obtain ⟨t, us, rfl, ht⟩ := h.starts
  refine ⟨List.cons_ne_nil _ _, ?_⟩
  rintro ⟨⟩
  rw [hk] at ht
  cases ht

/-- An open unary operation begins with its operator. -/
theorem starts_unary (h : Written .standard note r .expression ts n) (hu : n.isOpenUnary = true) :
    ∃ t us kind, ts = t :: us ∧ Grammar.unaryOperators.lookup t.kind = some kind := by
  cases h with
  | unary hb _ _ => exact ⟨_, _, _, rfl, Grammar.begins_iff.1 hb⟩
  | group | key =>
    rw [(Node.closed_of_isOpen_eq_false (by simp [Node.isOpen])).2] at hu
    cases hu
  | _ => cases hu

/-- An expression that is a chain or a power does not begin with a unary operator. -/
theorem starts_tight (h : Written .standard note r .expression ts n) (hg : n.Grouped)
    (hf : n.Fits (unaryRow + 1)) :
    ∃ t us, ts = t :: us ∧ Grammar.unaryOperators.lookup t.kind = none := by
  generalize hp : Place.expression = place at h
  induction h with
  | number hk | string hk | boolean hk | name hk | array hk | object hk | group hk =>
    exact ⟨_, _, rfl, by rw [hk]; rfl⟩
  -- What a link goes on from is closed, so it fits there as well
  | member _ _ _ _ ih | key _ _ _ _ _ ih _ | call _ _ _ _ _ _ ih _ =>
    have hg := Node.grouped_iff.1 hg
    obtain ⟨t, us, rfl, ht⟩ := ih (hg.2 _ (by simp)) ((hg.1.2 _ rfl).fits _) rfl
    exact ⟨t, _, rfl, ht⟩
  | @binary r tl tr left right t kind op p p' b b' x x' _ _ _ _ _ _ ih _ =>
    obtain ⟨⟨⟨-, hleft, -, hpower⟩, -⟩, hparts⟩ := Node.grouped_iff.1 hg
    have hrow : unaryRow + 1 ≤ kind.row := hf.1 kind rfl
    obtain rfl : kind = .power := by
      cases kind <;> first | rfl | exact absurd hrow (by decide)
    -- The left operand of a power is no unary operation
    have hfits : left.Fits (unaryRow + 1) := by
      refine ⟨hleft, fun hu => ?_⟩
      rw [(hpower rfl).1] at hu
      cases hu
    obtain ⟨t, us, rfl, ht⟩ := ih (hparts left (by simp [Shape.parts])) hfits rfl
    exact ⟨t, _, rfl, ht⟩
  | unary _ _ _ _ => exact absurd (hf.2 rfl) (by decide)
  | _ => cases hp

end Written

end Schemata
