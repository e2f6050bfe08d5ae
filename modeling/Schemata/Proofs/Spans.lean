import Schemata.Proofs.Calls
import Schemata.Proofs.NodeText

/-!
# The spans of a tree

Every node of a tree that was read, operators included, notes the tokens that it was read from, and
those of a part are among those of the whole (`Written.spread`).  Tokens stand in their source one
after another, so the spans of the nodes are exact and nested like the nodes (`Node.Spanned`).

Main statement: `spanned_of_read`, for every precedence table and every depth limit.
-/

namespace Schemata

variable {grammar : Grammar} {note : SourceNote} {r : Nat} {place : Place} {ts : List Token}
  {n : Node}

/-! ## The tokens of all nodes -/

/-- What the node notes is about the tokens, or about the one token of an operator. -/
def SourceNote.about (note : SourceNote) (ts : List Token) (n : Node) : Prop :=
  note.node ts n.position n.lineBreaks n.text ∨
    ∃ t op, ts = [t] ∧ Operator.ofKind? t.kind = some op ∧
      note.operator t n.position n.lineBreaks n.text

/-- What the node notes is about the tokens, and so it is for each of its parts and some of these
    tokens, which come one after another. -/
inductive Spread (note : SourceNote) : List Token → Node → Prop
  | mk {ts : List Token} {n : Node} (tokensOf : Node → List Token) (about : note.about ts n)
      (inside : ∀ part ∈ n.parts, tokensOf part <:+: ts)
      (parts : ∀ part ∈ n.parts, Spread note (tokensOf part) part) : Spread note ts n

namespace Spread

/-- What a node notes is about its tokens. -/
theorem about (h : Spread note ts n) : note.about ts n := by
  cases h with
  | mk _ about => exact about

/-- The parts of a node are spread over some of its tokens. -/
theorem parts (h : Spread note ts n) :
    ∀ part ∈ n.parts, ∃ us, us <:+: ts ∧ Spread note us part := by
  intro part hpart
  cases h with
  | mk tokensOf _ inside parts => exact ⟨tokensOf part, inside part hpart, parts part hpart⟩

/-- A node is spread over its tokens if its parts are spread over some of them. -/
theorem of_parts (hn : note.node ts n.position n.lineBreaks n.text)
    (h : ∀ part ∈ n.parts, ∃ us, us <:+: ts ∧ Spread note us part) : Spread note ts n := by
  choose! tokensOf inside parts using h
  exact .mk tokensOf (.inl hn) inside parts

/-- All nodes of a tree are spread over some of its tokens. -/
theorem subtrees (h : Spread note ts n) :
    ∀ m ∈ n.subtrees, ∃ us, us <:+: ts ∧ Spread note us m := by
  induction n using Node.induction generalizing ts with
  | step n ih =>
    refine Node.forall_subtrees_iff.2 ⟨⟨ts, List.infix_rfl, h⟩, fun part hpart m hm => ?_⟩
    obtain ⟨us, hus, hs⟩ := h.parts part hpart
    obtain ⟨vs, hvs, hm⟩ := ih part hpart hs m hm
    exact ⟨vs, hvs.trans hus, hm⟩

/-- A node without parts. -/
theorem of_leaf (hleaf : n.parts = []) (hn : note.node ts n.position n.lineBreaks n.text) :
    Spread note ts n :=
  .of_parts hn (by simp [hleaf])

/-- A node with one part. -/
theorem of_part {part : Node} {us : List Token} (hparts : n.parts = [part])
    (hn : note.node ts n.position n.lineBreaks n.text) (hus : us <:+: ts)
    (hpart : Spread note us part) : Spread note ts n := by
  refine .of_parts hn ?_
  simpa [hparts] using ⟨us, hus, hpart⟩

/-- An operator. -/
theorem operator {t : Token} {op : Operator} {p : Position} {b : Nat} {x : String}
    (ho : Operator.ofKind? t.kind = some op) (hn : note.operator t p b x) :
    Spread note [t] ⟨.operator op, p, b, x, false, false, none⟩ :=
  .mk (fun _ => [t]) (.inr ⟨t, op, rfl, ho, hn⟩) (by simp [Shape.parts]) (by simp [Shape.parts])

end Spread

/-- The three parts of an operation. -/
private theorem spread_operation {tl tr : List Token} {t : Token} {left op right : Node}
    (hl : Spread note tl left) (ho : Spread note [t] op) (hr : Spread note tr right) :
    ∀ part ∈ [left, op, right], ∃ us, us <:+: tl ++ t :: tr ∧ Spread note us part := by
  intro part hpart
  simp only [List.mem_cons, List.not_mem_nil, or_false] at hpart
  rcases hpart with rfl | rfl | rfl
  · exact ⟨tl, List.infix_append' [] tl _, hl⟩
  · exact ⟨[t], List.infix_append' tl [t] tr, ho⟩
  · exact ⟨tr, ⟨tl ++ [t], [], by simp⟩, hr⟩

/-- The items of a sequence are spread over some of its tokens. -/
private theorem spread_items {items : List (List Token × Node)} {body : List Token}
    (ih : ∀ i ∈ items, Spread note i.1 i.2) (hs : Separated (items.map Prod.fst) body)
    (hbody : body <:+: ts) :
    ∀ part ∈ items.map Prod.snd, ∃ us, us <:+: ts ∧ Spread note us part := by
  intro part hpart
  obtain ⟨i, hi, rfl⟩ := List.mem_map.1 hpart
  exact ⟨i.1, (hs.infix_of_mem (List.mem_map_of_mem hi)).trans hbody, ih i hi⟩

/-- The nodes of lines are spread over some of their tokens. -/
private theorem spread_lines {lines : Lines}
    (ih : ∀ s ∈ lines.stretches, Spread note s.tokens s.node)
    (hlines : lines.tokens <:+: ts) :
    ∀ part ∈ lines.nodes, ∃ us, us <:+: ts ∧ Spread note us part := by
  intro part hpart
  obtain ⟨s, hs, rfl⟩ := List.mem_map.1 hpart
  exact ⟨s.tokens, (Lines.infix_of_mem hs).trans hlines, ih s hs⟩

/-- The key of an entry is spread over its token. -/
private theorem spread_key {t : Token} {key : Node} (h : KeyWritten note t key) :
    Spread note [t] key := by
  cases h with
  | name _ hn => exact .of_leaf rfl hn
  | string _ hn => exact .of_leaf rfl hn

/-- Every node of a tree is spread over the tokens it was written with. -/
theorem Written.spread (h : Written grammar note r place ts n) : Spread note ts n := by
  induction h with
  -- Rules that only change the place leave the node and its tokens as they are
  | nested _ ih | functionItem _ ih | functionTop _ ih | expression _ ih | statement _ ih =>
    exact ih
  | number _ hn | string _ hn | boolean _ hn | name _ hn | letBare _ _ hn | returnBare _ hn =>
    exact .of_leaf rfl hn
  | param _ _ _ hn | field _ _ _ _ hn | index _ _ _ _ _ _ _ hn => exact .of_leaf rfl hn
  | array _ hs _ _ hn ih | object _ hs _ _ hn ih =>
    exact .of_parts hn (spread_items ih hs (List.infix_append' [_] _ [_]))
  | @entry r t c ts key value p b x hkey _ _ hn ih =>
    refine .of_parts hn fun part hpart => ?_
    rcases List.mem_pair.1 hpart with rfl | rfl
    · exact ⟨[t], List.infix_append' [] [t] (c :: ts), spread_key hkey⟩
    · exact ⟨ts, ⟨[t, c], [], by simp⟩, ih⟩
  | shorthand hk hkey hvalue hn =>
    refine .of_parts hn fun part hpart => ?_
    rcases List.mem_pair.1 hpart with rfl | rfl
    · exact ⟨_, List.infix_rfl, .of_leaf rfl hkey⟩
    · exact ⟨_, List.infix_rfl, .of_leaf rfl hvalue⟩
  -- Parentheses widen the span of the node that stands in them, which keeps its parts
  | group _ _ _ hn ih =>
    refine .of_parts hn fun part hpart => ?_
    obtain ⟨us, hus, hs⟩ := ih.parts part hpart
    exact ⟨us, hus.trans (List.infix_append' [_] _ [_]), hs⟩
  | @member r ts receiver d t p b x _ _ _ hn ih =>
    exact .of_part rfl hn (List.infix_append' [] ts [d, t]) ih
  | @key r ts tk object key o c p b x _ _ _ _ hn ihr ihk =>
    have hinside : tk <:+: ts ++ o :: (tk ++ [c]) := ⟨ts ++ [o], [c], by simp⟩
    refine .of_parts hn fun part hpart => ?_
    rcases List.mem_cons.1 hpart with rfl | hpart
    · exact ⟨ts, List.infix_append' [] ts _, ihr⟩
    · obtain ⟨-, he⟩ | ⟨shape, p', b', x', rfl, he⟩ := Node.bracketed_cases key object <;>
        rw [he] at hpart
      · obtain rfl := List.mem_singleton.1 hpart
        exact ⟨tk, hinside, ihk⟩
      -- A key that is not wrapped gives its own parts to the node
      · obtain ⟨us, hus, hs⟩ := ihk.parts part hpart
        exact ⟨us, hus.trans hinside, hs⟩
  | @call r ts body receiver o c args p b x _ _ hs _ _ hn ihr ihi =>
    refine .of_parts hn fun part hpart => ?_
    rcases List.mem_cons.1 hpart with rfl | hpart
    · exact ⟨ts, List.infix_append' [] ts _, ihr⟩
    · exact spread_items ihi hs ⟨ts ++ [o], [c], by simp⟩ part hpart
  | binary _ _ ho ht _ hn ihl ihr | assign _ _ _ ho ht _ hn ihl ihr =>
    exact .of_parts hn (spread_operation ihl (.operator ho ht) ihr)
  | @unary r t ts value kind p b x _ _ hn ih =>
    exact .of_part rfl hn ⟨[t], [], by simp⟩ ih
  | @function r k t o c ob cb params body block p b x _ _ _ hs _ _ _ _ _ _ hn ihi ihb =>
    refine .of_parts hn fun part hpart => ?_
    have hpart : part ∈ params.map Prod.snd ++ block.nodes := hpart
    rcases List.mem_append.1 hpart with hpart | hpart
    · exact spread_items ihi hs (List.infix_append' [k, t, o] body _) part hpart
    · exact spread_lines ihb ⟨k :: t :: o :: (body ++ [c, ob]), [cb], by simp⟩ part hpart
  | collection _ _ _ _ _ _ hn ih =>
    exact .of_parts hn (spread_lines ih (List.infix_append' [_, _, _] _ [_]))
  | @elseIf r e k o c ts condition block p b x _ _ _ _ _ _ _ hn ihv ihb =>
    refine .of_parts hn fun part hpart => ?_
    rcases List.mem_cons.1 hpart with rfl | hpart
    · exact ⟨ts, List.infix_append' [e, k] ts _, ihv⟩
    · exact spread_lines ihb ⟨e :: k :: (ts ++ [o]), [c], by simp⟩ part hpart
  | elseClause _ _ _ _ _ hn ih =>
    exact .of_parts hn (spread_lines ih (List.infix_append' [_, _] _ [_]))
  | @ifStmt r k o c ts condition block clauses p b x _ _ _ _ _ _ _ _ hn ihv ihb ihi =>
    refine .of_parts hn fun part hpart => ?_
    rcases List.mem_cons.1 hpart with rfl | hpart
    · exact ⟨ts, List.infix_append' [k] ts _, ihv⟩
    rcases List.mem_append.1 hpart with hpart | hpart
    · exact spread_lines ihb ⟨k :: (ts ++ [o]), c :: clauses.flatMap Prod.fst, by simp⟩ part hpart
    · obtain ⟨clause, hclause, rfl⟩ := List.mem_map.1 hpart
      obtain ⟨before, after, rfl⟩ := List.append_of_mem hclause
      refine ⟨clause.1, ?_, ihi clause hclause⟩
      exact ⟨k :: (ts ++ o :: (block.tokens ++ c :: before.flatMap Prod.fst)),
        after.flatMap Prod.fst, by simp⟩
  | @constDecl r k t a ts value p b x _ _ _ _ hn ih
  | @letValue r k t a ts value p b x _ _ _ _ hn ih =>
    exact .of_part rfl hn ⟨[k, t, a], [], by simp⟩ ih
  | @returnValue r k ts value p b x _ _ hn ih => exact .of_part rfl hn ⟨[k], [], by simp⟩ ih

/-! ## Spans -/

/-- The offset at which the text of a node ends. -/
def Node.stop (node : Node) : Nat :=
  node.position.offset + Text.byteSize node.text.toList

/-- The node has the span of a piece of the source, from the start of one of the given tokens to the
    end of another, and the spans of its parts lie inside. -/
structure Node.Spanned (source : List Char) (tokens : List Token) (n : Node) : Prop where
  text : n.text.toList = Text.slice source n.position.offset n.stop
  position : n.position.Exact source
  lineBreaks : n.lineBreaks = Text.lineBreaks n.text.toList
  first : ∃ t ∈ tokens, t.position = n.position ∧ t.stop ≤ n.stop
  last : ∃ t ∈ tokens, n.position.offset ≤ t.position.offset ∧ t.stop = n.stop
  parts : ∀ part ∈ n.parts, n.position.offset ≤ part.position.offset ∧ part.stop ≤ n.stop

/-- Of tokens that stand one after another, the first begins first and the last ends last. -/
private theorem between_of_mem {us : List Token} {first last t : Token}
    (h : us.Pairwise fun t u => t.stop ≤ u.position.offset) (hf : us.head? = some first)
    (hl : us.getLast? = some last) (ht : t ∈ us) :
    first.position.offset ≤ t.position.offset ∧ t.stop ≤ last.stop := by
  have hle : ∀ u : Token, u.position.offset ≤ u.stop := fun u => Nat.le_add_right _ _
  constructor
  · obtain ⟨rest, rfl⟩ := List.head?_eq_some_iff.1 hf
    rcases List.mem_cons.1 ht with rfl | ht
    · exact Nat.le_refl _
    · exact Nat.le_trans (hle first) ((List.pairwise_cons.1 h).1 t ht)
  · obtain ⟨init, rfl⟩ := List.getLast?_eq_some_iff.1 hl
    rcases List.mem_append.1 ht with ht | ht
    · exact Nat.le_trans ((List.pairwise_append.1 h).2.2 t ht last (by simp)) (hle last)
    · obtain rfl := List.mem_singleton.1 ht
      exact Nat.le_refl _

/-- No operator is spelled with a newline. -/
private theorem lineBreaks_operator {t : Token} {op : Operator} (hs : t.Scanned)
    (ho : Operator.ofKind? t.kind = some op) : Text.lineBreaks t.text.toList = 0 := by
  have hkind := Parse.kind_of_ofKind? ho
  have hopen : op.kind.isOpenClass = false := by cases op <;> rfl
  have hplain : ∀ x ∈ op.kind.spellings, Text.lineBreaks x.toList = 0 := by cases op <;> decide
  obtain ⟨hvalue, htext⟩ := hs.mem_spellings (hkind ▸ hopen)
  rw [htext]
  exact hplain _ (hkind ▸ hvalue)

section

variable {source : List Char} {tokens : List Token}

/-- The tokens of a source that are not trivia. -/
def Token.solid (tokens : List Token) : List Token :=
  tokens.filter fun token => !token.kind.isTrivia

/-- Operators note the same about their source as all other nodes. -/
private theorem node_of_about (h : Tiles .start source tokens)
    (hts : ts <:+: Token.solid tokens) (hn : (SourceNote.ofText source).about ts n) :
    (SourceNote.ofText source).node ts n.position n.lineBreaks n.text := by
  obtain hn | ⟨t, op, rfl, ho, hp, hb, hx⟩ := hn
  · exact hn
  · have ht : t ∈ tokens := (List.mem_filter.1 (hts.mem (List.mem_singleton_self t))).1
    have hslice := h.slice_of_mem ht
    refine ⟨t, t, rfl, rfl, hp, ?_, ?_⟩
    · rw [hslice, hb, lineBreaks_operator (h.scanned t ht) ho]
    · rw [hslice, hx, String.ofList_toList]

/-- The span of a node that notes something about tokens of a source. -/
private theorem span_of_about (h : Tiles .start source tokens)
    (hts : ts <:+: Token.solid tokens) (hn : (SourceNote.ofText source).about ts n) :
    ∃ first last front middle back, ts.head? = some first ∧ ts.getLast? = some last ∧
      n.position = first.position ∧ n.stop = last.stop ∧ source = front ++ (middle ++ back) ∧
      n.position = Position.start.advance front ∧ n.text.toList = middle ∧
      n.lineBreaks = Text.lineBreaks middle := by
  obtain ⟨first, last, hf, hl, hp, hb, hx⟩ := node_of_about h hts hn
  obtain ⟨us, vs, hsplit⟩ := hts
  rw [List.append_assoc] at hsplit
  obtain ⟨front, middle, back, rfl, hposition, hstop, -⟩ := h.part_of_filter hsplit.symm hf hl
  have hslice :
      Text.slice (front ++ (middle ++ back)) first.position.offset last.stop = middle := by
    rw [hstop, hposition, Position.offset_advance_start, Text.slice_append_append]
  rw [hslice] at hb hx
  have htext : n.text.toList = middle := by rw [hx, String.toList_ofList]
  refine ⟨first, last, front, middle, back, hf, hl, hp, ?_, rfl, hp.trans hposition, htext, hb⟩
  rw [Node.stop, htext, hp, hposition, Position.offset_advance_start, hstop]

/-- Every node that is spread over tokens of a source has an exact span there. -/
theorem Spread.spanned (h : Tiles .start source tokens) (hts : ts <:+: Token.solid tokens)
    (hs : Spread (.ofText source) ts n) : n.Spanned source (Token.solid tokens) := by
  have hsorted : ts.Pairwise fun t u => t.stop ≤ u.position.offset :=
    (h.pairwise_stop.filter _).sublist hts.sublist
  obtain ⟨first, last, front, middle, back, hf, hl, hp, hstop, hsource, hstart, htext, hbreaks⟩ :=
    span_of_about h hts hs.about
  have hfirst := List.mem_of_mem_head? hf
  have hlast := List.mem_of_getLast? hl
  -- The text, the coordinates, the line breaks, both ends and the parts
  constructor
  · rw [Node.stop, htext, hstart, Position.offset_advance_start, hsource, Text.slice_append_append]
  · rw [hstart, hsource]
    exact Position.exact_advance_start front (middle ++ back)
  · rw [htext, hbreaks]
  · exact ⟨first, hts.mem hfirst, hp.symm, hstop ▸ (between_of_mem hsorted hf hl hfirst).2⟩
  · exact ⟨last, hts.mem hlast, hp ▸ (between_of_mem hsorted hf hl hlast).1, hstop.symm⟩
  · intro part hpart
    obtain ⟨us, hus, hpart⟩ := hs.parts part hpart
    obtain ⟨first', last', -, -, -, hf', hl', hp', hstop', -⟩ :=
      span_of_about h (hus.trans hts) hpart.about
    rw [hp, hp', hstop, hstop']
    exact ⟨(between_of_mem hsorted hf hl (hus.mem (List.mem_of_mem_head? hf'))).1,
      (between_of_mem hsorted hf hl (hus.mem (List.mem_of_getLast? hl'))).2⟩

end

/-! ## Trees that are read -/

namespace Parser

/-- The parser reads the node: as a statement of its source, or as the one expression of it. -/
def Reads (parser : Parser) (n : Node) : Prop :=
  (∃ nodes, parser.readStatements.1 = .ok nodes ∧ n ∈ nodes) ∨ parser.readExpression.1 = .ok n

/-- What is read was written with tokens of the source, none of them trivia. -/
theorem Reads.written {parser : Parser} (h : parser.Reads n) :
    ∃ tokens room place ts, (Lexer.ofSource parser.source).tokenize = .ok tokens ∧
      ts <:+: Token.solid tokens ∧
      Written parser.grammar (.ofText parser.source.toList) room place ts n := by
  -- The lexemes of a source are those of its tokens that are not trivia
  have hsolid : ∀ {lexemes : List Lexeme} {stop : Position},
      Lexeme.ofSource parser.source = .ok (lexemes, stop) →
      ∃ tokens, (Lexer.ofSource parser.source).tokenize = .ok tokens ∧
        lexemes.map Lexeme.token = Token.solid tokens := by
    intro lexemes stop hsource
    obtain ⟨tokens, htiles, rfl, -⟩ := Lexeme.ofSource_eq_ok.1 hsource
    exact ⟨tokens, Lexer.tokenize_eq_ok.2 htiles, Lexeme.map_token_ofTokens ..⟩
  obtain ⟨nodes, hread, hn⟩ | hread := h
  · obtain ⟨lexemes, stop, c, hsource, hp⟩ := readStatements_eq_ok.1 hread
    obtain ⟨tokens, htokens, hlexemes⟩ := hsolid hsource
    obtain ⟨lines, hlines, rfl, hparsed⟩ := Parse.program_reads hp
    obtain ⟨s, hs, rfl⟩ := List.mem_map.1 hn
    refine ⟨tokens, _, .top, s.tokens, htokens, ?_, hparsed.written.written s hs⟩
    rw [← hlexemes]
    exact (Lines.infix_of_mem hs).trans (hlines ▸ List.infix_rfl)
  · obtain ⟨lexemes, stop, c, hsource, hp⟩ := read_eq_ok.1 hread
    obtain ⟨tokens, htokens, hlexemes⟩ := hsolid hsource
    refine ⟨tokens, _, .nested, _, htokens, ?_, (Parse.wholeExpression_reads hp).written⟩
    exact hlexemes ▸ List.infix_rfl

end Parser

/-- With every precedence table and every depth limit, each node of a tree that is read, however
    deep in it, has the text and the true coordinates of a piece of the source that goes from the
    start of a token to the end of one, trivia apart, and its parts lie inside that piece. -/
theorem spanned_of_read {parser : Parser} (h : parser.Reads n) :
    ∃ tokens, (Lexer.ofSource parser.source).tokenize = .ok tokens ∧
      ∀ m ∈ n.subtrees, m.Spanned parser.source.toList (Token.solid tokens) := by
  obtain ⟨tokens, room, place, ts, htokens, hts, hw⟩ := h.written
  refine ⟨tokens, htokens, fun m hm => ?_⟩
  obtain ⟨us, hus, hs⟩ := hw.spread.subtrees m hm
  exact hs.spanned (Lexer.tokenize_eq_ok.1 htokens) (hus.trans hts)

/-- A table with one binary and one unary row. -/
def Grammar.signedConcat : Grammar where
  levels := [.binary .concat [.ampersand], .unary [(.plus, .negate)]]

/-- Trivia between all tokens, one of them with a newline and one behind a character of two bytes,
    around a unary operation, a group, a key with a receiver of its own and a call. -/
theorem spanned_of_read_concat :
    ∃ n tokens, (Parser.ofSource .signedConcat "'é' & /*\n*/ + ( x [ y.z ] ) . f ( )").Reads n ∧
      (Lexer.ofSource "'é' & /*\n*/ + ( x [ y.z ] ) . f ( )").tokenize = .ok tokens ∧
      ∀ m ∈ n.subtrees,
        m.Spanned "'é' & /*\n*/ + ( x [ y.z ] ) . f ( )".toList (Token.solid tokens) := by
  obtain ⟨n, hn⟩ := exists_of_isOk (show (Parser.ofSource .signedConcat
    "'é' & /*\n*/ + ( x [ y.z ] ) . f ( )").readExpression.1.isOk = true by decide +kernel)
  obtain ⟨tokens, htokens, hm⟩ := spanned_of_read (.inr hn)
  exact ⟨n, tokens, .inr hn, htokens, hm⟩

end Schemata
