import Schemata.Proofs.Printing

/-!
# Printing keeps what a program says

A source that is parsed and the canonical text of its statements say the same: they have the same
pieces in the same order, but for punctuation, and for a name that is given twice in an entry of an
object and printed once (`parse_printAll_content`).  Both directions of that go through the tree:
every token of the source is kept in the node that it is part of (`Written.keeps`), and every part
of a node is printed.
-/

namespace Schemata

/-- Whether tokens of this kind group and separate others. -/
def TokenKind.isPunctuation : TokenKind → Bool
  | leftParen | rightParen | leftBracket | rightBracket | comma | semicolon | colon => true
  | _ => false

namespace Piece

/-- Whether a piece is neither a name nor punctuation. -/
def isContent (piece : Piece) : Bool :=
  piece.kind != .name && !piece.kind.isPunctuation

/-- The piece without its spelling, if it is a negation. -/
def unspelled (piece : Piece) : Piece :=
  if piece.kind = .not then usual .not else piece

/-- The pieces other than names and punctuation, the spelling of negations apart. -/
def content (pieces : List Piece) : List Piece :=
  (pieces.filter isContent).map unspelled

/-- The names among the pieces. -/
def names (pieces : List Piece) : List String :=
  (pieces.filter (·.kind == .name)).map value

/-- The content of pieces in a row is that of both. -/
theorem content_append (ps qs : List Piece) : content (ps ++ qs) = content ps ++ content qs := by
  simp [content]

/-- The names of pieces in a row are those of both. -/
theorem names_append (ps qs : List Piece) : names (ps ++ qs) = names ps ++ names qs := by
  simp [names]

end Piece

open Piece

/-- The second list of pieces says what the first says: it has the same content, and none but its
    names. -/
structure Keeps (source printed : List Piece) : Prop where
  content : content printed = content source
  names : (names printed).Sublist (names source)

namespace Keeps

variable {ps qs ps' qs' : List Piece}

/-- Pieces keep what they say. -/
theorem refl (ps : List Piece) : Keeps ps ps :=
  ⟨rfl, .refl _⟩

/-- What keeps what is kept keeps all. -/
theorem trans {rs : List Piece} (h : Keeps ps qs) (h' : Keeps qs rs) : Keeps ps rs :=
  ⟨h'.content.trans h.content, h'.names.trans h.names⟩

/-- Pieces in a row keep what both say. -/
theorem append (h : Keeps ps qs) (h' : Keeps ps' qs') : Keeps (ps ++ ps') (qs ++ qs') := by
  refine ⟨?_, ?_⟩
  · rw [content_append, content_append, h.content, h'.content]
  · rw [names_append, names_append]
    exact h.names.append h'.names

/-- A first piece that is kept can be put in front. -/
theorem cons {p q : Piece} (h : Keeps [p] [q]) (h' : Keeps ps qs) : Keeps (p :: ps) (q :: qs) :=
  h.append h'

/-- Punctuation says nothing. -/
private theorem content_eq_nil (h : ∀ p ∈ ps, p.kind.isPunctuation = true) :
    Piece.content ps = [] ∧ Piece.names ps = [] := by
  have hcontent : ps.filter isContent = [] := by
    simp +contextual [List.filter_eq_nil_iff, isContent, h]
  have hnames : ps.filter (·.kind == .name) = [] := by
    refine List.filter_eq_nil_iff.2 fun p hp hk => ?_
    have hpunctuation := h p hp
    rw [beq_iff_eq.1 hk] at hpunctuation
    cases hpunctuation
  exact ⟨by rw [Piece.content, hcontent, List.map_nil], by rw [Piece.names, hnames, List.map_nil]⟩

/-- Punctuation can be left out and put in. -/
theorem of_isPunctuation (hp : ∀ p ∈ ps, p.kind.isPunctuation = true)
    (hq : ∀ q ∈ qs, q.kind.isPunctuation = true) : Keeps ps qs := by
  obtain ⟨hcp, hnp⟩ := content_eq_nil hp
  obtain ⟨hcq, hnq⟩ := content_eq_nil hq
  exact ⟨by rw [hcp, hcq], by rw [hnp, hnq]⟩

/-- A piece of punctuation can be left out in front. -/
theorem skip {p : Piece} (hp : p.kind.isPunctuation = true) (h : Keeps ps qs) :
    Keeps (p :: ps) qs :=
  (@of_isPunctuation [p] [] (by simpa using hp) (by simp)).append h

/-- A piece of punctuation can be put in front. -/
theorem insert {q : Piece} (hq : q.kind.isPunctuation = true) (h : Keeps ps qs) :
    Keeps ps (q :: qs) :=
  (@of_isPunctuation [] [q] (by simp) (by simpa using hq)).append h

/-- A name can be left out. -/
theorem word (name : String) : Keeps [Piece.word name] [] :=
  ⟨rfl, List.nil_sublist _⟩

/-- A negation can be spelled in another way. -/
theorem not {p q : Piece} (hp : p.kind = .not) (hq : q.kind = .not) : Keeps [p] [q] := by
  have hcontent : ∀ r : Piece, r.kind = .not → Piece.content [r] = [usual .not] := by
    intro r hr
    simp [Piece.content, isContent, unspelled, hr, TokenKind.isPunctuation]
  have hnames : ∀ r : Piece, r.kind = .not → Piece.names [r] = [] := by
    intro r hr
    simp [Piece.names, hr]
  exact ⟨by rw [hcontent p hp, hcontent q hq], by rw [hnames p hp, hnames q hq]⟩

end Keeps

/-! ## Tokens -/

section Tokens

variable {t : Token}

/-- A name is printed as it stands. -/
theorem keeps_word (hk : t.kind = .name) : Keeps [t.piece] [word t.value] := by
  rw [Token.piece, hk]
  exact .refl _

/-- A token of a kind with one spelling is printed as it stands. -/
theorem keeps_usual {kind : TokenKind} (hs : t.Scanned) (hk : t.kind = kind)
    (hf : kind.isFixed = true) : Keeps [t.piece] [usual kind] := by
  subst hk
  rw [Token.piece, hs.value_eq hf]
  exact .refl _

/-- A type is printed as it stands. -/
theorem keeps_type {ts : List Token} {type : String} (h : TypeWritten ts type)
    (hs : ∀ t ∈ ts, t.Scanned) : Keeps (ts.map Token.piece) (ofType type) := by
  cases h with
  | name hk =>
    rw [ofType_name ((hs _ (by simp)).isName hk)]
    exact keeps_word hk
  | list hk hl hr =>
    rw [ofType_list ((hs _ (by simp)).isName hk)]
    exact (keeps_word hk).cons ((keeps_usual (hs _ (by simp)) hl rfl).cons
      (keeps_usual (hs _ (by simp)) hr rfl))

/-- A field of an index is printed as it stands, without brackets if it has no direction. -/
theorem keeps_indexField {ts : List Token} {field : IndexField} (h : IndexFieldWritten ts field)
    (hs : ∀ t ∈ ts, t.Scanned) : Keeps (ts.map Token.piece) (ofIndexField field) := by
  cases h with
  | plain hk => exact keeps_word hk
  | bracketed hl hk hr =>
    refine .skip (by simp [hl, TokenKind.isPunctuation]) ((keeps_word hk).cons ?_)
    exact .skip (by simp [hr, TokenKind.isPunctuation]) (.refl [])
  | @directed l t c w r direction hl hk hc hw hd hr =>
    have hword : w.value = direction.word := by
      have hfind := List.find?_some hd
      exact (beq_iff_eq.1 hfind).symm
    refine (keeps_usual (hs l (by simp)) hl rfl).cons ((keeps_word hk).cons ?_)
    refine (keeps_usual (hs c (by simp)) hc rfl).cons ?_
    rw [← hword]
    exact (keeps_word hw).cons (keeps_usual (hs r (by simp)) hr rfl)

/-- An operator is printed as it was spelled. -/
theorem keeps_operator {text : List Char} {op : Operator} {p : Position} {b : Nat} {x : String}
    (hs : t.Scanned) (ho : Operator.ofKind? t.kind = some op)
    (ht : (SourceNote.ofText text).operator t p b x) :
    Keeps [t.piece] (Node.mk (.operator op) p b x false false none).pieces := by
  obtain ⟨-, -, rfl⟩ := ht
  have hkind := Parse.kind_of_ofKind? ho
  have hopen : op.kind.isOpenClass = false := by cases op <;> rfl
  -- The text of the token is one of the spellings of its kind, and none of them is empty
  obtain ⟨hvalue, htext⟩ := hs.mem_spellings (hkind ▸ hopen)
  have hne : t.value.isEmpty = false := by
    have hall : ∀ spelling ∈ op.kind.spellings, spelling.isEmpty = false := by
      cases op <;> decide
    exact hall _ (hkind ▸ hvalue)
  simp only [Node.pieces_mk_unmarked, Shape.map, Node.shapePieces, hkind, htext, hne,
    Bool.false_eq_true, if_false]
  exact .refl _

end Tokens

/-! ## Sequences -/

/-- Items between commas are kept if every item is.  A comma after the last one is left out. -/
theorem keeps_commas {α : Type} (pieces : α → List Piece) {items : List (List Token × α)}
    {body : List Token} (hsep : Separated (items.map Prod.fst) body)
    (hi : ∀ item ∈ items, Keeps (item.1.map Token.piece) (pieces item.2)) :
    Keeps (body.map Token.piece) (commas ((items.map Prod.snd).map pieces)) := by
  -- The lists of tokens are those of the items, so the induction is on how commas separate them
  generalize hfirst : items.map Prod.fst = lists at hsep
  induction hsep generalizing items with
  | nil =>
    obtain rfl := List.map_eq_nil_iff.1 hfirst
    exact .refl []
  | last =>
    obtain ⟨item, rfl, rfl⟩ := List.map_eq_singleton_iff.1 hfirst
    simpa using hi item (by simp)
  | @comma item body lists token hk hsep ih =>
    obtain ⟨first, rest, rfl, rfl, rfl⟩ := List.map_eq_cons_iff.1 hfirst
    have hkeeps := hi first (by simp)
    have hrest := ih (fun item hmem => hi item (List.mem_cons_of_mem _ hmem)) rfl
    have hcomma : token.piece.kind.isPunctuation = true := by
      rw [Token.piece_kind, hk]
      rfl
    rw [List.map_append, List.map_cons]
    -- A comma after the last item is skipped; any other is written again
    cases rest with
    | nil =>
      cases hsep
      simpa using hkeeps.append (Keeps.skip hcomma (.refl []))
    | cons next rest =>
      simp only [List.map_cons, commas_cons_cons] at hrest ⊢
      exact hkeeps.append (.skip hcomma (.insert rfl hrest))

/-- Pieces between brackets are kept if the brackets and the pieces are. -/
theorem keeps_enclosed {ps qs : List Piece} {o c : Token} {left right : TokenKind}
    (ho : Keeps [o.piece] [usual left]) (hc : Keeps [c.piece] [usual right]) (h : Keeps ps qs) :
    Keeps (o.piece :: (ps ++ [c.piece])) (enclosed left right qs) :=
  ho.cons (h.append hc)

/-- Semicolons are punctuation. -/
private theorem isPunctuation_of_semicolon {ts : List Token} (h : ∀ t ∈ ts, t.kind = .semicolon) :
    ∀ p ∈ ts.map Token.piece, p.kind.isPunctuation = true := by
  intro p hp
  obtain ⟨t, ht, rfl⟩ := List.mem_map.1 hp
  rw [Token.piece_kind, h t ht]
  rfl

/-- The break between two statements is punctuation. -/
private theorem isPunctuation_ofBreak {line next : Node × List Piece} :
    ∀ p ∈ ofBreak line next, p.kind.isPunctuation = true := by
  intro p hp
  unfold ofBreak at hp
  split at hp
  · obtain rfl := List.mem_singleton.1 hp
    rfl
  · cases hp

/-- Statements in a row are kept if each of them is, however they are separated. -/
private theorem keeps_stretches {stretches : List Stretch}
    (hb : ∀ s ∈ stretches, ∀ t ∈ s.breaks, t.kind = .semicolon)
    (h : ∀ s ∈ stretches, Keeps (s.tokens.map Token.piece) s.node.pieces) :
    Keeps ((stretches.flatMap fun s => s.tokens ++ s.breaks).map Token.piece)
      (ofLines ((stretches.map Stretch.node).map Node.withPieces)) := by
  induction stretches with
  | nil => exact .refl []
  | cons s rest ih =>
    have hs := h s (by simp)
    have hbreaks := isPunctuation_of_semicolon (hb s (by simp))
    have ih := ih (fun s hs => hb s (List.mem_cons_of_mem _ hs))
      fun s hs => h s (List.mem_cons_of_mem _ hs)
    rw [List.flatMap_cons, List.map_append, List.map_append, List.append_assoc]
    cases rest with
    | nil => simpa [ofLines] using hs.append (@Keeps.of_isPunctuation _ [] hbreaks (by simp))
    | cons next rest =>
      exact hs.append ((Keeps.of_isPunctuation hbreaks isPunctuation_ofBreak).append ih)

/-- Lines are kept if their statements are. -/
theorem keeps_lines {lines : Lines} {grammar : Grammar} (hspaced : lines.Spaced grammar)
    (h : ∀ s ∈ lines.stretches, Keeps (s.tokens.map Token.piece) s.node.pieces) :
    Keeps (lines.tokens.map Token.piece) (ofLines (lines.nodes.map Node.withPieces)) := by
  have hleading := isPunctuation_of_semicolon hspaced.leading
  rw [Lines.tokens, List.map_append]
  exact (@Keeps.of_isPunctuation _ [] hleading (by simp)).append (keeps_stretches hspaced.breaks h)

/-! ## Nodes -/

section Nodes

variable {p : Position} {b : Nat} {x : String}

/-- Parentheses around an expression say nothing. -/
private theorem keeps_group {n : Node} (hrole : n.role = .expression) :
    Keeps n.pieces (Node.mk n.shape p b x true n.bracket n.receiver).pieces := by
  obtain ⟨shape, p', b', x', parenthesized, bracket, receiver⟩ := n
  have hsame := @Node.pieces_congr shape hrole p' p b' b x' x
  cases parenthesized with
  | true =>
    -- Several pairs of parentheses are one mark
    rw [hsame]
    exact .refl _
  | false =>
    have hclose := @Keeps.of_isPunctuation [] [usual .rightParen] (by simp) (by simp; rfl)
    rw [hsame, Node.pieces_parenthesized]
    simpa [enclosed] using Keeps.insert rfl ((Keeps.refl _).append hclose)

/-- A key in brackets is printed after its object, wrapped or not. -/
private theorem pieces_bracketed {key object : Node} (hrole : key.role = .expression) :
    (Node.mk (key.bracketed object).shape p b x (key.bracketed object).parenthesized true
      (some object)).pieces =
      object.pieces ++ enclosed .leftBracket .rightBracket key.pieces := by
  obtain ⟨-, he⟩ | ⟨shape, p', b', x', rfl, he⟩ := Node.bracketed_cases key object
  · rw [he, Node.pieces_bracket]
    rfl
  · rw [he, Node.pieces_bracket, ← Node.pieces_mk_unmarked shape p b x,
      @Node.pieces_congr shape hrole p p' b b' x x']

end Nodes

section

variable {grammar : Grammar}

/-- Items are kept if each of them is. -/
private theorem items_keep {items : List (List Token × Node)} {body : List Token}
    (hsep : Separated (items.map Prod.fst) body) (hs : ∀ t ∈ body, t.Scanned)
    (ih : ∀ item ∈ items, (∀ t ∈ item.1, t.Scanned) →
      Keeps (item.1.map Token.piece) item.2.pieces) :
    Keeps (body.map Token.piece)
      (commas (((items.map Prod.snd).map Node.withPieces).map (·.2))) := by
  have hkeeps := keeps_commas Node.pieces hsep fun item hmem =>
    ih item hmem fun t ht => hs t (hsep.mem (List.mem_map_of_mem hmem) ht)
  simpa [Function.comp_def] using hkeeps

/-- A block is kept if its statements are. -/
private theorem block_keeps {lines : Lines} {o c : Token} (hspaced : lines.Spaced grammar)
    (ho : o.kind = .leftBrace) (hc : c.kind = .rightBrace)
    (hs : ∀ t ∈ o :: (lines.tokens ++ [c]), t.Scanned)
    (ih : ∀ s ∈ lines.stretches, (∀ t ∈ s.tokens, t.Scanned) →
      Keeps (s.tokens.map Token.piece) s.node.pieces) :
    Keeps ((o :: (lines.tokens ++ [c])).map Token.piece)
      (ofBlock (lines.nodes.map Node.withPieces)) := by
  have hlines := keeps_lines hspaced fun s hmem =>
    ih s hmem fun t ht => hs t (by simp [Lines.mem_tokens hmem ht])
  rw [List.map_cons, List.map_append, List.map_singleton]
  exact keeps_enclosed (keeps_usual (hs o (by simp)) ho rfl) (keeps_usual (hs c (by simp)) hc rfl)
    hlines

end

/-- A boolean is printed as it stands. -/
private theorem boolean_keeps {t : Token} (hs : t.Scanned) (hk : t.kind = .boolean) :
    t.piece = ⟨.boolean, if t.value == "true" then "true" else "false"⟩ := by
  obtain ⟨hvalue, -⟩ := hs.mem_spellings (by rw [hk]; rfl)
  -- There are only two spellings
  have hall : ∀ spelling ∈ TokenKind.boolean.spellings,
      (if spelling == "true" then "true" else "false") = spelling := by decide
  rw [Token.piece, hk, hall t.value (hk ▸ hvalue)]

/-- The key of an entry is printed as it stands. -/
private theorem key_keeps {note : SourceNote} {t : Token} {key : Node}
    (h : KeyWritten note t key) : key.isKey = true ∧ Keeps [t.piece] key.pieces := by
  cases h with
  | name hk => exact ⟨rfl, keeps_word hk⟩
  | string hk =>
    refine ⟨rfl, ?_⟩
    rw [Node.pieces_mk_unmarked, Token.piece, hk]
    exact .refl _

/-- A sign is printed, and a negation in its usual spelling. -/
private theorem unary_keeps {t : Token} {kind : UnaryKind} (hs : t.Scanned)
    (h : Grammar.standard.Begins kind t.kind) : Keeps [t.piece] [usual kind.token] := by
  obtain ⟨hk, rfl⟩ | ⟨hk, rfl⟩ := Grammar.begins_cases h
  · exact .not hk rfl
  · exact keeps_usual hs hk rfl

/-- A mark of one token is printed if it is there. -/
private theorem flag_keeps {kind : TokenKind} {ts : List Token} {set : Bool}
    (h : Flag kind ts set) (hp : ∀ t ∈ ts, t.kind = kind → Keeps [t.piece] [usual kind]) :
    Keeps (ts.map Token.piece) (if set then [usual kind] else []) := by
  cases h with
  | absent => exact .refl []
  | present hk => exact hp _ (by simp) hk

/-- A type after a colon is printed if it is there. -/
private theorem typeNote_keeps {ts : List Token} {type : Option String} (h : TypeNote ts type)
    (hs : ∀ t ∈ ts, t.Scanned) :
    Keeps (ts.map Token.piece) (type.elim [] (usual .colon :: ofType ·)) := by
  cases h with
  | absent => exact .refl []
  | present hc ht =>
    exact (keeps_usual (hs _ (by simp)) hc rfl).cons
      (keeps_type ht fun t hmem => hs t (by simp [hmem]))

/-- Clauses are kept if each of them is. -/
private theorem clauses_keep {clauses : List (List Token × Node)}
    (hs : ∀ t ∈ clauses.flatMap Prod.fst, t.Scanned)
    (ih : ∀ clause ∈ clauses, (∀ t ∈ clause.1, t.Scanned) →
      Keeps (clause.1.map Token.piece) clause.2.pieces) :
    Keeps ((clauses.flatMap Prod.fst).map Token.piece)
      (((clauses.map Prod.snd).map Node.withPieces).flatMap (·.2)) := by
  induction clauses with
  | nil => exact .refl []
  | cons clause rest ihrest =>
    have hfirst := ih clause (by simp) fun t ht => hs t (by simp [ht])
    have hrest := ihrest (fun t ht => hs t (by simp_all)) fun clause hmem =>
      ih clause (List.mem_cons_of_mem _ hmem)
    rw [List.flatMap_cons, List.map_append]
    exact hfirst.append hrest

/-- What the tokens of a node say is kept in the node. -/
theorem Written.keeps {text : List Char} {r : Nat} {place : Place} {ts : List Token} {n : Node}
    (h : Written .standard (.ofText text) r place ts n) (hs : ∀ t ∈ ts, t.Scanned) :
    Keeps (ts.map Token.piece) n.pieces := by
  induction h with
  | nested _ ih | functionItem _ ih | functionTop _ ih | expression _ ih | statement _ ih =>
    exact ih hs
  | number hk | string hk =>
    rw [Node.pieces_mk_unmarked, List.map_singleton, Token.piece, hk]
    exact .refl _
  | name hk => exact keeps_word hk
  | boolean hk =>
    rw [Node.pieces_mk_unmarked, List.map_singleton, boolean_keeps (hs _ (by simp)) hk]
    exact .refl _
  | array ho hsep hc _ _ ih =>
    rw [Node.pieces_mk_unmarked, List.map_cons, List.map_append, List.map_singleton]
    exact keeps_enclosed (keeps_usual (hs _ (by simp)) ho rfl)
      (keeps_usual (hs _ (by simp)) hc rfl) (items_keep hsep (fun t ht => hs t (by simp [ht])) ih)
  | object ho hsep hc _ _ ih =>
    rw [Node.pieces_mk_unmarked, List.map_cons, List.map_append, List.map_singleton]
    exact keeps_enclosed (keeps_usual (hs _ (by simp)) ho rfl)
      (keeps_usual (hs _ (by simp)) hc rfl) (items_keep hsep (fun t ht => hs t (by simp [ht])) ih)
  | @entry r t c ts key value p b x hkey hc _ _ ih =>
    obtain ⟨hiskey, hkeep⟩ := key_keeps hkey
    have hvalue := ih fun t ht => hs t (by simp [ht])
    rw [Node.pieces_entry]
    split
    · next hshort =>
      -- The value is the name that is the key, and is not printed
      obtain ⟨name, p, b, x, p', b', x', rfl, rfl⟩ := (Node.isShorthand_iff hiskey).1 hshort
      have hdropped : Keeps (c.piece :: ts.map Token.piece) [] :=
        .skip (by simp [hc, TokenKind.isPunctuation]) (hvalue.trans (.word name))
      exact hkeep.append hdropped
    · exact hkeep.append ((keeps_usual (hs c (by simp)) hc rfl).cons hvalue)
  | shorthand hk =>
    rw [Node.pieces_entry, if_pos ((Node.isShorthand_iff rfl).2 ⟨_, _, _, _, _, _, _, rfl, rfl⟩)]
    exact keeps_word hk
  | @group r o c ts n p b x ho hi hc _ ih =>
    have hinner := (ih fun t ht => hs t (by simp [ht])).trans
      (@keeps_group p b x n (beq_iff_eq.1 hi.admits))
    have hclose : Keeps [c.piece] [] := .skip (by simp [hc, TokenKind.isPunctuation]) (.refl [])
    rw [List.map_cons, List.map_append]
    refine .skip (by simp [ho, TokenKind.isPunctuation]) ?_
    simpa using hinner.append hclose
  | member _ hd hk _ ih =>
    rw [Node.pieces_member, List.map_append]
    exact (ih fun t ht => hs t (by simp [ht])).append
      ((keeps_usual (hs _ (by simp)) hd rfl).cons (keeps_word hk))
  | key _ ho hk hc _ ihr ihk =>
    rw [pieces_bracketed (beq_iff_eq.1 hk.admits), List.map_append, List.map_cons,
      List.map_append, List.map_singleton]
    exact (ihr fun t ht => hs t (by simp [ht])).append
      (keeps_enclosed (keeps_usual (hs _ (by simp)) ho rfl) (keeps_usual (hs _ (by simp)) hc rfl)
        (ihk fun t ht => hs t (by simp [ht])))
  | call _ ho hsep hc _ _ ihr ihi =>
    rw [Node.pieces_call, List.map_append, List.map_cons, List.map_append, List.map_singleton]
    exact (ihr fun t ht => hs t (by simp [ht])).append
      (keeps_enclosed (keeps_usual (hs _ (by simp)) ho rfl) (keeps_usual (hs _ (by simp)) hc rfl)
        (items_keep hsep (fun t ht => hs t (by simp [ht])) ihi))
  | binary _ _ ho ht _ _ ihl ihr | assign _ _ _ ho ht _ _ ihl ihr =>
    rw [Node.pieces_mk_unmarked, List.map_append, List.map_cons]
    exact (ihl fun t ht => hs t (by simp [ht])).append
      ((keeps_operator (hs _ (by simp)) ho ht).append (ihr fun t ht => hs t (by simp [ht])))
  | unary hb _ _ ih =>
    rw [Node.pieces_mk_unmarked, List.map_cons]
    exact (unary_keeps (hs _ (by simp)) hb).cons (ih fun t ht => hs t (by simp [ht]))
  | param hk hq ht _ =>
    rw [Node.pieces_mk_unmarked, List.map_cons, List.map_append]
    exact (keeps_word hk).cons
      ((flag_keeps hq fun t hmem hk => keeps_usual (hs t (by simp [hmem])) hk rfl).append
        (typeNote_keeps ht fun t ht => hs t (by simp [ht])))
  | @field r t cs ts fs type colon required p b x hk hc ht hf _ =>
    -- The colon is printed whether it was there or not
    have hcolon : Keeps (cs.map Token.piece) [usual .colon] :=
      (flag_keeps hc fun t hmem hk => keeps_usual (hs t (by simp [hmem])) hk rfl).trans
        (.of_isPunctuation (by cases colon <;> simp; rfl) (by simp; rfl))
    rw [Node.pieces_mk_unmarked, List.map_cons, List.map_append, List.map_append]
    exact (keeps_word hk).cons (hcolon.append
      ((keeps_type ht fun t ht => hs t (by simp [ht])).append
        (flag_keeps hf fun t _ hk => .not hk rfl)))
  | index ha hk hd ho hsep hi hc _ =>
    rw [Node.pieces_mk_unmarked, List.map_cons, List.map_cons, List.map_cons, List.map_append,
      List.map_singleton]
    refine (keeps_usual (hs _ (by simp)) ha rfl).cons ((hd ▸ keeps_word hk).cons
      (keeps_enclosed (keeps_usual (hs _ (by simp)) ho rfl) (keeps_usual (hs _ (by simp)) hc rfl)
        (keeps_commas ofIndexField hsep fun field hmem => keeps_indexField (hi field hmem)
          fun t ht => hs t ?_)))
    simp [hsep.mem (List.mem_map_of_mem hmem) ht]
  | @function r k t o c ob cb params body block p b x hk ht ho hsep _ hc hob hsp _ hcb _ ihi ihb =>
    have hparams := keeps_enclosed (keeps_usual (hs o (by simp)) ho rfl)
      (keeps_usual (hs c (by simp)) hc rfl) (items_keep hsep (fun t ht => hs t (by simp [ht])) ihi)
    have hblock := block_keeps hsp hob hcb (fun t ht => hs t (by simp_all)) ihb
    rw [Node.pieces_mk_unmarked]
    simpa [Node.shapePieces, Shape.map] using
      (keeps_usual (hs k (by simp)) hk rfl).cons ((keeps_word ht).cons (hparams.append hblock))
  | collection hk ht ho hsp _ hc _ ih =>
    rw [Node.pieces_mk_unmarked, List.map_cons, List.map_cons]
    exact (keeps_usual (hs _ (by simp)) hk rfl).cons ((keeps_word ht).cons
      (block_keeps hsp ho hc (fun t ht => hs t (by simp_all)) ih))
  | elseIf he hk _ ho hsp _ hc _ ihv ihb =>
    rw [Node.pieces_mk_unmarked, List.map_cons, List.map_cons, List.map_append]
    exact (keeps_usual (hs _ (by simp)) he rfl).cons ((keeps_usual (hs _ (by simp)) hk rfl).cons
      ((ihv fun t ht => hs t (by simp [ht])).append
        (block_keeps hsp ho hc (fun t ht => hs t (by simp_all)) ihb)))
  | elseClause he ho hsp _ hc _ ih =>
    rw [Node.pieces_mk_unmarked, List.map_cons]
    exact (keeps_usual (hs _ (by simp)) he rfl).cons
      (block_keeps hsp ho hc (fun t ht => hs t (by simp_all)) ih)
  | @ifStmt r k o c ts condition block clauses p b x hk _ ho hsp _ hc _ _ _ ihv ihb ihi =>
    have hblock := block_keeps hsp ho hc (fun t ht => hs t (by simp_all; tauto)) ihb
    have hclauses := clauses_keep (fun t ht => hs t (by simp_all)) ihi
    have hcondition := ihv fun t ht => hs t (by simp [ht])
    rw [Node.pieces_mk_unmarked]
    simpa [Node.shapePieces, Shape.map] using (keeps_usual (hs k (by simp)) hk rfl).cons
      (hcondition.append (hblock.append hclauses))
  | constDecl hk ht ha _ _ ih | letValue hk ht ha _ _ ih =>
    rw [Node.pieces_mk_unmarked, List.map_cons, List.map_cons, List.map_cons]
    exact (keeps_usual (hs _ (by simp)) hk rfl).cons ((keeps_word ht).cons
      ((keeps_usual (hs _ (by simp)) ha rfl).cons (ih fun t ht => hs t (by simp [ht]))))
  | letBare hk ht _ => exact (keeps_usual (hs _ (by simp)) hk rfl).cons (keeps_word ht)
  | returnValue hk _ _ ih =>
    rw [Node.pieces_mk_unmarked, List.map_cons]
    exact (keeps_usual (hs _ (by simp)) hk rfl).cons (ih fun t ht => hs t (by simp [ht]))
  | returnBare hk _ => exact keeps_usual (hs _ (by simp)) hk rfl

/-- A source that is parsed and the canonical text of its statements say the same.  Punctuation
    apart, their tokens are the same in the same order, a name that the text gives once instead of
    twice apart; a negation may be spelled in another way. -/
theorem parse_printAll_content {source : String} {nodes : List Node}
    (h : parse source = .ok nodes) :
    ∃ tokens printed, (Lexer.ofSource source).tokenize = .ok tokens ∧
      (Lexer.ofSource (Node.printAll nodes)).tokenize = .ok printed ∧
      Piece.content (Token.visible printed) = Piece.content (Token.visible tokens) ∧
      (Piece.names (Token.visible printed)).Sublist (Piece.names (Token.visible tokens)) := by
  obtain ⟨-, hnodes, -⟩ := parse_form h
  obtain ⟨lexemes, stop, lines, hsource, htokens, rfl, hparsed⟩ := parse_reads h
  have hscanned : ∀ t ∈ lines.tokens, t.Scanned := by
    rw [← htokens]
    simpa using Lexeme.scanned_of_ofSource hsource
  -- The tokens of the source are a way of writing the statements, and their pieces are kept
  have hkeeps := keeps_lines hparsed.written.spaced fun s hs =>
    (hparsed.written.written s hs).keeps fun t ht => hscanned t (Lines.mem_tokens hs ht)
  have hlexes : Lexes source.toList (lines.tokens.map Token.piece) := by
    refine Lexeme.ofSource_iff_lexes.1 ⟨lexemes, stop, hsource, ?_⟩
    rw [← htokens, List.map_map]
    rfl
  have hprinted : Lexes (Node.printAll lines.nodes).toList (Node.programPieces lines.nodes) :=
    lexes_printAll (fun n hn => (hnodes n hn).1) fun n hn => (hnodes n hn).2
  obtain ⟨tokens, hrun, hvisible⟩ := Lexeme.exists_tokens_of_lexes hlexes
  obtain ⟨printed, hrunPrinted, hvisiblePrinted⟩ := Lexeme.exists_tokens_of_lexes hprinted
  refine ⟨tokens, printed, hrun, hrunPrinted, ?_⟩
  rw [hvisible, hvisiblePrinted]
  exact ⟨hkeeps.content, hkeeps.names⟩

/-- A name that is printed once, a negation that is spelled in another way and a pair of
    parentheses too many. -/
theorem parse_printAll_content_shorthand :
    ∃ nodes, parse "x = \x7ba: a, b: not ((c))\x7d;" = .ok nodes ∧
      ∃ tokens printed, (Lexer.ofSource "x = \x7ba: a, b: not ((c))\x7d;").tokenize = .ok tokens ∧
      (Lexer.ofSource (Node.printAll nodes)).tokenize = .ok printed ∧
      Piece.content (Token.visible printed) = Piece.content (Token.visible tokens) ∧
      (Piece.names (Token.visible printed)).Sublist (Piece.names (Token.visible tokens)) := by
  obtain ⟨nodes, h⟩ := exists_of_isOk
    (show (parse "x = \x7ba: a, b: not ((c))\x7d;").isOk = true by decide +kernel)
  exact ⟨nodes, h, parse_printAll_content h⟩

end Schemata
