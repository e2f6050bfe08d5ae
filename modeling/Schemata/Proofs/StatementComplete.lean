import Schemata.Proofs.ExpressionComplete
import Schemata.Proofs.StatementSound

/-!
# Every program is read

The converse of `StatementSound` for the standard table: tokens that are a way of writing grouped
statements are read as these statements, up to what nodes note about their source.

Main statements:

- `Written.accepted`: tokens that are a way of writing a node in a place are read as that node by
  the parser of the place, if what follows does not go on with it
- `parse_of_written`: a source whose tokens say what the tokens of a program say is parsed
-/

namespace Schemata.Parse

variable {setting : Setting} {r : Nat} {note : SourceNote}

/-- What may follow a node in a sequence of nodes of the place: the end of the sequence, a
    semicolon or the next node. -/
def Follows (place : Place) (next : Option TokenKind) : Prop :=
  ∀ kind ∈ next, kind = .rightBrace ∨ kind = .semicolon ∨ place.starts kind = true

/-- What may follow a node in its sequence is not what no node of the place begins with. -/
theorem Follows.ne {place : Place} {next : Option TokenKind} {kind : TokenKind}
    (h : Follows place next)
    (hk : (kind == .rightBrace || kind == .semicolon || place.starts kind) = false) :
    next ≠ some kind := by
  rintro rfl
  simp only [Bool.or_eq_false_iff, beq_eq_false_iff_ne] at hk
  obtain h | h | h := h kind rfl
  · exact hk.1.1 h
  · exact hk.1.2 h
  · rw [hk.2] at h
    cases h

/-! ## Small constructs -/

section Small

variable {rest : List Piece} {p : Position} {b : Nat} {x : String}

/-- The name of a type is read, unless what follows opens a bracket. -/
theorem typeName_accepts {ts : List Token} {type : String} (h : TypeWritten ts type)
    (hrest : Piece.first? rest ≠ some .leftBracket) :
    Accepts (typeName setting) (ts.map Token.piece ++ rest) (· = type) rest := by
  cases h with
  | @name t hk =>
    refine (accepts_expect hk).bind fun name hname => (accepts_eats_false hrest).bind ?_
    rintro _ rfl
    exact .pure hname
  | @list t l c hk hl hr =>
    refine (accepts_expect hk).bind fun name hname => (accepts_eats hl).bind ?_
    rintro _ rfl
    refine (accepts_expect hr).bind fun _ _ => .pure ?_
    rw [hname]

/-- A token that may be left out is found if it is there. -/
theorem flag_accepts {kind : TokenKind} {ts : List Token} {present : Bool}
    (h : Flag kind ts present) (hrest : Piece.first? rest ≠ some kind) :
    Accepts (eats kind) (ts.map Token.piece ++ rest) (· = present) rest := by
  cases h with
  | absent => exact accepts_eats_false hrest
  | present hk => exact accepts_eats hk

/-- A parameter, before a comma or the closing parenthesis. -/
def ParamAccepted (setting : Setting) (ts : List Token) (n : Node) : Prop :=
  ∀ rest, Piece.first? rest = some .comma ∨ Piece.first? rest = some .rightParen →
    Accepts (param setting) (ts.map Token.piece ++ rest) (IsLike n) rest

/-- A parameter is read, with its mark and its type where it has them. -/
theorem param_accepts {t : Token} {q ts : List Token} {type : Option String} {optional : Bool}
    (hk : t.kind = .name) (hq : Flag .question q optional) (ht : TypeNote ts type) :
    ParamAccepted setting (t :: (q ++ ts))
      ⟨.param t.value type optional, p, b, x, false, false, none⟩ := by
  intro rest hrest
  simp only [List.map_cons, List.map_append, List.cons_append, List.append_assoc]
  refine (accepts_expect hk).bind fun name hname => ?_
  -- A parameter that is not optional goes on with its type or ends
  have hquestion : Piece.first? (ts.map Token.piece ++ rest) ≠ some .question := by
    cases ht with
    | absent => obtain hrest | hrest := hrest <;> simp [hrest]
    | present hc _ => simp [hc]
  refine (flag_accepts hq hquestion).bind ?_
  rintro _ rfl
  cases ht with
  | absent =>
    have hcolon : Piece.first? rest ≠ some .colon := by
      obtain hrest | hrest := hrest <;> simp [hrest]
    refine (accepts_eats_false hcolon).bind ?_
    rintro _ rfl
    refine accepts_finish.mono ?_
    rintro _ ⟨p', b', x', rfl⟩
    simp [IsLike, Shape.map, hname]
  | present hc hw =>
    have hbracket : Piece.first? rest ≠ some .leftBracket := by
      obtain hrest | hrest := hrest <;> simp [hrest]
    refine (accepts_eats hc).bind ?_
    rintro _ rfl
    refine (typeName_accepts hw hbracket).bind ?_
    rintro _ rfl
    refine accepts_finish.mono ?_
    rintro _ ⟨p', b', x', rfl⟩
    simp [IsLike, Shape.map, hname]

/-- A field of an index is read, in each of the ways it can be written. -/
theorem indexField_accepts {ts : List Token} {field : IndexField} (h : IndexFieldWritten ts field) :
    Accepts (indexField setting) (ts.map Token.piece ++ rest) (· = field) rest := by
  -- A name, a name in brackets, and a name with a direction in brackets
  cases h with
  | @plain t hk =>
    have hbracket : Piece.first? (t.piece :: rest) ≠ some .leftBracket := by simp [hk]
    refine (accepts_eats_false hbracket).bind ?_
    rintro _ rfl
    refine (accepts_expect hk).bind fun name hname => .pure ?_
    rw [hname]
  | @bracketed l t c hl hk hr =>
    refine (accepts_eats hl).bind ?_
    rintro _ rfl
    refine (accepts_expect hk).bind fun name hname => ?_
    have hcomma : Piece.first? (c.piece :: rest) ≠ some .comma := by simp [hr]
    refine (accepts_eats_false hcomma).bind ?_
    rintro _ rfl
    refine (Accepts.pure rfl).bind ?_
    rintro _ rfl
    refine (accepts_expect hr).bind fun _ _ => .pure ?_
    rw [hname]
  | @directed l t comma word c direction hl hk hc hw hd hr =>
    refine (accepts_eats hl).bind ?_
    rintro _ rfl
    refine (accepts_expect hk).bind fun name hname => (accepts_eats hc).bind ?_
    rintro _ rfl
    refine (accepts_expect hw).bind fun word' hword => ?_
    rw [hword, hd]
    refine (Accepts.pure rfl).bind ?_
    rintro _ rfl
    refine (accepts_expect hr).bind fun _ _ => .pure ?_
    rw [hname]

end Small

/-! ## Lines -/

/-- What is shown of a statement in a sequence: it is read if it ends before what follows. -/
def LineAccepted (place : Place) (p : Parse Node) (ts : List Token) (n : Node) : Prop :=
  ∀ rest, Follows place (Piece.first? rest) → Grammar.standard.Ends n (Piece.first? rest) →
    Accepts p (ts.map Token.piece ++ rest) (IsLike n) rest

/-- Before the end of its sequence every statement ends. -/
theorem ends_of_closing {n : Node} {next : Option TokenKind}
    (h : ∀ kind ∈ next, kind = .rightBrace) : Grammar.standard.Ends n next := by
  refine ⟨fun _ kind hk => .inl (h kind hk), fun _ kind hk => ?_⟩
  rw [h kind hk]
  decide

/-- Before a semicolon every statement ends. -/
theorem ends_of_semicolon {n : Node} {next : Option TokenKind}
    (h : next = some .semicolon) : Grammar.standard.Ends n next := by
  rw [h]
  refine ⟨fun _ kind hk => .inr (Option.some.inj hk).symm, ?_⟩
  rintro _ _ ⟨⟩
  decide

section Lines

variable {place : Place} {stretches : List Stretch} {rest : List Piece}

/-- The pieces of a sequence of statements and of what comes after it. -/
def piecesFrom (stretches : List Stretch) (rest : List Piece) : List Piece :=
  (stretches.flatMap fun s => s.tokens ++ s.breaks).map Token.piece ++ rest

/-- A sequence begins with what comes after it, or with its first statement. -/
private theorem first?_piecesFrom (rest : List Piece)
    (hw : ∀ s ∈ stretches, Written .standard note r place s.tokens s.node) :
    stretches = [] ∨ ∃ next tail kind, stretches = next :: tail ∧
      Token.first? next.tokens = some kind ∧ Piece.first? (piecesFrom stretches rest) = some kind ∧
      place.starts kind = true := by
  cases stretches with
  | nil => exact .inl rfl
  | cons next tail =>
    obtain ⟨t, us, hts, hstart⟩ := (hw next (by simp)).starts
    exact .inr ⟨next, tail, t.kind, rfl, by simp [hts], by simp [piecesFrom, hts], hstart⟩

/-- The semicolons before a sequence are skipped, up to its first statement or its end. -/
private theorem accepts_semicolons {breaks : List Token}
    (hsemicolon : place.starts .semicolon = false)
    (hw : ∀ s ∈ stretches, Written .standard note r place s.tokens s.node)
    (hbreaks : ∀ t ∈ breaks, t.kind = .semicolon)
    (hrest : ∀ kind ∈ Piece.first? rest, kind = .rightBrace) :
    Accepts skipSemicolons (breaks.map Token.piece ++ piecesFrom stretches rest) (fun _ => True)
      (piecesFrom stretches rest) := by
  refine accepts_skipSemicolons (fun x hx => ?_) fun h => ?_
  · obtain ⟨t, ht, rfl⟩ := List.mem_map.1 hx
    exact hbreaks t ht
  · obtain rfl | ⟨_, _, kind, -, -, hfirst, hstart⟩ := first?_piecesFrom rest hw
    · cases hrest _ h
    · rw [Option.some.inj (hfirst.symm.trans h), hsemicolon] at hstart
      cases hstart

/-- A statement of a sequence ends before what comes after it: a semicolon, the next statement or
    the end of the sequence. -/
private theorem ends_in_lines {stretch : Stretch}
    (hw : ∀ s ∈ stretches, Written .standard note r place s.tokens s.node)
    (hbreaks : ∀ t ∈ stretch.breaks, t.kind = .semicolon)
    (hapart : (stretch :: stretches).IsChain fun s next =>
      s.breaks = [] → Grammar.standard.Ends s.node (Token.first? next.tokens))
    (hrest : ∀ kind ∈ Piece.first? rest, kind = .rightBrace) :
    Follows place (Piece.first? (stretch.breaks.map Token.piece ++ piecesFrom stretches rest)) ∧
      Grammar.standard.Ends stretch.node
        (Piece.first? (stretch.breaks.map Token.piece ++ piecesFrom stretches rest)) := by
  -- Without a semicolon the next statement comes at once, and has to stand apart
  cases hb : stretch.breaks with
  | nil =>
    simp only [List.map_nil, List.nil_append]
    obtain rfl | ⟨next, tail, kind, rfl, hnext, hfirst, hstart⟩ :=
      first?_piecesFrom rest hw
    · exact ⟨fun kind hk => .inl (hrest kind hk), ends_of_closing hrest⟩
    · rw [hfirst]
      refine ⟨?_, hnext ▸ (List.isChain_cons_cons.1 hapart).1 hb⟩
      rintro _ ⟨⟩
      exact .inr (.inr hstart)
  | cons semicolon breaks =>
    have hkind : semicolon.kind = .semicolon := hbreaks semicolon (by simp [hb])
    have hfirst : Piece.first? ((semicolon :: breaks).map Token.piece ++
        piecesFrom stretches rest) = some .semicolon := by simp [hkind]
    refine ⟨?_, ends_of_semicolon hfirst⟩
    rw [hfirst]
    rintro _ ⟨⟩
    exact .inr (.inl rfl)

/-- A sequence of statements is read if each statement is, and then a stop. -/
theorem accepts_lines {round : Parse (Round Node)} {node : Parse Node}
    (hlength : ∀ c n c', round c = .ok (.more n) c' → c'.rest.length < c.rest.length)
    (hsemicolon : place.starts .semicolon = false)
    (hw : ∀ s ∈ stretches, Written .standard note r place s.tokens s.node)
    (ha : ∀ s ∈ stretches, LineAccepted place node s.tokens s.node)
    (hbreaks : ∀ s ∈ stretches, ∀ t ∈ s.breaks, t.kind = .semicolon)
    (hapart : stretches.IsChain fun s next =>
      s.breaks = [] → Grammar.standard.Ends s.node (Token.first? next.tokens))
    (hrest : ∀ kind ∈ Piece.first? rest, kind = .rightBrace)
    (hdone : Accepts round rest (fun x => x = .done) rest)
    (hmore : ∀ n s (t : Token) u, place.starts t.kind = true →
      Accepts node (t.piece :: s) (IsLike n) u →
      ∀ v, Accepts skipSemicolons u (fun _ => True) v →
        Accepts round (t.piece :: s) (fun x => ∃ n', x = .more n' ∧ IsLike n n') v) :
    Accepts (gather round) (piecesFrom stretches rest)
      (fun nodes => nodes.map Node.erase = (stretches.map Stretch.node).map Node.erase) rest := by
  intro c hc
  suffices hg : ∃ nodes c', Gathered round c nodes c' ∧
      nodes.map Node.erase = (stretches.map Stretch.node).map Node.erase ∧ c'.pieces = rest by
    obtain ⟨nodes, c', hg, hn, hc'⟩ := hg
    exact ⟨nodes, c', (gather_eq_ok hlength).2 hg, hn, hc'⟩
  -- Each round takes one statement and its semicolons and leaves the rest of the sequence
  induction stretches generalizing c with
  | nil =>
    obtain ⟨_, c', h, rfl, hc'⟩ := hdone c hc
    exact ⟨[], c', .done h, rfl, hc'⟩
  | cons stretch stretches ih =>
    simp only [List.mem_cons, forall_eq_or_imp] at hw ha hbreaks
    obtain ⟨hfollows, hends⟩ := ends_in_lines hw.2 hbreaks.1 hapart hrest
    have hskip := accepts_semicolons hsemicolon hw.2 hbreaks.1 hrest
    have hnode := ha.1 _ hfollows hends
    obtain ⟨t, us, hts, hstart⟩ := hw.1.starts
    rw [hts, List.map_cons, List.cons_append] at hnode
    have hc₀ : c.pieces = t.piece :: (us.map Token.piece ++
        (stretch.breaks.map Token.piece ++ piecesFrom stretches rest)) := by
      rw [hc]
      simp [piecesFrom, hts]
    obtain ⟨_, c₁, h, ⟨n', rfl, hn'⟩, hc₁⟩ := hmore _ _ t _ hstart hnode _ hskip c hc₀
    obtain ⟨nodes, c', hg, hn, hc'⟩ := ih hw.2 ha.2 hbreaks.2 hapart.of_cons c₁ hc₁
    exact ⟨n' :: nodes, c', .more h hg, by simpa [hn, IsLike] using hn', hc'⟩

/-- The semicolons before the first statement are skipped. -/
theorem accepts_leading {lines : Lines} (hsemicolon : place.starts .semicolon = false)
    (hw : ∀ s ∈ lines.stretches, Written .standard note r place s.tokens s.node)
    (hsp : lines.Spaced .standard) (hrest : ∀ kind ∈ Piece.first? rest, kind = .rightBrace) :
    Accepts skipSemicolons (lines.tokens.map Token.piece ++ rest) (fun _ => True)
      (piecesFrom lines.stretches rest) := by
  rw [Lines.tokens, List.map_append, List.append_assoc]
  exact accepts_semicolons hsemicolon hw hsp.leading hrest

end Lines

/-! ## Blocks -/

/-- A block between braces, its statements followed by the closing one. -/
def BlockAccepted (setting : Setting) (r : Nat) (ts : List Token) (nodes : List Node) : Prop :=
  ∀ rest, Accepts (nestedBlock setting r) (ts.map Token.piece ++ rest)
    (fun nodes' => nodes'.map Node.erase = nodes.map Node.erase) rest

/-- A block is read with the statements between its braces. -/
theorem block_accepts {ob cb : Token} {lines : Lines} (hob : ob.kind = .leftBrace)
    (hcb : cb.kind = .rightBrace) (hsp : lines.Spaced .standard)
    (hw : ∀ s ∈ lines.stretches, Written .standard note r .statement s.tokens s.node)
    (ha : ∀ s ∈ lines.stretches, LineAccepted .statement
      (statement setting (nestedExpression setting r) (nestedBlock setting r)) s.tokens s.node) :
    BlockAccepted setting (r + 1) (ob :: (lines.tokens ++ [cb])) lines.nodes := by
  intro rest
  have hclose : ∀ kind ∈ Piece.first? (cb.piece :: rest), kind = .rightBrace := by simp [hcb]
  simp only [List.map_cons, List.map_append, List.cons_append, List.append_assoc, List.map_nil,
    List.nil_append]
  refine accepts_enter.bind fun _ _ => (accepts_expect hob).bind fun _ _ => ?_
  refine (accepts_leading rfl hw hsp hclose).bind fun _ _ => ?_
  refine (accepts_lines
    (blockRound_reads (nestedLevel_reads r 0) (nestedBlock_reads r)).length_lt rfl
    hw ha hsp.breaks hsp.apart hclose ?_ ?_).bind fun nodes hnodes => ?_
  · have hk : cb.piece.kind = .rightBrace := hcb
    refine (accepts_check? hk).bind ?_
    rintro _ ⟨t, rfl, -⟩
    exact .pure rfl
  · intro n s t u hstart hnode v hskip
    -- No statement begins with the closing brace
    have hbrace : Piece.first? (t.piece :: s) ≠ some .rightBrace := by
      intro h
      rw [show t.kind = .rightBrace from Option.some.inj h] at hstart
      cases hstart
    refine (accepts_check?_none hbrace).bind ?_
    rintro _ rfl
    refine accepts_peek_bind fun _ _ _ _ => ?_
    refine hnode.bind fun n' hn' => hskip.bind fun _ _ => .pure ⟨n', rfl, hn'⟩
  · exact (accepts_expect hcb).bind fun _ _ => .pure hnodes

/-! ## Functions and collections -/

section Declarations

variable {p : Position} {b : Nat} {x : String}

/-- A function, whose keyword is the next token. -/
def FunctionAccepted (setting : Setting) (r : Nat) (ts : List Token) (n : Node) : Prop :=
  Token.first? ts = some (.keyword .function) ∧ ∀ token rest,
    Accepts (function setting (nestedBlock setting r) token) (ts.map Token.piece ++ rest)
      (IsLike n) rest

/-- A function is read with its parameters and its block. -/
theorem function_accepts {k t o c : Token} {params : List (List Token × Node)}
    {body block : List Token} {nodes : List Node} (hk : k.kind = .keyword .function)
    (ht : t.kind = .name) (ho : o.kind = .leftParen) (hsep : Separated (params.map Prod.fst) body)
    (hw : ∀ i ∈ params, Written .standard note r .param i.1 i.2)
    (hi : ∀ i ∈ params, ParamAccepted setting i.1 i.2) (hc : c.kind = .rightParen)
    (hb : BlockAccepted setting r block nodes) :
    FunctionAccepted setting r (k :: t :: o :: (body ++ c :: block))
      ⟨.function t.value (params.map Prod.snd) nodes, p, b, x, false, false, none⟩ := by
  refine ⟨by simp [hk], fun token rest => ?_⟩
  simp only [List.map_cons, List.map_append, List.cons_append, List.append_assoc]
  refine accepts_take.bind fun _ _ => (accepts_expect ht).bind fun name hname => ?_
  refine (accepts_expect ho).bind fun _ _ => ?_
  -- The parameters are a list between parentheses
  refine (accepts_list Node.erase (fun c n c' h => ?_) hsep (fun i hmem => ?_) hi hc
    (by decide)).bind fun params' hparams => ?_
  · obtain ⟨ts, ht, -⟩ := @param_reads setting r c c' n h
    exact ⟨ts, ht⟩
  · exact (hw i hmem).first?_ne rfl
  · refine (hb rest).bind fun nodes' hnodes => accepts_finish.mono ?_
    rintro _ ⟨p', b', x', rfl⟩
    simp [IsLike, Shape.map, hname, hparams, hnodes]

/-- An item of a collection. -/
abbrev ItemAccepted (setting : Setting) (r : Nat) (ts : List Token) (n : Node) : Prop :=
  LineAccepted .item (collectionItem setting (nestedBlock setting r)) ts n

/-- A function is read as an item of a collection. -/
theorem functionItem_accepts {ts : List Token} {n : Node} (h : FunctionAccepted setting r ts n) :
    ItemAccepted setting r ts n := by
  intro rest _ _
  obtain ⟨hfirst, hfunction⟩ := h
  obtain ⟨t, ht, hk⟩ := Option.map_eq_some_iff.1 hfirst
  obtain ⟨us, rfl⟩ := List.head?_eq_some_iff.1 ht
  refine accepts_peek_bind fun token broken hkind _ => ?_
  simp only [hkind, hk]
  exact hfunction token rest

/-- An index is read as an item of a collection, with its fields. -/
theorem index_accepts {a d o c : Token} {fields : List (List Token × IndexField)}
    {body : List Token} (ha : a.kind = .atSign) (hk : d.kind = .name) (hd : d.value = "index")
    (ho : o.kind = .leftParen) (hsep : Separated (fields.map Prod.fst) body)
    (hi : ∀ i ∈ fields, IndexFieldWritten i.1 i.2) (hc : c.kind = .rightParen) :
    ItemAccepted setting r (a :: d :: o :: (body ++ [c]))
      ⟨.index (fields.map Prod.snd), p, b, x, false, false, none⟩ := by
  intro rest _ _
  simp only [List.map_cons, List.map_append, List.cons_append, List.append_assoc, List.map_nil,
    List.nil_append]
  refine accepts_peek_bind fun token broken hkind _ => ?_
  simp only [hkind, ha]
  refine accepts_take.bind fun _ _ => (accepts_expect hk).bind fun directive hdirective => ?_
  simp only [hdirective, hd, ne_eq, not_true_eq_false, if_false]
  refine (accepts_expect ho).bind fun _ _ => ?_
  -- The fields are a list between parentheses, each read as `indexField_accepts` says
  refine (accepts_list id (fun c n c' h => ?_) hsep (fun i hmem => ?_)
    (fun i hmem rest hrest => ?_) hc (by decide)).bind fun fields' hfields => ?_
  · obtain ⟨ts, ht, -⟩ := indexField_took h
    exact ⟨ts, ht⟩
  · obtain ⟨ts, field⟩ := i
    cases hi _ hmem with
    | plain hk => simp [hk]
    | bracketed hl _ _ | directed hl _ _ _ _ _ => simp [hl]
  · exact indexField_accepts (hi i hmem)
  · refine accepts_finish.mono ?_
    rintro _ ⟨p', b', x', rfl⟩
    simp_all [IsLike, Shape.map]

/-- A field is read as an item of a collection, with or without the colon. -/
theorem field_accepts {t : Token} {cs ts fs : List Token} {type : String} {colon required : Bool}
    (hk : t.kind = .name) (hc : Flag .colon cs colon) (ht : TypeWritten ts type)
    (hf : Flag .not fs required) :
    ItemAccepted setting r (t :: (cs ++ (ts ++ fs)))
      ⟨.field t.value type required, p, b, x, false, false, none⟩ := by
  intro rest hrest _
  simp only [List.map_cons, List.map_append, List.cons_append, List.append_assoc]
  refine accepts_peek_bind fun token broken hkind hv => ?_
  simp only [hkind, hk]
  -- The colon may be left out: no type begins with one
  have hcolon : Piece.first? (ts.map Token.piece ++ (fs.map Token.piece ++ rest)) ≠
      some .colon := by
    cases ht with
    | name hk | list hk => simp [hk]
  have hbracket : Piece.first? (fs.map Token.piece ++ rest) ≠ some .leftBracket := by
    cases hf with
    | absent => exact hrest.ne rfl
    | present hk => simp [hk]
  refine accepts_take.bind fun _ _ => (flag_accepts hc hcolon).bind fun _ _ => ?_
  refine (typeName_accepts ht hbracket).bind ?_
  rintro _ rfl
  refine (flag_accepts hf (hrest.ne rfl)).bind ?_
  rintro _ rfl
  refine accepts_finish.mono ?_
  rintro _ ⟨p', b', x', rfl⟩
  simp [IsLike, Shape.map, hv]

/-- A statement at the top of a program. -/
def TopAccepted (setting : Setting) (r : Nat) (ts : List Token) (n : Node) : Prop :=
  setting.limit = r → LineAccepted .top (topStatement setting) ts n

/-- A function is read at the top of a program. -/
theorem functionTop_accepts {ts : List Token} {n : Node} (h : FunctionAccepted setting r ts n) :
    TopAccepted setting r ts n := by
  rintro rfl rest _ _
  obtain ⟨hfirst, hfunction⟩ := h
  obtain ⟨t, ht, hk⟩ := Option.map_eq_some_iff.1 hfirst
  obtain ⟨us, rfl⟩ := List.head?_eq_some_iff.1 ht
  refine accepts_peek_bind fun token broken hkind _ => ?_
  simp only [hkind, hk]
  exact hfunction token rest

/-- A collection is read at the top of a program, with its items. -/
theorem collection_accepts {k t o c : Token} {items : Lines} (hk : k.kind = .keyword .collection)
    (ht : t.kind = .name) (ho : o.kind = .leftBrace) (hsp : items.Spaced .standard)
    (hw : ∀ s ∈ items.stretches, Written .standard note r .item s.tokens s.node)
    (ha : ∀ s ∈ items.stretches, ItemAccepted setting r s.tokens s.node)
    (hc : c.kind = .rightBrace) :
    TopAccepted setting r (k :: t :: o :: (items.tokens ++ [c]))
      ⟨.collection t.value items.nodes, p, b, x, false, false, none⟩ := by
  rintro rfl rest _ _
  have hclose : ∀ kind ∈ Piece.first? (c.piece :: rest), kind = .rightBrace := by simp [hc]
  simp only [List.map_cons, List.map_append, List.cons_append, List.append_assoc, List.map_nil,
    List.nil_append]
  refine accepts_peek_bind fun token broken hkind _ => ?_
  simp only [hkind, hk]
  refine accepts_take.bind fun _ _ => (accepts_expect ht).bind fun name hname => ?_
  refine (accepts_expect ho).bind fun _ _ => ?_
  refine (accepts_leading rfl hw hsp hclose).bind fun _ _ => ?_
  refine (accepts_lines (itemRound_reads (nestedBlock_reads setting.limit)).length_lt rfl hw ha
    hsp.breaks hsp.apart hclose ?_ ?_).bind fun nodes hnodes => ?_
  · have hk : c.piece.kind = .rightBrace := hc
    refine (accepts_check? hk).bind ?_
    rintro _ ⟨t, rfl, -⟩
    exact .pure rfl
  · intro n s t u hstart hnode v hskip
    -- No item begins with the closing brace
    have hbrace : Piece.first? (t.piece :: s) ≠ some .rightBrace := by
      intro h
      rw [show t.kind = .rightBrace from Option.some.inj h] at hstart
      cases hstart
    refine (accepts_check?_none hbrace).bind ?_
    rintro _ rfl
    refine hnode.bind fun n' hn' => hskip.bind fun _ _ => .pure ⟨n', rfl, hn'⟩
  · refine (accepts_expect hc).bind fun _ _ => accepts_finish.mono ?_
    rintro _ ⟨p', b', x', rfl⟩
    simpa [IsLike, Shape.map, hname, Lines.nodes] using hnodes

end Declarations

/-! ## Statements -/

section Statements

variable {p : Position} {b : Nat} {x : String}

/-- A further clause of a conditional. -/
def ClauseAccepted (setting : Setting) (r : Nat) (ts : List Token) (n : Node) : Prop :=
  ∀ rest, Accepts (clause setting (nestedLevel setting r 0) (nestedBlock setting r))
    (ts.map Token.piece ++ rest)
    (fun round => ∃ n', IsLike n n' ∧ round = if n.isElseIf then .more n' else .last n') rest

/-- A clause with a condition is read. -/
theorem elseIf_accepts {e k o : Token} {ts block : List Token} {condition : Node}
    {nodes : List Node} (he : e.kind = .keyword .elseWord) (hk : k.kind = .keyword .ifWord)
    (hv : NestedAccepted setting r ts condition) (ho : o.kind = .leftBrace)
    (hb : BlockAccepted setting r (o :: block) nodes) :
    ClauseAccepted setting r (e :: k :: (ts ++ o :: block))
      ⟨.elseIf condition nodes, p, b, x, false, false, none⟩ := by
  intro rest
  simp only [List.map_cons, List.map_append, List.cons_append, List.append_assoc]
  refine (accepts_eat? he).bind ?_
  rintro _ ⟨token, rfl, -⟩
  refine (accepts_eats hk).bind ?_
  rintro _ rfl
  -- The brace of the block ends the condition
  have hstops : Grammar.standard.Stops 0
      (Piece.first? (o.piece :: (block.map Token.piece ++ rest))) :=
    stops_of_first (congrArg some ho) rfl
  refine (hv.loosest hstops).bind fun condition' hcondition => ?_
  refine (hb rest).bind fun nodes' hnodes => accepts_finish.bind ?_
  rintro _ ⟨p', b', x', rfl⟩
  refine .pure ⟨_, ?_, rfl⟩
  simp_all [IsLike, Shape.map]

/-- A clause without a condition is read. -/
theorem elseClause_accepts {e o : Token} {block : List Token} {nodes : List Node}
    (he : e.kind = .keyword .elseWord) (ho : o.kind = .leftBrace)
    (hb : BlockAccepted setting r (o :: block) nodes) :
    ClauseAccepted setting r (e :: o :: block)
      ⟨.elseClause nodes, p, b, x, false, false, none⟩ := by
  intro rest
  refine (accepts_eat? he).bind ?_
  rintro _ ⟨token, rfl, -⟩
  have hif : Piece.first? ((o :: block).map Token.piece ++ rest) ≠ some (.keyword .ifWord) := by
    simp [ho]
  refine (accepts_eats_false hif).bind ?_
  rintro _ rfl
  refine (hb rest).bind fun nodes' hnodes => accepts_finish.bind ?_
  rintro _ ⟨p', b', x', rfl⟩
  refine .pure ⟨_, ?_, rfl⟩
  simp_all [IsLike, Shape.map]

/-- All further clauses of a conditional. -/
theorem clauses_accepts {clauses : List (List Token × Node)} {rest : List Piece}
    (hi : ∀ i ∈ clauses, ClauseAccepted setting r i.1 i.2)
    (hl : ∀ i ∈ clauses.dropLast, i.2.isElseIf = true)
    (hrest : Piece.first? rest ≠ some (.keyword .elseWord)) :
    Accepts (gather (clause setting (nestedLevel setting r 0) (nestedBlock setting r)))
      ((clauses.flatMap Prod.fst).map Token.piece ++ rest)
      (fun nodes => nodes.map Node.erase = (clauses.map Prod.snd).map Node.erase) rest := by
  intro c hc
  suffices hg : ∃ nodes c', Gathered (clause setting (nestedLevel setting r 0)
      (nestedBlock setting r)) c nodes c' ∧
      nodes.map Node.erase = (clauses.map Prod.snd).map Node.erase ∧ c'.pieces = rest by
    obtain ⟨nodes, c', hg, hn, hc'⟩ := hg
    exact ⟨nodes, c', (gather_eq_ok fun c n c' h =>
      clause_length_lt (nestedLevel_reads r 0) (nestedBlock_reads r) h).2 hg, hn, hc'⟩
  have hdone : Accepts (clause setting (nestedLevel setting r 0) (nestedBlock setting r)) rest
      (fun round => round = .done) rest := by
    refine (accepts_eat?_none hrest).bind ?_
    rintro _ rfl
    exact .pure rfl
  -- Only the last clause has no condition, so each one before it is followed by another
  induction clauses generalizing c with
  | nil =>
    obtain ⟨_, c', h, rfl, hc'⟩ := hdone c hc
    exact ⟨[], c', .done h, rfl, hc'⟩
  | cons i clauses ih =>
    simp only [List.mem_cons, forall_eq_or_imp] at hi
    rw [List.flatMap_cons, List.map_append, List.append_assoc] at hc
    obtain ⟨_, c₁, h, ⟨n', hn', rfl⟩, hc₁⟩ := hi.1 _ c hc
    cases helse : i.2.isElseIf with
    | true =>
      simp only [helse, if_true] at h
      have hl' : ∀ j ∈ clauses.dropLast, j.2.isElseIf = true := by
        intro j hj
        cases clauses with
        | nil => cases hj
        | cons i' clauses => exact hl j (List.mem_cons_of_mem i hj)
      obtain ⟨nodes, c', hg, hn, hc'⟩ := ih hi.2 hl' c₁ hc₁
      exact ⟨n' :: nodes, c', .more h hg, by simpa [hn, IsLike] using hn', hc'⟩
    | false =>
      simp only [helse, Bool.false_eq_true, if_false] at h
      -- A clause without a condition is the last
      obtain rfl : clauses = [] := by
        cases clauses with
        | nil => rfl
        | cons j clauses =>
          have := hl i (by simp)
          rw [helse] at this
          cases this
      exact ⟨[n'], c₁, .last h, by simpa [IsLike] using hn', by simpa using hc₁⟩

/-- A statement, in a block or at the top. -/
abbrev StatementAccepted (setting : Setting) (r : Nat) (ts : List Token) (n : Node) : Prop :=
  LineAccepted .top (statement setting (nestedExpression setting r) (nestedBlock setting r)) ts n

/-- The keyword of a statement decides which one is read. -/
private theorem statement_accepts_keyword {k : Token} {s rest : List Piece} {R : Node → Prop}
    {word : Keyword} {body : Token → Parse Node} (hk : k.kind = .keyword word)
    (hbody : ∀ token : Token, token.kind = .keyword word →
      (match token.kind with
        | .keyword .ifWord =>
          ifStmt setting (nestedExpression setting r) (nestedBlock setting r) token
        | .keyword .constWord => constDecl setting (nestedExpression setting r) token
        | .keyword .letWord => letDecl setting (nestedExpression setting r) token
        | .keyword .returnWord => returnStmt setting (nestedExpression setting r) token
        | _ => expressionStmt setting (nestedExpression setting r)) = body token)
    (h : ∀ token : Token, Accepts (body token) (k.piece :: s) R rest) :
    Accepts (statement setting (nestedExpression setting r) (nestedBlock setting r))
      (k.piece :: s) R rest := by
  refine accepts_peek_bind fun token broken hkind _ => ?_
  have := h token
  rw [← hbody token (hkind.trans hk)] at this
  exact this

/-- A conditional is read with its condition, its block and its further clauses. -/
theorem ifStmt_accepts {k o c : Token} {ts block : List Token} {condition : Node}
    {nodes : List Node} {clauses : List (List Token × Node)} (hk : k.kind = .keyword .ifWord)
    (hv : NestedAccepted setting r ts condition) (ho : o.kind = .leftBrace)
    (hb : BlockAccepted setting r (o :: (block ++ [c])) nodes)
    (hi : ∀ i ∈ clauses, ClauseAccepted setting r i.1 i.2)
    (hl : ∀ i ∈ clauses.dropLast, i.2.isElseIf = true) :
    StatementAccepted setting r (k :: (ts ++ o :: (block ++ c :: clauses.flatMap Prod.fst)))
      ⟨.ifStmt condition nodes (clauses.map Prod.snd), p, b, x, false, false, none⟩ := by
  intro rest hrest _
  have hpieces : (k :: (ts ++ o :: (block ++ c :: clauses.flatMap Prod.fst))).map Token.piece ++
      rest = k.piece :: (ts.map Token.piece ++ ((o :: (block ++ [c])).map Token.piece ++
        ((clauses.flatMap Prod.fst).map Token.piece ++ rest))) := by simp
  rw [hpieces]
  refine statement_accepts_keyword hk (fun token h => by rw [h]) fun token => ?_
  -- The condition ends at the brace, which goes on with no expression
  have hstops : Grammar.standard.Stops 0 (Piece.first? ((o :: (block ++ [c])).map Token.piece ++
      ((clauses.flatMap Prod.fst).map Token.piece ++ rest))) :=
    stops_of_first (congrArg some ho) rfl
  refine accepts_take.bind fun _ _ =>
    (hv.loosest hstops).bind fun condition' hcondition => ?_
  refine (hb _).bind fun nodes' hnodes => ?_
  refine (clauses_accepts hi hl (hrest.ne rfl)).bind fun clauses' hclauses => ?_
  refine accepts_finish.mono ?_
  rintro _ ⟨p', b', x', rfl⟩
  simp_all [IsLike, Shape.map]

/-- The declaration of a constant is read with its value. -/
theorem constDecl_accepts {k t a : Token} {ts : List Token} {value : Node}
    (hk : k.kind = .keyword .constWord) (ht : t.kind = .name) (ha : a.kind = .assign)
    (hv : NestedAccepted setting r ts value) :
    StatementAccepted setting r (k :: t :: a :: ts)
      ⟨.constDecl t.value value, p, b, x, false, false, none⟩ := by
  intro rest _ hends
  refine statement_accepts_keyword hk (fun token h => by rw [h]) fun token => ?_
  refine accepts_take.bind fun _ _ => (accepts_expect ht).bind fun name hname => ?_
  refine (accepts_expect ha).bind fun _ _ => ?_
  refine (hv.loosest (hends.expression rfl)).bind
    fun value' hvalue => accepts_finish.mono ?_
  rintro _ ⟨p', b', x', rfl⟩
  simp_all [IsLike, Shape.map]

/-- The declaration of a variable is read with its value. -/
theorem letValue_accepts {k t a : Token} {ts : List Token} {value : Node}
    (hk : k.kind = .keyword .letWord) (ht : t.kind = .name) (ha : a.kind = .assign)
    (hv : NestedAccepted setting r ts value) :
    StatementAccepted setting r (k :: t :: a :: ts)
      ⟨.letDecl t.value (some value), p, b, x, false, false, none⟩ := by
  intro rest _ hends
  refine statement_accepts_keyword hk (fun token h => by rw [h]) fun token => ?_
  refine accepts_take.bind fun _ _ => (accepts_expect ht).bind fun name hname => ?_
  refine (accepts_eats ha).bind ?_
  rintro _ rfl
  refine (hv.loosest (hends.expression rfl)).bind
    fun value' hvalue => accepts_finish.mono ?_
  rintro _ ⟨p', b', x', rfl⟩
  simp_all [IsLike, Shape.map]

/-- The declaration of a variable without a value is read up to what follows the name. -/
theorem letBare_accepts {k t : Token} (hk : k.kind = .keyword .letWord) (ht : t.kind = .name) :
    StatementAccepted setting r [k, t]
      ⟨.letDecl t.value none, p, b, x, false, false, none⟩ := by
  intro rest hrest _
  refine statement_accepts_keyword hk (fun token h => by rw [h]) fun token => ?_
  refine accepts_take.bind fun _ _ => (accepts_expect ht).bind fun name hname => ?_
  have hassign : Piece.first? rest ≠ some .assign := hrest.ne rfl
  refine (accepts_eats_false hassign).bind ?_
  rintro _ rfl
  refine accepts_finish.mono ?_
  rintro _ ⟨p', b', x', rfl⟩
  simp_all [IsLike, Shape.map]

/-- A return is read with its value. -/
theorem returnValue_accepts {k : Token} {ts : List Token} {value : Node}
    (hk : k.kind = .keyword .returnWord) (hw : Written .standard note r .nested ts value)
    (hv : NestedAccepted setting r ts value) :
    StatementAccepted setting r (k :: ts)
      ⟨.returnStmt (some value), p, b, x, false, false, none⟩ := by
  intro rest _ hends
  refine statement_accepts_keyword hk (fun token h => by rw [h]) fun token => ?_
  have hvalue := hv.loosest (hends.expression rfl)
  obtain ⟨t, us, rfl, hstart⟩ := hw.starts
  refine accepts_take.bind fun _ _ => accepts_peek_bind fun token broken hkind _ => ?_
  -- What begins an expression is neither a brace nor a semicolon
  have hneither : (token.kind = .rightBrace || token.kind = .semicolon) = false := by
    rw [hkind]
    revert hstart
    cases t.kind <;> simp [Place.starts, Place.starts.expressionKinds]
  simp only [hneither, Bool.false_eq_true, if_false]
  refine hvalue.bind fun value' hvalue => accepts_finish.mono ?_
  rintro _ ⟨p', b', x', rfl⟩
  simp_all [IsLike, Shape.map]

/-- A return without a value is read where nothing begins a value. -/
theorem returnBare_accepts {k : Token} (hk : k.kind = .keyword .returnWord) :
    StatementAccepted setting r [k] ⟨.returnStmt none, p, b, x, false, false, none⟩ := by
  intro rest _ hends
  refine statement_accepts_keyword hk (fun token h => by rw [h]) fun token => ?_
  have hfinish : Accepts (finish setting (.returnStmt none) token.position) rest
      (IsLike ⟨.returnStmt none, p, b, x, false, false, none⟩) rest := by
    refine accepts_finish.mono ?_
    rintro _ ⟨p', b', x', rfl⟩
    simp [IsLike, Shape.map]
  refine accepts_take.bind fun _ _ => accepts_peek.bind fun next hnext => ?_
  cases next with
  | none => exact hfinish
  | some lexeme =>
    have hfirst : Piece.first? rest = some lexeme.token.kind := first?_of_peek hnext
    have heither :
        (lexeme.token.kind = .rightBrace || lexeme.token.kind = .semicolon) = true := by
      simpa using hends.bare rfl _ hfirst
    simp only [heither, if_true]
    exact hfinish

/-- No statement that begins with an expression begins with a keyword. -/
private theorem statement_accepts_expression {t : Token} {s rest : List Piece} {R : Node → Prop}
    (hstart : Place.nested.starts t.kind = true)
    (h : Accepts (expressionStmt setting (nestedExpression setting r)) (t.piece :: s) R rest) :
    Accepts (statement setting (nestedExpression setting r) (nestedBlock setting r))
      (t.piece :: s) R rest := by
  refine accepts_peek_bind fun token broken hkind _ => ?_
  rw [← hkind] at hstart
  dsimp only
  -- The four keywords begin no expression
  split
  · next hword => rw [hword] at hstart; cases hstart
  · next hword => rw [hword] at hstart; cases hstart
  · next hword => rw [hword] at hstart; cases hstart
  · next hword => rw [hword] at hstart; cases hstart
  · exact h

/-- The next token is found among the kinds it is one of. -/
private theorem checkAny?_accepts {kinds : List TokenKind} {t : Token} {s : List Piece}
    (hk : t.kind ∈ kinds) :
    Accepts (checkAny? kinds) (t.piece :: s) (fun r => ∃ t', r = some t' ∧ t'.piece = t.piece)
      (t.piece :: s) := by
  -- The first kind in the list that fits is found, so those before it are passed over
  induction kinds with
  | nil => cases hk
  | cons kind kinds ih =>
    by_cases hkind : t.kind = kind
    · have hkind' : t.piece.kind = kind := hkind
      refine (accepts_check? hkind').bind ?_
      rintro _ ⟨t', rfl, ht'⟩
      exact .pure ⟨t', rfl, ht'⟩
    · have hne : Piece.first? (t.piece :: s) ≠ some kind := by simpa using hkind
      refine (accepts_check?_none hne).bind ?_
      rintro _ rfl
      exact ih ((List.mem_cons.1 hk).resolve_left hkind)

/-- Nothing is found if the next token is of none of the kinds. -/
private theorem checkAny?_accepts_none {kinds : List TokenKind} {s : List Piece}
    (hk : ∀ kind ∈ kinds, Piece.first? s ≠ some kind) :
    Accepts (checkAny? kinds) s (fun r => r = none) s := by
  induction kinds with
  | nil => exact .pure rfl
  | cons kind kinds ih =>
    simp only [List.mem_cons, forall_eq_or_imp] at hk
    refine (accepts_check?_none hk.1).bind ?_
    rintro _ rfl
    exact ih hk.2

/-- An assignment is read with its two sides and its operator. -/
theorem assign_accepts {tl tr : List Token} {left right : Node} {t : Token} {op : Operator}
    {p' : Position} {b' : Nat} {x' : String} (hw : Written .standard note r .nested tl left)
    (hl : NestedAccepted setting r tl left) (ha : left.isAssignable = true)
    (hk : t.kind ∈ [TokenKind.assign, .addAssign, .subAssign])
    (ho : Operator.ofKind? t.kind = some op) (hr : NestedAccepted setting r tr right) :
    StatementAccepted setting r (tl ++ t :: tr)
      ⟨.assign left ⟨.operator op, p', b', x', false, false, none⟩ right, p, b, x, false, false,
        none⟩ := by
  intro rest _ hends
  have hstops : Grammar.standard.Stops 0
      (Piece.first? (t.piece :: (tr.map Token.piece ++ rest))) := by
    refine stops_of_first (Piece.first?_cons _ _) ?_
    simp only [List.mem_cons, List.not_mem_nil, or_false] at hk
    obtain hk | hk | hk := hk <;> rw [Token.piece_kind, hk] <;> rfl
  have hleft := hl.loosest hstops
  have hright := hr.loosest (hends.expression rfl)
  obtain ⟨u, us, rfl, hstart⟩ := hw.starts
  simp only [List.map_append, List.map_cons, List.append_assoc, List.cons_append] at hleft ⊢
  refine statement_accepts_expression hstart (hleft.bind fun left' hleft' => ?_)
  refine (checkAny?_accepts hk).bind ?_
  rintro _ ⟨token, rfl, htoken⟩
  -- Whether a node is assignable does not depend on where it was read
  have hassignable : left'.isAssignable = true := by
    rw [← Node.isAssignable_erase, hleft', Node.isAssignable_erase, ha]
  simp only [hassignable, Bool.not_true, Bool.false_eq_true, if_false]
  refine accepts_take.bind fun _ _ => ?_
  have hop : Accepts (operatorNode token) (tr.map Token.piece ++ rest)
      (IsLike ⟨.operator op, p', b', x', false, false, none⟩) (tr.map Token.piece ++ rest) :=
    operatorNode_accepts (by rw [show token.kind = t.kind from congrArg Piece.kind htoken, ho])
  refine hop.bind fun op' hop' => hright.bind fun right' hright' => accepts_finish.mono ?_
  rintro _ ⟨p', b', x', rfl⟩
  simp_all [IsLike, Shape.map]

/-- An expression that stands alone is read as a statement. -/
theorem expression_accepts {ts : List Token} {n : Node}
    (hw : Written .standard note r .nested ts n) (hn : NestedAccepted setting r ts n) :
    StatementAccepted setting r ts n := by
  intro rest hrest hends
  have hrole : n.role = .expression := by simpa [Place.admits] using hw.admits
  have hexpression : n.endsInExpression = true := by
    obtain ⟨shape, p, b, x, parenthesized, bracket, receiver⟩ := n
    cases shape <;> simp_all [Node.role, Shape.role, Node.endsInExpression]
  have haccepts := hn.loosest (hends.expression hexpression)
  obtain ⟨u, us, rfl, hstart⟩ := hw.starts
  refine statement_accepts_expression hstart (haccepts.bind fun n' hn' => ?_)
  refine (checkAny?_accepts_none ?_).bind ?_
  · simp only [List.mem_cons, List.not_mem_nil, or_false, forall_eq_or_imp, forall_eq]
    exact ⟨hrest.ne rfl, hrest.ne rfl, hrest.ne rfl⟩
  · rintro _ rfl
    exact .pure hn'

/-- A statement of a block is read at the top of a program. -/
theorem statementTop_accepts {ts : List Token} {n : Node}
    (hw : Written .standard note r .statement ts n) (h : StatementAccepted setting r ts n) :
    TopAccepted setting r ts n := by
  rintro rfl rest hrest hends
  have haccepts := h rest hrest hends
  obtain ⟨u, us, rfl, hstart⟩ := hw.starts
  refine accepts_peek_bind fun token broken hkind _ => ?_
  rw [← hkind] at hstart
  -- Collections and functions begin with keywords that begin no statement of a block
  dsimp only
  split
  · next hword => rw [hword] at hstart; cases hstart
  · next hword => rw [hword] at hstart; cases hstart
  · exact haccepts

end Statements

/-! ## All places -/

/-- What is shown of tokens that are a way of writing a node in a place. -/
def Accepted (setting : Setting) (r : Nat) (place : Place) (ts : List Token) (n : Node) : Prop :=
  match place with
  | .nested => NestedAccepted setting r ts n
  | .expression => ExpressionAccepted setting r ts n
  | .entry => EntryAccepted setting r ts n
  | .param => ParamAccepted setting ts n
  | .item => ItemAccepted setting r ts n
  | .clause => ClauseAccepted setting r ts n
  | .function => FunctionAccepted setting r ts n
  | .statement => StatementAccepted setting r ts n
  | .top => TopAccepted setting r ts n

/-- A statement that may be followed by any other may be followed by one of a block. -/
private theorem StatementAccepted.line {ts : List Token} {n : Node}
    (h : StatementAccepted setting r ts n) :
    LineAccepted .statement
      (statement setting (nestedExpression setting r) (nestedBlock setting r)) ts n := by
  intro rest hrest hends
  refine h rest (fun kind hk => ?_) hends
  obtain h | h | h := hrest kind hk
  · exact .inl h
  · exact .inr (.inl h)
  · refine .inr (.inr ?_)
    simp only [Place.starts, List.contains_cons, Bool.or_eq_true] at h ⊢
    exact .inr (.inr h)

/-- The parts of a grouped node are grouped. -/
private theorem grouped_of_mem {shape : Shape Node} {p : Position} {b : Nat} {x : String}
    {receiver : Option Node} {part : Node}
    (hg : Node.Grouped ⟨shape, p, b, x, false, false, receiver⟩) (h : part ∈ shape.parts) :
    part.Grouped :=
  (Node.grouped_iff.1 hg).2 part (List.mem_append_right _ h)

/-- The statements of a block are accepted if each is. -/
private theorem lines_accepted {lines : Lines}
    (hb : ∀ s ∈ lines.stretches, s.node.Grouped → Accepted setting r .statement s.tokens s.node)
    (hg : ∀ n ∈ lines.nodes, n.Grouped) :
    ∀ s ∈ lines.stretches, LineAccepted .statement
      (statement setting (nestedExpression setting r) (nestedBlock setting r)) s.tokens s.node :=
  fun s hs => StatementAccepted.line (hb s hs (hg s.node (List.mem_map_of_mem hs)))

/-- What is read as an expression is read as one inside another, with one nesting more. -/
private theorem nested_accepts {ts : List Token} {n : Node}
    (h : ExpressionAccepted setting r ts n) : NestedAccepted setting (r + 1) ts n :=
  fun level hle hf rest hstops =>
    accepts_enter.bind fun _ _ => h.leveled level hle hf rest hstops

end Schemata.Parse

namespace Schemata

open Parse

variable {setting : Setting} {r : Nat} {note : SourceNote}

/-- Tokens that are a way of writing a grouped node in a place are read as that node, if what
    follows does not go on with it. -/
theorem Written.accepted {place : Place} {ts : List Token} {n : Node}
    (hs : setting.grammar = .standard) (h : Written .standard note r place ts n)
    (hg : n.Grouped) : Accepted setting r place ts n := by
  -- One case for each way of writing a node: its parts are read as written by induction
  induction h with
  | nested _ ih => exact nested_accepts (ih hg)
  | number hk hn =>
    exact .of_atom hs (.number hk hn) hg ⟨rfl, rfl⟩ fun rest => number_accepts hk
  | string hk hn =>
    exact .of_atom hs (.string hk hn) hg ⟨rfl, rfl⟩ fun rest => string_accepts hk
  | boolean hk hn =>
    exact .of_atom hs (.boolean hk hn) hg ⟨rfl, rfl⟩ fun rest => boolean_accepts hk
  | name hk hn =>
    exact .of_atom hs (.name hk hn) hg ⟨rfl, rfl⟩ fun rest => name_accepts hk
  | array ho hsep hc hi hn ih =>
    have hitems := fun i hmem => ih i hmem (grouped_of_mem hg (List.mem_map_of_mem hmem))
    exact .of_atom hs (.array ho hsep hc hi hn) hg ⟨rfl, rfl⟩
      fun rest => array_accepts ho hsep hc hi hitems
  | object ho hsep hc hi hn ih =>
    have hentries := fun i hmem => ih i hmem (grouped_of_mem hg (List.mem_map_of_mem hmem))
    exact .of_atom hs (.object ho hsep hc hi hn) hg ⟨rfl, rfl⟩
      fun rest => object_accepts ho hsep hc hi hentries
  | entry hkey hc hv hn ih =>
    exact entry_accepts hkey hc (ih (grouped_of_mem hg (by simp [Shape.parts])))
  | shorthand hk => exact shorthand_accepts hk
  | @group r o c ts n p b x ho hi hc hn ih =>
    have hn' : n.Grouped := by refine (Node.grouped_congr ?_ ?_).1 hg <;> rfl
    exact .of_atom hs (.group ho hi hc hn) hg (Node.closed_of_isOpen_eq_false rfl)
      fun rest => group_accepts ho (ih hn') hc
  | member hr hd hk hn ih =>
    have hreceiver := ih ((Node.grouped_iff.1 hg).2 _ (by simp))
    exact .of_link hs (.member hr hd hk hn) hg ⟨rfl, rfl⟩ rfl hreceiver (member_accepts hd hk)
  | @key r ts tk object key o c p b x hr ho hk hc hn ihr ihk =>
    have hgk : key.Grouped ∧ object.Grouped := by
      refine Node.Grouped.of_bracketed ((Node.grouped_congr ?_ ?_).1 hg) <;> rfl
    exact .of_link hs (.key hr ho hk hc hn) hg
      (Node.closed_of_isOpen_eq_false (by simp [Node.isOpen])) rfl (ihr hgk.2)
      (key_accepts ho (ihk hgk.1) hc)
  | call hr ho hsep hc hi hn ihr ihi =>
    have hreceiver := ihr ((Node.grouped_iff.1 hg).2 _ (by simp))
    have hargs := fun i hmem => ihi i hmem (grouped_of_mem hg (List.mem_map_of_mem hmem))
    exact .of_link hs (.call hr ho hsep hc hi hn) hg ⟨rfl, rfl⟩ rfl hreceiver
      (call_accepts ho hsep hc hi hargs)
  | binary hl hb ho ht hr hn ihl ihr =>
    exact binary_accepts hs rfl (.binary hl hb ho ht hr hn) hr hg hb ho
      (ihl (grouped_of_mem hg (by simp [Shape.parts])))
      (ihr (grouped_of_mem hg (by simp [Shape.parts])))
  | unary hb hv hn ih =>
    exact unary_accepts hs hb hg (ih (grouped_of_mem hg (by simp [Shape.parts])))
  | param hk hq ht => exact param_accepts hk hq ht
  | field hk hc ht hf => exact field_accepts hk hc ht hf
  | index ha hk hd ho hsep hi hc => exact index_accepts ha hk hd ho hsep hi hc
  | function hk ht ho hsep hi hc hob hsp hb hcb hn ihi ihb =>
    have hparams := fun i hmem =>
      ihi i hmem (grouped_of_mem hg (List.mem_append_left _ (List.mem_map_of_mem hmem)))
    have hlines := lines_accepted ihb fun n hmem =>
      grouped_of_mem hg (List.mem_append_right _ hmem)
    exact function_accepts hk ht ho hsep hi hparams hc (block_accepts hob hcb hsp hb hlines)
  | functionItem _ ih => exact functionItem_accepts (ih hg)
  | functionTop _ ih => exact functionTop_accepts (ih hg)
  | collection hk ht ho hsp hi hc hn ih =>
    have hitems := fun s hmem => ih s hmem (grouped_of_mem hg (List.mem_map_of_mem hmem))
    exact collection_accepts hk ht ho hsp hi hitems hc
  | elseIf he hk hv ho hsp hb hc hn ihv ihb =>
    have hlines := lines_accepted ihb fun n hmem => grouped_of_mem hg (.tail _ hmem)
    exact elseIf_accepts he hk (ihv (grouped_of_mem hg (.head _))) ho
      (block_accepts ho hc hsp hb hlines)
  | elseClause he ho hsp hb hc hn ihb =>
    have hlines := lines_accepted ihb fun n hmem => grouped_of_mem hg hmem
    exact elseClause_accepts he ho (block_accepts ho hc hsp hb hlines)
  | ifStmt hk hv ho hsp hb hc hi hl hn ihv ihb ihi =>
    have hlines := lines_accepted ihb fun n hmem =>
      grouped_of_mem hg (.tail _ (List.mem_append_left _ hmem))
    have hclauses := fun i hmem =>
      ihi i hmem (grouped_of_mem hg (.tail _ (List.mem_append_right _ (List.mem_map_of_mem hmem))))
    exact ifStmt_accepts hk (ihv (grouped_of_mem hg (.head _))) ho
      (block_accepts ho hc hsp hb hlines) hclauses hl
  | constDecl hk ht ha hv hn ih =>
    exact constDecl_accepts hk ht ha (ih (grouped_of_mem hg (.head _)))
  | letValue hk ht ha hv hn ih =>
    exact letValue_accepts hk ht ha (ih (grouped_of_mem hg (.head _)))
  | letBare hk ht => exact letBare_accepts hk ht
  | returnValue hk hv hn ih =>
    exact returnValue_accepts hk hv (ih (grouped_of_mem hg (.head _)))
  | returnBare hk => exact returnBare_accepts hk
  | assign hl ha hk ho ht hr hn ihl ihr =>
    exact assign_accepts hl (ihl (grouped_of_mem hg (by simp [Shape.parts]))) ha hk ho
      (ihr (grouped_of_mem hg (by simp [Shape.parts])))
  | expression h ih => exact expression_accepts h (ih hg)
  | statement h ih => exact statementTop_accepts h (ih hg)

/-! ## Programs -/

namespace Parse

/-- The statements of a written program are read, and nothing else. -/
theorem program_accepts {lines : Lines} (hs : setting.grammar = .standard)
    (h : ProgramWritten .standard note setting.limit lines) (hg : ∀ n ∈ lines.nodes, n.Grouped) :
    Accepts (program setting) (lines.tokens.map Token.piece)
      (fun nodes => nodes.map Node.erase = lines.nodes.map Node.erase) [] := by
  have hend : ∀ kind ∈ Piece.first? [], kind = TokenKind.rightBrace := by simp
  have hlines : ∀ s ∈ lines.stretches, LineAccepted .top (topStatement setting) s.tokens s.node :=
    fun s hmem => (h.written s hmem).accepted hs (hg s.node (List.mem_map_of_mem hmem)) rfl
  rw [← List.append_nil (List.map _ _)]
  refine (accepts_leading rfl h.written h.spaced hend).bind fun _ _ => ?_
  refine (accepts_lines topRound_reads.length_lt rfl h.written hlines h.spaced.breaks
    h.spaced.apart hend ?_ ?_).bind fun nodes hnodes => ?_
  · refine accepts_peek.bind fun next hnext => ?_
    cases next with
    | none => exact .pure rfl
    | some lexeme => cases hnext
  · intro n s t u _ hnode v hskip
    refine accepts_peek_bind fun _ _ _ _ => ?_
    exact hnode.bind fun n' hn' => hskip.bind fun _ _ => .pure ⟨n', rfl, hn'⟩
  -- As many statements are read as were written, and so not none
  · have hne : nodes.isEmpty = false := by
      cases nodes with
      | nil =>
        have := h.nonempty
        simp_all
      | cons => rfl
    simp only [hne, Bool.false_eq_true, if_false]
    exact .pure hnodes

/-- An expression that leaves nothing over makes up the source. -/
theorem wholeExpression_accepts {s : List Piece} {R : Node → Prop}
    (h : Accepts (nestedExpression setting setting.limit) s R []) :
    Accepts (wholeExpression setting) s R [] := by
  refine h.bind fun n hn => accepts_peek.bind fun next hnext => ?_
  cases next with
  | none => exact .pure hn
  | some lexeme => cases hnext

end Parse

/-- A source is parsed as an expression if its tokens are accepted as one, whatever the table. -/
theorem parseExpression_of_accepts {grammar : Grammar} {source : String} {pieces : List Piece}
    {R : Node → Prop} (hl : Lexes source.toList pieces)
    (h : ∀ stop, Accepts (nestedExpression ⟨grammar, maxDepth, source.toList, stop⟩ maxDepth)
      pieces R []) :
    ∃ n, parseExpression grammar source = .ok n ∧ R n := by
  obtain ⟨lexemes, stop, hsource, hpieces⟩ := Lexeme.ofSource_iff_lexes.2 hl
  obtain ⟨n, c, hp, hr, -⟩ :=
    wholeExpression_accepts (h stop) (Cursor.start lexemes) hpieces
  exact ⟨n, parseExpression_eq_ok.2 ⟨lexemes, stop, c, hsource, hp⟩, hr⟩

/-- A source whose tokens say what the tokens of an expression say is parsed as that expression. -/
theorem parseExpression_of_written {source : String} {ts : List Token} {n : Node}
    (h : Written .standard note maxDepth .nested ts n) (hg : n.Grouped)
    (hl : Lexes source.toList (ts.map Token.piece)) :
    ∃ n', parseExpression .standard source = .ok n' ∧ n'.erase = n.erase := by
  apply parseExpression_of_accepts hl
  intro stop
  have haccepts := @Written.accepted ⟨.standard, maxDepth, source.toList, stop⟩ _ _ _ _ _ rfl h hg
  have hend : Grammar.standard.Stops 0 (Piece.first? []) := by simp [Grammar.Stops]
  have hnested := NestedAccepted.loosest haccepts hend
  rwa [List.append_nil] at hnested

/-- A source whose tokens say what the tokens of a program say is parsed as that program. -/
theorem parse_of_written {source : String} {lines : Lines}
    (h : ProgramWritten .standard note maxDepth lines) (hg : ∀ n ∈ lines.nodes, n.Grouped)
    (hl : Lexes source.toList (lines.tokens.map Token.piece)) :
    ∃ nodes, parse source = .ok nodes ∧ nodes.map Node.erase = lines.nodes.map Node.erase := by
  obtain ⟨lexemes, stop, hsource, hpieces⟩ := Lexeme.ofSource_iff_lexes.2 hl
  obtain ⟨nodes, c, hp, hn, -⟩ := @program_accepts ⟨.standard, maxDepth, source.toList, stop⟩ note
    lines rfl h hg (Cursor.start lexemes) hpieces
  exact ⟨nodes, parse_eq_ok.2 ⟨lexemes, stop, c, hsource, hp⟩, hn⟩

end Schemata
