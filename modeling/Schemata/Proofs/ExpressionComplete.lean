import Schemata.Proofs.ExpressionSound

/-!
# Every expression is read

The converse of `ExpressionSound` for the standard table: tokens that are a way of writing a
grouped expression are read as that expression, up to what nodes note about their source, if they
are followed by something that the expression does not go on with.

A chain and a row of binary operators are read by loops, so for what stands to the left the claim
is that the loop gets there (`Reaches`), whatever it does next.
-/

namespace Schemata.Parse

/-- The node is the given one, up to what nodes note about their source. -/
def IsLike (n n' : Node) : Prop :=
  n'.erase = n.erase

variable {setting : Setting} {r : Nat} {note : SourceNote}

/-- The parser of expressions of a level, with room for so many nestings inside. -/
def levelParser (setting : Setting) (r level : Nat) : Parse Node :=
  climb setting (nestedLevel setting r) level (setting.grammar.levels.drop level)

/-- The step of a row of binary operators. -/
def rowStep (setting : Setting) (r level : Nat) (kind : BinaryKind) (operators : List TokenKind) :
    Node → Parse (ForInStep Node) :=
  binaryStep setting (nestedLevel setting r) level kind operators
    (levelParser setting r (level + 1))

theorem levelParser_binary {level : Nat} {kind : BinaryKind} {operators : List TokenKind}
    (hl : setting.grammar.levels[level]? = some (.binary kind operators)) :
    levelParser setting r level =
      levelParser setting r (level + 1) >>=
        iterate (rowStep setting r level kind operators) := by
  obtain ⟨hi, hget⟩ := List.getElem?_eq_some_iff.1 hl
  rw [levelParser, List.drop_eq_getElem_cons hi, hget]
  rfl

/-- A level of unary operations begins with one of its operators, or is the next tighter level. -/
theorem levelParser_unary {level : Nat} {operators : List (TokenKind × UnaryKind)}
    (hl : setting.grammar.levels[level]? = some (.unary operators)) :
    levelParser setting r level = (do
      match ← peek with
      | none => levelParser setting r (level + 1)
      | some ⟨token, _⟩ =>
        match operators.lookup token.kind with
        | some kind => unaryFrom setting (nestedLevel setting r) level kind token
        | none => levelParser setting r (level + 1)) := by
  obtain ⟨hi, hget⟩ := List.getElem?_eq_some_iff.1 hl
  rw [levelParser, List.drop_eq_getElem_cons hi, hget]
  rfl

/-- Behind the last level, an expression is a chain. -/
theorem levelParser_end {level : Nat} (hl : setting.grammar.levels.length ≤ level) :
    levelParser setting r level = chain setting (nestedLevel setting r 0) := by
  rw [levelParser, List.drop_eq_nil_of_le hl]
  rfl

/-- The parser of a level reads expressions of that level. -/
theorem levelParser_reads (r level : Nat) :
    Reads setting r .expression level (levelParser setting r level) :=
  climb_reads (fun j => nestedLevel_reads r j) rfl

/-- What is shown of tokens that are a way of writing an expression. -/
structure ExpressionAccepted (setting : Setting) (r : Nat) (ts : List Token) (n : Node) : Prop where
  chained : n.Closed → ∀ rest, Reaches (chain setting (nestedLevel setting r 0))
    (link setting (nestedLevel setting r 0)) (ts.map Token.piece ++ rest) (IsLike n) rest
  operated : ∀ kind operators, n.openBinary? = some kind →
    Grammar.standard.levels[kind.row]? = some (.binary kind operators) → ∀ rest,
    Grammar.standard.Stops (kind.row + 1) (Piece.first? rest) →
    (n.endsInUnary = true → Grammar.standard.Stops unaryRow (Piece.first? rest)) →
    Reaches (levelParser setting r kind.row) (rowStep setting r kind.row kind operators)
      (ts.map Token.piece ++ rest) (IsLike n) rest
  leveled : ∀ level, level ≤ 8 → n.Fits level → ∀ rest,
    Grammar.standard.Stops level (Piece.first? rest) →
    Accepts (levelParser setting r level) (ts.map Token.piece ++ rest) (IsLike n) rest

/-- What is shown of tokens that are a way of writing a nested expression. -/
def NestedAccepted (setting : Setting) (r : Nat) (ts : List Token) (n : Node) : Prop :=
  ∀ level, level ≤ 8 → n.Fits level → ∀ rest,
    Grammar.standard.Stops level (Piece.first? rest) →
    Accepts (nestedLevel setting r level) (ts.map Token.piece ++ rest) (IsLike n) rest

/-- Every nested expression is one of the loosest level. -/
theorem NestedAccepted.loosest {ts : List Token} {n : Node} {rest : List Piece}
    (h : NestedAccepted setting r ts n) (hstops : Grammar.standard.Stops 0 (Piece.first? rest)) :
    Accepts (nestedLevel setting r 0) (ts.map Token.piece ++ rest) (IsLike n) rest :=
  h 0 (Nat.zero_le _) n.fits_zero rest hstops

variable (hs : setting.grammar = .standard)

/-! ## From a level to a looser one -/

section Levels

variable {s rest : List Piece} {R : Node → Prop} {level : Nat}

/-- Where a row has nothing to add, its loop ends. -/
theorem rowStep_stops {grammar : Grammar} {kind : BinaryKind} {operators : List TokenKind}
    (hl : grammar.levels[level]? = some (.binary kind operators))
    (hstops : grammar.Stops level (Piece.first? rest)) {left : Node} (hr : R left) :
    Accepts (rowStep setting r level kind operators left) rest
      (fun x => ∃ n, x = .done n ∧ R n) rest := by
  refine accepts_peek.bind fun next hnext => ?_
  cases next with
  | none => exact .pure ⟨left, rfl, hr⟩
  -- An operator of the row would go on with the expression
  | some lexeme =>
    have hfirst : Piece.first? rest = some lexeme.token.kind := first?_of_peek hnext
    have hnot : operators.contains lexeme.token.kind = false := by
      rw [Bool.eq_false_iff]
      intro hmem
      have hcont := Grammar.continues_of_binds hl hmem (Nat.le_refl level)
      rw [hstops lexeme.token.kind hfirst] at hcont
      cases hcont
    simp only [hnot, Bool.false_eq_true, if_false]
    exact .pure ⟨left, rfl, hr⟩

/-- A row begins with an operand of the next tighter level. -/
theorem row_reaches {kind : BinaryKind} {operators : List TokenKind}
    (hl : setting.grammar.levels[level]? = some (.binary kind operators))
    (h : Accepts (levelParser setting r (level + 1)) s R rest) :
    Reaches (levelParser setting r level) (rowStep setting r level kind operators) s R rest := by
  rw [levelParser_binary hl]
  refine .start (fun left c left' c' hstep => ?_) h
  exact binaryStep_length_lt (nestedLevel_reads r) (levelParser_reads r (level + 1)) hl hstep

include hs

/-- What a level accepts, the next looser one accepts too, unless it begins with a unary operator
    of that level. -/
theorem accepts_looser {level : Nat} (hlt : level < 8)
    (h : Accepts (levelParser setting r (level + 1)) s R rest)
    (hstops : Grammar.standard.Stops level (Piece.first? rest))
    (hunary : level = unaryRow → ∀ kind ∈ Piece.first? s,
      Grammar.unaryOperators.lookup kind = none) :
    Accepts (levelParser setting r level) s R rest := by
  obtain ⟨row, hl⟩ : ∃ row, Grammar.standard.levels[level]? = some row :=
    ⟨_, List.getElem?_eq_getElem hlt⟩
  cases row with
  | binary kind operators =>
    exact (row_reaches (hs ▸ hl) h).stop fun left hr => rowStep_stops hl hstops hr
  -- There is one row of unary operators, and none of them comes first here
  | unary operators =>
    obtain rfl := Grammar.eq_unaryRow_of_getElem? hl
    obtain rfl := Level.unary.inj (Option.some.inj (Grammar.getElem?_unaryRow.symm.trans hl))
    rw [levelParser_unary (hs ▸ hl)]
    refine accepts_peek.bind fun next hnext => ?_
    cases next with
    | none => exact h
    | some lexeme =>
      have hfirst : Piece.first? s = some lexeme.token.kind := first?_of_peek hnext
      simp only [hunary rfl _ hfirst]
      exact h

/-- What a level accepts, all looser ones accept, unless it begins with a unary operator on the way.
    -/
theorem accepts_looser_of_le {i j : Nat} (hij : i ≤ j) (hj : j ≤ 8)
    (h : Accepts (levelParser setting r j) s R rest)
    (hstops : Grammar.standard.Stops i (Piece.first? rest))
    (hunary : i ≤ unaryRow → unaryRow < j → ∀ kind ∈ Piece.first? s,
      Grammar.unaryOperators.lookup kind = none) :
    Accepts (levelParser setting r i) s R rest := by
  -- One row at a time, from the tighter level outwards
  induction j, hij using Nat.le_induction with
  | base => exact h
  | succ j hij ih =>
    refine ih (by omega) (accepts_looser hs (by omega) h (hstops.mono hij) ?_) ?_
    · rintro rfl
      exact hunary hij (Nat.lt_succ_self _)
    · exact fun hi hj => hunary hi (by omega)

end Levels

/-! ## Atoms -/

/-- Before a token that goes on with no expression, every expression stops. -/
theorem stops_of_first {kind : TokenKind} {rest : List Piece}
    (hrest : Piece.first? rest = some kind) (hk : Grammar.standard.continues 0 kind = false) :
    Grammar.standard.Stops 0 (Piece.first? rest) := by
  rw [hrest]
  rintro _ ⟨⟩
  exact hk

/-- A list of nested expressions is read. -/
theorem accepts_expressions {close : TokenKind} {items : List (List Token × Node)}
    {body : List Token} {x : Token} {s : List Piece} (hsep : Separated (items.map Prod.fst) body)
    (hw : ∀ i ∈ items, Written .standard note r .nested i.1 i.2)
    (hi : ∀ i ∈ items, NestedAccepted setting r i.1 i.2) (hx : x.kind = close)
    (hclose : close ∈ [TokenKind.rightParen, .rightBracket]) :
    Accepts (list setting close (nestedLevel setting r 0)) (body.map Token.piece ++ x.piece :: s)
      (fun as => as.map Node.erase = (items.map Prod.snd).map Node.erase) s := by
  refine accepts_list Node.erase (fun c n c' h => ?_) hsep (fun i hmem => ?_)
    (fun i hmem rest hrest => ?_) hx ?_
  -- An item never gives tokens back, so the rounds of the list come to an end
  · obtain ⟨ts, ht, -⟩ := nestedLevel_reads r 0 c n c' h
    exact ⟨ts, ht⟩
  · refine (hw i hmem).first?_ne ?_
    simp only [List.mem_cons, List.not_mem_nil, or_false] at hclose
    obtain rfl | rfl := hclose <;> rfl
  · refine (hi i hmem).loosest ?_
    obtain hrest | hrest := hrest
    · exact stops_of_first hrest rfl
    · refine stops_of_first hrest ?_
      simp only [List.mem_cons, List.not_mem_nil, or_false] at hclose
      obtain rfl | rfl := hclose <;> rfl
  · rintro rfl
    simp at hclose

section Atoms

variable {t : Token} {s : List Piece} {p : Position} {b : Nat} {x : String}

/-- A token that is taken and makes up a node. -/
private theorem leaf_accepts {token : Token} (hv : token.value = t.value)
    (f : String → Shape Node) :
    Accepts (do take token; finish setting (f token.value) token.position) (t.piece :: s)
      (IsLike ⟨f t.value, p, b, x, false, false, none⟩) s := by
  refine accepts_take.bind fun _ _ => accepts_finish.mono ?_
  rintro _ ⟨p', b', x', rfl⟩
  simp [IsLike, hv]

section Leaves

variable {expression : Parse Node}

/-- A number is an atom. -/
theorem number_accepts (hk : t.kind = .number) : Accepts (atom setting expression)
    ([t].map Token.piece ++ s) (IsLike ⟨.number t.value, p, b, x, false, false, none⟩) s := by
  refine accepts_peek_bind fun token broken hkind hvalue => ?_
  simp only [hkind, hk]
  exact leaf_accepts hvalue .number

/-- A string is an atom. -/
theorem string_accepts (hk : t.kind = .string) : Accepts (atom setting expression)
    ([t].map Token.piece ++ s) (IsLike ⟨.string t.value, p, b, x, false, false, none⟩) s := by
  refine accepts_peek_bind fun token broken hkind hvalue => ?_
  simp only [hkind, hk]
  exact leaf_accepts hvalue .string

/-- A boolean is an atom. -/
theorem boolean_accepts (hk : t.kind = .boolean) : Accepts (atom setting expression)
    ([t].map Token.piece ++ s)
    (IsLike ⟨.boolean (t.value == "true"), p, b, x, false, false, none⟩) s := by
  refine accepts_peek_bind fun token broken hkind hvalue => ?_
  simp only [hkind, hk]
  exact leaf_accepts hvalue fun value => .boolean (value == "true")

/-- A name is an atom. -/
theorem name_accepts (hk : t.kind = .name) : Accepts (atom setting expression)
    ([t].map Token.piece ++ s) (IsLike ⟨.name t.value, p, b, x, false, false, none⟩) s := by
  refine accepts_peek_bind fun token broken hkind hvalue => ?_
  simp only [hkind, hk]
  exact leaf_accepts hvalue .name

end Leaves

/-- An entry of an object, before a comma or the closing brace. -/
def EntryAccepted (setting : Setting) (r : Nat) (ts : List Token) (n : Node) : Prop :=
  ∀ rest, Piece.first? rest = some .comma ∨ Piece.first? rest = some .rightBrace →
    Accepts (objectEntry setting (nestedLevel setting r 0)) (ts.map Token.piece ++ rest)
      (IsLike n) rest

/-- An entry with a key, a colon and a value is read. -/
theorem entry_accepts {c : Token} {ts : List Token} {key value : Node}
    (hkey : KeyWritten note t key) (hc : c.kind = .colon) (hv : NestedAccepted setting r ts value) :
    EntryAccepted setting r (t :: c :: ts) ⟨.entry key value, p, b, x, false, false, none⟩ := by
  intro rest hrest
  have hstops : Grammar.standard.Stops 0 (Piece.first? rest) := by
    obtain hrest | hrest := hrest
    all_goals exact stops_of_first hrest rfl
  -- What follows the key does not depend on which kind of key it is
  have hafter : ∀ key', IsLike key key' → Accepts (do
      if ← eats .colon then
        let value ← nestedLevel setting r 0
        finish setting (.entry key' value) key'.position
      else if key'.name?.isSome then
        let value ← pure key'
        finish setting (.entry key' value) key'.position
      else
        let value ← failHere setting
        finish setting (.entry key' value) key'.position : Parse Node)
      (c.piece :: (ts.map Token.piece ++ rest))
      (IsLike ⟨.entry key value, p, b, x, false, false, none⟩) rest := by
    intro key' hkey'
    refine (accepts_eats hc).bind ?_
    rintro _ rfl
    refine (hv.loosest hstops).bind fun value' hvalue' => accepts_finish.mono ?_
    rintro _ ⟨p', b', x', rfl⟩
    simp_all [IsLike, Shape.map]
  refine accepts_peek_bind fun token broken hkind hvalue => ?_
  cases hkey with
  | name hk | string hk =>
    simp only [hkind, hk]
    refine accepts_take.bind fun _ _ => accepts_finish.bind ?_
    rintro _ ⟨p', b', x', rfl⟩
    exact hafter _ (by simp [IsLike, Shape.map, hvalue])

/-- A name alone is read as an entry. -/
theorem shorthand_accepts {p' p'' : Position} {b' b'' : Nat} {x' x'' : String}
    (hk : t.kind = .name) :
    EntryAccepted setting r [t]
      ⟨.entry ⟨.name t.value, p', b', x', false, false, none⟩
        ⟨.name t.value, p'', b'', x'', false, false, none⟩, p, b, x, false, false, none⟩ := by
  intro rest hrest
  refine accepts_peek_bind fun token broken hkind hvalue => ?_
  simp only [hkind, hk]
  refine accepts_take.bind fun _ _ => accepts_finish.bind ?_
  rintro _ ⟨p', b', x', rfl⟩
  -- There is no colon, so the name stands for its value too
  have hcolon : Piece.first? rest ≠ some .colon := by
    obtain hrest | hrest := hrest <;> simp [hrest]
  refine (accepts_eats_false hcolon).bind ?_
  rintro _ rfl
  refine (Accepts.pure rfl).bind ?_
  rintro _ rfl
  refine accepts_finish.mono ?_
  rintro _ ⟨p', b', x', rfl⟩
  simp [IsLike, Shape.map, hvalue]

/-- An array is read if its items are. -/
theorem array_accepts {o c : Token} {items : List (List Token × Node)} {body : List Token}
    (ho : o.kind = .leftBracket) (hsep : Separated (items.map Prod.fst) body)
    (hc : c.kind = .rightBracket) (hw : ∀ i ∈ items, Written .standard note r .nested i.1 i.2)
    (hi : ∀ i ∈ items, NestedAccepted setting r i.1 i.2) :
    Accepts (atom setting (nestedLevel setting r 0))
      ((o :: (body ++ [c])).map Token.piece ++ s)
      (IsLike ⟨.array (items.map Prod.snd), p, b, x, false, false, none⟩) s := by
  simp only [List.map_cons, List.map_append, List.cons_append, List.append_assoc, List.map_nil,
    List.nil_append]
  refine accepts_peek_bind fun token broken hkind hvalue => ?_
  simp only [hkind, ho]
  refine accepts_take.bind fun _ _ => (accepts_expressions hsep hw hi hc (by simp)).bind ?_
  refine fun nodes hnodes => accepts_finish.mono ?_
  rintro _ ⟨p', b', x', rfl⟩
  simp [IsLike, Shape.map, hnodes]

/-- An object is read if its entries are. -/
theorem object_accepts {o c : Token} {entries : List (List Token × Node)} {body : List Token}
    (ho : o.kind = .leftBrace) (hsep : Separated (entries.map Prod.fst) body)
    (hc : c.kind = .rightBrace) (hw : ∀ i ∈ entries, Written .standard note r .entry i.1 i.2)
    (hi : ∀ i ∈ entries, EntryAccepted setting r i.1 i.2) :
    Accepts (atom setting (nestedLevel setting r 0))
      ((o :: (body ++ [c])).map Token.piece ++ s)
      (IsLike ⟨.object (entries.map Prod.snd), p, b, x, false, false, none⟩) s := by
  simp only [List.map_cons, List.map_append, List.cons_append, List.append_assoc, List.map_nil,
    List.nil_append]
  refine accepts_peek_bind fun token broken hkind hvalue => ?_
  simp only [hkind, ho]
  refine accepts_take.bind fun _ _ => (accepts_list Node.erase (fun c n c' h => ?_) hsep
    (fun i hmem => ?_) (fun i hmem => hi i hmem) hc (by decide)).bind ?_
  · obtain ⟨ts, ht, -⟩ := objectEntry_reads (nestedLevel_reads r 0) h
    exact ⟨ts, ht⟩
  · exact (hw i hmem).first?_ne rfl
  · refine fun nodes hnodes => accepts_finish.mono ?_
    rintro _ ⟨p', b', x', rfl⟩
    simp [IsLike, Shape.map, hnodes]

/-- An expression in parentheses is read if the one inside is. -/
theorem group_accepts {o c : Token} {ts : List Token} {n : Node} (ho : o.kind = .leftParen)
    (hn : NestedAccepted setting r ts n) (hc : c.kind = .rightParen) :
    Accepts (atom setting (nestedLevel setting r 0)) ((o :: (ts ++ [c])).map Token.piece ++ s)
      (IsLike ⟨n.shape, p, b, x, true, n.bracket, n.receiver⟩) s := by
  simp only [List.map_cons, List.map_append, List.cons_append, List.append_assoc, List.map_nil,
    List.nil_append]
  refine accepts_peek_bind fun token broken hkind hvalue => ?_
  simp only [hkind, ho]
  -- The closing parenthesis ends the expression, whatever its level is
  have hstops : Grammar.standard.Stops 0 (Piece.first? (c.piece :: s)) :=
    stops_of_first (congrArg some hc) rfl
  refine accepts_take.bind fun _ _ =>
    (hn.loosest hstops).bind fun inner hinner => ?_
  refine (accepts_expect hc).bind fun _ _ => accepts_span.mono ?_
  rintro _ ⟨p', b', x', rfl⟩
  obtain ⟨shape, p, b, x, parenthesized, bracket, receiver⟩ := n
  obtain ⟨shape', p, b, x, parenthesized', bracket', receiver'⟩ := inner
  simp_all [IsLike]

end Atoms

/-! ## Chains -/

section Chains

variable {s rest : List Piece} {p : Position} {b : Nat} {x : String} {left : Node}

/-- A link is read, and goes on from what was read before it. -/
def LinkAccepted (setting : Setting) (r : Nat) (receiver : Node) (ts : List Token) (n : Node) :
    Prop :=
  ∀ left rest, IsLike receiver left →
    Accepts (link setting (nestedLevel setting r 0) left) (ts.map Token.piece ++ rest)
      (fun step => ∃ n', step = .yield n' ∧ IsLike n n') rest

/-- A point and a name go on with a chain. -/
theorem member_accepts {d t : Token} {receiver : Node} (hd : d.kind = .dot) (hk : t.kind = .name) :
    LinkAccepted setting r receiver [d, t]
      ⟨.name t.value, p, b, x, false, false, some receiver⟩ := by
  intro left rest hleft
  refine accepts_peek_bind fun token broken hkind hvalue => ?_
  simp only [hkind, hd]
  refine accepts_noteContinuation.bind fun _ _ => accepts_take.bind fun _ _ => ?_
  refine (accepts_expect hk).bind fun name hname => accepts_finish.bind ?_
  rintro _ ⟨p', b', x', rfl⟩
  refine .pure ⟨_, rfl, ?_⟩
  simp_all [IsLike, Node.chainedFrom, Shape.map]

/-- A key in brackets goes on with a chain. -/
theorem key_accepts {o c : Token} {tk : List Token} {object key : Node}
    (ho : o.kind = .leftBracket) (hkey : NestedAccepted setting r tk key)
    (hc : c.kind = .rightBracket) :
    LinkAccepted setting r object (o :: (tk ++ [c]))
      ⟨(key.bracketed object).shape, p, b, x, (key.bracketed object).parenthesized, true,
        some object⟩ := by
  intro left rest hleft
  simp only [List.map_cons, List.map_append, List.cons_append, List.append_assoc, List.map_nil,
    List.nil_append]
  refine accepts_peek_bind fun token broken hkind hvalue => ?_
  simp only [hkind, ho]
  -- The closing bracket ends the key
  have hstops : Grammar.standard.Stops 0 (Piece.first? (c.piece :: rest)) :=
    stops_of_first (congrArg some hc) rfl
  refine accepts_noteContinuation.bind fun _ _ => accepts_take.bind fun _ _ => ?_
  refine (hkey.loosest hstops).bind fun key' hkey' => ?_
  refine (accepts_expect hc).bind fun _ _ => accepts_span.bind ?_
  rintro _ ⟨p', b', x', rfl⟩
  refine .pure ⟨_, rfl, ?_⟩
  -- The brackets of the key depend on nothing that erasing forgets
  have hlike : (key'.bracketed left).erase = (key.bracketed object).erase := by
    rw [Node.erase_bracketed, Node.erase_bracketed, hkey', hleft]
  rw [Node.erase_eq, Node.erase_eq] at hlike
  simp only [Node.mk.injEq] at hlike
  simp only [IsLike, Node.erase_mk, Node.mk.injEq, true_and]
  exact ⟨hlike.1, hlike.2.2.2.2.1, hlike.2.2.2.2.2⟩

/-- Arguments in parentheses go on with a chain. -/
theorem call_accepts {o c : Token} {args : List (List Token × Node)} {body : List Token}
    {receiver : Node} (ho : o.kind = .leftParen) (hsep : Separated (args.map Prod.fst) body)
    (hc : c.kind = .rightParen) (hw : ∀ i ∈ args, Written .standard note r .nested i.1 i.2)
    (hi : ∀ i ∈ args, NestedAccepted setting r i.1 i.2) :
    LinkAccepted setting r receiver (o :: (body ++ [c]))
      ⟨.call (args.map Prod.snd), p, b, x, false, false, some receiver⟩ := by
  intro left rest hleft
  simp only [List.map_cons, List.map_append, List.cons_append, List.append_assoc, List.map_nil,
    List.nil_append]
  refine accepts_peek_bind fun token broken hkind hvalue => ?_
  simp only [hkind, ho]
  refine accepts_noteContinuation.bind fun _ _ => accepts_take.bind fun _ _ => ?_
  refine (accepts_expressions hsep hw hi hc (by simp)).bind fun nodes hnodes => ?_
  refine accepts_finish.bind ?_
  rintro _ ⟨p', b', x', rfl⟩
  refine .pure ⟨_, rfl, ?_⟩
  simp_all [IsLike, Node.chainedFrom, Shape.map]

/-- A chain begins with an atom. -/
theorem chain_reaches {R : Node → Prop}
    (h : Accepts (atom setting (nestedLevel setting r 0)) s R rest) :
    Reaches (chain setting (nestedLevel setting r 0)) (link setting (nestedLevel setting r 0)) s R
      rest :=
  .start (fun _ _ _ _ hstep => link_length_lt (nestedLevel_reads r 0) hstep) h

/-- Where an expression stops, its chain ends. -/
theorem link_stops {grammar : Grammar} {level : Nat} {expression : Parse Node} {R : Node → Prop}
    (hstops : grammar.Stops level (Piece.first? rest)) (hr : R left) :
    Accepts (link setting expression left) rest (fun step => ∃ n, step = .done n ∧ R n) rest := by
  have hend : Accepts (endChain left) rest (fun step => ∃ n, step = .done n ∧ R n) rest :=
    accepts_expecting.bind fun _ _ => accepts_expecting.bind fun _ _ =>
      accepts_expecting.bind fun _ _ => .pure ⟨left, rfl, hr⟩
  refine accepts_peek.bind fun next hnext => ?_
  cases next with
  | none => exact hend
  | some lexeme =>
    have hfirst : Piece.first? rest = some lexeme.token.kind := first?_of_peek hnext
    have hcont := hstops _ hfirst
    dsimp only
    split
    -- A dot, a bracket and a parenthesis would have gone on with the chain
    · next hk => rw [hk] at hcont; cases hcont
    · next hk => rw [hk] at hcont; cases hcont
    · next hk => rw [hk] at hcont; cases hcont
    · exact hend

variable (hs : setting.grammar = .standard)

include hs

/-- A chain that is reached is read, at every level. -/
theorem ExpressionAccepted.of_chain {ts : List Token} {n : Node}
    (hw : Written .standard note r .expression ts n) (hg : n.Grouped) (hclosed : n.Closed)
    (hreach : ∀ rest, Reaches (chain setting (nestedLevel setting r 0))
      (link setting (nestedLevel setting r 0)) (ts.map Token.piece ++ rest) (IsLike n) rest) :
    ExpressionAccepted setting r ts n where
  chained _ := hreach
  operated kind operators hk := by
    rw [hclosed.1] at hk
    cases hk
  leveled level hle hf rest hstops := by
    have hchain :
        Accepts (levelParser setting r 8) (ts.map Token.piece ++ rest) (IsLike n) rest := by
      rw [levelParser_end (by rw [hs]; decide)]
      exact (hreach rest).stop fun left hleft => link_stops (hstops.mono hle) hleft
    -- A closed expression does not begin with a unary operator
    refine accepts_looser_of_le hs hle (Nat.le_refl 8) hchain hstops fun _ _ kind hkind => ?_
    obtain ⟨t, us, rfl, ht⟩ := hw.starts_tight hg (hclosed.fits _)
    obtain rfl : t.kind = kind := by simpa using hkind
    exact ht

/-- An atom is a chain without links. -/
theorem ExpressionAccepted.of_atom {ts : List Token} {n : Node}
    (hw : Written .standard note r .expression ts n) (hg : n.Grouped) (hclosed : n.Closed)
    (hatom : ∀ rest, Accepts (atom setting (nestedLevel setting r 0))
      (ts.map Token.piece ++ rest) (IsLike n) rest) :
    ExpressionAccepted setting r ts n :=
  .of_chain hs hw hg hclosed fun rest => chain_reaches (hatom rest)

/-- A link goes on with a chain. -/
theorem ExpressionAccepted.of_link {ts us : List Token} {receiver n : Node}
    (hw : Written .standard note r .expression (ts ++ us) n) (hg : n.Grouped) (hclosed : n.Closed)
    (hr : n.receiver = some receiver) (hreceiver : ExpressionAccepted setting r ts receiver)
    (hlink : LinkAccepted setting r receiver us n) :
    ExpressionAccepted setting r (ts ++ us) n := by
  refine .of_chain hs hw hg hclosed fun rest => ?_
  rw [List.map_append, List.append_assoc]
  refine (hreceiver.chained ((Node.grouped_iff.1 hg).1.2 receiver hr) _).next fun left hleft => ?_
  exact hlink left rest hleft

end Chains

/-! ## Operations -/

section Operations

variable {p : Position} {b : Nat} {x : String}

/-- Where a unary operator comes next, a right operand of the tightest row is an expression of the
    row of unary operations. -/
theorem rightOperand_unary {nested : Nat → Parse Node} {tighter : Parse Node} {c : Cursor}
    {lexeme : Lexeme} {kind : UnaryKind} (hs : setting.grammar = .standard)
    (hhead : c.rest.head? = some lexeme)
    (hk : Grammar.unaryOperators.lookup lexeme.token.kind = some kind) :
    rightOperand setting nested (unaryRow + 1) tighter c =
      climb setting nested unaryRow (setting.grammar.levels.drop unaryRow) c := by
  have hleft : rightOperand setting nested (unaryRow + 1) tighter c =
      unaryFrom setting nested unaryRow kind lexeme.token c := by
    have hlooser := Grammar.looserUnary?_eq_of_lookup hk
    rw [← hs] at hlooser
    have hrow : unaryRow + 1 < setting.grammar.levels.length := by
      rw [hs]
      decide
    rw [rightOperand, require_bind, Cursor.require_of hrow, peek_bind, hhead]
    simp only [hlooser]
  have hright : climb setting nested unaryRow (setting.grammar.levels.drop unaryRow) c =
      unaryFrom setting nested unaryRow kind lexeme.token c := by
    have hlevels : Grammar.standard.levels.drop unaryRow =
        .unary Grammar.unaryOperators :: Grammar.standard.levels.drop (unaryRow + 1) := rfl
    rw [hs, hlevels, climb, peek_bind, hhead]
    simp only [hk]
  rw [hleft, hright]

/-- The node of an operator is made from its token. -/
theorem operatorNode_accepts {t : Token} {op : Operator} {s : List Piece}
    (ho : Operator.ofKind? t.kind = some op) :
    Accepts (operatorNode t) s (IsLike ⟨.operator op, p, b, x, false, false, none⟩) s := by
  unfold operatorNode
  rw [ho]
  exact .pure (by simp [IsLike, Node.ofShape, Shape.map])

/-- Only operations of the tightest row end in a unary operation. -/
private theorem kind_of_endsInUnary {n : Node} {kind : BinaryKind}
    (hopen : n.openBinary? = some kind) (hends : n.endsInUnary = true) : kind = .power := by
  unfold Node.endsInUnary at hends
  split at hends
  · next heq =>
    simp only [Node.openBinary?, heq] at hopen
    split at hopen
    · exact (Option.some.inj hopen).symm
    · cases hopen
  · cases hends

/-- One more operator and its right operand are read by the loop of a row, whatever the table. -/
theorem rowStep_yields {level : Nat} {kind : BinaryKind} {operators : List TokenKind} {t : Token}
    {op : Operator} {left : Node} {s rest : List Piece} {R : Node → Prop}
    (hmem : operators.contains t.kind = true) (ho : Operator.ofKind? t.kind = some op)
    (hright : Accepts (rightOperand setting (nestedLevel setting r) level
      (levelParser setting r (level + 1))) s R rest) :
    Accepts (rowStep setting r level kind operators left) (t.piece :: s)
      (fun step => ∃ n, step = .yield n ∧ ∃ right p b x p' b' x', R right ∧
        n = ⟨.binary kind left ⟨.operator op, p', b', x', false, false, none⟩ right, p, b, x,
          false, false, none⟩) rest := by
  refine accepts_peek_bind fun token broken hkind _ => ?_
  have hmem' : operators.contains token.kind = true := hkind ▸ hmem
  simp only [hmem', if_true]
  refine accepts_noteContinuation.bind fun _ _ => accepts_take.bind fun _ _ => ?_
  unfold operatorNode
  rw [hkind, ho]
  refine (Accepts.pure rfl).bind fun op' hop' => hright.bind fun right hr => accepts_finish.bind ?_
  rintro _ ⟨p, b, x, rfl⟩
  subst hop'
  exact .pure ⟨_, rfl, right, p, b, x, _, _, _, hr, rfl⟩

/-- One more operator and its right operand are read by the loop of the row. -/
theorem rowStep_accepts {tr : List Token} {t : Token} {left left' right : Node} {kind : BinaryKind}
    {operators : List TokenKind} {op : Operator} {rest : List Piece} {p' : Position} {b' : Nat}
    {x' : String}
    (hl : Grammar.standard.levels[kind.row]? = some (.binary kind operators))
    (hb : Grammar.standard.Binds kind t.kind) (ho : Operator.ofKind? t.kind = some op)
    (hleft : IsLike left left')
    (hright : Accepts (rightOperand setting (nestedLevel setting r) kind.row
      (levelParser setting r (kind.row + 1))) (tr.map Token.piece ++ rest) (IsLike right) rest) :
    Accepts (rowStep setting r kind.row kind operators left')
      ((t :: tr).map Token.piece ++ rest)
      (fun step => ∃ n, step = .yield n ∧ IsLike ⟨.binary kind left
        ⟨.operator op, p', b', x', false, false, none⟩ right, p, b, x, false, false, none⟩ n)
      rest := by
  refine (rowStep_yields (Grammar.mem_row_of_binds hb hl) ho hright).mono ?_
  rintro _ ⟨n, rfl, right', p, b, x, p'', b'', x'', hright', rfl⟩
  refine ⟨_, rfl, ?_⟩
  simp_all [IsLike, Shape.map]

variable (hs : setting.grammar = .standard)

include hs

/-- A unary operation is read if its operand is. -/
theorem unary_accepts {t : Token} {ts : List Token} {value : Node} {kind : UnaryKind}
    (hb : Grammar.standard.Begins kind t.kind)
    (hg : Node.Grouped ⟨.unary kind value, p, b, x, false, false, none⟩)
    (hv : NestedAccepted setting r ts value) :
    ExpressionAccepted setting r (t :: ts) ⟨.unary kind value, p, b, x, false, false, none⟩ where
  chained hclosed := by cases hclosed.2
  operated kind operators hk := by cases hk
  leveled level hle hf rest hstops := by
    have hlevel : level ≤ unaryRow := hf.2 rfl
    -- The operand is read in the same row, so operators may be repeated
    have hfits : value.Fits unaryRow := by
      refine ⟨fun k hk => ?_, fun _ => Nat.le_refl _⟩
      rw [(Node.grouped_iff.1 hg).1.1 k hk]
      decide
    refine accepts_looser_of_le hs hlevel (by decide) ?_ hstops
      fun _ h => absurd h (Nat.lt_irrefl _)
    rw [levelParser_unary (hs ▸ Grammar.getElem?_unaryRow)]
    refine accepts_peek_bind fun token broken hkind _ => ?_
    have hk : Grammar.unaryOperators.lookup token.kind = some kind :=
      hkind ▸ Grammar.begins_iff.1 hb
    simp only [hk]
    refine accepts_take.bind fun _ _ => ?_
    refine (hv unaryRow (by decide) hfits rest (hstops.mono hlevel)).bind fun value' hvalue => ?_
    refine accepts_finish.mono ?_
    rintro _ ⟨p', b', x', rfl⟩
    simp_all [IsLike, Shape.map]

/-- The right operand of an operator is read. -/
theorem rightOperand_accepts {tr : List Token} {right : Node} {kind : BinaryKind}
    {rest : List Piece} (hw : Written .standard note r .expression tr right)
    (hg : right.Grouped) (hright : ExpressionAccepted setting r tr right)
    (hrow : ∀ k, right.openBinary? = some k → kind.row < k.row)
    (hstops : Grammar.standard.Stops (kind.row + 1) (Piece.first? rest))
    (hunary : kind = .power → right.isOpenUnary = true →
      Grammar.standard.Stops unaryRow (Piece.first? rest)) :
    Accepts (rightOperand setting (nestedLevel setting r) kind.row
      (levelParser setting r (kind.row + 1))) (tr.map Token.piece ++ rest) (IsLike right) rest := by
  obtain ⟨hlt, hne⟩ := Grammar.row_lt kind
  by_cases hjump : kind = .power ∧ right.isOpenUnary = true
  · obtain ⟨rfl, hopen⟩ := hjump
    -- The next token is a unary operator: the operand is one of the looser row
    have hfits : right.Fits unaryRow := by
      refine ⟨fun k hk => ?_, fun _ => Nat.le_refl _⟩
      have := hrow k hk
      simp only [BinaryKind.row_power] at this
      simp only [unaryRow_eq]
      omega
    have haccepts := hright.leveled unaryRow (by decide) hfits rest (hunary rfl hopen)
    intro c hc
    obtain ⟨n, c', h, hn, hc'⟩ := haccepts c hc
    refine ⟨n, c', ?_, hn, hc'⟩
    obtain ⟨t, us, k, rfl, ht⟩ := hw.starts_unary hopen
    obtain ⟨lexeme, rest, hrest, hpiece, -⟩ := List.map_eq_cons_iff.1 hc
    have hk : lexeme.token.kind = t.kind := congrArg Piece.kind hpiece
    rw [← h]
    exact rightOperand_unary hs (by rw [hrest]; rfl) (hk ▸ ht)
  -- Otherwise the operand is one of the next tighter row
  · have hfits : right.Fits (kind.row + 1) := by
      refine ⟨hrow, fun hopen => ?_⟩
      have hkind : kind ≠ .power := fun h => hjump ⟨h, hopen⟩
      revert hkind
      cases kind <;> decide
    have haccepts := hright.leveled (kind.row + 1) hlt hfits rest hstops
    obtain ⟨t, us, rfl, -⟩ := hw.starts
    refine accepts_require.bind fun _ _ => accepts_peek_bind fun token broken hkind _ => ?_
    have hnone : setting.grammar.looserUnary? kind.row token.kind = none := by
      rw [hs]
      refine Grammar.looserUnary?_eq_none ?_
      by_cases hle : kind.row ≤ unaryRow
      · exact .inl hle
      · obtain ⟨t', us', hts, ht⟩ := hw.starts_tight hg (hfits.mono (by omega))
        obtain ⟨rfl, rfl⟩ := List.cons.inj hts
        exact .inr (hkind ▸ ht)
    simp only [hnone]
    exact haccepts

/-- The loop of a row gets to the end of the left operand of an operator. -/
theorem leftOperand_reaches {tl : List Token} {left : Node} {kind : BinaryKind}
    {operators : List TokenKind} {rest : List Piece}
    (hrow : Grammar.standard.levels[kind.row]? = some (.binary kind operators))
    (hleft : ExpressionAccepted setting r tl left)
    (hle : ∀ k, left.openBinary? = some k → kind.row ≤ k.row)
    (hpower : kind = .power → left.isOpenUnary = false ∧ left.endsInUnary = false)
    (hstops : Grammar.standard.Stops (kind.row + 1) (Piece.first? rest)) :
    Reaches (levelParser setting r kind.row) (rowStep setting r kind.row kind operators)
      (tl.map Token.piece ++ rest) (IsLike left) rest := by
  by_cases hsame : left.openBinary? = some kind
  -- An operation of the same row is what the loop itself has read so far
  · refine hleft.operated kind operators hsame hrow _ hstops fun hends => ?_
    rw [(hpower (kind_of_endsInUnary hsame hends)).2] at hends
    cases hends
  -- Anything else is tighter, and the loop begins with it
  · obtain ⟨hlt, -⟩ := Grammar.row_lt kind
    refine row_reaches (hs ▸ hrow) (hleft.leveled (kind.row + 1) hlt ⟨fun k hk => ?_, fun hu => ?_⟩
      _ hstops)
    · have hle := hle k hk
      have : kind.row ≠ k.row := fun h => hsame (Grammar.row_injective h ▸ hk)
      omega
    · have hkind : kind ≠ .power := fun h => by simp [(hpower h).1] at hu
      revert hkind
      cases kind <;> decide

/-- A binary operation is read if its operands are. -/
theorem binary_accepts {tl tr : List Token} {left right : Node} {t : Token} {kind : BinaryKind}
    {op : Operator} {p' : Position} {b' : Nat} {x' : String} {n : Node}
    (hn : n = ⟨.binary kind left ⟨.operator op, p', b', x', false, false, none⟩ right, p, b, x,
      false, false, none⟩)
    (hw : Written .standard note r .expression (tl ++ t :: tr) n)
    (hwr : Written .standard note r .expression tr right) (hg : n.Grouped)
    (hb : Grammar.standard.Binds kind t.kind) (ho : Operator.ofKind? t.kind = some op)
    (hleft : ExpressionAccepted setting r tl left)
    (hright : ExpressionAccepted setting r tr right) :
    ExpressionAccepted setting r (tl ++ t :: tr) n := by
  have hopen : n.openBinary? = some kind := by rw [hn]; rfl
  have hends : n.endsInUnary = true ↔ kind = .power ∧ right.isOpenUnary = true := by
    rw [hn]
    cases kind <;> simp [Node.endsInUnary, Node.isOpen]
  have hgroup := Node.grouped_iff.1 hg
  obtain ⟨⟨-, hl, hr, hpower⟩, hparts⟩ : (Shape.binary kind left
      ⟨.operator op, p', b', x', false, false, none⟩ right).Ordered ∧ right.Grouped := by
    rw [hn] at hgroup
    exact ⟨hgroup.1.1, hgroup.2 right (by simp [Shape.parts])⟩
  obtain ⟨hlt, hne⟩ := Grammar.row_lt kind
  -- The loop gets to the end of the operation, whatever it does next
  have hreach : ∀ operators rest,
      Grammar.standard.levels[kind.row]? = some (.binary kind operators) →
      Grammar.standard.Stops (kind.row + 1) (Piece.first? rest) →
      (n.endsInUnary = true → Grammar.standard.Stops unaryRow (Piece.first? rest)) →
      Reaches (levelParser setting r kind.row) (rowStep setting r kind.row kind operators)
        ((tl ++ t :: tr).map Token.piece ++ rest) (IsLike n) rest := by
    intro operators rest hrow hstops hunary
    -- After the left operand comes an operator of the row, and so no tighter one
    have hstops' : Grammar.standard.Stops (kind.row + 1)
        (Piece.first? ((t :: tr).map Token.piece ++ rest)) :=
      Grammar.stops_of_binds hrow (Grammar.mem_row_of_binds hb hrow)
    rw [List.map_append, List.append_assoc]
    refine (leftOperand_reaches hs hrow hleft hl hpower hstops').next fun left' hleft' => ?_
    rw [hn]
    refine rowStep_accepts hrow hb ho hleft' ?_
    exact rightOperand_accepts hs hwr hparts hright hr hstops
      fun h h' => hunary (hends.2 ⟨h, h'⟩)
  constructor
  · intro hclosed
    rw [hclosed.1] at hopen
    cases hopen
  · intro k operators hk hrow rest
    obtain rfl := Option.some.inj (hopen.symm.trans hk)
    exact hreach operators rest hrow
  · intro level hle hf rest hstops
    obtain ⟨operators, hrow⟩ := Grammar.getElem?_row kind
    have hlevel : level ≤ kind.row := hf.1 kind hopen
    have hstops' := hstops.mono hlevel
    have haccepts : Accepts (levelParser setting r kind.row)
        ((tl ++ t :: tr).map Token.piece ++ rest) (IsLike n) rest := by
      refine (hreach operators rest hrow (hstops'.mono (Nat.le_succ _)) fun he => ?_).stop
        fun left' hleft' => rowStep_stops hrow hstops' hleft'
      obtain ⟨rfl, -⟩ := hends.1 he
      exact hstops'.unaryRow
    refine accepts_looser_of_le hs hlevel (Nat.le_of_lt hlt) haccepts hstops
      fun _ hlt' k hk => ?_
    -- Only operations tighter than the unary ones pass that row on their way out
    have hfits : n.Fits (unaryRow + 1) := by
      refine ⟨fun k hk => ?_, fun hu => ?_⟩
      · rw [← Option.some.inj (hopen.symm.trans hk)]
        exact hlt'
      · rw [hn] at hu
        cases hu
    obtain ⟨u, us, hts, hu⟩ := hw.starts_tight hg hfits
    rw [hts] at hk
    obtain rfl : u.kind = k := by simpa using hk
    exact hu

end Operations

end Schemata.Parse
