import Schemata.Parse.Program
import Schemata.Proofs.ExpressionSound

/-!
# What the statement parsers read

Every statement parser, if it succeeds, has taken tokens that are a way of writing the node it
returns (`Parsed`), and the statement ends before the next token (`Ends`).

Main statement: `parse_reads`, a source that is parsed is a way of writing its statements.
-/

namespace Schemata.Parse

open EStateM (Result)

variable {setting : Setting} {room : Nat} {c c' : Cursor} {n : Node}

/-- A block with the given room was read: statements between braces. -/
def ReadsBlock (setting : Setting) (room : Nat) (p : Parse (List Node)) : Prop :=
  ∀ c nodes c', p c = .ok nodes c' → ∃ r o close, ∃ lines : Lines,
    room = r + 1 ∧ o.kind = .leftBrace ∧ close.kind = .rightBrace ∧ nodes = lines.nodes ∧
      c.Took (o :: (lines.tokens ++ [close])) c' ∧ lines.Spaced setting.grammar ∧
      ∀ s ∈ lines.stretches, Parsed setting r .statement s.tokens s.node

/-! ## Small constructs -/

/-- The name of a type was read: a name, alone or before a pair of brackets. -/
theorem typeName_took {type : String} (h : typeName setting c = .ok type c') :
    ∃ ts, c.Took ts c' ∧ TypeWritten ts type := by
  obtain ⟨name, c₁, hname, h⟩ := bind_eq_ok.1 h
  obtain ⟨hk, ht⟩ := expect_took hname
  obtain ⟨b, c₂, he, h⟩ := bind_eq_ok.1 h
  obtain ⟨rfl, l, hl, ht'⟩ | ⟨rfl, ht', -⟩ := eats_took he
  · obtain ⟨close, c₃, hclose, h⟩ := bind_eq_ok.1 h
    obtain ⟨rfl, rfl⟩ := pure_eq_ok.1 h
    obtain ⟨hr, ht''⟩ := expect_took hclose
    exact ⟨_, (ht.trans ht').trans ht'', .list hk hl hr⟩
  · obtain ⟨rfl, rfl⟩ := pure_eq_ok.1 h
    exact ⟨_, by simpa using ht.trans ht', .name hk⟩

/-- A token that may be left out. -/
private theorem flag_took {kind : TokenKind} {b : Bool} (h : eats kind c = .ok b c') :
    ∃ ts, c.Took ts c' ∧ Flag kind ts b := by
  obtain ⟨rfl, t, hk, ht⟩ | ⟨rfl, ht, -⟩ := eats_took h
  · exact ⟨[t], ht, .present hk⟩
  · exact ⟨[], ht, .absent⟩

/-- A parameter was read: its name, its mark and its type. -/
theorem param_reads (h : param setting c = .ok n c') :
    ∃ ts, c.Took ts c' ∧ Parsed setting room .param ts n := by
  obtain ⟨name, c₁, hname, h⟩ := bind_eq_ok.1 h
  obtain ⟨hk, ht⟩ := expect_took hname
  obtain ⟨optional, c₂, hq, h⟩ := bind_eq_ok.1 h
  obtain ⟨q, ht', hflag⟩ := flag_took hq
  -- With a type or without one
  obtain ⟨b, c₃, he, h⟩ := bind_eq_ok.1 h
  obtain ⟨rfl, colon, hcolon, ht₃⟩ | ⟨rfl, ht₃, -⟩ := eats_took he
  · obtain ⟨type, c₄, htype, h⟩ := bind_eq_ok.1 h
    obtain ⟨ts, ht₄, hw⟩ := typeName_took htype
    obtain ⟨rfl, rfl⟩ := finish_eq_ok.1 h
    have htook : c.Took (name :: (q ++ colon :: ts)) c₄ := ht.trans (ht'.trans (ht₃.trans ht₄))
    exact ⟨_, htook, .mk_of_shape (.param hk hflag (.present hcolon hw) (noted htook rfl)) trivial
      (by simp [Shape.parts])⟩
  · obtain ⟨rfl, rfl⟩ := finish_eq_ok.1 h
    have htook : c.Took (name :: (q ++ [])) c₃ := ht.trans (ht'.trans ht₃)
    exact ⟨_, htook, .mk_of_shape (.param hk hflag .absent (noted htook rfl)) trivial
      (by simp [Shape.parts])⟩

/-- A field of an index was read, alone or in brackets. -/
theorem indexField_took {field : IndexField} (h : indexField setting c = .ok field c') :
    ∃ ts, c.Took ts c' ∧ IndexFieldWritten ts field := by
  obtain ⟨b, c₁, he, h⟩ := bind_eq_ok.1 h
  obtain ⟨rfl, l, hl, ht⟩ | ⟨rfl, ht, -⟩ := eats_took he
  · obtain ⟨name, c₂, hname, h⟩ := bind_eq_ok.1 h
    obtain ⟨hk, ht₂⟩ := expect_took hname
    obtain ⟨b, c₃, he', h⟩ := bind_eq_ok.1 h
    obtain ⟨rfl, comma, hc, ht₃⟩ | ⟨rfl, ht₃, -⟩ := eats_took he'
    · obtain ⟨word, c₄, hword, h⟩ := bind_eq_ok.1 h
      obtain ⟨hw, ht₄⟩ := expect_took hword
      change EStateM.run _ _ = _ at h
      split at h
      · next direction hd =>
        -- The direction is known before the closing bracket is looked for
        obtain ⟨_, _, hpure, h⟩ := bind_eq_ok.1 h
        obtain ⟨rfl, rfl⟩ := pure_eq_ok.1 hpure
        obtain ⟨close, c₅, hclose, h⟩ := bind_eq_ok.1 h
        obtain ⟨rfl, rfl⟩ := pure_eq_ok.1 h
        obtain ⟨hr, ht₅⟩ := expect_took hclose
        exact ⟨_, ht.trans (ht₂.trans (ht₃.trans (ht₄.trans ht₅))), .directed hl hk hc hw hd hr⟩
      · obtain ⟨_, _, h, -⟩ := bind_eq_ok.1 h
        exact absurd h refuse_ne_ok
    · obtain ⟨_, _, hpure, h⟩ := bind_eq_ok.1 h
      obtain ⟨rfl, rfl⟩ := pure_eq_ok.1 hpure
      obtain ⟨close, c₅, hclose, h⟩ := bind_eq_ok.1 h
      obtain ⟨rfl, rfl⟩ := pure_eq_ok.1 h
      obtain ⟨hr, ht₅⟩ := expect_took hclose
      exact ⟨_, ht.trans (ht₂.trans (ht₃.trans ht₅)), .bracketed hl hk hr⟩
  · obtain ⟨name, c₂, hname, h⟩ := bind_eq_ok.1 h
    obtain ⟨rfl, rfl⟩ := pure_eq_ok.1 h
    obtain ⟨hk, ht₂⟩ := expect_took hname
    exact ⟨_, ht.trans ht₂, .plain hk⟩

/-! ## Items of a collection -/

variable {t : Token}

/-- An index was read, whose at sign is the next token. -/
theorem index_reads (hk : t.kind = .atSign) (ht : c.Took [t] (c.after t))
    (h : index setting t c = .ok n c') :
    ∃ ts, c.Took ts c' ∧ Parsed setting room .item ts n ∧ n.role = .index := by
  obtain ⟨_, _, htake, h⟩ := bind_eq_ok.1 h
  obtain rfl := take_eq_ok.1 htake
  obtain ⟨d, c₁, hd, h⟩ := bind_eq_ok.1 h
  obtain ⟨hdk, ht₁⟩ := expect_took hd
  -- Only one directive is known, so the word is the one that is written
  split at h
  · obtain ⟨_, _, h, -⟩ := bind_eq_ok.1 h
    exact absurd h refuse_ne_ok
  · next hword =>
    obtain ⟨o, c₂, ho, h⟩ := bind_eq_ok.1 h
    obtain ⟨hok, ht₂⟩ := expect_took ho
    obtain ⟨fields, c₃, hlist, h⟩ := bind_eq_ok.1 h
    obtain ⟨rfl, rfl⟩ := finish_eq_ok.1 h
    obtain ⟨items, body, close, rfl, hs, hc, ht₃, hi⟩ :=
      list_took (fun _ _ _ h => indexField_took h) hlist
    have htook := ht.trans (ht₁.trans (ht₂.trans ht₃))
    exact ⟨_, htook, .mk_of_shape (.index hk hdk (by simpa using hword) hok hs hi hc
      (noted htook rfl)) trivial (by simp [Shape.parts]), rfl⟩

/-- A field of a collection was read, whose name is the next token. -/
theorem field_reads (hk : t.kind = .name) (ht : c.Took [t] (c.after t))
    (h : field setting t c = .ok n c') :
    ∃ ts, c.Took ts c' ∧ Parsed setting room .item ts n ∧ n.role = .field := by
  obtain ⟨_, _, htake, h⟩ := bind_eq_ok.1 h
  obtain rfl := take_eq_ok.1 htake
  obtain ⟨b, c₁, hcolon, h⟩ := bind_eq_ok.1 h
  obtain ⟨cs, ht₁, hcs⟩ := flag_took hcolon
  obtain ⟨type, c₂, htype, h⟩ := bind_eq_ok.1 h
  obtain ⟨ts, ht₂, hw⟩ := typeName_took htype
  obtain ⟨required, c₃, hreq, h⟩ := bind_eq_ok.1 h
  obtain ⟨fs, ht₃, hfs⟩ := flag_took hreq
  obtain ⟨rfl, rfl⟩ := finish_eq_ok.1 h
  have htook : c.Took (t :: (cs ++ (ts ++ fs))) c₃ := ht.trans (ht₁.trans (ht₂.trans ht₃))
  exact ⟨_, htook, .mk_of_shape (.field hk hcs hw hfs (noted htook rfl)) trivial
    (by simp [Shape.parts]), rfl⟩

/-! ## Lines -/

/-- What is neither an expression nor a statement of a block ends anywhere. -/
theorem ends_of_role {grammar : Grammar} {next : Option TokenKind}
    (h : n.isStatement = false) : grammar.Ends n next := by
  obtain ⟨shape, p, b, x, parenthesized, bracket, receiver⟩ := n
  -- Only statements of a block are bare returns or end with an expression
  constructor <;> cases shape <;>
    simp_all [Node.isStatement, Node.role, Shape.role, Node.isBareReturn, Node.endsInExpression]

/-- Each round reads a node of the place, which ends there, and the semicolons after it, or it takes
    nothing and stops. -/
def ReadsLine (setting : Setting) (room : Nat) (place : Place) (Stop : Option TokenKind → Prop)
    (round : Parse (Round Node)) : Prop :=
  ∀ c r c', round c = .ok r c' →
    (r = .done ∧ c.Took [] c' ∧ Stop c'.next?) ∨
      ∃ n ts breaks c₁, r = .more n ∧ c.Took ts c₁ ∧ c₁.Took breaks c' ∧
        Parsed setting room place ts n ∧ setting.grammar.Ends n c₁.next? ∧
        ∀ t ∈ breaks, t.kind = .semicolon

/-- A node has at least one token, so every round that reads one takes some. -/
theorem ReadsLine.length_lt {place : Place} {Stop : Option TokenKind → Prop}
    {round : Parse (Round Node)} (hround : ReadsLine setting room place Stop round)
    (c : Cursor) (n : Node) (c' : Cursor) (h : round c = .ok (.more n) c') :
    c'.rest.length < c.rest.length := by
  obtain ⟨h, -⟩ | ⟨n, ts, breaks, c₁, -, ht, ht', hp, -⟩ := hround _ _ _ h
  · cases h
  · obtain ⟨t, us, rfl⟩ := hp.ne_nil
    exact (ht.trans ht').length_lt

/-- Rounds that each read a line, up to a stop. -/
theorem lines_took {place : Place} {Stop : Option TokenKind → Prop} {round : Parse (Round Node)}
    (hround : ReadsLine setting room place Stop round) {nodes : List Node}
    (h : gather round c = .ok nodes c') :
    ∃ stretches : List Stretch, nodes = stretches.map Stretch.node ∧
      c.Took (stretches.flatMap fun s => s.tokens ++ s.breaks) c' ∧ Stop c'.next? ∧
      (∀ s ∈ stretches, Parsed setting room place s.tokens s.node) ∧
      (∀ s ∈ stretches, ∀ t ∈ s.breaks, t.kind = .semicolon) ∧
      stretches.IsChain fun s next =>
        s.breaks = [] → setting.grammar.Ends s.node (Token.first? next.tokens) := by
  have hg := (gather_eq_ok hround.length_lt).1 h
  clear h
  induction hg with
  | done h =>
    obtain ⟨-, ht, hstop⟩ | ⟨_, _, _, _, h, -⟩ := hround _ _ _ h
    · exact ⟨[], rfl, ht, hstop, by simp, by simp, .nil⟩
    · cases h
  | last h =>
    obtain ⟨h, -⟩ | ⟨_, _, _, _, h, -⟩ := hround _ _ _ h
    all_goals cases h
  | more h _ ih =>
    obtain ⟨h, -⟩ | ⟨n, ts, breaks, c₁, h, ht, ht', hp, hends, hbreaks⟩ := hround _ _ _ h
    · cases h
    · cases h
      obtain ⟨stretches, rfl, ht'', hstop, hps, hbs, hchain⟩ := ih
      refine ⟨⟨ts, _, breaks⟩ :: stretches, rfl, (ht.trans ht').trans ht'', hstop, ?_, ?_, ?_⟩
      · simp only [List.mem_cons, forall_eq_or_imp]
        exact ⟨hp, hps⟩
      · simp only [List.mem_cons, forall_eq_or_imp]
        exact ⟨hbreaks, hbs⟩
      -- Without semicolons, what comes after a statement is the first token of the next one
      · cases stretches with
        | nil => exact .singleton _
        | cons next stretches =>
          refine .cons_cons (fun hnil => ?_) hchain
          obtain rfl : breaks = [] := hnil
          obtain ⟨u, us, hu⟩ := (hps next (by simp)).ne_nil
          simp only [List.flatMap_cons, hu, List.cons_append] at ht''
          rw [← ht'.next?_eq, ht''.next?_cons] at hends
          simpa [hu] using hends

/-! ## Functions and collections -/

/-- A function was read, whose keyword is the next token. -/
theorem function_reads {block : Parse (List Node)} (hblock : ReadsBlock setting room block)
    (hk : t.kind = .keyword .function) (ht : c.Took [t] (c.after t))
    (h : function setting block t c = .ok n c') :
    ∃ ts, c.Took ts c' ∧ Parsed setting room .function ts n ∧ n.role = .function := by
  obtain ⟨_, _, htake, h⟩ := bind_eq_ok.1 h
  obtain rfl := take_eq_ok.1 htake
  obtain ⟨name, c₁, hname, h⟩ := bind_eq_ok.1 h
  obtain ⟨hnk, ht₁⟩ := expect_took hname
  obtain ⟨o, c₂, ho, h⟩ := bind_eq_ok.1 h
  obtain ⟨hok, ht₂⟩ := expect_took ho
  obtain ⟨params, c₃, hlist, h⟩ := bind_eq_ok.1 h
  have hparam : ∀ c n c', param setting c = .ok n c' →
      ∃ ts, c.Took ts c' ∧ Parsed setting room .param ts n := fun c n c' h => param_reads h
  obtain ⟨items, body, close, rfl, hs, hc, ht₃, hi⟩ := list_took hparam hlist
  obtain ⟨nodes, c₄, hb, h⟩ := bind_eq_ok.1 h
  -- The room of the function is that of its block and one more
  obtain ⟨r, ob, cb, lines, rfl, hob, hcb, rfl, ht₄, hspaced, hlines⟩ := hblock _ _ _ hb
  obtain ⟨rfl, rfl⟩ := finish_eq_ok.1 h
  have htook : c.Took (t :: name :: o :: (body ++ close :: ob :: (lines.tokens ++ [cb]))) c₄ := by
    simpa using ht.trans (ht₁.trans (ht₂.trans (ht₃.trans ht₄)))
  refine ⟨_, htook, .mk_of_shape (.function hk hnk hok hs (fun i h => (hi i h).written) hc hob
    hspaced (fun s h => (hlines s h).written) hcb (noted htook rfl)) trivial
    fun hg part hpart => ?_, rfl⟩
  simp only [Shape.parts, List.mem_append, List.mem_map, Lines.nodes] at hpart
  obtain ⟨i, hmem, rfl⟩ | ⟨s, hmem, rfl⟩ := hpart
  · exact (hi i hmem).grouped hg
  · exact (hlines s hmem).grouped hg

/-- An item of a collection was read: a function, an index or a field. -/
theorem collectionItem_reads {block : Parse (List Node)} (hblock : ReadsBlock setting room block)
    (h : collectionItem setting block c = .ok n c') :
    ∃ ts, c.Took ts c' ∧ Parsed setting room .item ts n ∧ n.isItem = true := by
  -- What is none of the three is refused
  have hunknown : ∀ c, (do
      expecting (.token (.keyword .function))
      expecting (.token .atSign)
      expecting (.token .name)
      failHere setting : Parse Node) c ≠ .ok n c' := by
    intro c h
    obtain ⟨_, _, -, h⟩ := bind_eq_ok.1 h
    obtain ⟨_, _, -, h⟩ := bind_eq_ok.1 h
    obtain ⟨_, _, -, h⟩ := bind_eq_ok.1 h
    exact failHere_ne_ok h
  obtain ⟨next, _, hp, h⟩ := bind_eq_ok.1 h
  obtain ⟨hhead, rfl⟩ := peek_eq_ok.1 hp
  cases next with
  | none => exact absurd h (hunknown c)
  | some lexeme =>
    obtain ⟨t, broken⟩ := lexeme
    have ht := Cursor.Took.of_head? hhead
    change EStateM.run _ _ = _ at h
    split at h
    · next hk =>
      obtain ⟨ts, ht, hparsed, hrole⟩ := function_reads hblock hk ht h
      exact ⟨ts, ht, ⟨.functionItem hparsed.written, hparsed.position, hparsed.grouped⟩,
        by simp [Node.isItem, hrole]⟩
    · next hk =>
      obtain ⟨ts, ht, hparsed, hrole⟩ := index_reads hk ht h
      exact ⟨ts, ht, hparsed, by simp [Node.isItem, hrole]⟩
    · next hk =>
      obtain ⟨ts, ht, hparsed, hrole⟩ := field_reads hk ht h
      exact ⟨ts, ht, hparsed, by simp [Node.isItem, hrole]⟩
    · exact absurd h (hunknown c)

/-- A round of the items of a collection. -/
def itemRound (setting : Setting) (block : Parse (List Node)) : Parse (Round Node) := do
  if (← check? .rightBrace).isSome then return .done
  let item ← collectionItem setting block
  skipSemicolons
  return .more item

/-- A round of the items reads an item or stops. -/
theorem itemRound_reads {block : Parse (List Node)} (hblock : ReadsBlock setting room block) :
    ReadsLine setting room .item (fun _ => True) (itemRound setting block) := by
  intro c r c' h
  obtain ⟨b, c₁, hcheck, h⟩ := bind_eq_ok.1 h
  obtain ⟨ht₁, ⟨t, ts, rfl, -⟩ | ⟨rfl, -⟩⟩ := check?_took hcheck
  · obtain ⟨rfl, rfl⟩ := pure_eq_ok.1 h
    exact .inl ⟨rfl, ht₁, trivial⟩
  · obtain ⟨item, c₂, hitem, h⟩ := bind_eq_ok.1 h
    obtain ⟨ts, ht₂, hp, hrole⟩ := collectionItem_reads hblock hitem
    obtain ⟨_, c₃, hskip, h⟩ := bind_eq_ok.1 h
    obtain ⟨breaks, hbreaks, ht₃, -⟩ := skipSemicolons_took hskip
    obtain ⟨rfl, rfl⟩ := pure_eq_ok.1 h
    -- No item of a collection is a statement of a block
    refine .inr ⟨item, ts, breaks, c₂, rfl, ht₁.trans ht₂, ht₃, hp, ends_of_role ?_, hbreaks⟩
    revert hrole
    simp only [Node.isItem, Node.isStatement]
    cases item.role <;> decide

/-- A collection was read, whose keyword is the next token. -/
theorem collection_reads {block : Parse (List Node)} (hblock : ReadsBlock setting room block)
    (hk : t.kind = .keyword .collection) (ht : c.Took [t] (c.after t))
    (h : collection setting block t c = .ok n c') :
    ∃ ts, c.Took ts c' ∧ Parsed setting room .top ts n ∧ n.role = .collection := by
  obtain ⟨_, _, htake, h⟩ := bind_eq_ok.1 h
  obtain rfl := take_eq_ok.1 htake
  obtain ⟨name, c₁, hname, h⟩ := bind_eq_ok.1 h
  obtain ⟨hnk, ht₁⟩ := expect_took hname
  obtain ⟨o, c₂, ho, h⟩ := bind_eq_ok.1 h
  obtain ⟨hok, ht₂⟩ := expect_took ho
  obtain ⟨_, c₃, hskip, h⟩ := bind_eq_ok.1 h
  obtain ⟨leading, hleading, ht₃, -⟩ := skipSemicolons_took hskip
  -- The items are lines of a block that ends at the closing brace
  obtain ⟨nodes, c₄, hgather, h⟩ := bind_eq_ok.1 h
  obtain ⟨stretches, rfl, ht₄, -, hps, hbs, hchain⟩ :=
    lines_took (itemRound_reads hblock) hgather
  obtain ⟨close, c₅, hclose, h⟩ := bind_eq_ok.1 h
  obtain ⟨hc, ht₅⟩ := expect_took hclose
  obtain ⟨rfl, rfl⟩ := finish_eq_ok.1 h
  have htook :
      c.Took (t :: name :: o :: ((Lines.mk leading stretches).tokens ++ [close])) c₅ := by
    simpa [Lines.tokens] using
      ht.trans (ht₁.trans (ht₂.trans (ht₃.trans (ht₄.trans ht₅))))
  refine ⟨_, htook, .mk_of_shape (.collection hk hnk hok ⟨hleading, hbs, hchain⟩
    (fun s h => (hps s h).written) hc (noted htook rfl)) trivial fun hg part hpart => ?_, rfl⟩
  obtain ⟨s, hmem, rfl⟩ := List.mem_map.1 hpart
  exact (hps s hmem).grouped hg

/-! ## Conditionals -/

/-- What a further clause of a conditional is. -/
private theorem clause_reads {expression : Parse Node} {block : Parse (List Node)}
    {r : Round Node} (hexpr : Reads setting room .nested 0 expression)
    (hblock : ReadsBlock setting room block) (h : clause setting expression block c = .ok r c') :
    (r = .done ∧ c.Took [] c') ∨
      ∃ n ts, c.Took ts c' ∧ Parsed setting room .clause ts n ∧
        (r = .more n ∧ n.isElseIf = true ∨ r = .last n) := by
  obtain ⟨e, c₁, he, h⟩ := bind_eq_ok.1 h
  obtain ⟨t, rfl, hk, ht⟩ | ⟨rfl, ht, -⟩ := eat?_took he
  -- An `else` is read, with a condition after it or without one
  · obtain ⟨b, c₂, he', h⟩ := bind_eq_ok.1 h
    obtain ⟨rfl, k, hkk, ht₂⟩ | ⟨rfl, ht₂, -⟩ := eats_took he'
    · obtain ⟨condition, c₃, hcond, h⟩ := bind_eq_ok.1 h
      obtain ⟨ts, ht₃, hp, -⟩ := hexpr _ _ _ hcond
      obtain ⟨nodes, c₄, hb, h⟩ := bind_eq_ok.1 h
      obtain ⟨r, ob, cb, lines, rfl, hob, hcb, rfl, ht₄, hspaced, hlines⟩ := hblock _ _ _ hb
      obtain ⟨node, c₅, hf, h⟩ := bind_eq_ok.1 h
      obtain ⟨rfl, rfl⟩ := finish_eq_ok.1 hf
      obtain ⟨rfl, rfl⟩ := pure_eq_ok.1 h
      have htook : c.Took (t :: k :: (ts ++ ob :: (lines.tokens ++ [cb]))) c₄ := by
        simpa using ht.trans (ht₂.trans (ht₃.trans ht₄))
      refine .inr ⟨_, _, htook, .mk_of_shape (.elseIf hk hkk hp.written hob hspaced
        (fun s h => (hlines s h).written) hcb (noted htook rfl)) trivial fun hg part hpart => ?_,
        .inl ⟨rfl, rfl⟩⟩
      simp only [Shape.parts, List.mem_cons, List.mem_map, Lines.nodes] at hpart
      obtain rfl | ⟨s, hmem, rfl⟩ := hpart
      · exact hp.grouped hg
      · exact (hlines s hmem).grouped hg
    · obtain ⟨nodes, c₄, hb, h⟩ := bind_eq_ok.1 h
      obtain ⟨r, ob, cb, lines, rfl, hob, hcb, rfl, ht₄, hspaced, hlines⟩ := hblock _ _ _ hb
      obtain ⟨node, c₅, hf, h⟩ := bind_eq_ok.1 h
      obtain ⟨rfl, rfl⟩ := finish_eq_ok.1 hf
      obtain ⟨rfl, rfl⟩ := pure_eq_ok.1 h
      have htook : c.Took (t :: ob :: (lines.tokens ++ [cb])) c₄ := by
        simpa using ht.trans (ht₂.trans ht₄)
      refine .inr ⟨_, _, htook, .mk_of_shape (.elseClause hk hob hspaced
        (fun s h => (hlines s h).written) hcb (noted htook rfl)) trivial fun hg part hpart => ?_,
        .inr rfl⟩
      obtain ⟨s, hmem, rfl⟩ := List.mem_map.1 hpart
      exact (hlines s hmem).grouped hg
  · obtain ⟨rfl, rfl⟩ := pure_eq_ok.1 h
    exact .inl ⟨rfl, ht⟩

/-- A round that reads a clause and goes on takes at least one token. -/
theorem clause_length_lt {expression : Parse Node} {block : Parse (List Node)}
    (hexpr : Reads setting room .nested 0 expression) (hblock : ReadsBlock setting room block)
    (h : clause setting expression block c = .ok (.more n) c') :
    c'.rest.length < c.rest.length := by
  obtain ⟨h, -⟩ | ⟨n, ts, ht, hp, -⟩ := clause_reads hexpr hblock h
  · cases h
  · obtain ⟨t, us, rfl⟩ := hp.ne_nil
    exact ht.length_lt

/-- The further clauses of a conditional: all but the last have a condition. -/
private theorem clauses_took {expression : Parse Node} {block : Parse (List Node)}
    {nodes : List Node} (hexpr : Reads setting room .nested 0 expression)
    (hblock : ReadsBlock setting room block)
    (h : gather (clause setting expression block) c = .ok nodes c') :
    ∃ clauses : List (List Token × Node), nodes = clauses.map Prod.snd ∧
      c.Took (clauses.flatMap Prod.fst) c' ∧
      (∀ i ∈ clauses, Parsed setting room .clause i.1 i.2) ∧
      ∀ i ∈ clauses.dropLast, i.2.isElseIf = true := by
  have hg := (gather_eq_ok fun c n c' h => clause_length_lt hexpr hblock h).1 h
  clear h
  -- A clause without a condition is the last, and a round that goes on has one
  induction hg with
  | done h =>
    obtain ⟨-, ht⟩ | ⟨_, _, _, _, ⟨h, -⟩ | h⟩ := clause_reads hexpr hblock h
    · exact ⟨[], rfl, ht, by simp, by simp⟩
    all_goals cases h
  | last h =>
    obtain ⟨h, -⟩ | ⟨n, ts, ht, hp, ⟨h, -⟩ | h⟩ := clause_reads hexpr hblock h
    · cases h
    · cases h
    · cases h
      exact ⟨[(ts, _)], rfl, by simpa using ht, by simpa using hp, by simp⟩
  | more h _ ih =>
    obtain ⟨h, -⟩ | ⟨n, ts, ht, hp, ⟨h, helse⟩ | h⟩ := clause_reads hexpr hblock h
    · cases h
    · cases h
      obtain ⟨clauses, rfl, ht', hps, hls⟩ := ih
      refine ⟨(ts, _) :: clauses, rfl, ht.trans ht', ?_, ?_⟩
      · simp only [List.mem_cons, forall_eq_or_imp]
        exact ⟨hp, hps⟩
      · intro i hi
        cases clauses with
        | nil => simp at hi
        | cons next clauses =>
          rw [List.dropLast_cons_cons, List.mem_cons] at hi
          obtain rfl | hi := hi
          · exact helse
          · exact hls i hi
    · cases h

/-! ## Statements -/

section Statement

variable {expression : Parse Node} {block : Parse (List Node)}

/-- A conditional was read, whose keyword is the next token. -/
theorem ifStmt_reads (hexpr : Reads setting room .nested 0 expression)
    (hblock : ReadsBlock setting room block) (hk : t.kind = .keyword .ifWord)
    (ht : c.Took [t] (c.after t)) (h : ifStmt setting expression block t c = .ok n c') :
    ∃ ts, c.Took ts c' ∧ Parsed setting room .statement ts n ∧
      setting.grammar.Ends n c'.next? := by
  obtain ⟨_, _, htake, h⟩ := bind_eq_ok.1 h
  obtain rfl := take_eq_ok.1 htake
  obtain ⟨condition, c₃, hcond, h⟩ := bind_eq_ok.1 h
  obtain ⟨ts, ht₃, hp, -⟩ := hexpr _ _ _ hcond
  obtain ⟨nodes, c₄, hb, h⟩ := bind_eq_ok.1 h
  obtain ⟨clauses, c₅, hcs, h⟩ := bind_eq_ok.1 h
  -- The clauses come after the block, and no further one follows them
  obtain ⟨items, rfl, ht₅, hi, hl⟩ := clauses_took hexpr hblock hcs
  obtain ⟨r, ob, cb, lines, rfl, hob, hcb, rfl, ht₄, hspaced, hlines⟩ := hblock _ _ _ hb
  obtain ⟨rfl, rfl⟩ := finish_eq_ok.1 h
  have htook :
      c.Took (t :: (ts ++ ob :: (lines.tokens ++ cb :: items.flatMap Prod.fst))) c₅ := by
    simpa using ht.trans (ht₃.trans (ht₄.trans ht₅))
  refine ⟨_, htook, .mk_of_shape (.ifStmt hk hp.written hob hspaced
    (fun s h => (hlines s h).written) hcb (fun i h => (hi i h).written) hl (noted htook rfl))
    trivial fun hg part hpart => ?_, .of_endsInExpression_eq_false rfl rfl⟩
  simp only [Shape.parts, List.mem_cons, List.mem_append, List.mem_map, Lines.nodes] at hpart
  obtain rfl | ⟨s, hmem, rfl⟩ | ⟨i, hmem, rfl⟩ := hpart
  · exact hp.grouped hg
  · exact (hlines s hmem).grouped hg
  · exact (hi i hmem).grouped hg

/-- The declaration of a constant was read, whose keyword is the next token. -/
theorem constDecl_reads (hexpr : Reads setting room .nested 0 expression)
    (hk : t.kind = .keyword .constWord) (ht : c.Took [t] (c.after t))
    (h : constDecl setting expression t c = .ok n c') :
    ∃ ts, c.Took ts c' ∧ Parsed setting room .statement ts n ∧
      setting.grammar.Ends n c'.next? := by
  obtain ⟨_, _, htake, h⟩ := bind_eq_ok.1 h
  obtain rfl := take_eq_ok.1 htake
  obtain ⟨name, c₁, hname, h⟩ := bind_eq_ok.1 h
  obtain ⟨hnk, ht₁⟩ := expect_took hname
  obtain ⟨a, c₂, ha, h⟩ := bind_eq_ok.1 h
  obtain ⟨hak, ht₂⟩ := expect_took ha
  obtain ⟨value, c₃, hv, h⟩ := bind_eq_ok.1 h
  obtain ⟨ts, ht₃, hp, hstops, -⟩ := hexpr _ _ _ hv
  obtain ⟨rfl, rfl⟩ := finish_eq_ok.1 h
  have htook := ht.trans (ht₁.trans (ht₂.trans ht₃))
  refine ⟨_, htook, .mk_of_shape (.constDecl hk hnk hak hp.written (noted htook rfl)) trivial
    fun hg => ?_, .of_stops rfl hstops⟩
  simpa [Shape.parts] using hp.grouped hg

/-- The declaration of a variable was read, whose keyword is the next token. -/
theorem letDecl_reads (hexpr : Reads setting room .nested 0 expression)
    (hk : t.kind = .keyword .letWord) (ht : c.Took [t] (c.after t))
    (h : letDecl setting expression t c = .ok n c') :
    ∃ ts, c.Took ts c' ∧ Parsed setting room .statement ts n ∧
      setting.grammar.Ends n c'.next? := by
  obtain ⟨_, _, htake, h⟩ := bind_eq_ok.1 h
  obtain rfl := take_eq_ok.1 htake
  obtain ⟨name, c₁, hname, h⟩ := bind_eq_ok.1 h
  obtain ⟨hnk, ht₁⟩ := expect_took hname
  obtain ⟨b, c₂, he, h⟩ := bind_eq_ok.1 h
  obtain ⟨rfl, a, hak, ht₂⟩ | ⟨rfl, ht₂, -⟩ := eats_took he
  · obtain ⟨value, c₃, hv, h⟩ := bind_eq_ok.1 h
    obtain ⟨ts, ht₃, hp, hstops, -⟩ := hexpr _ _ _ hv
    obtain ⟨rfl, rfl⟩ := finish_eq_ok.1 h
    have htook := ht.trans (ht₁.trans (ht₂.trans ht₃))
    refine ⟨_, htook, .mk_of_shape (.letValue hk hnk hak hp.written (noted htook rfl)) trivial
      fun hg => ?_, .of_stops rfl hstops⟩
    simpa [Shape.parts] using hp.grouped hg
  -- A name alone may be followed by any statement
  · obtain ⟨rfl, rfl⟩ := finish_eq_ok.1 h
    have htook := ht.trans (ht₁.trans ht₂)
    exact ⟨_, htook, .mk_of_shape (.letBare hk hnk (noted htook rfl)) trivial
      (by simp [Shape.parts]), .of_endsInExpression_eq_false rfl rfl⟩

/-- A return was read, whose keyword is the next token. -/
theorem returnStmt_reads (hexpr : Reads setting room .nested 0 expression)
    (hk : t.kind = .keyword .returnWord) (ht : c.Took [t] (c.after t))
    (h : returnStmt setting expression t c = .ok n c') :
    ∃ ts, c.Took ts c' ∧ Parsed setting room .statement ts n ∧
      setting.grammar.Ends n c'.next? := by
  obtain ⟨_, _, htake, h⟩ := bind_eq_ok.1 h
  obtain rfl := take_eq_ok.1 htake
  obtain ⟨next, _, hp, h⟩ := bind_eq_ok.1 h
  obtain ⟨hhead, rfl⟩ := peek_eq_ok.1 hp
  cases next with
  -- Without a value nothing follows, or a token that could not begin one
  | none =>
    obtain ⟨rfl, rfl⟩ := finish_eq_ok.1 h
    refine ⟨_, ht, .mk_of_shape (.returnBare hk (noted ht rfl)) trivial (by simp [Shape.parts]),
      ⟨fun _ => ?_, fun h => by cases h⟩⟩
    simp [Cursor.next?_of_head?_none hhead]
  | some lexeme =>
    dsimp only at h
    split at h
    · next hkind =>
      obtain ⟨rfl, rfl⟩ := finish_eq_ok.1 h
      refine ⟨_, ht, .mk_of_shape (.returnBare hk (noted ht rfl)) trivial (by simp [Shape.parts]),
        ⟨fun _ => ?_, fun h => by cases h⟩⟩
      rw [Cursor.next?_of_head? hhead]
      rintro _ ⟨⟩
      simpa using hkind
    · obtain ⟨value, c₃, hv, h⟩ := bind_eq_ok.1 h
      obtain ⟨ts, ht₃, hp, hstops, -⟩ := hexpr _ _ _ hv
      obtain ⟨rfl, rfl⟩ := finish_eq_ok.1 h
      have htook := ht.trans ht₃
      refine ⟨_, htook, .mk_of_shape (.returnValue hk hp.written (noted htook rfl)) trivial
        fun hg => ?_, .of_stops rfl hstops⟩
      simpa [Shape.parts] using hp.grouped hg

/-- An expression that makes up a statement ends where it stops. -/
private theorem ends_of_expression {grammar : Grammar} {next : Option TokenKind}
    (hrole : n.role = .expression) (hstops : grammar.Stops 0 next) : grammar.Ends n next := by
  refine .of_stops ?_ hstops
  obtain ⟨shape, p, b, x, parenthesized, bracket, receiver⟩ := n
  cases shape <;> simp_all [Node.role, Shape.role, Node.isBareReturn]

/-- An expression was read as a statement, or an assignment. -/
theorem expressionStmt_reads (hexpr : Reads setting room .nested 0 expression)
    (h : expressionStmt setting expression c = .ok n c') :
    ∃ ts, c.Took ts c' ∧ Parsed setting room .statement ts n ∧
      setting.grammar.Ends n c'.next? := by
  obtain ⟨left, c₁, hleft, h⟩ := bind_eq_ok.1 h
  obtain ⟨ts, ht, hp, hstops, -⟩ := hexpr _ _ _ hleft
  obtain ⟨r, c₂, hcheck, h⟩ := bind_eq_ok.1 h
  obtain ⟨ht₂, ⟨t, us, rfl, hk, hus⟩ | ⟨rfl, -⟩⟩ := checkAny?_took hcheck
  -- An assignment: what stands before its operator has to be assignable
  · dsimp only at h
    split at h
    · obtain ⟨_, _, h, -⟩ := bind_eq_ok.1 h
      exact absurd h throw_ne_ok
    · next hassignable =>
      obtain ⟨_, _, htake, h⟩ := bind_eq_ok.1 h
      obtain rfl := take_eq_ok.1 htake
      obtain ⟨opNode, _, hnode, h⟩ := bind_eq_ok.1 h
      obtain ⟨rfl, op, hop, rfl⟩ := operatorNode_eq_ok hnode
      obtain ⟨right, c₃, hright, h⟩ := bind_eq_ok.1 h
      obtain ⟨us', ht₃, hp', hstops', -⟩ := hexpr _ _ _ hright
      obtain ⟨rfl, rfl⟩ := finish_eq_ok.1 h
      have htook : c.Took (ts ++ t :: us') c₃ := by
        simpa using ht.trans (ht₂.trans ((Cursor.Took.after hus).trans ht₃))
      -- The statement stands where its left side does
      have hposition := hp.position_append (t :: us')
      refine ⟨_, htook, ⟨.assign hp.written (by simpa using hassignable) hk hop ⟨rfl, rfl, rfl⟩
        hp'.written (noted htook hposition), hposition, fun hg => ?_⟩, .of_stops rfl hstops'⟩
      refine .of_parts trivial ?_
      have hopGrouped : Node.Grouped ⟨.operator op, t.position, 0, t.text, false, false, none⟩ :=
        .of_parts trivial (by simp [Shape.parts])
      simpa [Node.ofShape, Shape.parts] using
        ⟨hp.grouped hg, hopGrouped, hp'.grouped hg⟩
  · obtain ⟨rfl, rfl⟩ := pure_eq_ok.1 h
    have hrole : left.role = .expression := by simpa [Place.admits] using hp.written.admits
    refine ⟨ts, by simpa using ht.trans ht₂, ⟨.expression hp.written, hp.position, hp.grouped⟩, ?_⟩
    exact ends_of_expression hrole (ht₂.next?_eq ▸ hstops)

/-- A statement of a block was read. -/
theorem statement_reads (hexpr : Reads setting room .nested 0 expression)
    (hblock : ReadsBlock setting room block)
    (h : statement setting expression block c = .ok n c') :
    ∃ ts, c.Took ts c' ∧ Parsed setting room .statement ts n ∧
      setting.grammar.Ends n c'.next? := by
  obtain ⟨next, _, hp, h⟩ := bind_eq_ok.1 h
  obtain ⟨hhead, rfl⟩ := peek_eq_ok.1 hp
  cases next with
  | none => exact expressionStmt_reads hexpr h
  | some lexeme =>
    obtain ⟨t, broken⟩ := lexeme
    have ht := Cursor.Took.of_head? hhead
    -- The kind of the next token decides which statement it is
    change EStateM.run _ _ = _ at h
    split at h
    · next hk => exact ifStmt_reads hexpr hblock hk ht h
    · next hk => exact constDecl_reads hexpr hk ht h
    · next hk => exact letDecl_reads hexpr hk ht h
    · next hk => exact returnStmt_reads hexpr hk ht h
    · exact expressionStmt_reads hexpr h

end Statement

/-! ## Blocks and programs -/

/-- A round of the statements of a block. -/
def blockRound (setting : Setting) (statement : Parse Node) : Parse (Round Node) := do
  if (← check? .rightBrace).isSome then return .done
  if (← peek).isNone then failHere setting
  let node ← statement
  skipSemicolons
  return .more node

/-- A round of the statements of a block reads a statement or stops. -/
theorem blockRound_reads {expression : Parse Node} {block : Parse (List Node)}
    (hexpr : Reads setting room .nested 0 expression) (hblock : ReadsBlock setting room block) :
    ReadsLine setting room .statement (fun _ => True)
      (blockRound setting (statement setting expression block)) := by
  intro c r c' h
  obtain ⟨b, c₁, hcheck, h⟩ := bind_eq_ok.1 h
  obtain ⟨ht₁, ⟨t, ts, rfl, -⟩ | ⟨rfl, -⟩⟩ := check?_took hcheck
  · obtain ⟨rfl, rfl⟩ := pure_eq_ok.1 h
    exact .inl ⟨rfl, ht₁, trivial⟩
  · obtain ⟨next, _, hp, h⟩ := bind_eq_ok.1 h
    obtain ⟨-, rfl⟩ := peek_eq_ok.1 hp
    cases next with
    -- A block does not end with the source
    | none =>
      obtain ⟨_, _, h, -⟩ := bind_eq_ok.1 h
      exact absurd h failHere_ne_ok
    | some lexeme =>
      obtain ⟨node, c₂, hnode, h⟩ := bind_eq_ok.1 h
      obtain ⟨ts, ht₂, hp, hends⟩ := statement_reads hexpr hblock hnode
      obtain ⟨_, c₃, hskip, h⟩ := bind_eq_ok.1 h
      obtain ⟨breaks, hbreaks, ht₃, -⟩ := skipSemicolons_took hskip
      obtain ⟨rfl, rfl⟩ := pure_eq_ok.1 h
      exact .inr ⟨node, ts, breaks, c₂, rfl, ht₁.trans ht₂, ht₃, hp, hends, hbreaks⟩

/-- A block was read between braces, one nesting deeper than the room it was given. -/
theorem nestedBlock_reads (room : Nat) :
    ReadsBlock setting room (nestedBlock setting room) := by
  induction room with
  | zero => exact fun c nodes c' h => absurd h failTooDeep_ne_ok
  | succ room ih =>
    intro c nodes c' h
    obtain ⟨_, c₀, henter, h⟩ := bind_eq_ok.1 h
    have ht₀ := enter_took henter
    obtain ⟨o, c₁, ho, h⟩ := bind_eq_ok.1 h
    obtain ⟨hok, ht₁⟩ := expect_took ho
    obtain ⟨_, c₂, hskip, h⟩ := bind_eq_ok.1 h
    obtain ⟨leading, hleading, ht₂, -⟩ := skipSemicolons_took hskip
    -- The statements inside have one nesting less to spend
    obtain ⟨body, c₃, hgather, h⟩ := bind_eq_ok.1 h
    obtain ⟨stretches, rfl, ht₃, -, hps, hbs, hchain⟩ :=
      lines_took (blockRound_reads (nestedLevel_reads room 0) ih) hgather
    obtain ⟨close, c₄, hclose, h⟩ := bind_eq_ok.1 h
    obtain ⟨hc, ht₄⟩ := expect_took hclose
    obtain ⟨rfl, rfl⟩ := pure_eq_ok.1 h
    refine ⟨room, o, close, ⟨leading, stretches⟩, rfl, hok, hc, rfl, ?_,
      ⟨hleading, hbs, hchain⟩, hps⟩
    simpa [Lines.tokens] using ht₀.trans (ht₁.trans (ht₂.trans (ht₃.trans ht₄)))

/-- A statement of a program was read. -/
theorem topStatement_reads (h : topStatement setting c = .ok n c') :
    ∃ ts, c.Took ts c' ∧ Parsed setting setting.limit .top ts n ∧
      setting.grammar.Ends n c'.next? := by
  have hblock := @nestedBlock_reads setting setting.limit
  -- All but collections and functions may stand in a block too
  have hother : ∀ c, statement setting (nestedExpression setting setting.limit)
      (nestedBlock setting setting.limit) c = .ok n c' →
      ∃ ts, c.Took ts c' ∧ Parsed setting setting.limit .top ts n ∧
        setting.grammar.Ends n c'.next? := by
    intro c h
    obtain ⟨ts, ht, hp, hends⟩ := statement_reads (nestedLevel_reads setting.limit 0) hblock h
    exact ⟨ts, ht, ⟨.statement hp.written, hp.position, hp.grouped⟩, hends⟩
  obtain ⟨next, _, hp, h⟩ := bind_eq_ok.1 h
  obtain ⟨hhead, rfl⟩ := peek_eq_ok.1 hp
  cases next with
  | none => exact hother _ h
  | some lexeme =>
    obtain ⟨t, broken⟩ := lexeme
    have ht := Cursor.Took.of_head? hhead
    change EStateM.run _ _ = _ at h
    split at h
    · next hk =>
      obtain ⟨ts, ht, hp, hrole⟩ := collection_reads hblock hk ht h
      exact ⟨ts, ht, hp, ends_of_role (by simp [Node.isStatement, hrole])⟩
    · next hk =>
      obtain ⟨ts, ht, hp, hrole⟩ := function_reads hblock hk ht h
      exact ⟨ts, ht, ⟨.functionTop hp.written, hp.position, hp.grouped⟩,
        ends_of_role (by simp [Node.isStatement, hrole])⟩
    · exact hother _ h

/-- A round of the statements of a program. -/
def topRound (setting : Setting) : Parse (Round Node) := do
  if (← peek).isNone then return .done
  let node ← topStatement setting
  skipSemicolons
  return .more node

/-- A round of the statements of a program reads a statement or stops at the end. -/
theorem topRound_reads :
    ReadsLine setting setting.limit .top (· = none) (topRound setting) := by
  intro c r c' h
  obtain ⟨next, _, hp, h⟩ := bind_eq_ok.1 h
  obtain ⟨hhead, rfl⟩ := peek_eq_ok.1 hp
  cases next with
  | none =>
    obtain ⟨rfl, rfl⟩ := pure_eq_ok.1 h
    exact .inl ⟨rfl, .refl c, Cursor.next?_of_head?_none hhead⟩
  | some lexeme =>
    obtain ⟨node, c₂, hnode, h⟩ := bind_eq_ok.1 h
    obtain ⟨ts, ht₂, hp, hends⟩ := topStatement_reads hnode
    obtain ⟨_, c₃, hskip, h⟩ := bind_eq_ok.1 h
    obtain ⟨breaks, hbreaks, ht₃, -⟩ := skipSemicolons_took hskip
    obtain ⟨rfl, rfl⟩ := pure_eq_ok.1 h
    exact .inr ⟨node, ts, breaks, c₂, rfl, ht₂, ht₃, hp, hends, hbreaks⟩

/-- What is known of the statements of a program that was read. -/
structure ProgramParsed (setting : Setting) (lines : Lines) : Prop where
  written : ProgramWritten setting.grammar (.ofText setting.text) setting.limit lines
  grouped : setting.grammar = .standard → ∀ n ∈ lines.nodes, n.Grouped

/-- A program was read: its statements are what all of its tokens are a way of writing. -/
theorem program_reads {nodes : List Node} (h : program setting c = .ok nodes c') :
    ∃ lines : Lines, c.tokens = lines.tokens ∧ nodes = lines.nodes ∧
      ProgramParsed setting lines := by
  obtain ⟨_, c₁, hskip, h⟩ := bind_eq_ok.1 h
  obtain ⟨leading, hleading, ht₁, -⟩ := skipSemicolons_took hskip
  obtain ⟨body, c₂, hgather, h⟩ := bind_eq_ok.1 h
  obtain ⟨stretches, rfl, ht₂, hstop, hps, hbs, hchain⟩ := lines_took topRound_reads hgather
  split at h
  · obtain ⟨_, _, -, h⟩ := bind_eq_ok.1 h
    obtain ⟨_, _, h, -⟩ := bind_eq_ok.1 h
    exact absurd h failHere_ne_ok
  · next hne =>
    obtain ⟨rfl, rfl⟩ := pure_eq_ok.1 h
    -- The rounds stop at the end of the source only, so no token is left over
    have hend : c₂.tokens = [] := by simpa [Cursor.next?, Token.first?] using hstop
    refine ⟨⟨leading, stretches⟩, ?_, rfl, ⟨by simpa using hne, ⟨hleading, hbs, hchain⟩,
      fun s h => (hps s h).written⟩, fun hg n hn => ?_⟩
    · simpa [hend, Lines.tokens] using (ht₁.trans ht₂).tokens
    · obtain ⟨s, hmem, rfl⟩ := List.mem_map.1 hn
      exact (hps s hmem).grouped hg

/-- An expression makes up a source if nothing is left behind it. -/
theorem wholeExpression_eq_ok :
    wholeExpression setting c = .ok n c' ↔
      nestedExpression setting setting.limit c = .ok n c' ∧ c'.rest = [] := by
  constructor
  · intro h
    obtain ⟨node, c₁, hnode, h⟩ := bind_eq_ok.1 h
    rw [peek_bind] at h
    cases hrest : c₁.rest with
    | nil =>
      rw [hrest] at h
      obtain ⟨rfl, rfl⟩ := pure_eq_ok.1 h
      exact ⟨hnode, hrest⟩
    | cons x rest =>
      rw [hrest] at h
      obtain ⟨_, _, h, -⟩ := bind_eq_ok.1 h
      exact absurd h failHere_ne_ok
  · rintro ⟨hnode, hrest⟩
    refine bind_eq_ok.2 ⟨n, c', hnode, ?_⟩
    rw [peek_bind, hrest]
    rfl

/-- An expression that makes up a whole source was read from all of its tokens. -/
theorem wholeExpression_reads (h : wholeExpression setting c = .ok n c') :
    Parsed setting setting.limit .nested c.tokens n := by
  obtain ⟨hnode, hrest⟩ := wholeExpression_eq_ok.1 h
  obtain ⟨ts, ht, hp, -⟩ := nestedLevel_reads _ _ _ _ _ hnode
  have hend : c'.tokens = [] := by rw [Cursor.tokens, hrest, List.map_nil]
  rw [ht.tokens, hend, List.append_nil]
  exact hp

end Schemata.Parse

namespace Schemata

namespace Parser

variable {α : Type} {parser : Parser} {lexemes : List Lexeme} {stop : Position}

/-- Reading a source without a lexical fault is a parse of its lexemes. -/
theorem read_eq (h : Lexeme.ofSource parser.source = .ok (lexemes, stop))
    (body : Setting → Parse α) :
    let result := body ⟨parser.grammar, parser.limit, parser.source.toList, stop⟩
      (Cursor.start lexemes)
    parser.read body =
      (Parse.outcome result, { parser with stop, cursor := Parse.final result }) := by
  unfold read load
  rw [h]
  dsimp only [setting]
  split
  · next hbody => rw [hbody, Parse.outcome, Parse.final]
  · next hbody => rw [hbody, Parse.outcome, Parse.final]

/-- What a successful reading of a source consists of. -/
theorem read_eq_ok {body : Setting → Parse α} {value : α} :
    (parser.read body).1 = .ok value ↔ ∃ lexemes stop c,
      Lexeme.ofSource parser.source = .ok (lexemes, stop) ∧
      body ⟨parser.grammar, parser.limit, parser.source.toList, stop⟩ (Cursor.start lexemes) =
        .ok value c := by
  -- A source with a lexical fault is never parsed
  cases hl : Lexeme.ofSource parser.source with
  | error e => simp [read, load, hl]
  | ok result =>
    obtain ⟨lexemes, stop⟩ := result
    simp only [read_eq hl, Parse.outcome_eq_ok, Except.ok.injEq, Prod.mk.injEq]
    constructor
    · exact fun ⟨c, h⟩ => ⟨lexemes, stop, c, ⟨rfl, rfl⟩, h⟩
    · rintro ⟨_, _, c, ⟨rfl, rfl⟩, h⟩
      exact ⟨c, h⟩

/-- Reading a source as a program is a parse of its lexemes as one. -/
theorem readStatements_eq (h : Lexeme.ofSource parser.source = .ok (lexemes, stop)) :
    let result := Parse.program ⟨parser.grammar, parser.limit, parser.source.toList, stop⟩
      (Cursor.start lexemes)
    parser.readStatements =
      (Parse.outcome result, { parser with stop, cursor := Parse.final result }) := by
  unfold readStatements readProgram
  rw [read_eq h]
  -- The ambiguities are added to what was read, and nothing else happens
  change ((Parse.outcome (EStateM.bind _ _ _)).map _, { parser with
    stop, cursor := Parse.final (EStateM.bind _ _ _) }) = _
  unfold EStateM.bind
  cases Parse.program _ _ with
  | ok nodes c => rfl
  | error e c => rfl

/-- What a successful reading of a source as a program consists of. -/
theorem readStatements_eq_ok {nodes : List Node} :
    parser.readStatements.1 = .ok nodes ↔ ∃ lexemes stop c,
      Lexeme.ofSource parser.source = .ok (lexemes, stop) ∧
      Parse.program ⟨parser.grammar, parser.limit, parser.source.toList, stop⟩
        (Cursor.start lexemes) = .ok nodes c := by
  cases hl : Lexeme.ofSource parser.source with
  | error e => simp [readStatements, readProgram, read, load, hl, Except.map]
  | ok result =>
    obtain ⟨lexemes, stop⟩ := result
    simp only [readStatements_eq hl, Parse.outcome_eq_ok, Except.ok.injEq, Prod.mk.injEq]
    constructor
    · exact fun ⟨c, h⟩ => ⟨lexemes, stop, c, ⟨rfl, rfl⟩, h⟩
    · rintro ⟨_, _, c, ⟨rfl, rfl⟩, h⟩
      exact ⟨c, h⟩

end Parser

/-- What a successful parse of a source consists of. -/
theorem parse_eq_ok {source : String} {nodes : List Node} :
    parse source = .ok nodes ↔ ∃ lexemes stop c, Lexeme.ofSource source = .ok (lexemes, stop) ∧
      Parse.program ⟨.standard, maxDepth, source.toList, stop⟩ (Cursor.start lexemes) =
        .ok nodes c :=
  Parser.readStatements_eq_ok

/-- What a successful parse of a source as one expression consists of. -/
theorem parseExpression_eq_ok {grammar : Grammar} {source : String} {n : Node} :
    parseExpression grammar source = .ok n ↔ ∃ lexemes stop c,
      Lexeme.ofSource source = .ok (lexemes, stop) ∧
      Parse.wholeExpression ⟨grammar, maxDepth, source.toList, stop⟩ (Cursor.start lexemes) =
        .ok n c :=
  Parser.read_eq_ok

/-- A source that is parsed is a way of writing its statements. -/
theorem parse_reads {source : String} {nodes : List Node} (h : parse source = .ok nodes) :
    ∃ lexemes stop, ∃ lines : Lines, Lexeme.ofSource source = .ok (lexemes, stop) ∧
      lexemes.map Lexeme.token = lines.tokens ∧ nodes = lines.nodes ∧
      Parse.ProgramParsed ⟨.standard, maxDepth, source.toList, stop⟩ lines := by
  obtain ⟨lexemes, stop, c, hl, hp⟩ := parse_eq_ok.1 h
  obtain ⟨lines, ht, hn, hparsed⟩ := Parse.program_reads hp
  exact ⟨lexemes, stop, lines, hl, ht, hn, hparsed⟩

end Schemata
