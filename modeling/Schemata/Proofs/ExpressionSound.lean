import Schemata.Parse.Expression
import Schemata.Proofs.Cursor

/-!
# What the expression parsers read

Every expression parser, if it succeeds, has taken tokens that are a way of writing the node it
returns (`Parsed`), and has gone on as far as its level does (`Stops`).  With the standard table
the node is also `Grouped`, and `Fits` the level it was read at.

The parsers for what is nested are passed in, so each lemma asks of them what the next one proves;
`nestedLevel_reads` ties the knot by induction on the room.
-/

namespace Schemata

/-- What nodes note that are read from a text: where their first token stands, and the text from
    there to the end of their last token.  An operator keeps the text of its token. -/
def SourceNote.ofText (text : List Char) : SourceNote where
  node ts p b x := ∃ first last, ts.head? = some first ∧ ts.getLast? = some last ∧
    p = first.position ∧
      b = Text.lineBreaks (Text.slice text first.position.offset last.stop) ∧
      x = String.ofList (Text.slice text first.position.offset last.stop)
  operator t p b x := p = t.position ∧ b = 0 ∧ x = t.text

/-- The node with its span, from a position to an offset. -/
def Setting.spanned (setting : Setting) (start : Position) (stop : Nat) (node : Node) : Node :=
  let text := Text.slice setting.text start.offset stop
  { node with
    position := start
    lineBreaks := Text.lineBreaks text
    text := String.ofList text }

namespace Parse

open EStateM (Result)

/-- What is known of a node that was read: its tokens are a way of writing it, it begins where
    they do, and with the standard table its operands are grouped accordingly. -/
structure Parsed (setting : Setting) (room : Nat) (place : Place) (ts : List Token) (n : Node) :
    Prop where
  written : Written setting.grammar (.ofText setting.text) room place ts n
  position : ts.head?.map Token.position = some n.position
  grouped : setting.grammar = .standard → n.Grouped

/-- The parser reads nodes of the given place and level. -/
def Reads (setting : Setting) (room : Nat) (place : Place) (level : Nat) (p : Parse Node) : Prop :=
  ∀ c n c', p c = .ok n c' → ∃ ts, c.Took ts c' ∧ Parsed setting room place ts n ∧
    setting.grammar.Stops level c'.next? ∧ (setting.grammar = .standard → n.Fits level)

section

variable {setting : Setting} {room level : Nat} {c c' : Cursor} {n : Node}

@[simp] theorem span_eq_ok {start : Position} {node : Node} :
    span setting start node c = .ok n c' ↔ setting.spanned start c.lastEnd node = n ∧ c = c' := by
  change Result.ok (setting.spanned start c.lastEnd node) c = .ok n c' ↔ _
  simp

@[simp] theorem finish_eq_ok {shape : Shape Node} {start : Position} :
    finish setting shape start c = .ok n c' ↔
      setting.spanned start c.lastEnd (Node.ofShape shape start) = n ∧ c = c' :=
  span_eq_ok

/-- A span that ends with the last taken token is what its node should note. -/
theorem noted {ts : List Token} {p : Position} (ht : c.Took ts c')
    (hp : ts.head?.map Token.position = some p) :
    (SourceNote.ofText setting.text).node ts p
      (Text.lineBreaks (Text.slice setting.text p.offset c'.lastEnd))
      (String.ofList (Text.slice setting.text p.offset c'.lastEnd)) := by
  obtain ⟨first, hfirst, rfl⟩ := Option.map_eq_some_iff.1 hp
  obtain ⟨rest, rfl⟩ := List.head?_eq_some_iff.1 hfirst
  have hlast := List.getLast?_eq_some_getLast (List.cons_ne_nil first rest)
  -- The cursor remembers where the last token that was taken ends
  have hstop := ht.lastEnd
  rw [hlast, Option.map_some, Option.getD_some] at hstop
  exact ⟨first, _, rfl, hlast, rfl, by rw [hstop], by rw [hstop]⟩

/-- What was read has a first token. -/
theorem Parsed.ne_nil {place : Place} {ts : List Token} (h : Parsed setting room place ts n) :
    ∃ t us, ts = t :: us := by
  obtain ⟨t, ht, -⟩ := Option.map_eq_some_iff.1 h.position
  obtain ⟨us, hts⟩ := List.head?_eq_some_iff.1 ht
  exact ⟨t, us, hts⟩

/-- A node without parts that can be grouped in more than one way. -/
theorem Parsed.mk_of_shape {place : Place} {t : Token} {ts : List Token}
    {shape : Shape Node} {stop : Nat}
    (hw : Written setting.grammar (.ofText setting.text) room place (t :: ts)
      (setting.spanned t.position stop (Node.ofShape shape t.position)))
    (ho : shape.Ordered)
    (hg : setting.grammar = .standard → ∀ part ∈ shape.parts, part.Grouped) :
    Parsed setting room place (t :: ts)
      (setting.spanned t.position stop (Node.ofShape shape t.position)) where
  written := hw
  position := rfl
  grouped hs := .of_parts ho (hg hs)

/-- What begins with a node that was read begins where the node does. -/
theorem Parsed.position_append {place : Place} {ts : List Token}
    (h : Parsed setting room place ts n) (us : List Token) :
    (ts ++ us).head?.map Token.position = some n.position := by
  obtain ⟨t, ts, rfl⟩ := h.ne_nil
  exact h.position

/-- Items that were read are grouped. -/
theorem items_grouped {place : Place} {items : List (List Token × Node)}
    (hi : ∀ i ∈ items, Parsed setting room place i.1 i.2) (hs : setting.grammar = .standard) :
    ∀ n ∈ items.map Prod.snd, n.Grouped := by
  intro n hn
  obtain ⟨i, hmem, rfl⟩ := List.mem_map.1 hn
  exact (hi i hmem).grouped hs

/-- A parser of nodes takes tokens that are a way of writing what it returns. -/
theorem Reads.parsed {place : Place} {p : Parse Node} (h : Reads setting room place level p)
    (c : Cursor) (n : Node) (c' : Cursor) (hp : p c = .ok n c') :
    ∃ ts, c.Took ts c' ∧ Parsed setting room place ts n := by
  obtain ⟨ts, ht, hn, -⟩ := h c n c' hp
  exact ⟨ts, ht, hn⟩

/-! ## Atoms -/

/-- What follows the key of an entry. -/
private theorem entryValue_reads {expression : Parse Node} {c₁ : Cursor} {t : Token} {key : Node}
    (hexpr : Reads setting room .nested 0 expression) (ht : c.Took [t] c₁)
    (hkey : KeyWritten (.ofText setting.text) t key) (hp : key.position = t.position)
    (h : (do
      if ← eats .colon then
        let value ← expression
        finish setting (.entry key value) key.position
      else if key.name?.isSome then
        let value ← pure key
        finish setting (.entry key value) key.position
      else
        let value ← failHere setting
        finish setting (.entry key value) key.position : Parse Node) c₁ = .ok n c') :
    ∃ ts, c.Took ts c' ∧ Parsed setting room .entry ts n := by
  have hgroup : key.Grouped := by
    cases hkey with
    | _ => exact .of_parts trivial (by simp [Shape.parts])
  rw [hp] at h
  obtain ⟨b, c₂, he, h⟩ := bind_eq_ok.1 h
  -- With a colon there is a value, which is read as nested
  obtain ⟨rfl, d, hd, ht'⟩ | ⟨rfl, ht', -⟩ := eats_took he
  · obtain ⟨value, c₃, hv, h⟩ := bind_eq_ok.1 h
    obtain ⟨ts, ht'', hvalue, -⟩ := hexpr _ _ _ hv
    obtain ⟨rfl, rfl⟩ := finish_eq_ok.1 h
    have htook := (ht.trans ht').trans ht''
    refine ⟨_, htook, .mk_of_shape (.entry hkey hd hvalue.written (noted htook rfl)) trivial ?_⟩
    intro hs
    simpa [Shape.parts] using ⟨hgroup, hvalue.grouped hs⟩
  -- Without a colon, the key alone is the entry, if it is a name
  · have htook := ht.trans ht'
    simp only [Bool.false_eq_true, if_false] at h
    split at h
    · next hname =>
      obtain ⟨rfl, rfl⟩ := finish_eq_ok.1 h
      cases hkey with
      | name hk hn =>
        refine ⟨_, htook, .mk_of_shape (.shorthand hk hn hn (noted htook rfl)) trivial ?_⟩
        intro hs
        simpa [Shape.parts] using hgroup
      | string hk hn => cases hname
    · obtain ⟨_, _, h, -⟩ := bind_eq_ok.1 h
      exact absurd h failHere_ne_ok

/-- An entry that was read is one of the language. -/
theorem objectEntry_reads {expression : Parse Node}
    (hexpr : Reads setting room .nested 0 expression)
    (h : objectEntry setting expression c = .ok n c') :
    ∃ ts, c.Took ts c' ∧ Parsed setting room .entry ts n := by
  obtain ⟨next, _, hp, h⟩ := bind_eq_ok.1 h
  obtain ⟨hhead, rfl⟩ := peek_eq_ok.1 hp
  -- At the end, nothing can begin an entry
  cases next with
  | none =>
    obtain ⟨_, _, -, h⟩ := bind_eq_ok.1 h
    obtain ⟨_, _, -, h⟩ := bind_eq_ok.1 h
    obtain ⟨_, _, h, -⟩ := bind_eq_ok.1 h
    exact absurd h failHere_ne_ok
  | some lexeme =>
    obtain ⟨t, broken⟩ := lexeme
    have ht := Cursor.Took.of_head? hhead
    change EStateM.run _ _ = _ at h
    split at h
    · next hkind =>
      obtain ⟨_, _, htake, h⟩ := bind_eq_ok.1 h
      obtain rfl := take_eq_ok.1 htake
      obtain ⟨key, _, hkey, h⟩ := bind_eq_ok.1 h
      obtain ⟨rfl, rfl⟩ := finish_eq_ok.1 hkey
      exact entryValue_reads hexpr ht (.name hkind (noted ht rfl)) rfl h
    · next hkind =>
      obtain ⟨_, _, htake, h⟩ := bind_eq_ok.1 h
      obtain rfl := take_eq_ok.1 htake
      obtain ⟨key, _, hkey, h⟩ := bind_eq_ok.1 h
      obtain ⟨rfl, rfl⟩ := finish_eq_ok.1 hkey
      exact entryValue_reads hexpr ht (.string hkind (noted ht rfl)) rfl h
    · obtain ⟨_, _, -, h⟩ := bind_eq_ok.1 h
      obtain ⟨_, _, -, h⟩ := bind_eq_ok.1 h
      obtain ⟨_, _, h, -⟩ := bind_eq_ok.1 h
      exact absurd h failHere_ne_ok

/-- Where no atom begins, nothing is read. -/
theorem failAtom_ne_ok : failAtom setting c ≠ .ok n c' := by
  intro h
  obtain ⟨_, _, -, h⟩ := bind_eq_ok.1 h
  exact failHere_ne_ok h

/-- A token that makes up an atom. -/
private theorem leaf_reads {t : Token} {shape : Shape Node} (ht : c.Took [t] (c.after t))
    (hw : ∀ b x, (SourceNote.ofText setting.text).node [t] t.position b x →
      Written setting.grammar (.ofText setting.text) room .expression [t]
        ⟨shape, t.position, b, x, false, false, none⟩)
    (hparts : shape.parts = []) (hbinary : ∀ kind l op r, shape ≠ .binary kind l op r)
    (h : (do take t; finish setting shape t.position : Parse Node) c = .ok n c') :
    ∃ ts, c.Took ts c' ∧ Parsed setting room .expression ts n ∧ n.Closed := by
  obtain ⟨_, _, htake, h⟩ := bind_eq_ok.1 h
  obtain rfl := take_eq_ok.1 htake
  obtain ⟨rfl, rfl⟩ := finish_eq_ok.1 h
  refine ⟨[t], ht, .mk_of_shape (hw _ _ (noted ht rfl)) ?_ (by simp [hparts]), ?_⟩
  · cases shape with
    | binary kind l op r => exact absurd rfl (hbinary kind l op r)
    | unary kind value => cases hparts
    | _ => trivial
  · cases shape with
    | binary kind l op r => exact absurd rfl (hbinary kind l op r)
    | unary kind value => cases hparts
    | _ => exact ⟨rfl, rfl⟩

/-- An atom that was read is one of the language, and closed. -/
theorem atom_reads {expression : Parse Node} (hexpr : Reads setting room .nested 0 expression)
    (h : atom setting expression c = .ok n c') :
    ∃ ts, c.Took ts c' ∧ Parsed setting room .expression ts n ∧ n.Closed := by
  obtain ⟨next, _, hp, h⟩ := bind_eq_ok.1 h
  obtain ⟨hhead, rfl⟩ := peek_eq_ok.1 hp
  cases next with
  | none => exact absurd h failAtom_ne_ok
  | some lexeme =>
    obtain ⟨t, broken⟩ := lexeme
    have ht := Cursor.Took.of_head? hhead
    change EStateM.run _ _ = _ at h
    split at h
    -- What makes up an atom by itself
    · next hkind => exact leaf_reads ht (fun _ _ => .number hkind) rfl (by simp) h
    · next hkind => exact leaf_reads ht (fun _ _ => .string hkind) rfl (by simp) h
    · next hkind => exact leaf_reads ht (fun _ _ => .boolean hkind) rfl (by simp) h
    · next hkind => exact leaf_reads ht (fun _ _ => .name hkind) rfl (by simp) h
    -- What stands in brackets was read by the parser that is passed in
    · next hkind =>
      obtain ⟨_, _, htake, h⟩ := bind_eq_ok.1 h
      obtain rfl := take_eq_ok.1 htake
      obtain ⟨nodes, c₁, hlist, h⟩ := bind_eq_ok.1 h
      obtain ⟨rfl, rfl⟩ := finish_eq_ok.1 h
      obtain ⟨items, body, close, rfl, hs, hc, ht', hi⟩ := list_took hexpr.parsed hlist
      have htook := ht.trans ht'
      refine ⟨_, htook, .mk_of_shape (.array hkind hs hc (fun i h => (hi i h).written)
        (noted htook rfl)) trivial (items_grouped hi), rfl, rfl⟩
    · next hkind =>
      obtain ⟨_, _, htake, h⟩ := bind_eq_ok.1 h
      obtain rfl := take_eq_ok.1 htake
      obtain ⟨nodes, c₁, hlist, h⟩ := bind_eq_ok.1 h
      obtain ⟨rfl, rfl⟩ := finish_eq_ok.1 h
      obtain ⟨items, body, close, rfl, hs, hc, ht', hi⟩ :=
        list_took (fun c n c' h => objectEntry_reads hexpr h) hlist
      have htook := ht.trans ht'
      refine ⟨_, htook, .mk_of_shape (.object hkind hs hc (fun i h => (hi i h).written)
        (noted htook rfl)) trivial (items_grouped hi), rfl, rfl⟩
    · next hkind =>
      obtain ⟨_, _, htake, h⟩ := bind_eq_ok.1 h
      obtain rfl := take_eq_ok.1 htake
      obtain ⟨inner, c₁, hinner, h⟩ := bind_eq_ok.1 h
      obtain ⟨close, c₂, hclose, h⟩ := bind_eq_ok.1 h
      obtain ⟨rfl, rfl⟩ := span_eq_ok.1 h
      obtain ⟨ts, ht', hi, -⟩ := hexpr _ _ _ hinner
      obtain ⟨hc, ht''⟩ := expect_took hclose
      have htook : c.Took (t :: (ts ++ [close])) c₂ := ht.trans (ht'.trans ht'')
      refine ⟨_, htook, ⟨.group (n := inner) hkind hi.written hc (noted htook rfl), rfl,
        fun hg => ?_⟩, ?_⟩
      · refine (Node.grouped_congr ?_ ?_).1 (hi.grouped hg) <;> rfl
      · exact Node.closed_of_isOpen_eq_false rfl
    · exact absurd h failAtom_ne_ok

/-! ## Chains -/

/-- The tokens that chain something to an expression. -/
def chainKinds : List TokenKind := [.dot, .leftBracket, .leftParen]

/-- Leaving a chain takes nothing. -/
theorem endChain_took {node : Node} {r : ForInStep Node}
    (h : endChain node c = .ok r c') : r = .done node ∧ c.Took [] c' := by
  obtain ⟨_, c₁, h₁, h⟩ := bind_eq_ok.1 h
  obtain ⟨_, c₂, h₂, h⟩ := bind_eq_ok.1 h
  obtain ⟨_, c₃, h₃, h⟩ := bind_eq_ok.1 h
  obtain ⟨rfl, rfl⟩ := pure_eq_ok.1 h
  exact ⟨rfl, ((expecting_took h₁).trans (expecting_took h₂)).trans (expecting_took h₃)⟩

/-- Noting an ambiguity and then taking the token. -/
private theorem continued_took {lexeme : Lexeme} {u v : Unit} {c₁ c₂ : Cursor}
    (hhead : c.rest.head? = some lexeme) (hn : noteContinuation lexeme c = .ok u c₁)
    (ht : take lexeme.token c₁ = .ok v c₂) : c.Took [lexeme.token] c₂ := by
  obtain ⟨hrest, hlast⟩ := noteContinuation_took hn
  obtain rfl := take_eq_ok.1 ht
  have h := Cursor.Took.of_head? (hrest ▸ hhead)
  exact ⟨by rw [← h.tokens, Cursor.tokens, Cursor.tokens, hrest], h.lastEnd.trans (by simp)⟩

/-- A link that is yielded goes on from whatever the node was read from. -/
theorem link_reads {expression : Parse Node} {node : Node} {r : ForInStep Node}
    (hexpr : Reads setting room .nested 0 expression)
    (h : link setting expression node c = .ok r c') :
    (r = .done node ∧ c.Took [] c' ∧ ∀ kind ∈ c'.next?, chainKinds.contains kind = false) ∨
      ∃ t ts n, r = .yield n ∧ c.Took (t :: ts) c' ∧ n.Closed ∧
        ∀ us (c₀ : Cursor), c₀.Took us c → Parsed setting room .expression us node → node.Closed →
          Parsed setting room .expression (us ++ t :: ts) n := by
  obtain ⟨next, _, hp, h⟩ := bind_eq_ok.1 h
  obtain ⟨hhead, rfl⟩ := peek_eq_ok.1 hp
  cases next with
  | none =>
    obtain ⟨rfl, ht⟩ := endChain_took h
    refine .inl ⟨rfl, ht, ?_⟩
    simp [ht.next?_eq, Cursor.next?_of_head?_none hhead]
  | some lexeme =>
    change EStateM.run _ _ = _ at h
    split at h
    -- The three links are a member, a key in brackets and a call
    · next hkind =>
      obtain ⟨_, _, hnote, h⟩ := bind_eq_ok.1 h
      obtain ⟨_, _, htake, h⟩ := bind_eq_ok.1 h
      have ht := continued_took hhead hnote htake
      obtain ⟨name, _, hname, h⟩ := bind_eq_ok.1 h
      obtain ⟨hk, ht'⟩ := expect_took hname
      obtain ⟨member, _, hm, h⟩ := bind_eq_ok.1 h
      obtain ⟨rfl, rfl⟩ := finish_eq_ok.1 hm
      obtain ⟨rfl, rfl⟩ := pure_eq_ok.1 h
      refine .inr ⟨_, _, _, rfl, ht.trans ht', ⟨rfl, rfl⟩, fun us c₀ hus hn hclosed => ?_⟩
      have hposition := hn.position_append [lexeme.token, name]
      -- What is chained goes on from a node that is not an open operation
      refine ⟨.member hn.written hkind hk (noted (hus.trans (ht.trans ht')) hposition), hposition,
        fun hg => Node.grouped_iff.2 ⟨⟨trivial, ?_⟩, ?_⟩⟩
      · rintro _ ⟨⟩
        exact hclosed
      · simpa [Node.parts, Node.chainedFrom, Setting.spanned, Node.ofShape, Shape.parts] using
          hn.grouped hg
    · next hkind =>
      obtain ⟨_, _, hnote, h⟩ := bind_eq_ok.1 h
      obtain ⟨_, _, htake, h⟩ := bind_eq_ok.1 h
      have ht := continued_took hhead hnote htake
      obtain ⟨key, _, hkey, h⟩ := bind_eq_ok.1 h
      obtain ⟨ts, ht', hk, -⟩ := hexpr _ _ _ hkey
      obtain ⟨close, _, hclose, h⟩ := bind_eq_ok.1 h
      obtain ⟨hc, ht''⟩ := expect_took hclose
      obtain ⟨whole, _, hw, h⟩ := bind_eq_ok.1 h
      obtain ⟨rfl, rfl⟩ := span_eq_ok.1 hw
      obtain ⟨rfl, rfl⟩ := pure_eq_ok.1 h
      have htook := ht.trans (ht'.trans ht'')
      refine .inr ⟨_, _, _, rfl, htook, ?_, fun us c₀ hus hn hclosed => ?_⟩
      · refine Node.closed_of_isOpen_eq_false ?_
        simp [Node.isOpen, Setting.spanned, Node.bracketed]
      · have hposition := hn.position_append (lexeme.token :: (ts ++ [close]))
        refine ⟨.key hn.written hkind hk.written hc (noted (hus.trans htook) hposition),
          hposition, fun hg => ?_⟩
        have hbracketed := (hk.grouped hg).bracketed (hn.grouped hg) hclosed
        refine (Node.grouped_congr ?_ ?_).1 hbracketed <;> rfl
    · next hkind =>
      obtain ⟨_, _, hnote, h⟩ := bind_eq_ok.1 h
      obtain ⟨_, _, htake, h⟩ := bind_eq_ok.1 h
      have ht := continued_took hhead hnote htake
      obtain ⟨args, _, hargs, h⟩ := bind_eq_ok.1 h
      obtain ⟨items, body, close, rfl, hs, hc, ht', hi⟩ := list_took hexpr.parsed hargs
      obtain ⟨call, _, hcall, h⟩ := bind_eq_ok.1 h
      obtain ⟨rfl, rfl⟩ := finish_eq_ok.1 hcall
      obtain ⟨rfl, rfl⟩ := pure_eq_ok.1 h
      refine .inr ⟨_, _, _, rfl, ht.trans ht', ⟨rfl, rfl⟩, fun us c₀ hus hn hclosed => ?_⟩
      have hposition := hn.position_append (lexeme.token :: (body ++ [close]))
      refine ⟨.call hn.written hkind hs hc (fun i h => (hi i h).written)
        (noted (hus.trans (ht.trans ht')) hposition), hposition,
        fun hg => Node.grouped_iff.2 ⟨⟨trivial, ?_⟩, ?_⟩⟩
      · rintro _ ⟨⟩
        exact hclosed
      · simp only [Node.parts, Node.chainedFrom, Setting.spanned, Node.ofShape, Shape.parts,
          Option.toList_some, List.cons_append, List.nil_append, List.mem_cons, forall_eq_or_imp]
        exact ⟨hn.grouped hg, items_grouped hi hg⟩
    · next h₁ h₂ h₃ =>
      obtain ⟨rfl, ht⟩ := endChain_took h
      refine .inl ⟨rfl, ht, ?_⟩
      rw [ht.next?_eq, Cursor.next?_of_head? hhead]
      rintro _ ⟨⟩
      simpa [chainKinds] using ⟨h₁, h₂, h₃⟩

/-- Every link takes at least one token. -/
theorem link_length_lt {expression : Parse Node} {node node' : Node}
    (hexpr : Reads setting room .nested 0 expression)
    (h : link setting expression node c = .ok (.yield node') c') :
    c'.rest.length < c.rest.length := by
  obtain ⟨h, -⟩ | ⟨t, ts, n, -, ht, -⟩ := link_reads hexpr h
  · cases h
  · exact ht.length_lt

/-- A chain that was read is one of the language, and nothing more is chained to it. -/
theorem chain_reads {expression : Parse Node} (hexpr : Reads setting room .nested 0 expression)
    (h : chain setting expression c = .ok n c') :
    ∃ ts, c.Took ts c' ∧ Parsed setting room .expression ts n ∧ n.Closed ∧
      ∀ kind ∈ c'.next?, chainKinds.contains kind = false := by
  obtain ⟨node, c₁, ha, hl⟩ := bind_eq_ok.1 h
  obtain ⟨us, ht, hn, hclosed⟩ := atom_reads hexpr ha
  have hi := (iterate_eq_ok fun _ _ _ _ h => link_length_lt hexpr h).1 hl
  clear h ha hl
  -- Every link is read as going on from all the links before it
  induction hi generalizing us with
  | done h =>
    obtain ⟨h, ht', hk⟩ | ⟨_, _, _, h, -⟩ := link_reads hexpr h
    · cases h
      exact ⟨us, by simpa using ht.trans ht', hn, hclosed, hk⟩
    · cases h
  | yield h _ ih =>
    obtain ⟨h, -⟩ | ⟨t, ts, n, h, ht', hclosed', hnext⟩ := link_reads hexpr h
    · cases h
    · cases h
      exact ih _ (ht.trans ht') (hnext us _ ht hn hclosed) hclosed'

/-! ## Levels -/

/-- A unary operation that was read is one of the language. -/
theorem unaryFrom_reads {nested : Nat → Parse Node} {kind : UnaryKind} {t : Token}
    {operators : List (TokenKind × UnaryKind)}
    (hnested : ∀ j, Reads setting room .nested j (nested j))
    (hl : setting.grammar.levels[level]? = some (.unary operators))
    (hmem : (t.kind, kind) ∈ operators) (ht : c.Took [t] (c.after t))
    (h : unaryFrom setting nested level kind t c = .ok n c') :
    ∃ ts, c.Took ts c' ∧ Parsed setting room .expression ts n ∧
      setting.grammar.Stops level c'.next? ∧ n.openBinary? = none ∧
      (setting.grammar = .standard → level = unaryRow) := by
  obtain ⟨_, _, htake, h⟩ := bind_eq_ok.1 h
  obtain rfl := take_eq_ok.1 htake
  obtain ⟨value, c₁, hv, h⟩ := bind_eq_ok.1 h
  obtain ⟨rfl, rfl⟩ := finish_eq_ok.1 h
  obtain ⟨ts, ht', hp, hstops, hfits⟩ := hnested _ _ _ _ hv
  have hrow : setting.grammar = .standard → level = unaryRow :=
    fun hs => Grammar.eq_unaryRow_of_getElem? (hs ▸ hl)
  have htook := ht.trans ht'
  refine ⟨_, htook, ⟨.unary ⟨operators, List.mem_of_getElem? hl, hmem⟩ hp.written
    (noted htook rfl), rfl, fun hs => ?_⟩, hstops, rfl, hrow⟩
  -- The operand is read at the unary level, and only a power is tighter
  refine .of_parts (fun k hk => ?_) ?_
  · have := (hfits hs).1 k hk
    rw [hrow hs] at this
    cases k <;> first | rfl | exact absurd this (by decide)
  · simpa [Node.ofShape, Shape.parts] using hp.grouped hs

/-- A right operand that was read is an expression of a tighter row, or a looser unary operation. -/
theorem rightOperand_reads {nested : Nat → Parse Node} {tighter : Parse Node}
    (hnested : ∀ j, Reads setting room .nested j (nested j))
    (htighter : Reads setting room .expression (level + 1) tighter)
    (h : rightOperand setting nested level tighter c = .ok n c') :
    ∃ ts, c.Took ts c' ∧ Parsed setting room .expression ts n ∧
      setting.grammar.Stops (level + 1) c'.next? ∧
      (setting.grammar = .standard → (∀ k, n.openBinary? = some k → level < k.row) ∧
        (n.isOpenUnary = true → setting.grammar.Stops unaryRow c'.next?)) := by
  -- What does not begin with a looser unary operator is read at the tighter level
  have hother : ∀ c₀, c.Took [] c₀ → tighter c₀ = .ok n c' → ∃ ts, c.Took ts c' ∧
      Parsed setting room .expression ts n ∧ setting.grammar.Stops (level + 1) c'.next? ∧
      (setting.grammar = .standard → (∀ k, n.openBinary? = some k → level < k.row) ∧
        (n.isOpenUnary = true → setting.grammar.Stops unaryRow c'.next?)) := by
    intro c₀ hnone h
    obtain ⟨ts, ht, hp, hstops, hfits⟩ := htighter _ _ _ h
    exact ⟨ts, hnone.trans ht, hp, hstops, fun hs =>
      ⟨(hfits hs).1, fun hu => hstops.mono ((hfits hs).2 hu)⟩⟩
  obtain ⟨_, c₀, hrequire, h⟩ := bind_eq_ok.1 h
  have hnone := require_took hrequire
  obtain ⟨next, _, hp, h⟩ := bind_eq_ok.1 h
  obtain ⟨hhead, rfl⟩ := peek_eq_ok.1 hp
  cases next with
  | none => exact hother _ hnone h
  | some lexeme =>
    obtain ⟨t, broken⟩ := lexeme
    change EStateM.run _ _ = _ at h
    split at h
    · next j kind hj =>
      -- A looser unary operation is no open binary one, whatever its operand takes in
      obtain ⟨hlt, operators, hl, hmem⟩ := Grammar.looserUnary?_eq_some hj
      obtain ⟨ts, ht, hparsed, hstops, hopen, hrow⟩ :=
        unaryFrom_reads hnested hl hmem (.of_head? hhead) h
      refine ⟨ts, hnone.trans ht, hparsed, hstops.mono (by omega),
        fun hs => ⟨?_, fun _ => hrow hs ▸ hstops⟩⟩
      simp [hopen]
    · exact hother _ hnone h

/-- What is known of the left operand of an operator of a row, read before the given next token.
    An operand that ends in a unary operation has already gone on as far as that one does. -/
structure LeftOperand (setting : Setting) (room level : Nat) (ts : List Token) (left : Node)
    (next : Option TokenKind) : Prop where
  parsed : Parsed setting room .expression ts left
  stops : setting.grammar.Stops (level + 1) next
  fits : setting.grammar = .standard → left.Fits level
  ends : setting.grammar = .standard → left.endsInUnary = true →
    setting.grammar.Stops unaryRow next

/-- The node of an operator says what its token is. -/
theorem operatorNode_eq_ok {t : Token} (h : operatorNode t c = .ok n c') :
    c = c' ∧ ∃ op, Operator.ofKind? t.kind = some op ∧
      n = ⟨.operator op, t.position, 0, t.text, false, false, none⟩ := by
  unfold operatorNode at h
  change EStateM.run _ _ = _ at h
  split at h
  · next op hop =>
    obtain ⟨rfl, rfl⟩ := pure_eq_ok.1 h
    exact ⟨rfl, op, hop, rfl⟩
  · exact absurd h refuse_ne_ok

/-- The operator of a token is written by tokens of that kind. -/
theorem kind_of_ofKind? {kind : TokenKind} {op : Operator} (h : Operator.ofKind? kind = some op) :
    op.kind = kind := by
  simpa using List.find?_some h

/-- An operator that follows its left operand makes a grouped expression with its right one. -/
private theorem binary_ordered {kind : BinaryKind} {operators : List TokenKind} {t : Token}
    {op : Operator} {left right : Node} {us : List Token}
    (hl : setting.grammar.levels[level]? = some (.binary kind operators))
    (hk : operators.contains t.kind = true) (hop : op.kind = t.kind)
    (hleft : LeftOperand setting room level us left (some t.kind))
    (hright : ∀ k, right.openBinary? = some k → level < k.row)
    (hs : setting.grammar = .standard) :
    (Shape.binary kind left ⟨.operator op, t.position, 0, t.text, false, false, none⟩
      right).Ordered := by
  have hrow : kind.row = level := Grammar.row_of_getElem? (hs ▸ hl)
  refine ⟨⟨op, rfl, operators, hs ▸ List.mem_of_getElem? hl, by simpa [hop] using hk⟩, ?_, ?_, ?_⟩
  · exact fun k hk => hrow ▸ (hleft.fits hs).1 k hk
  · exact fun k hk => hrow ▸ hright k hk
  -- A power would have been taken in by a unary operation at the end of its left operand
  · rintro rfl
    rw [BinaryKind.row_power] at hrow
    subst hrow
    constructor
    · rw [Bool.eq_false_iff]
      intro hu
      exact absurd ((hleft.fits hs).2 hu) (by decide)
    · rw [Bool.eq_false_iff]
      intro he
      have hstop := hleft.ends hs he t.kind rfl
      rw [Grammar.continues_of_binds hl hk (by decide)] at hstop
      cases hstop

/-- A step of a row ends it, or makes its left operand longer by an operator and an operand. -/
theorem binaryStep_reads {nested : Nat → Parse Node} {kind : BinaryKind}
    {operators : List TokenKind} {tighter : Parse Node} {left : Node} {r : ForInStep Node}
    (hnested : ∀ j, Reads setting room .nested j (nested j))
    (htighter : Reads setting room .expression (level + 1) tighter)
    (hl : setting.grammar.levels[level]? = some (.binary kind operators))
    (h : binaryStep setting nested level kind operators tighter left c = .ok r c') :
    (r = .done left ∧ c = c' ∧ ∀ k ∈ c'.next?, operators.contains k = false) ∨
      ∃ t ts n, r = .yield n ∧ c.Took (t :: ts) c' ∧
        ∀ us (c₀ : Cursor), c₀.Took us c → LeftOperand setting room level us left c.next? →
          LeftOperand setting room level (us ++ t :: ts) n c'.next? := by
  obtain ⟨next, _, hp, h⟩ := bind_eq_ok.1 h
  obtain ⟨hhead, rfl⟩ := peek_eq_ok.1 hp
  cases next with
  | none =>
    obtain ⟨rfl, rfl⟩ := pure_eq_ok.1 h
    refine .inl ⟨rfl, rfl, ?_⟩
    simp [Cursor.next?_of_head?_none hhead]
  | some lexeme =>
    have hnext := Cursor.next?_of_head? hhead
    dsimp only at h
    split at h
    · next hk =>
      obtain ⟨_, _, hnote, h⟩ := bind_eq_ok.1 h
      obtain ⟨_, _, htake, h⟩ := bind_eq_ok.1 h
      have ht := continued_took hhead hnote htake
      obtain ⟨opNode, _, hnode, h⟩ := bind_eq_ok.1 h
      obtain ⟨rfl, op, hop, rfl⟩ := operatorNode_eq_ok hnode
      obtain ⟨right, _, hr, h⟩ := bind_eq_ok.1 h
      obtain ⟨ts, ht', hright, hstops, hright'⟩ := rightOperand_reads hnested htighter hr
      obtain ⟨whole, _, hw, h⟩ := bind_eq_ok.1 h
      obtain ⟨rfl, rfl⟩ := finish_eq_ok.1 hw
      obtain ⟨rfl, rfl⟩ := pure_eq_ok.1 h
      -- The operation so far is the left operand of the next operator of its row
      refine .inr ⟨_, _, _, rfl, ht.trans ht', fun us c₀ hus hleft => ?_⟩
      have hposition := hleft.parsed.position_append (lexeme.token :: ts)
      have hbinds : setting.grammar.Binds kind lexeme.token.kind :=
        ⟨operators, List.mem_of_getElem? hl, by simpa using hk⟩
      refine ⟨⟨?_, hposition, fun hs => ?_⟩, hstops, fun hs => ⟨?_, fun h => by cases h⟩, ?_⟩
      · exact .binary hleft.parsed.written hbinds hop ⟨rfl, rfl, rfl⟩ hright.written
          (noted (hus.trans (ht.trans ht')) hposition)
      · rw [hnext] at hleft
        refine .of_parts (binary_ordered hl hk (kind_of_ofKind? hop) hleft (hright' hs).1 hs) ?_
        have hopGrouped : Node.Grouped ⟨.operator op, lexeme.token.position, 0,
            lexeme.token.text, false, false, none⟩ :=
          .of_parts trivial (by simp [Shape.parts])
        simpa [Node.ofShape, Shape.parts] using
          ⟨hleft.parsed.grouped hs, hopGrouped, hright.grouped hs⟩
      · rintro k ⟨⟩
        exact Nat.le_of_eq (Grammar.row_of_getElem? (hs ▸ hl)).symm
      · intro hs he
        refine (hright' hs).2 ?_
        cases kind <;> simp_all [Node.endsInUnary, Setting.spanned, Node.ofShape]
    · next hk =>
      obtain ⟨rfl, rfl⟩ := pure_eq_ok.1 h
      refine .inl ⟨rfl, rfl, ?_⟩
      rw [hnext]
      rintro _ ⟨⟩
      simpa using hk

/-- Every step that goes on takes at least one token. -/
theorem binaryStep_length_lt {nested : Nat → Parse Node} {kind : BinaryKind}
    {operators : List TokenKind} {tighter : Parse Node} {left left' : Node}
    (hnested : ∀ j, Reads setting room .nested j (nested j))
    (htighter : Reads setting room .expression (level + 1) tighter)
    (hl : setting.grammar.levels[level]? = some (.binary kind operators))
    (h : binaryStep setting nested level kind operators tighter left c = .ok (.yield left') c') :
    c'.rest.length < c.rest.length := by
  obtain ⟨h, -⟩ | ⟨t, ts, n, -, ht, -⟩ := binaryStep_reads hnested htighter hl h
  · cases h
  · exact ht.length_lt

/-- An operand of the next tighter level can be the left operand at a binary level. -/
private theorem LeftOperand.of_tighter {kind : BinaryKind} {operators : List TokenKind}
    {ts : List Token} {left : Node} {next : Option TokenKind}
    (hl : setting.grammar.levels[level]? = some (.binary kind operators))
    (hp : Parsed setting room .expression ts left)
    (hstops : setting.grammar.Stops (level + 1) next)
    (hfits : setting.grammar = .standard → left.Fits (level + 1)) :
    LeftOperand setting room level ts left next where
  parsed := hp
  stops := hstops
  fits hs := (hfits hs).mono (Nat.le_succ level)
  ends hs he := by
    have hpower : left.openBinary? = some .power := by
      unfold Node.endsInUnary at he
      split at he
      · next heq =>
        simp only [Bool.and_eq_true] at he
        simp [Node.openBinary?, heq, he.1]
      · cases he
    have hle := (hfits hs).1 .power hpower
    have hrow : kind.row = level := Grammar.row_of_getElem? (hs ▸ hl)
    refine hstops.mono ?_
    -- The row of the unary operations is not a binary level, so the level is looser than it
    cases kind <;> simp only [BinaryKind.row_or, BinaryKind.row_and, BinaryKind.row_compare,
      BinaryKind.row_concat, BinaryKind.row_sum, BinaryKind.row_product, BinaryKind.row_power,
      unaryRow_eq] at hrow hle ⊢ <;> omega

/-- A level of binary operators reads expressions of that level. -/
private theorem binaryLevel_reads {nested : Nat → Parse Node} {kind : BinaryKind}
    {operators : List TokenKind} {tighter : Parse Node}
    (hnested : ∀ j, Reads setting room .nested j (nested j))
    (htighter : Reads setting room .expression (level + 1) tighter)
    (hl : setting.grammar.levels[level]? = some (.binary kind operators)) :
    Reads setting room .expression level (do
      iterate (binaryStep setting nested level kind operators tighter) (← tighter)) := by
  intro c n c' h
  obtain ⟨left, c₁, ho, hs⟩ := bind_eq_ok.1 h
  obtain ⟨us, ht, hp, hstops, hfits⟩ := htighter _ _ _ ho
  have hleft := LeftOperand.of_tighter hl hp hstops hfits
  have hi := (iterate_eq_ok fun _ _ _ _ h => binaryStep_length_lt hnested htighter hl h).1 hs
  clear h ho hs hp hstops hfits
  -- The left operand grows by one operator and one operand in every step
  induction hi generalizing us with
  | done h =>
    obtain ⟨hd, rfl, hk⟩ | ⟨_, _, _, h, -⟩ := binaryStep_reads hnested htighter hl h
    · cases hd
      exact ⟨us, ht, hleft.parsed, hleft.stops.of_succ hl hk, hleft.fits⟩
    · cases h
  | yield h _ ih =>
    obtain ⟨h, -⟩ | ⟨t, ts, n, h, ht', hnext⟩ := binaryStep_reads hnested htighter hl h
    · cases h
    · cases h
      exact ih _ (ht.trans ht') (hnext us _ ht hleft)

/-- Climbing from a level on reads expressions of that level. -/
theorem climb_reads {nested : Nat → Parse Node} {levels : List Level}
    (hnested : ∀ j, Reads setting room .nested j (nested j))
    (hl : setting.grammar.levels.drop level = levels) :
    Reads setting room .expression level (climb setting nested level levels) := by
  -- Induction on the rows that are left, from the tightest
  induction levels generalizing level with
  | nil =>
    intro c n c' h
    obtain ⟨ts, ht, hp, hclosed, hk⟩ := chain_reads (hnested 0) h
    refine ⟨ts, ht, hp, fun kind hkind => ?_, fun _ => hclosed.fits level⟩
    rw [Grammar.continues, hl, List.any_nil, Bool.or_false]
    exact hk kind hkind
  | cons row tighter ih =>
    have hget : setting.grammar.levels[level]? = some row := by
      have := congrArg List.head? hl
      rwa [List.head?_drop] at this
    have hdrop : setting.grammar.levels.drop (level + 1) = tighter := by
      rw [← List.tail_drop, hl, List.tail_cons]
    cases row with
    | binary kind operators => exact binaryLevel_reads hnested (ih hdrop) hget
    | unary operators =>
      -- An expression of the next row is one of the unary row, which binds nothing
      have hother : ∀ c n c', climb setting nested (level + 1) tighter c = .ok n c' →
          ∃ ts, c.Took ts c' ∧ Parsed setting room .expression ts n ∧
            setting.grammar.Stops level c'.next? ∧
            (setting.grammar = .standard → n.Fits level) := by
        intro c n c' h
        obtain ⟨ts, ht, hp, hstops, hfits⟩ := ih hdrop c n c' h
        exact ⟨ts, ht, hp, hstops.of_succ hget fun _ _ => rfl,
          fun hs => (hfits hs).mono (Nat.le_succ level)⟩
      intro c n c' h
      obtain ⟨next, _, hp, h⟩ := bind_eq_ok.1 h
      obtain ⟨hhead, rfl⟩ := peek_eq_ok.1 hp
      cases next with
      | none => exact hother _ _ _ h
      | some lexeme =>
        obtain ⟨t, broken⟩ := lexeme
        change EStateM.run _ _ = _ at h
        split at h
        · next kind hkind =>
          obtain ⟨front, back, hops, -⟩ := List.lookup_eq_some_iff.1 hkind
          obtain ⟨ts, ht, hparsed, hstops, hopen, hrow⟩ :=
            unaryFrom_reads hnested hget (by simp [hops]) (.of_head? hhead) h
          refine ⟨ts, ht, hparsed, hstops, fun hs => ⟨by simp [hopen], fun _ => ?_⟩⟩
          exact Nat.le_of_eq (hrow hs)
        · exact hother _ _ _ h

/-- Every nested expression that is read is one of the language, and as long as it can be. -/
theorem nestedLevel_reads (room level : Nat) :
    Reads setting room .nested level (nestedLevel setting room level) := by
  -- Each nested expression has less room than the one around it
  induction room generalizing level with
  | zero => exact fun c n c' h => absurd h failTooDeep_ne_ok
  | succ room ih =>
    intro c n c' h
    obtain ⟨_, c₁, he, h⟩ := bind_eq_ok.1 h
    obtain ⟨ts, ht, hp, hrest⟩ := climb_reads ih rfl c₁ n c' h
    exact ⟨ts, (enter_took he).trans ht, ⟨.nested hp.written, hp.position, hp.grouped⟩, hrest⟩

end

end Parse

end Schemata
