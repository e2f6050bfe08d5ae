import Schemata.Proofs.Derivation
import Schemata.Proofs.StatementComplete
import Schemata.Proofs.Tiling

/-!
# The text of a node

A node notes the piece of source that it was read from.  That piece alone is read as the same node
again: as an expression if the node is one, and as a program of one statement if it is a statement,
a function or a collection (`parse_text`).

Every such node of a tree is written with tokens that come one after another in the source
(`Written.located`), so its text has just these tokens, and it is grouped like the whole tree.
-/

namespace Schemata

variable {grammar : Grammar} {note : SourceNote} {r r' : Nat} {place : Place} {ts : List Token}
  {n : Node}

namespace Written

/-! ## Room -/

/-- What can be written can be written with more room. -/
private theorem succ (h : Written grammar note r place ts n) :
    Written grammar note (r + 1) place ts n := by
  -- The room is only spent on the way down, so every way of writing stays one
  induction h with
  | nested _ ih => exact .nested ih
  | number hk hn => exact .number hk hn
  | string hk hn => exact .string hk hn
  | boolean hk hn => exact .boolean hk hn
  | name hk hn => exact .name hk hn
  | array ho hs hc _ hn ih => exact .array ho hs hc ih hn
  | object ho hs hc _ hn ih => exact .object ho hs hc ih hn
  | entry hkey hc _ hn ih => exact .entry hkey hc ih hn
  | shorthand hk hkey hvalue hn => exact .shorthand hk hkey hvalue hn
  | group ho _ hc hn ih => exact .group ho ih hc hn
  | member _ hd hk hn ih => exact .member ih hd hk hn
  | key _ ho _ hc hn ihr ihk => exact .key ihr ho ihk hc hn
  | call _ ho hs hc _ hn ihr ihi => exact .call ihr ho hs hc ihi hn
  | binary _ hb ho ht _ hn ihl ihr => exact .binary ihl hb ho ht ihr hn
  | unary hb _ hn ih => exact .unary hb ih hn
  | param hk hq ht hn => exact .param hk hq ht hn
  | field hk hc ht hf hn => exact .field hk hc ht hf hn
  | index ha hk hd ho hs hi hc hn => exact .index ha hk hd ho hs hi hc hn
  | function hk ht ho hs _ hc hob hsp _ hcb hn ihi ihb =>
    exact .function hk ht ho hs ihi hc hob hsp ihb hcb hn
  | functionItem _ ih => exact .functionItem ih
  | functionTop _ ih => exact .functionTop ih
  | collection hk ht ho hsp _ hc hn ih => exact .collection hk ht ho hsp ih hc hn
  | elseIf he hk _ ho hsp _ hc hn ihv ihb => exact .elseIf he hk ihv ho hsp ihb hc hn
  | elseClause he ho hsp _ hc hn ih => exact .elseClause he ho hsp ih hc hn
  | ifStmt hk _ ho hsp _ hc _ hl hn ihv ihb ihi =>
    exact .ifStmt hk ihv ho hsp ihb hc ihi hl hn
  | constDecl hk ht ha _ hn ih => exact .constDecl hk ht ha ih hn
  | letValue hk ht ha _ hn ih => exact .letValue hk ht ha ih hn
  | letBare hk ht hn => exact .letBare hk ht hn
  | returnValue hk _ hn ih => exact .returnValue hk ih hn
  | returnBare hk hn => exact .returnBare hk hn
  | assign _ ha hk ho ht _ hn ihl ihr => exact .assign ihl ha hk ho ht ihr hn
  | expression _ ih => exact .expression ih
  | statement _ ih => exact .statement ih

/-- What can be written with some room for nesting can be written with more. -/
theorem mono (h : Written grammar note r place ts n) (hr : r ≤ r') :
    Written grammar note r' place ts n := by
  induction r', hr using Nat.le_induction with
  | base => exact h
  | succ s _ ih => exact ih.succ

/-- A node notes something about all of its tokens. -/
theorem noted (h : Written grammar note r place ts n) :
    note.node ts n.position n.lineBreaks n.text := by
  induction h with
  | nested _ ih | functionItem _ ih | functionTop _ ih | expression _ ih | statement _ ih =>
    exact ih
  | _ => assumption

end Written

/-! ## Where the nodes of a tree are written -/

/-- The room that is left for an expression in the place. -/
def Place.inner (r : Nat) : Place → Nat
  | .expression | .entry => r
  | _ => r - 1

/-- The expression is written somewhere in the tokens of a node, and so is the statement. -/
structure Located (grammar : Grammar) (note : SourceNote) (r : Nat) (place : Place)
    (ts : List Token) (m : Node) : Prop where
  expression : m.role = .expression →
    ∃ us, us <:+: ts ∧ Written grammar note (place.inner r) .expression us m
  statement : m.role ∈ [Role.statement, .function, .collection] →
    ∃ us, us <:+: ts ∧ Written grammar note r .top us m

namespace Located

variable {place' : Place} {us : List Token} {m : Node}

/-- What is written in a part is written in the whole. -/
theorem within (h : Located grammar note r place us m) (hts : us <:+: ts) (hr : r ≤ r')
    (hplace : place.inner r ≤ place'.inner r') : Located grammar note r' place' ts m where
  expression hrole := by
    obtain ⟨vs, hvs, hw⟩ := h.expression hrole
    exact ⟨vs, hvs.trans hts, hw.mono hplace⟩
  statement hrole := by
    obtain ⟨vs, hvs, hw⟩ := h.statement hrole
    exact ⟨vs, hvs.trans hts, hw.mono hr⟩

/-- An expression is written with its own tokens. -/
theorem of_expression (h : Written grammar note r .expression ts n) :
    Located grammar note r .expression ts n where
  expression _ := ⟨ts, List.infix_rfl, h⟩
  statement hrole := by
    have hadmits : n.role = .expression := beq_iff_eq.1 h.admits
    rw [hadmits] at hrole
    exact absurd hrole (by decide)

/-- A statement is written with its own tokens. -/
theorem of_top (h : Written grammar note r .top ts n)
    (hrole : (n.role == .expression) = false) : Located grammar note r place ts n where
  expression hr := by
    rw [hr] at hrole
    cases hrole
  statement _ := ⟨ts, List.infix_rfl, h⟩

/-- Of what is neither an expression nor a statement nothing is asked. -/
theorem of_role
    (hrole : [Role.expression, .statement, .function, .collection].contains n.role = false) :
    Located grammar note r place ts n where
  expression hr := by
    rw [hr] at hrole
    cases hrole
  statement hr := by
    rw [Bool.eq_false_iff, ne_eq, List.contains_iff_mem] at hrole
    exact absurd (List.mem_cons_of_mem _ hr) hrole

end Located

/-- The tokens of an item come one after another in the sequence. -/
theorem Separated.infix_of_mem {items : List (List Token)} {body item : List Token}
    (h : Separated items body) (hi : item ∈ items) : item <:+: body := by
  induction h with
  | nil => cases hi
  | last =>
    obtain rfl := List.mem_singleton.1 hi
    exact List.infix_rfl
  | @comma first body items token _ _ ih =>
    rcases List.mem_cons.1 hi with rfl | hi
    · exact List.infix_append' [] item (token :: body)
    · have htail : body <:+: first ++ token :: body := ⟨first ++ [token], [], by simp⟩
      exact (ih hi).trans htail

/-- The tokens of a stretch come one after another in the lines. -/
theorem Lines.infix_of_mem {lines : Lines} {stretch : Stretch}
    (hs : stretch ∈ lines.stretches) : stretch.tokens <:+: lines.tokens := by
  obtain ⟨before, after, hsplit⟩ := List.append_of_mem hs
  unfold Lines.tokens
  rw [hsplit]
  exact ⟨lines.leading ++ before.flatMap (fun s => s.tokens ++ s.breaks),
    stretch.breaks ++ after.flatMap (fun s => s.tokens ++ s.breaks), by simp⟩

section

variable {place' : Place}

/-- What is in a list of items is written where the list is. -/
private theorem located_items {items : List (List Token × Node)} {body : List Token}
    (ih : ∀ i ∈ items, ∀ m ∈ i.2.subtrees, Located grammar note r place i.1 m)
    (hs : Separated (items.map Prod.fst) body) (hbody : body <:+: ts) (hr : r ≤ r')
    (hplace : place.inner r ≤ place'.inner r') :
    ∀ part ∈ items.map Prod.snd, ∀ m ∈ part.subtrees, Located grammar note r' place' ts m := by
  intro part hpart m hm
  obtain ⟨i, hi, rfl⟩ := List.mem_map.1 hpart
  have hitem := hs.infix_of_mem (List.mem_map_of_mem hi)
  exact (ih i hi m hm).within (hitem.trans hbody) hr hplace

/-- What is in a block is written where the block is. -/
private theorem located_lines {lines : Lines}
    (ih : ∀ s ∈ lines.stretches, ∀ m ∈ s.node.subtrees, Located grammar note r place s.tokens m)
    (hlines : lines.tokens <:+: ts) (hr : r ≤ r') (hplace : place.inner r ≤ place'.inner r') :
    ∀ part ∈ lines.nodes, ∀ m ∈ part.subtrees, Located grammar note r' place' ts m := by
  intro part hpart m hm
  obtain ⟨s, hs, rfl⟩ := List.mem_map.1 hpart
  exact (ih s hs m hm).within ((Lines.infix_of_mem hs).trans hlines) hr hplace

/-- What holds of a node without parts holds of all nodes in it. -/
private theorem forall_of_leaf {P : Node → Prop} (hleaf : n.parts = []) (h : P n) :
    ∀ m ∈ n.subtrees, P m := by
  refine Node.forall_subtrees_iff.2 ⟨h, ?_⟩
  rw [hleaf]
  simp

/-- What holds of a node and of all nodes in its only part holds of all nodes in it. -/
private theorem forall_of_part {P : Node → Prop} {part : Node} (hparts : n.parts = [part])
    (h : P n) (hpart : ∀ m ∈ part.subtrees, P m) : ∀ m ∈ n.subtrees, P m := by
  refine Node.forall_subtrees_iff.2 ⟨h, ?_⟩
  rw [hparts]
  simpa using hpart

/-- The three parts of an operation. -/
private theorem forall_of_operation {P : Node → Prop} {left right : Node} {op : Operator}
    {p : Position} {b : Nat} {x : String} (hl : ∀ m ∈ left.subtrees, P m)
    (ho : P ⟨.operator op, p, b, x, false, false, none⟩) (hr : ∀ m ∈ right.subtrees, P m) :
    ∀ part ∈ [left, ⟨.operator op, p, b, x, false, false, none⟩, right],
      ∀ m ∈ part.subtrees, P m := by
  intro part hpart
  simp only [List.mem_cons, List.not_mem_nil, or_false] at hpart
  rcases hpart with rfl | rfl | rfl
  · exact hl
  · exact forall_of_leaf rfl ho
  · exact hr

/-- A key is written with its token. -/
private theorem located_key {t : Token} {key : Node} (h : KeyWritten note t key)
    (ht : [t] <:+: ts) : ∀ m ∈ key.subtrees, Located grammar note r .entry ts m := by
  have hkey : Written grammar note r .expression [t] key ∧ key.parts = [] := by
    cases h with
    | name hk hn => exact ⟨.name hk hn, rfl⟩
    | string hk hn => exact ⟨.string hk hn, rfl⟩
  refine forall_of_leaf hkey.2 ?_
  exact (Located.of_expression hkey.1).within ht (Nat.le_refl _) (Nat.le_refl _)

end

/-- Every expression and every statement of a tree is written with tokens that come one after
    another among those of the tree. -/
theorem Written.located (h : Written grammar note r place ts n) :
    ∀ m ∈ n.subtrees, Located grammar note r place ts m := by
  induction h with
  | nested h ih =>
    intro m hm
    exact (ih m hm).within List.infix_rfl (Nat.le_succ _) (Nat.le_refl _)
  -- An expression is located where it is written, and its parts are located in its own tokens
  | number hk hn => exact forall_of_leaf rfl (.of_expression (.number hk hn))
  | string hk hn => exact forall_of_leaf rfl (.of_expression (.string hk hn))
  | boolean hk hn => exact forall_of_leaf rfl (.of_expression (.boolean hk hn))
  | name hk hn => exact forall_of_leaf rfl (.of_expression (.name hk hn))
  | array ho hs hc hi hn ih =>
    refine Node.forall_subtrees_iff.2 ⟨.of_expression (.array ho hs hc hi hn), ?_⟩
    exact located_items ih hs (List.infix_append' [_] _ [_]) (Nat.le_refl _) (Nat.sub_le ..)
  | object ho hs hc hi hn ih =>
    refine Node.forall_subtrees_iff.2 ⟨.of_expression (.object ho hs hc hi hn), ?_⟩
    exact located_items ih hs (List.infix_append' [_] _ [_]) (Nat.le_refl _) (Nat.le_refl _)
  | @entry r t c ts key value p b x hkey hc hv hn ih =>
    refine Node.forall_subtrees_iff.2 ⟨.of_role rfl, fun part hpart => ?_⟩
    rcases List.mem_pair.1 hpart with rfl | rfl
    · exact located_key hkey (List.infix_append' [] [t] (c :: ts))
    · intro m hm
      exact (ih m hm).within ⟨[t, c], [], by simp⟩ (Nat.le_refl _) (Nat.sub_le ..)
  | shorthand hk hkey hvalue hn =>
    refine Node.forall_subtrees_iff.2 ⟨.of_role rfl, fun part hpart => ?_⟩
    rcases List.mem_pair.1 hpart with rfl | rfl
    · exact located_key (.name hk hkey) List.infix_rfl
    · exact located_key (.name hk hvalue) List.infix_rfl
  -- Parentheses take the place of the node that stands in them
  | group ho hi hc hn ih =>
    refine Node.forall_subtrees_iff.2 ⟨.of_expression (.group ho hi hc hn), fun part hpart => ?_⟩
    intro m hm
    have hinner := (Node.forall_subtrees_iff.1 ih).2 part hpart m hm
    exact hinner.within (List.infix_append' [_] _ [_]) (Nat.le_refl _) (Nat.sub_le ..)
  | @member r ts receiver d t p b x hr hd hk hn ih =>
    refine forall_of_part rfl (.of_expression (.member hr hd hk hn)) fun m hm => ?_
    exact (ih m hm).within (List.infix_append' [] ts [d, t]) (Nat.le_refl _) (Nat.le_refl _)
  | @key r ts tk object key o c p b x hr ho hk hc hn ihr ihk =>
    have hobject : ∀ m ∈ object.subtrees,
        Located grammar note r .expression (ts ++ o :: (tk ++ [c])) m := fun m hm =>
      (ihr m hm).within (List.infix_append' [] ts _) (Nat.le_refl _) (Nat.le_refl _)
    have hkey : ∀ m ∈ key.subtrees,
        Located grammar note r .expression (ts ++ o :: (tk ++ [c])) m := fun m hm =>
      (ihk m hm).within ⟨ts ++ [o], [c], by simp⟩ (Nat.le_refl _) (Nat.sub_le ..)
    refine Node.forall_subtrees_iff.2 ⟨.of_expression (.key hr ho hk hc hn), fun part hpart => ?_⟩
    rcases List.mem_cons.1 hpart with rfl | hpart
    · exact hobject
    · obtain ⟨-, he⟩ | ⟨shape, p', b', x', rfl, he⟩ := Node.bracketed_cases key object <;>
        rw [he] at hpart
      · obtain rfl := List.mem_singleton.1 hpart
        exact hkey
      -- A key that is not wrapped gives its own parts to the node
      · exact (Node.forall_subtrees_iff.1 hkey).2 part hpart
  | @call r ts body receiver o c args p b x hr ho hs hc hi hn ihr ihi =>
    refine Node.forall_subtrees_iff.2 ⟨.of_expression (.call hr ho hs hc hi hn), ?_⟩
    intro part hpart
    rcases List.mem_cons.1 hpart with rfl | hpart
    · intro m hm
      exact (ihr m hm).within (List.infix_append' [] ts _) (Nat.le_refl _) (Nat.le_refl _)
    · have hbody : body <:+: ts ++ o :: (body ++ [c]) := ⟨ts ++ [o], [c], by simp⟩
      exact located_items ihi hs hbody (Nat.le_refl _) (Nat.sub_le ..) part hpart
  | @binary r tl tr left right t kind op p p' b b' x x' hl hb ho ht hr hn ihl ihr =>
    refine Node.forall_subtrees_iff.2 ⟨.of_expression (.binary hl hb ho ht hr hn), ?_⟩
    refine forall_of_operation (fun m hm => ?_) (.of_role rfl) (fun m hm => ?_)
    · exact (ihl m hm).within (List.infix_append' [] tl _) (Nat.le_refl _) (Nat.le_refl _)
    · exact (ihr m hm).within ⟨tl ++ [t], [], by simp⟩ (Nat.le_refl _) (Nat.le_refl _)
  | @unary r t ts value kind p b x hb hv hn ih =>
    refine forall_of_part rfl (.of_expression (.unary hb hv hn)) fun m hm => ?_
    exact (ih m hm).within ⟨[t], [], by simp⟩ (Nat.le_refl _) (Nat.sub_le ..)
  | param | field | index => exact forall_of_leaf rfl (.of_role rfl)
  | @function r k t o c ob cb params body block p b x hk ht ho hs hi hc hob hsp hb hcb hn ihi ihb =>
    have hw := Written.function hk ht ho hs hi hc hob hsp hb hcb hn
    refine Node.forall_subtrees_iff.2 ⟨.of_top (.functionTop hw) rfl, fun part hpart => ?_⟩
    have hpart : part ∈ params.map Prod.snd ++ block.nodes := hpart
    rcases List.mem_append.1 hpart with hpart | hpart
    · exact located_items ihi hs (List.infix_append' [k, t, o] body _) (Nat.le_refl _)
        (show r ≤ Place.inner (r + 1) .function from Nat.le_refl r) part hpart
    · exact located_lines ihb ⟨k :: t :: o :: (body ++ [c, ob]), [cb], by simp⟩ (Nat.le_succ _)
        (Nat.sub_le ..) part hpart
  | functionItem _ ih | functionTop _ ih =>
    intro m hm
    exact (ih m hm).within List.infix_rfl (Nat.le_refl _) (Nat.le_refl _)
  | collection hk ht ho hsp hi hc hn ih =>
    refine Node.forall_subtrees_iff.2
      ⟨.of_top (.collection hk ht ho hsp hi hc hn) rfl, ?_⟩
    exact located_lines ih (List.infix_append' [_, _, _] _ [_]) (Nat.le_refl _) (Nat.le_refl _)
  | @elseIf r e k o c ts condition block p b x he hk hv ho hsp hb hc hn ihv ihb =>
    refine Node.forall_subtrees_iff.2 ⟨.of_role rfl, fun part hpart => ?_⟩
    rcases List.mem_cons.1 hpart with rfl | hpart
    · intro m hm
      exact (ihv m hm).within (List.infix_append' [e, k] ts _) (Nat.le_refl _) (Nat.le_refl _)
    · exact located_lines ihb ⟨e :: k :: (ts ++ [o]), [c], by simp⟩ (Nat.le_succ _)
        (Nat.sub_le ..) part hpart
  | elseClause he ho hsp hb hc hn ih =>
    refine Node.forall_subtrees_iff.2 ⟨.of_role rfl, ?_⟩
    exact located_lines ih (List.infix_append' [_, _] _ [_]) (Nat.le_succ _) (Nat.sub_le ..)
  | @ifStmt r k o c ts condition block clauses p b x hk hv ho hsp hb hc hi hl hn ihv ihb ihi =>
    have hw := Written.ifStmt hk hv ho hsp hb hc hi hl hn
    refine Node.forall_subtrees_iff.2 ⟨.of_top (.statement hw) rfl, fun part hpart => ?_⟩
    rcases List.mem_cons.1 hpart with rfl | hpart
    · intro m hm
      exact (ihv m hm).within (List.infix_append' [k] ts _) (Nat.le_refl _) (Nat.le_refl _)
    rcases List.mem_append.1 hpart with hpart | hpart
    · exact located_lines ihb ⟨k :: (ts ++ [o]), c :: clauses.flatMap Prod.fst, by simp⟩
        (Nat.le_succ _) (Nat.sub_le ..) part hpart
    · intro m hm
      obtain ⟨clause, hclause, rfl⟩ := List.mem_map.1 hpart
      obtain ⟨before, after, rfl⟩ := List.append_of_mem hclause
      refine (ihi clause hclause m hm).within ?_ (Nat.le_refl _) (Nat.le_refl _)
      exact ⟨k :: (ts ++ o :: (block.tokens ++ c :: before.flatMap Prod.fst)),
        after.flatMap Prod.fst, by simp⟩
  | @constDecl r k t a ts value p b x hk ht ha hv hn ih =>
    have hw := Written.constDecl hk ht ha hv hn
    refine forall_of_part rfl (.of_top (.statement hw) rfl) fun m hm => ?_
    exact (ih m hm).within ⟨[k, t, a], [], by simp⟩ (Nat.le_refl _) (Nat.le_refl _)
  | @letValue r k t a ts value p b x hk ht ha hv hn ih =>
    have hw := Written.letValue hk ht ha hv hn
    refine forall_of_part rfl (.of_top (.statement hw) rfl) fun m hm => ?_
    exact (ih m hm).within ⟨[k, t, a], [], by simp⟩ (Nat.le_refl _) (Nat.le_refl _)
  | letBare hk ht hn =>
    exact forall_of_leaf rfl (.of_top (.statement (.letBare hk ht hn)) rfl)
  | @returnValue r k ts value p b x hk hv hn ih =>
    have hw := Written.returnValue hk hv hn
    refine forall_of_part rfl (.of_top (.statement hw) rfl) fun m hm => ?_
    exact (ih m hm).within ⟨[k], [], by simp⟩ (Nat.le_refl _) (Nat.le_refl _)
  | returnBare hk hn =>
    exact forall_of_leaf rfl (.of_top (.statement (.returnBare hk hn)) rfl)
  | @assign r tl tr left right t op p p' b b' x x' hl ha hk ho ht hr hn ihl ihr =>
    have hw := Written.assign hl ha hk ho ht hr hn
    refine Node.forall_subtrees_iff.2 ⟨.of_top (.statement hw) rfl, ?_⟩
    refine forall_of_operation (fun m hm => ?_) (.of_role rfl) (fun m hm => ?_)
    · exact (ihl m hm).within (List.infix_append' [] tl _) (Nat.le_refl _) (Nat.le_refl _)
    · exact (ihr m hm).within ⟨tl ++ [t], [], by simp⟩ (Nat.le_refl _) (Nat.le_refl _)
  | expression _ ih | statement _ ih =>
    intro m hm
    exact (ih m hm).within List.infix_rfl (Nat.le_refl _) (Nat.le_refl _)

/-! ## Reading the text of a node again -/

/-- In a grouped tree, every node is the root of a grouped tree. -/
theorem Node.Grouped.subtrees (h : n.Grouped) : ∀ m ∈ n.subtrees, m.Grouped := by
  induction n using Node.induction with
  | step n ih =>
    have hparts := (Node.grouped_iff.1 h).2
    exact Node.forall_subtrees_iff.2 ⟨h, fun part hpart => ih part hpart (hparts part hpart)⟩

/-- A source whose tokens say what the tokens of one statement say is parsed as that statement. -/
theorem parse_of_written_top {source : String} (h : Written .standard note maxDepth .top ts n)
    (hg : n.Grouped) (hl : Lexes source.toList (ts.map Token.piece)) :
    ∃ n', parse source = .ok [n'] ∧ n'.erase = n.erase := by
  let lines : Lines := ⟨[], [⟨ts, n, []⟩]⟩
  have htokens : lines.tokens = ts := by simp [lines, Lines.tokens]
  have hspaced : lines.Spaced .standard := by
    constructor
    all_goals simp [lines]
  have hwritten : ProgramWritten .standard note maxDepth lines :=
    ⟨List.cons_ne_nil _ _, hspaced, by simpa [lines] using h⟩
  have hgrouped : ∀ m ∈ lines.nodes, m.Grouped := by simpa [lines, Lines.nodes] using hg
  obtain ⟨nodes, hparse, herase⟩ := parse_of_written hwritten hgrouped (by rwa [htokens])
  obtain ⟨n', rfl, hn'⟩ := List.map_eq_singleton_iff.1 herase
  exact ⟨n', hparse, hn'⟩

/-- The text that a node notes about tokens of a source is read as these tokens. -/
private theorem lexes_text {source : String} {tokens us : List Token} {m : Node}
    (h : Tiles .start source.toList tokens)
    (hus : us <:+: tokens.filter fun token => !token.kind.isTrivia)
    (hn : (SourceNote.ofText source.toList).node us m.position m.lineBreaks m.text) :
    Lexes m.text.toList (us.map Token.piece) := by
  obtain ⟨first, last, hfirst, hlast, -, -, htext⟩ := hn
  obtain ⟨before, after, hsplit⟩ := hus
  rw [htext, String.toList_ofList]
  rw [List.append_assoc] at hsplit
  exact h.lexes_slice hsplit.symm hfirst hlast

/-- In a program that is parsed, the text of every statement alone is parsed as that statement. -/
theorem parse_statement_text {source : String} {nodes : List Node} (h : parse source = .ok nodes) :
    ∀ n ∈ nodes, ∃ n', parse n.text = .ok [n'] ∧ n'.same n = true := by
  intro n hn
  obtain ⟨lexemes, stop, lines, hsource, htokens, rfl, hparsed⟩ := parse_reads h
  obtain ⟨tokens, htiles, rfl, -⟩ := Lexeme.ofSource_eq_ok.1 hsource
  rw [Lexeme.map_token_ofTokens] at htokens
  have hgrouped := hparsed.grouped rfl n hn
  obtain ⟨s, hs, rfl⟩ := List.mem_map.1 hn
  have hw := hparsed.written.written s hs
  have hinfix : s.tokens <:+: tokens.filter fun token => !token.kind.isTrivia := by
    rw [htokens]
    exact Lines.infix_of_mem hs
  obtain ⟨n', hparse, herase⟩ :=
    parse_of_written_top hw hgrouped (lexes_text htiles hinfix hw.noted)
  exact ⟨n', hparse, Node.same_iff_erase.2 herase⟩

/-- In a program that is parsed, the text of every expression is parsed as the same expression, and
    the text of every statement, function and collection as a program of just that. -/
theorem parse_text {source : String} {nodes : List Node} (h : parse source = .ok nodes) :
    ∀ n ∈ nodes, ∀ m ∈ n.subtrees,
      (m.role = .expression →
        ∃ m', parseExpression .standard m.text = .ok m' ∧ m'.same m = true) ∧
      (m.role ∈ [Role.statement, .function, .collection] →
        ∃ m', parse m.text = .ok [m'] ∧ m'.same m = true) := by
  intro n hn m hm
  obtain ⟨lexemes, stop, lines, hsource, htokens, rfl, hparsed⟩ := parse_reads h
  obtain ⟨tokens, htiles, rfl, -⟩ := Lexeme.ofSource_eq_ok.1 hsource
  rw [Lexeme.map_token_ofTokens] at htokens
  have hgrouped := (hparsed.grouped rfl n hn).subtrees m hm
  obtain ⟨s, hs, rfl⟩ := List.mem_map.1 hn
  have hlocated := (hparsed.written.written s hs).located m hm
  -- The tokens of the node are tokens of the source without gaps
  have hwithin : ∀ {us : List Token}, us <:+: s.tokens →
      us <:+: tokens.filter fun token => !token.kind.isTrivia := by
    intro us hus
    rw [htokens]
    exact hus.trans (Lines.infix_of_mem hs)
  constructor
  · intro hrole
    obtain ⟨us, hus, hw⟩ := hlocated.expression hrole
    have hnested : Written .standard (.ofText source.toList) maxDepth .nested us m :=
      .nested (hw.mono (Nat.le_refl _))
    obtain ⟨m', hparse, herase⟩ :=
      parseExpression_of_written hnested hgrouped (lexes_text htiles (hwithin hus) hw.noted)
    exact ⟨m', hparse, Node.same_iff_erase.2 herase⟩
  · intro hrole
    obtain ⟨us, hus, hw⟩ := hlocated.statement hrole
    obtain ⟨m', hparse, herase⟩ :=
      parse_of_written_top hw hgrouped (lexes_text htiles (hwithin hus) hw.noted)
    exact ⟨m', hparse, Node.same_iff_erase.2 herase⟩

/-- A program with a key in brackets that has a receiver of its own, a group in a chain, and a
    statement in a function. -/
theorem parse_text_function :
    ∃ nodes, parse "function f(a) \x7b return -(a + 1).b[c.d] \x7d" = .ok nodes ∧
      ∀ n ∈ nodes, ∀ m ∈ n.subtrees,
        (m.role = .expression →
          ∃ m', parseExpression .standard m.text = .ok m' ∧ m'.same m = true) ∧
        (m.role ∈ [Role.statement, .function, .collection] →
          ∃ m', parse m.text = .ok [m'] ∧ m'.same m = true) := by
  obtain ⟨nodes, h⟩ := exists_of_isOk
    (show (parse "function f(a) \x7b return -(a + 1).b[c.d] \x7d").isOk = true by decide +kernel)
  exact ⟨nodes, h, parse_text h⟩

end Schemata
