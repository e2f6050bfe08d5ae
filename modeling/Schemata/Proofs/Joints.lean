import Schemata.Proofs.Agreement
import Schemata.Proofs.ErrorPlaces
import Schemata.Proofs.Spans

/-!
# Where a tree goes on

A tree goes on behind one of its nodes in two ways: with the operator behind the left operand of a
binary node, and with the token that chains a node to its receiver.  These are the `Joint`s of the
tree, and they are the places at which a parse asks whether there was a line break.

`Cursor.Noted` says of a stretch of a parse that what it noted are the tokens at the given joints,
in their order, as far as a newline comes before them.  There is one lemma `_noted` for each step
and each expression parser, and the joints of a node that is read are those of its tree
(`nestedLevel_noted`), for every precedence table.
-/

namespace Schemata

/-! ## The joints of a tree -/

/-- A place at which a tree goes on behind one of its nodes. -/
structure Joint where
  /-- Where that node ends. -/
  stop : Nat
  /-- Where the operator stands that it goes on with, if it does with one. -/
  operator? : Option Position

namespace Node

/-- The joints of a tree, in the order of its source. -/
def joints (node : Node) : List Joint :=
  node.fold fun _ shape receiver =>
    receiver.toList.flatMap (fun part => part.2 ++ [⟨part.1.stop, none⟩]) ++
      match shape with
      | .binary _ left op right =>
        left.2 ++ ⟨left.1.stop, some op.1.position⟩ :: (op.2 ++ right.2)
      | shape => shape.parts.flatMap Prod.snd

/-- The joints of a node itself. -/
def ownJoints (node : Node) : List Joint :=
  node.receiver.toList.map (fun receiver => ⟨receiver.stop, none⟩) ++
    match node.shape with
    | .binary _ left op _ => [⟨left.stop, some op.position⟩]
    | _ => []

end Node

/-- The joints of a node of the given shape that has no receiver. -/
def Shape.joints : Shape Node → List Joint
  | .binary _ left op right =>
    left.joints ++ ⟨left.stop, some op.position⟩ :: (op.joints ++ right.joints)
  | shape => shape.parts.flatMap Node.joints

namespace Node

/-- The joints of a node are those of its receiver, the one behind the receiver and those of its
    shape. -/
theorem joints_eq (node : Node) :
    node.joints =
      node.receiver.toList.flatMap (fun receiver => receiver.joints ++ [⟨receiver.stop, none⟩]) ++
        node.shape.joints := by
  obtain ⟨shape, p, b, x, parenthesized, bracket, receiver⟩ := node
  rw [joints, fold_eq]
  congr 1
  · cases receiver with
    | none => rfl
    | some receiver => rfl
  · cases shape with
    | binary kind left op right => rfl
    | _ =>
      show (Shape.map _ _).parts.flatMap Prod.snd = _
      rw [Shape.parts_map, List.flatMap_map]
      rfl

/-- The joints of a tree are those of its nodes. -/
theorem mem_joints {j : Joint} {node : Node} :
    j ∈ node.joints ↔ ∃ m ∈ node.subtrees, j ∈ m.ownJoints := by
  induction node using Node.induction with
  | step node ih =>
    -- The joints of the root, and those of all parts
    have hjoints : j ∈ node.joints ↔ j ∈ node.ownJoints ∨ ∃ part ∈ node.parts, j ∈ part.joints := by
      rw [joints_eq, ownJoints, parts]
      -- Only a binary expression has a joint among its parts
      cases hshape : node.shape <;> cases node.receiver <;>
        simp [Shape.joints, Shape.parts] <;> grind
    rw [hjoints, subtrees_eq]
    simp only [List.mem_cons, List.mem_flatMap, exists_eq_or_imp]
    constructor
    · rintro (h | ⟨part, hpart, h⟩)
      · exact .inl h
      · obtain ⟨m, hm, hj⟩ := (ih part hpart).1 h
        exact .inr ⟨m, ⟨part, hpart, hm⟩, hj⟩
    · rintro (h | ⟨m, ⟨part, hpart, hm⟩, hj⟩)
      · exact .inl h
      · exact .inr ⟨part, hpart, (ih part hpart).2 ⟨m, hm, hj⟩⟩

/-- A node of a shape alone has the joints of the shape. -/
@[simp] theorem joints_ofShape (shape : Shape Node) (p : Position) :
    (ofShape shape p).joints = shape.joints := by
  rw [joints_eq]
  rfl

/-- A span does not change the joints. -/
@[simp] theorem joints_spanned (s : Setting) (start : Position) (stop : Nat) (node : Node) :
    (s.spanned start stop node).joints = node.joints := by
  rw [joints_eq, joints_eq]
  rfl

/-- An operator has no joints. -/
@[simp] theorem joints_operator (op : Operator) (p : Position) (b : Nat) (x : String) :
    joints ⟨.operator op, p, b, x, false, false, none⟩ = [] := by
  rw [joints_eq]
  rfl

/-- A node that is chained from another goes on behind it. -/
theorem joints_chainedFrom {node : Node} (h : node.receiver = none) (receiver : Node) :
    (node.chainedFrom receiver).joints =
      receiver.joints ++ ⟨receiver.stop, none⟩ :: node.joints := by
  rw [joints_eq, joints_eq node, h]
  simp [chainedFrom]

/-- A key in brackets goes on behind its object, whether it is wrapped or not. -/
theorem joints_bracketed (key object : Node) :
    (key.bracketed object).joints = object.joints ++ ⟨object.stop, none⟩ :: key.joints := by
  obtain ⟨-, he⟩ | ⟨shape, p, b, x, rfl, he⟩ := bracketed_cases key object
  · rw [he, joints_eq]
    simp [Shape.joints, Shape.parts]
  · rw [he, joints_eq, joints_eq ⟨shape, p, b, x, false, false, none⟩]
    simp

end Node

/-! ## What a parse notes -/

/-- The lexeme can be the one that a tree goes on with at the joint: it is the operator, or else a
    token that chains something to an expression. -/
def Joint.Takes (j : Joint) (x : Lexeme) : Prop :=
  match j.operator? with
  | some p => x.token.position = p
  | none => x.token.kind ∈ Parse.chainKinds

/-- Among the lexemes, the tree goes on at the joint with the given one, which comes right behind
    the node that ends there. -/
structure Joint.At (lexemes : List Lexeme) (j : Joint) (x : Lexeme) : Prop where
  follows : ∃ front y back, lexemes = front ++ y :: x :: back ∧ y.token.stop = j.stop
  takes : j.Takes x

namespace Cursor

variable {lexemes : List Lexeme} {js js' : List Joint} {c c' c'' : Cursor} {p : Position}

/-- The cursor has taken the first of the lexemes, if any, and is before the others. -/
def Amid (lexemes : List Lexeme) (c : Cursor) : Prop :=
  ∃ front, lexemes = front ++ c.rest ∧ ∀ y ∈ front.getLast?, y.token.stop = c.lastEnd

/-- Besides, a lexeme at the given position is among those taken. -/
def Behind (lexemes : List Lexeme) (p : Position) (c : Cursor) : Prop :=
  ∃ front, lexemes = front ++ c.rest ∧ (∀ y ∈ front.getLast?, y.token.stop = c.lastEnd) ∧
    ∃ y ∈ front, y.token.position = p

/-- Between the cursors, the parse went on at the joints, and noted those of the lexemes there that
    come after a newline. -/
structure Noted (lexemes : List Lexeme) (c : Cursor) (js : List Joint) (c' : Cursor) : Prop where
  amid : c.Amid lexemes
  noted : ∃ taken noted, c.rest = taken ++ c'.rest ∧
    c'.lastEnd = (taken.getLast?.map (·.token.stop)).getD c.lastEnd ∧ noted.Sublist taken ∧
    List.Forall₂ (Joint.At lexemes) js noted ∧
    c'.ambiguities = c.ambiguities ++ noted.filterMap Lexeme.ambiguity?

/-- A cursor behind a lexeme is amid the lexemes. -/
theorem Behind.amid (h : c.Behind lexemes p) : c.Amid lexemes := by
  obtain ⟨front, hsplit, hstop, -⟩ := h
  exact ⟨front, hsplit, hstop⟩

/-- A parse starts amid its lexemes. -/
theorem Amid.start (lexemes : List Lexeme) : (Cursor.start lexemes).Amid lexemes :=
  ⟨[], rfl, by simp⟩

namespace Noted

/-- Where nothing was taken and nothing noted. -/
theorem of_same (h : c.Amid lexemes) (hrest : c'.rest = c.rest) (hlast : c'.lastEnd = c.lastEnd)
    (hsame : c'.ambiguities = c.ambiguities) : c.Noted lexemes [] c' :=
  ⟨h, [], [], by simp [hrest], hlast, .slnil, .nil, by simp [hsame]⟩

/-- Where a cursor has not moved, nothing is noted. -/
theorem refl (h : c.Amid lexemes) : c.Noted lexemes [] c :=
  of_same h rfl rfl rfl

/-- What was taken before the first cursor and between the two. -/
private theorem taken_stop (h : c.Noted lexemes js c') {front : List Lexeme}
    (hsplit : lexemes = front ++ c.rest) (hstop : ∀ y ∈ front.getLast?, y.token.stop = c.lastEnd) :
    ∃ taken, lexemes = (front ++ taken) ++ c'.rest ∧
      ∀ y ∈ (front ++ taken).getLast?, y.token.stop = c'.lastEnd := by
  obtain ⟨-, taken, noted, hrest, hlast, -⟩ := h
  refine ⟨taken, by rw [hsplit, hrest, List.append_assoc], fun y hy => ?_⟩
  rw [hlast]
  cases htaken : taken.getLast? with
  | none =>
    rw [List.getLast?_append, htaken, Option.none_or] at hy
    exact hstop y hy
  | some z =>
    rw [List.getLast?_append, htaken, Option.some_or] at hy
    obtain rfl := Option.some.inj hy
    rfl

/-- A parse that notes stays amid the lexemes. -/
theorem amid_stop (h : c.Noted lexemes js c') : c'.Amid lexemes := by
  obtain ⟨front, hsplit, hstop⟩ := h.amid
  obtain ⟨taken, hsplit', hstop'⟩ := h.taken_stop hsplit hstop
  exact ⟨front ++ taken, hsplit', hstop'⟩

/-- What a cursor is behind, it stays behind. -/
theorem behind (h : c.Noted lexemes js c') (hp : c.Behind lexemes p) : c'.Behind lexemes p := by
  obtain ⟨front, hsplit, hstop, y, hy, hposition⟩ := hp
  obtain ⟨taken, hsplit', hstop'⟩ := h.taken_stop hsplit hstop
  exact ⟨front ++ taken, hsplit', hstop', y, List.mem_append_left _ hy, hposition⟩

/-- What is noted in two stretches is noted in both together. -/
theorem trans (h : c.Noted lexemes js c') (h' : c'.Noted lexemes js' c'') :
    c.Noted lexemes (js ++ js') c'' := by
  obtain ⟨hamid, taken, noted, hrest, hlast, hsub, hjoints, hsame⟩ := h
  obtain ⟨-, taken', noted', hrest', hlast', hsub', hjoints', hsame'⟩ := h'
  refine ⟨hamid, taken ++ taken', noted ++ noted', ?_, ?_, hsub.append hsub', ?_, ?_⟩
  · rw [hrest, hrest', List.append_assoc]
  -- The last token is that of the second stretch, unless it has none
  · rw [hlast', hlast, List.getLast?_append]
    cases taken'.getLast? <;> rfl
  · exact List.rel_append hjoints hjoints'
  · rw [hsame', hsame, List.filterMap_append, List.append_assoc]

end Noted

/-- The node ends where the last taken token does, and begins with one that has been taken. -/
structure Ends (lexemes : List Lexeme) (n : Node) (c : Cursor) : Prop where
  behind : c.Behind lexemes n.position
  stop : n.stop = c.lastEnd

/-- A node that ends at a cursor ends at every cursor in the same place. -/
theorem Ends.of_same {n : Node} (h : c.Ends lexemes n) (hrest : c'.rest = c.rest)
    (hlast : c'.lastEnd = c.lastEnd) : c'.Ends lexemes n := by
  obtain ⟨front, hsplit, hstop, hy⟩ := h.behind
  exact ⟨⟨front, by rw [hsplit, hrest], by rwa [hlast], hy⟩, by rw [h.stop, hlast]⟩

end Cursor

/-- The lexemes are some that stand one after another in the source, trivia apart. -/
def Setting.Laid (s : Setting) (lexemes : List Lexeme) : Prop :=
  ∃ tokens, Tiles .start s.text tokens ∧ lexemes.map Lexeme.token <:+: Token.solid tokens

namespace Parse

variable {α : Type} {s : Setting} {lexemes : List Lexeme} {js : List Joint} {c c' : Cursor}

/-- A span from a token that has been taken ends with the last one. -/
theorem ends_spanned (hs : s.Laid lexemes) {p : Position} (hp : c.Behind lexemes p) (node : Node) :
    c.Ends lexemes (s.spanned p c.lastEnd node) := by
  obtain ⟨tokens, htiles, us, vs, htokens⟩ := hs
  refine ⟨hp, ?_⟩
  obtain ⟨front, hsplit, hstop, y, hy, rfl⟩ := hp
  obtain ⟨before, back, rfl⟩ := List.append_of_mem hy
  -- The tokens from the one to the other are read from a part of the source
  have hsolid : tokens.filter (fun token => !token.kind.isTrivia) =
      (us ++ before.map Lexeme.token) ++
        ((y :: back).map Lexeme.token ++ (c.rest.map Lexeme.token ++ vs)) := by
    simpa [Token.solid, hsplit] using htokens.symm
  obtain ⟨z, hz⟩ : ∃ z, (y :: back).getLast? = some z := ⟨_, List.getLast?_cons⟩
  have hlast : ((y :: back).map Lexeme.token).getLast? = some z.token := by
    rw [List.getLast?_map, hz, Option.map_some]
  have hend : z.token.stop = c.lastEnd := hstop z (by rw [List.getLast?_append, hz]; rfl)
  obtain ⟨start, middle, after, htext, hposition, hlength, -⟩ :=
    htiles.part_of_filter hsolid rfl hlast
  have hslice : Text.slice s.text y.token.position.offset c.lastEnd = middle := by
    rw [← hend, hlength, hposition, Position.offset_advance_start, htext,
      Text.slice_append_append]
  show y.token.position.offset + Text.byteSize
    (String.ofList (Text.slice s.text y.token.position.offset c.lastEnd)).toList = c.lastEnd
  rw [hslice, String.toList_ofList, ← hend, hlength, hposition, Position.offset_advance_start]

/-- Every result of the parse is read with its own joints. -/
def Notes (lexemes : List Lexeme) (p : Parse α) (joints : α → List Joint) : Prop :=
  ∀ c a c', c.Amid lexemes → p c = .ok a c' → c.Noted lexemes (joints a) c'

/-- Besides, it is a node that ends where the last taken token does. -/
def NotesNode (lexemes : List Lexeme) (p : Parse Node) : Prop :=
  ∀ c n c', c.Amid lexemes → p c = .ok n c' → c.Noted lexemes n.joints c' ∧ c'.Ends lexemes n

/-- A parse that reads a node with its joints notes them. -/
theorem NotesNode.notes {p : Parse Node} (h : NotesNode lexemes p) :
    Notes lexemes p Node.joints :=
  fun c n c' hc hp => (h c n c' hc hp).1

/-! ## Steps that go on nowhere -/

/-- Nothing that is read goes on behind a node. -/
def Silent (p : Parse α) : Prop :=
  ∀ lexemes, Notes lexemes p fun _ => []

namespace Silent

variable {β : Type}

/-- A value that is given back goes on nowhere. -/
theorem pure (a : α) : Silent (pure a : Parse α) := by
  intro lexemes c b c' hc hp
  obtain ⟨-, rfl⟩ := pure_eq_ok.1 hp
  exact .refl hc

/-- Two silent steps in a row are silent. -/
theorem bind {p : Parse α} {f : α → Parse β} (h : Silent p) (hf : ∀ a, Silent (f a)) :
    Silent (p >>= f) := by
  intro lexemes c b c' hc hp
  obtain ⟨a, c₁, hp, hfa⟩ := bind_eq_ok.1 hp
  have hfirst := h lexemes c a c₁ hc hp
  exact hfirst.trans (hf a lexemes c₁ b c' hfirst.amid_stop hfa)

/-- A parse that always fails is silent. -/
theorem of_fails {p : Parse α} (h : ∀ c a c', p c ≠ .ok a c') : Silent p :=
  fun _ c a c' _ hp => absurd hp (h c a c')

/-- A step that changes only what was noted besides. -/
theorem modify {f : Cursor → Cursor} (hrest : ∀ c, (f c).rest = c.rest)
    (hlast : ∀ c, (f c).lastEnd = c.lastEnd) (hsame : ∀ c, (f c).ambiguities = c.ambiguities) :
    Silent (modify f) := by
  intro lexemes c u c' hc hp
  obtain rfl : f c = c' := (EStateM.Result.ok.inj hp).2
  exact .of_same hc (hrest c) (hlast c) (hsame c)

end Silent

/-- To look at the next token goes on nowhere. -/
theorem silent_peek : Silent peek := by
  intro lexemes c next c' hc hp
  obtain ⟨-, rfl⟩ := peek_eq_ok.1 hp
  exact .refl hc

/-- To note what was expected goes on nowhere. -/
theorem silent_expecting (what : Expectation) : Silent (expecting what) := by
  refine .modify (fun c => ?_) (fun c => ?_) fun c => ?_
  all_goals split <;> rfl

/-- A requirement goes on nowhere. -/
theorem silent_require (fault : Fault) (required : Prop) [Decidable required] :
    Silent (require fault required) :=
  .modify (fun _ => rfl) (fun _ => rfl) fun _ => rfl

/-- To enter a level goes on nowhere. -/
theorem silent_enter (room : Nat) : Silent (enter s room) :=
  .modify (fun _ => rfl) (fun _ => rfl) fun _ => rfl

/-- To span a node goes on nowhere. -/
theorem silent_span (start : Position) (node : Node) : Silent (span s start node) := by
  intro lexemes c n c' hc hp
  obtain ⟨-, rfl⟩ := span_eq_ok.1 hp
  exact .refl hc

/-- To finish a node goes on nowhere. -/
theorem silent_finish (shape : Shape Node) (start : Position) : Silent (finish s shape start) :=
  silent_span start _

/-- A look for a token goes on nowhere. -/
theorem silent_check? (kind : TokenKind) : Silent (check? kind) := by
  have hnone : Silent (expecting (.token kind) >>= fun _ => (pure none : Parse (Option Token))) :=
    (silent_expecting _).bind fun _ => .pure _
  refine silent_peek.bind fun next => ?_
  cases next with
  | none => exact hnone
  | some lexeme =>
    dsimp only
    split
    · exact .pure _
    · exact hnone

/-- A look for tokens of several kinds goes on nowhere. -/
theorem silent_checkAny? (kinds : List TokenKind) : Silent (checkAny? kinds) := by
  induction kinds with
  | nil => exact .pure _
  | cons kind kinds ih =>
    refine (silent_check? kind).bind fun found => ?_
    cases found with
    | some token => exact .pure _
    | none => exact ih

/-- Taking the next token. -/
theorem take_noted {x : Lexeme} {u : Unit} (hc : c.Amid lexemes) (hhead : c.rest.head? = some x)
    (h : take x.token c = .ok u c') :
    c.Noted lexemes [] c' ∧ c'.Behind lexemes x.token.position := by
  obtain ⟨rest, hrest⟩ := List.head?_eq_some_iff.1 hhead
  obtain rfl := take_eq_ok.1 h
  constructor
  · exact ⟨hc, [x], [], by simp [hrest], rfl, List.nil_sublist _, .nil, by simp [Cursor.after]⟩
  · obtain ⟨front, hsplit, -⟩ := hc
    exact ⟨front ++ [x], by simp [hsplit, hrest], by simp [Cursor.after], x, by simp, rfl⟩

/-- Asking for a newline before the next token, and taking it. -/
theorem continued_noted {x : Lexeme} {n : Node} {u v : Unit} {c₁ : Cursor}
    {operator? : Option Position}
    (hends : c.Ends lexemes n) (hhead : c.rest.head? = some x)
    (htakes : Joint.Takes ⟨n.stop, operator?⟩ x) (hnote : noteContinuation x c = .ok u c₁)
    (htake : take x.token c₁ = .ok v c') :
    c.Noted lexemes [⟨n.stop, operator?⟩] c' := by
  obtain ⟨rest, hrest⟩ := List.head?_eq_some_iff.1 hhead
  rw [noteContinuation_eq] at hnote
  obtain ⟨-, rfl⟩ := EStateM.Result.ok.inj hnote
  obtain rfl := take_eq_ok.1 htake
  -- The node ends with the last token taken, and the lexeme is the next one
  have hat : Joint.At lexemes ⟨n.stop, operator?⟩ x := by
    refine ⟨?_, htakes⟩
    obtain ⟨front, hsplit, hstop, y, hy, -⟩ := hends.behind
    obtain ⟨z, hz⟩ : ∃ z, front.getLast? = some z :=
      Option.isSome_iff_exists.1 (List.getLast?_isSome.2 (List.ne_nil_of_mem hy))
    obtain ⟨init, rfl⟩ := List.getLast?_eq_some_iff.1 hz
    exact ⟨init, z, rest, by simp [hsplit, hrest], (hstop z hz).trans hends.stop.symm⟩
  refine ⟨hends.behind.amid, [x], [x], ?_, rfl, List.Sublist.refl _, .cons hat .nil, ?_⟩
  · simp [hrest]
  · show c.ambiguities ++ x.ambiguity?.toList = _
    cases h : x.ambiguity? with
    | none => simp [h]
    | some a => simp [h]

/-- To take a token of a kind goes on nowhere, if none is noted on the way. -/
theorem silent_eat? (kind : TokenKind) : Silent (eat? kind) := by
  intro lexemes c r c' hc hp
  obtain ⟨found, c₁, hcheck, h⟩ := bind_eq_ok.1 hp
  have hfirst := silent_check? kind lexemes c found c₁ hc hcheck
  obtain ⟨-, ⟨t, ts, rfl, -, htokens⟩ | ⟨rfl, -⟩⟩ := check?_took hcheck
  · obtain ⟨_, c₂, htake, h⟩ := bind_eq_ok.1 h
    obtain ⟨-, rfl⟩ := pure_eq_ok.1 h
    obtain ⟨x, rest, hrest, rfl, -⟩ := List.map_eq_cons_iff.1 htokens
    have hhead : c₁.rest.head? = some x := by rw [hrest]; rfl
    exact hfirst.trans (take_noted hfirst.amid_stop hhead htake).1
  · obtain ⟨-, rfl⟩ := pure_eq_ok.1 h
    exact hfirst

/-- To take a token of a kind and say whether there was one goes on nowhere. -/
theorem silent_eats (kind : TokenKind) : Silent (eats kind) :=
  (silent_eat? kind).bind fun _ => .pure _

/-- A parse that fails where it stands is silent. -/
theorem silent_failHere : Silent (failHere s : Parse α) :=
  .of_fails fun _ _ _ => failHere_ne_ok

/-- To demand a token goes on nowhere. -/
theorem silent_expect (kind : TokenKind) : Silent (expect s kind) := by
  refine (silent_eat? kind).bind fun found => ?_
  cases found with
  | some token => exact .pure _
  | none => exact silent_failHere

/-! ## Steps after one another -/

section

variable {β : Type} {joints : α → List Joint} {joints' : β → List Joint}

/-- What is read, together with the given joints before it, has its own joints. -/
def NotesAfter (lexemes : List Lexeme) (js : List Joint) (p : Parse α) (joints : α → List Joint) :
    Prop :=
  ∀ (c₀ c : Cursor) (a : α) (c' : Cursor), c₀.Noted lexemes js c → p c = .ok a c' →
    c₀.Noted lexemes (joints a) c'

/-- Every result of the parse is read with its own joints if the given lexeme comes next. -/
def NotesBefore (lexemes : List Lexeme) (x : Lexeme) (p : Parse α) (joints : α → List Joint) :
    Prop :=
  ∀ c a c', c.Amid lexemes → c.rest.head? = some x → p c = .ok a c' →
    c.Noted lexemes (joints a) c'

/-- With no joints before it, what is read has its own joints. -/
theorem NotesAfter.notes {p : Parse α} (h : NotesAfter lexemes [] p joints) :
    Notes lexemes p joints :=
  fun c a c' hc hp => h c c a c' (.refl hc) hp

/-- A value may be given back with the joints that were read. -/
theorem NotesAfter.pure {a : α} (h : joints a = js) :
    NotesAfter lexemes js (pure a : Parse α) joints := by
  intro c₀ c b c' hread hp
  obtain ⟨rfl, rfl⟩ := pure_eq_ok.1 hp
  rwa [h]

/-- A node may be finished with the joints that were read for its shape. -/
theorem NotesAfter.finish {shape : Shape Node} {p : Position} (h : shape.joints = js) :
    NotesAfter lexemes js (finish s shape p) Node.joints := by
  intro c₀ c n c' hread hp
  obtain ⟨rfl, rfl⟩ := finish_eq_ok.1 hp
  rwa [Node.joints_spanned, Node.joints_ofShape, h]

/-- What is read may be wrapped if that keeps its joints. -/
theorem NotesAfter.map {p : Parse α} {f : α → β} (h : NotesAfter lexemes js p joints)
    (hf : ∀ a, joints' (f a) = joints a) :
    NotesAfter lexemes js (do return f (← p)) joints' := by
  intro c₀ c b c' hread hrun
  obtain ⟨a, c₁, hp, hfa⟩ := bind_eq_ok.1 hrun
  obtain ⟨rfl, rfl⟩ := pure_eq_ok.1 hfa
  rw [hf]
  exact h c₀ c a c₁ hread hp

/-- After a parse come the joints before it and its own. -/
theorem Notes.after {p : Parse α} {f : α → Parse β} (h : Notes lexemes p joints)
    (hf : ∀ a, NotesAfter lexemes (js ++ joints a) (f a) joints') :
    NotesAfter lexemes js (p >>= f) joints' := by
  intro c₀ c b c' hread hp
  obtain ⟨a, c₁, hp, hfa⟩ := bind_eq_ok.1 hp
  exact hf a c₀ c₁ b c' (hread.trans (h c a c₁ hread.amid_stop hp)) hfa

/-- After a silent step the joints are those before it, and what follows may rely on its result. -/
theorem Silent.afterWhere {p : Parse α} {f : α → Parse β} (h : Silent p)
    (hf : ∀ {c a c'}, p c = .ok a c' → NotesAfter lexemes js (f a) joints') :
    NotesAfter lexemes js (p >>= f) joints' := by
  intro c₀ c b c' hread hp
  obtain ⟨a, c₁, hp, hfa⟩ := bind_eq_ok.1 hp
  have hnone := hread.trans (h lexemes c a c₁ hread.amid_stop hp)
  rw [List.append_nil] at hnone
  exact hf hp c₀ c₁ b c' hnone hfa

/-- After a silent step the joints are those before it. -/
theorem Silent.after {p : Parse α} {f : α → Parse β} (h : Silent p)
    (hf : ∀ a, NotesAfter lexemes js (f a) joints') : NotesAfter lexemes js (p >>= f) joints' :=
  h.afterWhere fun _ => hf _

/-- What follows the first token of something has all its joints. -/
theorem NotesBefore.take {x : Lexeme} {f : Unit → Parse α}
    (h : NotesAfter lexemes [] (f ()) joints) :
    NotesBefore lexemes x (take x.token >>= f) joints := by
  intro c a c' hc hhead hp
  obtain ⟨_, c₁, htake, hp⟩ := bind_eq_ok.1 hp
  exact h c c₁ a c' (take_noted hc hhead htake).1 hp

/-- A parse that notes its joints does so before every lexeme. -/
theorem Notes.before {p : Parse α} (h : Notes lexemes p joints) (x : Lexeme) :
    NotesBefore lexemes x p joints :=
  fun c a c' hc _ hp => h c a c' hc hp

/-- A choice by the next lexeme notes what the chosen parse notes. -/
theorem notes_peek {f : Option Lexeme → Parse α} (hnone : Notes lexemes (f none) joints)
    (hsome : ∀ x, NotesBefore lexemes x (f (some x)) joints) :
    Notes lexemes (peek >>= f) joints := by
  intro c a c' hc hp
  rw [peek_bind] at hp
  cases hhead : c.rest.head? with
  | none =>
    rw [hhead] at hp
    exact hnone c a c' hc hp
  | some x =>
    rw [hhead] at hp
    exact hsome x c a c' hc hhead hp

end

/-! ## Loops -/

/-- The joints of what a round found. -/
def Round.joints (joints : α → List Joint) : Round α → List Joint
  | .more item | .last item => joints item
  | .done => []

/-- A sequence has the joints of its items, one after the other. -/
theorem gather_noted {round : Parse (Round α)} {joints : α → List Joint}
    (h : Notes lexemes round (Round.joints joints)) :
    Notes lexemes (gather round) fun items => items.flatMap joints := by
  -- Induction on the bound of the rounds, which is taken from the cursor
  have hwithin : ∀ rounds, Notes lexemes (gatherWithin round rounds)
      fun items => items.flatMap joints := by
    intro rounds
    induction rounds with
    | zero =>
      intro c items c' hc hp
      obtain ⟨_, c₁, hrequire, hp⟩ := bind_eq_ok.1 hp
      obtain ⟨rfl, rfl⟩ := pure_eq_ok.1 hp
      exact silent_require _ _ lexemes c _ _ hc hrequire
    | succ rounds ih =>
      intro c items c' hc hp
      obtain ⟨found, c₁, hround, hp⟩ := bind_eq_ok.1 hp
      have hfirst := h c found c₁ hc hround
      cases found with
      | more item =>
        obtain ⟨items', c₂, hitems, hp⟩ := bind_eq_ok.1 hp
        obtain ⟨rfl, rfl⟩ := pure_eq_ok.1 hp
        exact hfirst.trans (ih c₁ items' c₂ hfirst.amid_stop hitems)
      | last item =>
        obtain ⟨rfl, rfl⟩ := pure_eq_ok.1 hp
        simpa [Round.joints] using hfirst
      | done =>
        obtain ⟨rfl, rfl⟩ := pure_eq_ok.1 hp
        exact hfirst
  intro c items c' hc hp
  obtain ⟨_, _, hget, hp⟩ := bind_eq_ok.1 hp
  obtain ⟨rfl, rfl⟩ := get_eq_ok.1 hget
  exact hwithin _ _ _ _ hc hp

/-- A tree that grows, by steps that go on behind it. -/
theorem iterate_noted {step : Node → Parse (ForInStep Node)}
    (hstep : ∀ a c r c', c.Ends lexemes a → step a c = .ok r c' →
      ∃ js, c.Noted lexemes js c' ∧ r.value.joints = a.joints ++ js ∧ c'.Ends lexemes r.value)
    {a b : Node} (ha : c.Ends lexemes a) (hrun : iterate step a c = .ok b c') :
    ∃ js, c.Noted lexemes js c' ∧ b.joints = a.joints ++ js ∧ c'.Ends lexemes b := by
  obtain ⟨_, _, hget, h⟩ := bind_eq_ok.1 hrun
  obtain ⟨rfl, rfl⟩ := get_eq_ok.1 hget
  clear hget hrun
  -- The number of rounds is fixed before the first, so the induction is on it
  generalize c.rest.length + 1 = rounds at h
  induction rounds generalizing a c with
  | zero =>
    obtain ⟨_, c₁, hrequire, h⟩ := bind_eq_ok.1 h
    obtain ⟨rfl, rfl⟩ := pure_eq_ok.1 h
    -- Running out of rounds is a fault, but nothing is noted by it
    obtain rfl : c.require _ _ = c₁ := (EStateM.Result.ok.inj hrequire).2
    exact ⟨[], .of_same ha.behind.amid rfl rfl rfl, by simp, ha.of_same rfl rfl⟩
  | succ rounds ih =>
    obtain ⟨r, c₁, hr, h⟩ := bind_eq_ok.1 h
    obtain ⟨js, hfirst, hjs, hends⟩ := hstep a c r c₁ ha hr
    cases r with
    | yield a' =>
      obtain ⟨js', hrest, hjs', hb⟩ := ih hends h
      refine ⟨js ++ js', hfirst.trans hrest, ?_, hb⟩
      rw [hjs', ← List.append_assoc, ← hjs]
    | done a' =>
      obtain ⟨rfl, rfl⟩ := pure_eq_ok.1 h
      exact ⟨js, hfirst, hjs, hends⟩

/-- Steps that go on nowhere make a loop that goes on nowhere. -/
theorem silent_iterate {step : α → Parse (ForInStep α)} (h : ∀ a, Silent (step a)) (a : α) :
    Silent (iterate step a) := by
  have hwithin : ∀ rounds a, Silent (iterateWithin step rounds a) := by
    intro rounds
    induction rounds with
    | zero => exact fun _ => (silent_require _ _).bind fun _ => .pure _
    | succ rounds ih =>
      intro a
      refine (h a).bind fun found => ?_
      cases found with
      | yield value => exact ih value
      | done value => exact .pure _
  intro lexemes c b c' hc hp
  obtain ⟨_, _, hget, hp⟩ := bind_eq_ok.1 hp
  obtain ⟨rfl, rfl⟩ := get_eq_ok.1 hget
  exact hwithin _ _ _ _ _ _ hc hp

/-- To skip semicolons goes on nowhere. -/
theorem silent_skipSemicolons : Silent skipSemicolons :=
  silent_iterate (fun _ => (silent_eats _).bind fun _ => .pure _) ()

/-- A list has the joints of its items. -/
theorem list_noted {close : TokenKind} {item : Parse α} {joints : α → List Joint}
    (h : Notes lexemes item joints) :
    Notes lexemes (list s close item) fun items => items.flatMap joints := by
  apply gather_noted
  -- Commas and the closing token go on nowhere
  refine ((silent_eats close).after fun closed => ?_).notes
  cases closed with
  | true => exact .pure rfl
  | false =>
    refine h.after fun value => (silent_eats .comma).after fun comma => ?_
    cases comma with
    | true => exact .pure rfl
    | false => exact (silent_expect close).after fun _ => .pure rfl

/-! ## Expressions -/

section

variable {n : Node} {expression : Parse Node} (hs : s.Laid lexemes)
include hs

/-- Where a node is finished, its joints are those of what was read for it. -/
theorem finish_noted {c₁ : Cursor} {shape : Shape Node} {p : Position}
    (hread : c.Noted lexemes js c₁) (hp : c₁.Behind lexemes p) (hjoints : shape.joints = js)
    (h : finish s shape p c₁ = .ok n c') : c.Noted lexemes n.joints c' ∧ c'.Ends lexemes n := by
  obtain ⟨rfl, rfl⟩ := finish_eq_ok.1 h
  refine ⟨?_, ends_spanned hs hp _⟩
  rw [Node.joints_spanned, Node.joints_ofShape, hjoints]
  exact hread

omit hs in
/-- What follows the key of an entry. -/
private theorem entryValue_noted (hexpr : NotesNode lexemes expression) {key : Node}
    (hkey : key.joints = []) :
    NotesAfter lexemes [] (do
      if ← eats .colon then
        let value ← expression
        finish s (.entry key value) key.position
      else if key.name?.isSome then
        let value ← pure key
        finish s (.entry key value) key.position
      else
        let value ← failHere s
        finish s (.entry key value) key.position) Node.joints := by
  refine (silent_eats .colon).after fun colon => ?_
  cases colon with
  | true => exact hexpr.notes.after fun value => .finish (by simp [Shape.joints, Shape.parts, hkey])
  | false =>
    simp only [Bool.false_eq_true, if_false]
    split
    -- Without a colon, the key is the value as well
    · rw [pure_bind]
      exact .finish (by simp [Shape.joints, Shape.parts, hkey])
    · exact silent_failHere.afterWhere fun h => absurd h failHere_ne_ok

omit hs in
/-- An entry of an object has the joints of its value. -/
theorem objectEntry_noted (hexpr : NotesNode lexemes expression) :
    Notes lexemes (objectEntry s expression) Node.joints := by
  have hnone : ∀ {f : Node → Parse Node}, NotesAfter lexemes []
      (do expecting (.token .name); expecting (.token .string); failHere s >>= f) Node.joints :=
    (silent_expecting _).after fun _ => (silent_expecting _).after fun _ =>
      silent_failHere.afterWhere fun h => absurd h failHere_ne_ok
  -- A key has no joints of its own
  have hkey : ∀ {shape : Shape Node}, shape.joints = [] → ∀ {p : Position} {c : Cursor} {key : Node}
      {c' : Cursor}, finish s shape p c = .ok key c' → key.joints = [] := by
    intro shape hshape p c key c' h
    obtain ⟨rfl, -⟩ := finish_eq_ok.1 h
    rwa [Node.joints_spanned, Node.joints_ofShape]
  refine notes_peek hnone.notes fun lexeme => ?_
  dsimp only
  split
  · exact .take ((silent_finish _ _).afterWhere fun h => entryValue_noted hexpr (hkey rfl h))
  · exact .take ((silent_finish _ _).afterWhere fun h => entryValue_noted hexpr (hkey rfl h))
  · exact hnone.notes.before lexeme

/-- An atom has the joints of what stands in it, and ends with its last token. -/
theorem atom_noted (hexpr : NotesNode lexemes expression) :
    NotesNode lexemes (atom s expression) := by
  intro c n c' hc h
  obtain ⟨next, _, hp, h⟩ := bind_eq_ok.1 h
  obtain ⟨hhead, rfl⟩ := peek_eq_ok.1 hp
  cases next with
  | none => exact absurd h failAtom_ne_ok
  | some lexeme =>
    -- Every atom begins with taking its first token
    have hleaf : ∀ {shape : Shape Node}, shape.joints = [] →
        (do take lexeme.token; finish s shape lexeme.token.position : Parse Node) c = .ok n c' →
        c.Noted lexemes n.joints c' ∧ c'.Ends lexemes n := by
      intro shape hshape h
      obtain ⟨_, c₁, htake, h⟩ := bind_eq_ok.1 h
      obtain ⟨hfirst, hbehind⟩ := take_noted hc hhead htake
      exact finish_noted hs hfirst hbehind hshape h
    have hlist : ∀ {shape : List Node → Shape Node} {close : TokenKind} {item : Parse Node},
        Notes lexemes item Node.joints →
        (∀ items, (shape items).joints = items.flatMap Node.joints) →
        (do
          take lexeme.token
          let items ← list s close item
          finish s (shape items) lexeme.token.position : Parse Node) c = .ok n c' →
        c.Noted lexemes n.joints c' ∧ c'.Ends lexemes n := by
      intro shape close item hitem hshape h
      obtain ⟨_, c₁, htake, h⟩ := bind_eq_ok.1 h
      obtain ⟨hfirst, hbehind⟩ := take_noted hc hhead htake
      obtain ⟨items, c₂, hitems, h⟩ := bind_eq_ok.1 h
      have hrest := list_noted hitem c₁ items c₂ hfirst.amid_stop hitems
      exact finish_noted hs (hfirst.trans hrest) (hrest.behind hbehind) (hshape items) h
    change EStateM.run _ _ = _ at h
    split at h
    · exact hleaf rfl h
    · exact hleaf rfl h
    · exact hleaf rfl h
    · exact hleaf rfl h
    · exact hlist hexpr.notes (fun _ => rfl) h
    · exact hlist (objectEntry_noted hexpr) (fun _ => rfl) h
    · obtain ⟨_, c₁, htake, h⟩ := bind_eq_ok.1 h
      obtain ⟨hfirst, hbehind⟩ := take_noted hc hhead htake
      obtain ⟨inner, c₂, hi, h⟩ := bind_eq_ok.1 h
      have hinner := (hexpr c₁ inner c₂ hfirst.amid_stop hi).1
      obtain ⟨t, c₃, hexpect, h⟩ := bind_eq_ok.1 h
      have hclose := silent_expect .rightParen lexemes c₂ t c₃ hinner.amid_stop hexpect
      obtain ⟨rfl, rfl⟩ := span_eq_ok.1 h
      -- Parentheses change nothing but the span of what stands in them
      have hjoints : (s.spanned lexeme.token.position c₃.lastEnd
          { inner with parenthesized := true }).joints = inner.joints := by
        rw [Node.joints_spanned, Node.joints_eq, Node.joints_eq inner]
      refine ⟨?_, ends_spanned hs (hclose.behind (hinner.behind hbehind)) _⟩
      rw [hjoints]
      simpa using (hfirst.trans hinner).trans hclose
    · exact absurd h failAtom_ne_ok

/-- A link goes on behind the node that it is chained from. -/
theorem link_noted (hexpr : NotesNode lexemes expression) {node : Node} {r : ForInStep Node}
    (hends : c.Ends lexemes node) (h : link s expression node c = .ok r c') :
    ∃ js, c.Noted lexemes js c' ∧ r.value.joints = node.joints ++ js ∧
      c'.Ends lexemes r.value := by
  have hc := hends.behind.amid
  -- At the end of the chain nothing is noted and the node is the same
  have hend : endChain node c = .ok r c' → ∃ js, c.Noted lexemes js c' ∧
      r.value.joints = node.joints ++ js ∧ c'.Ends lexemes r.value := by
    intro h
    have hsilent : Silent (endChain node) :=
      (silent_expecting _).bind fun _ => (silent_expecting _).bind fun _ =>
        (silent_expecting _).bind fun _ => .pure _
    obtain ⟨rfl, ht⟩ := endChain_took h
    have hnoted := hsilent lexemes c _ c' hc h
    exact ⟨[], hnoted, by simp [ForInStep.value], hnoted.behind hends.behind,
      hends.stop.trans ht.lastEnd.symm⟩
  obtain ⟨next, _, hp, h⟩ := bind_eq_ok.1 h
  obtain ⟨hhead, rfl⟩ := peek_eq_ok.1 hp
  cases next with
  | none => exact hend h
  | some lexeme =>
    change EStateM.run _ _ = _ at h
    have htakes : lexeme.token.kind ∈ chainKinds → Joint.Takes ⟨node.stop, none⟩ lexeme := id
    split at h
    · next hkind =>
      obtain ⟨_, c₁, hnote, h⟩ := bind_eq_ok.1 h
      obtain ⟨_, c₂, htake, h⟩ := bind_eq_ok.1 h
      -- The link goes on behind the node: this is the joint that is new
      have hjoint := continued_noted hends hhead (htakes (by simp [hkind, chainKinds])) hnote htake
      obtain ⟨name, c₃, hname, h⟩ := bind_eq_ok.1 h
      have hread := silent_expect .name lexemes c₂ name c₃ hjoint.amid_stop hname
      obtain ⟨member, c₄, hm, h⟩ := bind_eq_ok.1 h
      obtain ⟨rfl, rfl⟩ := finish_eq_ok.1 hm
      obtain ⟨rfl, rfl⟩ := pure_eq_ok.1 h
      have hbehind := hread.behind (hjoint.behind hends.behind)
      refine ⟨_, hjoint.trans hread, ?_, ?_⟩
      · rw [ForInStep.value, Node.joints_chainedFrom rfl]
        simp [Shape.joints, Shape.parts]
      · exact ends_spanned hs hbehind (((Node.ofShape _ _).chainedFrom node))
    · next hkind =>
      obtain ⟨_, c₁, hnote, h⟩ := bind_eq_ok.1 h
      obtain ⟨_, c₂, htake, h⟩ := bind_eq_ok.1 h
      have hjoint := continued_noted hends hhead (htakes (by simp [hkind, chainKinds])) hnote htake
      obtain ⟨key, c₃, hk, h⟩ := bind_eq_ok.1 h
      have hkey := (hexpr c₂ key c₃ hjoint.amid_stop hk).1
      obtain ⟨t, c₄, hclose, h⟩ := bind_eq_ok.1 h
      have hread := hkey.trans (silent_expect .rightBracket lexemes c₃ t c₄ hkey.amid_stop hclose)
      obtain ⟨whole, c₅, hw, h⟩ := bind_eq_ok.1 h
      obtain ⟨rfl, rfl⟩ := span_eq_ok.1 hw
      obtain ⟨rfl, rfl⟩ := pure_eq_ok.1 h
      have hbehind := hread.behind (hjoint.behind hends.behind)
      refine ⟨_, hjoint.trans hread, ?_, ends_spanned hs hbehind _⟩
      rw [ForInStep.value, Node.joints_spanned, Node.joints_bracketed]
      simp
    · next hkind =>
      obtain ⟨_, c₁, hnote, h⟩ := bind_eq_ok.1 h
      obtain ⟨_, c₂, htake, h⟩ := bind_eq_ok.1 h
      have hjoint := continued_noted hends hhead (htakes (by simp [hkind, chainKinds])) hnote htake
      obtain ⟨args, c₃, hargs, h⟩ := bind_eq_ok.1 h
      have hread := list_noted hexpr.notes c₂ args c₃ hjoint.amid_stop hargs
      obtain ⟨call, c₄, hcall, h⟩ := bind_eq_ok.1 h
      obtain ⟨rfl, rfl⟩ := finish_eq_ok.1 hcall
      obtain ⟨rfl, rfl⟩ := pure_eq_ok.1 h
      have hbehind := hread.behind (hjoint.behind hends.behind)
      refine ⟨_, hjoint.trans hread, ?_, ?_⟩
      · rw [ForInStep.value, Node.joints_chainedFrom rfl]
        simp [Shape.joints, Shape.parts]
      · exact ends_spanned hs hbehind (((Node.ofShape _ _).chainedFrom node))
    · exact hend h

/-- A chain has the joints of its atom, and one for each link. -/
theorem chain_noted (hexpr : NotesNode lexemes expression) :
    NotesNode lexemes (chain s expression) := by
  intro c n c' hc h
  obtain ⟨node, c₁, ha, h⟩ := bind_eq_ok.1 h
  obtain ⟨hnode, hends⟩ := atom_noted hs hexpr c node c₁ hc ha
  obtain ⟨js, hlinks, hjs, hends'⟩ :=
    iterate_noted (fun _ _ _ _ hends h => link_noted hs hexpr hends h) hends h
  exact ⟨hjs ▸ hnode.trans hlinks, hends'⟩

/-! ## Levels -/

variable {nested : Nat → Parse Node} {tighter : Parse Node} {level : Nat}

/-- An operand after a sign has its own joints. -/
theorem unaryFrom_noted (hn : ∀ level, NotesNode lexemes (nested level)) {kind : UnaryKind}
    {x : Lexeme} (hc : c.Amid lexemes) (hhead : c.rest.head? = some x)
    (h : unaryFrom s nested level kind x.token c = .ok n c') :
    c.Noted lexemes n.joints c' ∧ c'.Ends lexemes n := by
  obtain ⟨_, c₁, htake, h⟩ := bind_eq_ok.1 h
  obtain ⟨hfirst, hbehind⟩ := take_noted hc hhead htake
  obtain ⟨value, c₂, hv, h⟩ := bind_eq_ok.1 h
  have hvalue := (hn level c₁ value c₂ hfirst.amid_stop hv).1
  exact finish_noted hs (hfirst.trans hvalue) (hvalue.behind hbehind)
    (by simp [Shape.joints, Shape.parts]) h

/-- A right operand has its own joints, with a sign in front or without. -/
theorem rightOperand_noted (hn : ∀ level, NotesNode lexemes (nested level))
    (ht : NotesNode lexemes tighter) :
    NotesNode lexemes (rightOperand s nested level tighter) := by
  intro c n c' hc h
  obtain ⟨_, c₁, hrequire, h⟩ := bind_eq_ok.1 h
  have hfirst := silent_require _ _ lexemes c _ c₁ hc hrequire
  suffices hrest : c₁.Noted lexemes n.joints c' ∧ c'.Ends lexemes n from
    ⟨hfirst.trans hrest.1, hrest.2⟩
  have hc₁ := hfirst.amid_stop
  obtain ⟨next, _, hp, h⟩ := bind_eq_ok.1 h
  obtain ⟨hhead, rfl⟩ := peek_eq_ok.1 hp
  cases next with
  | none => exact ht c₁ n c' hc₁ h
  | some lexeme =>
    change EStateM.run _ _ = _ at h
    split at h
    · exact unaryFrom_noted hs hn hc₁ hhead h
    · exact ht c₁ n c' hc₁ h

/-- An operator goes on behind its left operand. -/
theorem binaryStep_noted (hn : ∀ level, NotesNode lexemes (nested level))
    (ht : NotesNode lexemes tighter) {kind : BinaryKind} {operators : List TokenKind} {left : Node}
    {r : ForInStep Node} (hends : c.Ends lexemes left)
    (h : binaryStep s nested level kind operators tighter left c = .ok r c') :
    ∃ js, c.Noted lexemes js c' ∧ r.value.joints = left.joints ++ js ∧
      c'.Ends lexemes r.value := by
  -- Without an operator the left operand is all there is
  have hdone : (pure (.done left) : Parse (ForInStep Node)) c = .ok r c' →
      ∃ js, c.Noted lexemes js c' ∧ r.value.joints = left.joints ++ js ∧
        c'.Ends lexemes r.value := by
    intro h
    obtain ⟨rfl, rfl⟩ := pure_eq_ok.1 h
    exact ⟨[], .refl hends.behind.amid, by simp [ForInStep.value], hends⟩
  obtain ⟨next, _, hp, h⟩ := bind_eq_ok.1 h
  obtain ⟨hhead, rfl⟩ := peek_eq_ok.1 hp
  cases next with
  | none => exact hdone h
  | some lexeme =>
    dsimp only at h
    split at h
    · obtain ⟨_, c₁, hnote, h⟩ := bind_eq_ok.1 h
      obtain ⟨_, c₂, htake, h⟩ := bind_eq_ok.1 h
      -- The operator that is taken is the one whose place the joint names
      have htakes : Joint.Takes ⟨left.stop, some lexeme.token.position⟩ lexeme := rfl
      have hjoint := continued_noted hends hhead htakes hnote htake
      obtain ⟨op, c₃, ho, h⟩ := bind_eq_ok.1 h
      obtain ⟨rfl, operator, -, rfl⟩ := operatorNode_eq_ok ho
      obtain ⟨right, c₄, hr, h⟩ := bind_eq_ok.1 h
      have hright := (rightOperand_noted hs hn ht c₂ right c₄ hjoint.amid_stop hr).1
      obtain ⟨whole, c₅, hw, h⟩ := bind_eq_ok.1 h
      obtain ⟨rfl, rfl⟩ := finish_eq_ok.1 hw
      obtain ⟨rfl, rfl⟩ := pure_eq_ok.1 h
      have hbehind := hright.behind (hjoint.behind hends.behind)
      refine ⟨_, hjoint.trans hright, ?_, ends_spanned hs hbehind _⟩
      simp [ForInStep.value, Shape.joints]
    · exact hdone h

/-- The levels of a table have the joints of their trees. -/
theorem climb_noted (hn : ∀ level, NotesNode lexemes (nested level)) (levels : List Level)
    (level : Nat) : NotesNode lexemes (climb s nested level levels) := by
  -- Induction on the rows that are left, from the tightest
  induction levels generalizing level with
  | nil => exact chain_noted hs (hn 0)
  | cons row tighter ih =>
    intro c n c' hc h
    cases row with
    | binary kind operators =>
      obtain ⟨left, c₁, hl, h⟩ := bind_eq_ok.1 h
      obtain ⟨hleft, hends⟩ := ih (level + 1) c left c₁ hc hl
      obtain ⟨js, hsteps, hjs, hends'⟩ :=
        iterate_noted (fun _ _ _ _ hends h => binaryStep_noted hs hn (ih (level + 1)) hends h)
          hends h
      exact ⟨hjs ▸ hleft.trans hsteps, hends'⟩
    | unary operators =>
      obtain ⟨next, _, hp, h⟩ := bind_eq_ok.1 h
      obtain ⟨hhead, rfl⟩ := peek_eq_ok.1 hp
      cases next with
      | none => exact ih (level + 1) c n c' hc h
      | some lexeme =>
        change EStateM.run _ _ = _ at h
        split at h
        · exact unaryFrom_noted hs hn hc hhead h
        · exact ih (level + 1) c n c' hc h

/-- The joints at which a nested expression is read are those of its tree. -/
theorem nestedLevel_noted (room level : Nat) : NotesNode lexemes (nestedLevel s room level) := by
  induction room generalizing level with
  | zero => exact fun c n c' _ h => absurd h failTooDeep_ne_ok
  | succ room ih =>
    intro c n c' hc h
    obtain ⟨_, c₁, henter, h⟩ := bind_eq_ok.1 h
    have hfirst := silent_enter room lexemes c _ c₁ hc henter
    obtain ⟨hread, hends⟩ := climb_noted hs ih _ level c₁ n c' hfirst.amid_stop h
    exact ⟨hfirst.trans hread, hends⟩

end

end Parse

end Schemata
