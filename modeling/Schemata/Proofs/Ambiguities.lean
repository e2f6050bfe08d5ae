import Mathlib.Data.List.DropRight
import Mathlib.Data.List.Nodup
import Schemata.Proofs.Joints

/-!
# The ambiguities of a program

A program is read with the joints of its statements (`program_noted`), so its ambiguities are the
tokens at these joints that come after a newline.  Read off the tree and the tokens of the source,
they are the operators of binary nodes and the tokens that chain a node to its receiver.

Main statement: `readProgram_ambiguities`, for every precedence table and every depth limit.
-/

namespace Schemata

namespace Parse

variable {s : Setting} {lexemes : List Lexeme} {c c' : Cursor} {n : Node}
  {expression : Parse Node} {block : Parse (List Node)}

/-! ## Declarations -/

/-- Making the node of an operator notes nothing. -/
theorem silent_operatorNode (t : Token) : Silent (operatorNode t) := by
  unfold operatorNode
  split
  · exact .pure _
  · exact .of_fails fun _ _ _ => refuse_ne_ok

/-- A type is read without noting anything. -/
theorem silent_typeName : Silent (typeName s) := by
  refine (silent_expect _).bind fun name => (silent_eats _).bind fun bracket => ?_
  cases bracket with
  | true => exact (silent_expect _).bind fun _ => .pure _
  | false => exact .pure _

/-- A parameter is read with its joints, of which it has none. -/
theorem param_noted : Notes lexemes (param s) Node.joints := by
  refine ((silent_expect _).after fun name => (silent_eats _).after fun optional => ?_).notes
  refine (silent_eats _).after fun colon => ?_
  -- With a type or without one, nothing was noted
  cases colon with
  | true => exact silent_typeName.after fun type => .finish rfl
  | false => exact .finish rfl

/-- A field of an index is read without noting anything. -/
theorem silent_indexField : Silent (indexField s) := by
  refine (silent_eats _).bind fun bracket => ?_
  cases bracket with
  | true =>
    refine (silent_expect _).bind fun name => (silent_eats _).bind fun comma => ?_
    cases comma with
    | true =>
      refine (silent_expect _).bind fun word => ?_
      dsimp only
      split
      · exact (silent_expect _).bind fun _ => .pure _
      · exact .of_fails fun c a c' h => by
          obtain ⟨_, _, h, -⟩ := bind_eq_ok.1 h
          exact refuse_ne_ok h
    | false => exact (silent_expect _).bind fun _ => .pure _
  | false => exact (silent_expect _).bind fun _ => .pure _

/-- An index is read with its joints, of which it has none. -/
theorem index_noted (x : Lexeme) : NotesBefore lexemes x (index s x.token) Node.joints := by
  refine .take ((silent_expect _).after fun directive => ?_)
  -- The fields, with the brackets around them
  have hindex : NotesAfter lexemes [] (do
      let _ ← expect s .leftParen
      let fields ← list s .rightParen (indexField s)
      finish s (.index fields) x.token.position) Node.joints := by
    refine (silent_expect _).after fun _ => ?_
    refine (list_noted (silent_indexField lexemes)).after fun fields => .finish ?_
    simp [Shape.joints, Shape.parts]
  split
  · exact (Silent.of_fails fun _ _ _ => refuse_ne_ok).after fun _ => hindex
  · exact hindex

/-- A field is read with its joints, of which it has none. -/
theorem field_noted (x : Lexeme) : NotesBefore lexemes x (field s x.token) Node.joints :=
  .take ((silent_eats _).after fun _ => silent_typeName.after fun _ =>
    (silent_eats _).after fun _ => .finish rfl)

section

variable (hblock : Notes lexemes block fun nodes => nodes.flatMap Node.joints)
include hblock

/-- A function is read with the joints of its body. -/
theorem function_noted (x : Lexeme) :
    NotesBefore lexemes x (function s block x.token) Node.joints := by
  refine .take ((silent_expect _).after fun name => (silent_expect _).after fun _ => ?_)
  refine (list_noted param_noted).after fun params => hblock.after fun body => .finish ?_
  simp [Shape.joints, Shape.parts]

/-- An item of a collection is read with its joints. -/
theorem collectionItem_noted : Notes lexemes (collectionItem s block) Node.joints := by
  -- Where no item begins, nothing is read
  have hunknown : Notes lexemes (do
      expecting (.token (.keyword .function))
      expecting (.token .atSign)
      expecting (.token .name)
      failHere s) Node.joints :=
    ((silent_expecting _).after fun _ => (silent_expecting _).after fun _ =>
      (silent_expecting _).after fun _ c₀ c a c' _ h => absurd h failHere_ne_ok).notes
  refine notes_peek hunknown fun x => ?_
  dsimp only
  split
  · exact function_noted hblock x
  · exact index_noted x
  · exact field_noted x
  · exact hunknown.before x

/-- A collection is read with the joints of its items. -/
theorem collection_noted (x : Lexeme) :
    NotesBefore lexemes x (collection s block x.token) Node.joints := by
  have hround : Notes lexemes (itemRound s block) (Round.joints Node.joints) := by
    refine ((silent_check? _).after fun brace => ?_).notes
    split
    · exact .pure rfl
    · exact (collectionItem_noted hblock).after fun item => silent_skipSemicolons.after fun _ =>
        .pure rfl
  refine .take ((silent_expect _).after fun name => (silent_expect _).after fun _ => ?_)
  refine silent_skipSemicolons.after fun _ => (gather_noted hround).after fun items => ?_
  exact (silent_expect _).after fun _ => .finish rfl

/-! ## Statements -/

variable (hexpr : Notes lexemes expression Node.joints)
include hexpr

/-- An alternative of an `if` statement is read with its joints, if there is one. -/
theorem clause_noted :
    Notes lexemes (clause s expression block) (Round.joints Node.joints) := by
  refine ((silent_eat? _).after fun found => ?_).notes
  cases found with
  | none => exact .pure rfl
  | some token =>
    -- With a condition it has one part more
    refine (silent_eats _).after fun conditional => ?_
    cases conditional with
    | true =>
      refine hexpr.after fun condition => hblock.after fun body => ?_
      exact (NotesAfter.finish (by simp [Shape.joints, Shape.parts])).map fun _ => rfl
    | false =>
      refine hblock.after fun body => ?_
      exact (NotesAfter.finish (by simp [Shape.joints, Shape.parts])).map fun _ => rfl

/-- An `if` statement is read with the joints of its condition, its body and its alternatives. -/
theorem ifStmt_noted (x : Lexeme) :
    NotesBefore lexemes x (ifStmt s expression block x.token) Node.joints := by
  refine .take (hexpr.after fun condition => hblock.after fun body => ?_)
  refine (gather_noted (clause_noted hblock hexpr)).after fun clauses => .finish ?_
  simp [Shape.joints, Shape.parts]

omit hblock in
/-- A declaration of a constant is read with the joints of its value. -/
theorem constDecl_noted (x : Lexeme) :
    NotesBefore lexemes x (constDecl s expression x.token) Node.joints :=
  .take ((silent_expect _).after fun _ => (silent_expect _).after fun _ =>
    hexpr.after fun _ => .finish (by simp [Shape.joints, Shape.parts]))

omit hblock in
/-- A declaration of a variable is read with the joints of its value, if it has one. -/
theorem letDecl_noted (x : Lexeme) :
    NotesBefore lexemes x (letDecl s expression x.token) Node.joints := by
  refine .take ((silent_expect _).after fun name => (silent_eats _).after fun assign => ?_)
  cases assign with
  | true => exact hexpr.after fun _ => .finish (by simp [Shape.joints, Shape.parts])
  | false => exact .finish rfl

omit hblock in
/-- A return statement is read with the joints of what it returns, if it returns something. -/
theorem returnStmt_noted (x : Lexeme) :
    NotesBefore lexemes x (returnStmt s expression x.token) Node.joints := by
  refine .take (silent_peek.after fun next => ?_)
  cases next with
  | none => exact .finish rfl
  | some lexeme =>
    dsimp only
    split
    · exact .finish rfl
    · exact hexpr.after fun _ => .finish (by simp [Shape.joints, Shape.parts])

omit hblock in
/-- An expression on its own, or an assignment, is read with its joints. -/
theorem expressionStmt_noted : Notes lexemes (expressionStmt s expression) Node.joints := by
  intro c n c' hc h
  obtain ⟨left, c₁, hl, h⟩ := bind_eq_ok.1 h
  have hleft := hexpr c left c₁ hc hl
  obtain ⟨found, c₂, hcheck, h⟩ := bind_eq_ok.1 h
  -- Looking for an operator of assignment notes nothing
  have hlook := hleft.trans (silent_checkAny? _ lexemes c₁ found c₂ hleft.amid_stop hcheck)
  rw [List.append_nil] at hlook
  obtain ⟨-, ⟨t, ts, rfl, -, htokens⟩ | ⟨rfl, -⟩⟩ := checkAny?_took hcheck
  · -- The operator of an assignment is no joint
    have hassign : NotesAfter lexemes left.joints (do
        let op ← operatorNode t
        let right ← expression
        finish s (.assign left op right) left.position) Node.joints := by
      refine (silent_operatorNode t).afterWhere fun ho => hexpr.after fun right => .finish ?_
      obtain ⟨-, op, -, rfl⟩ := operatorNode_eq_ok ho
      simp [Shape.joints, Shape.parts]
    dsimp only at h
    split at h
    · obtain ⟨_, _, h, -⟩ := bind_eq_ok.1 h
      exact absurd h throw_ne_ok
    · obtain ⟨_, c₃, htake, h⟩ := bind_eq_ok.1 h
      obtain ⟨x, rest, hrest, rfl, -⟩ := List.map_eq_cons_iff.1 htokens
      have htaken := hlook.trans
        (take_noted hlook.amid_stop (x := x) (by rw [hrest]; rfl) htake).1
      rw [List.append_nil] at htaken
      exact hassign c c₃ n c' htaken h
  · obtain ⟨rfl, rfl⟩ := pure_eq_ok.1 h
    exact hlook

/-- A statement is read with its joints. -/
theorem statement_noted : Notes lexemes (statement s expression block) Node.joints := by
  have hother := expressionStmt_noted (s := s) hexpr
  refine notes_peek hother fun x => ?_
  dsimp only
  split
  · exact ifStmt_noted hblock hexpr x
  · exact constDecl_noted hexpr x
  · exact letDecl_noted hexpr x
  · exact returnStmt_noted hexpr x
  · exact hother.before x

end

/-- A block of items is read with the joints of the items. -/
theorem braced_noted {item : Parse Node} (h : Notes lexemes item Node.joints) :
    Notes lexemes (braced s item) fun nodes => nodes.flatMap Node.joints := by
  -- A round finds the closing brace, or reads an item after a look at the next token
  have hround : Notes lexemes (blockRound s item) (Round.joints Node.joints) := by
    refine ((silent_check? _).after fun brace => ?_).notes
    have hitem : NotesAfter lexemes [] (do
        let node ← item
        skipSemicolons
        return Round.more node) (Round.joints Node.joints) :=
      h.after fun node => silent_skipSemicolons.after fun _ => .pure rfl
    split
    · exact .pure rfl
    · refine silent_peek.after fun next => ?_
      split
      · exact silent_failHere.after fun _ => hitem
      · exact hitem
  refine ((silent_expect _).after fun _ => silent_skipSemicolons.after fun _ => ?_).notes
  refine (gather_noted hround).after fun body => ?_
  exact (silent_expect _).after fun _ => .pure rfl

section

variable (hs : s.Laid lexemes)
include hs

/-- A block is read with the joints of its statements. Induction is on the room that is left for
    nesting. -/
theorem nestedBlock_noted (room : Nat) :
    Notes lexemes (nestedBlock s room) fun nodes => nodes.flatMap Node.joints := by
  induction room with
  | zero => exact fun c nodes c' _ h => absurd h failTooDeep_ne_ok
  | succ room ih =>
    intro c nodes c' hc h
    obtain ⟨_, c₁, henter, h⟩ := bind_eq_ok.1 h
    have hfirst := silent_enter room lexemes c _ c₁ hc henter
    have hstatement := statement_noted (s := s) ih (nestedLevel_noted hs room 0).notes
    exact hfirst.trans (braced_noted hstatement c₁ nodes c' hfirst.amid_stop h)

/-- A statement of a program is read with its joints. -/
theorem topStatement_noted : Notes lexemes (topStatement s) Node.joints := by
  have hblock := nestedBlock_noted hs s.limit
  have hother := statement_noted (s := s) hblock (nestedLevel_noted hs s.limit 0).notes
  refine notes_peek hother fun x => ?_
  dsimp only
  split
  · exact collection_noted hblock x
  · exact function_noted hblock x
  · exact hother.before x

/-- A round of a program is read with the joints of its statement. -/
theorem topRound_noted : Notes lexemes (topRound s) (Round.joints Node.joints) := by
  refine (silent_peek.after fun next => ?_).notes
  split
  · exact .pure rfl
  · exact (topStatement_noted hs).after fun node => silent_skipSemicolons.after fun _ => .pure rfl

/-- A program is read with the joints of its statements. -/
theorem program_noted : Notes lexemes (program s) fun nodes => nodes.flatMap Node.joints := by
  refine (silent_skipSemicolons.after fun _ => ?_).notes
  -- Either a token is left that nothing can begin with, or the program is at its end
  refine (gather_noted (topRound_noted hs)).after fun nodes => ?_
  split
  · exact (silent_expecting _).after fun _ =>
      silent_failHere.afterWhere fun h => absurd h failHere_ne_ok
  · exact .pure rfl

end

end Parse

/-! ## Newlines before tokens -/

/-- Whether there is a newline between the last of the tokens that is not trivia and the end, where
    `broken` stands for what comes before them. -/
def Token.breaks (broken : Bool) (tokens : List Token) : Bool :=
  tokens.foldl (fun broken t => t.kind.isTrivia && (broken || t.lineBreaks > 0)) broken

/-- There is a newline before the end if one is among the trivia at the end. -/
theorem Token.breaks_eq (tokens : List Token) :
    breaks false tokens = (tokens.rtakeWhile (·.kind.isTrivia)).any (·.lineBreaks > 0) := by
  induction tokens using List.reverseRecOn with
  | nil => rfl
  | append_singleton tokens t ih =>
    rw [breaks, List.foldl_concat, ← breaks, ih, List.rtakeWhile_concat]
    cases t.kind.isTrivia with
    | true => simp
    | false => simp

/-- A lexeme is a token that is no trivia, and knows whether there is a newline before it. -/
theorem Lexeme.mem_ofTokens {tokens : List Token} {broken : Bool} {x : Lexeme} :
    x ∈ ofTokens broken tokens ↔ x.token.kind.isTrivia = false ∧
      ∃ before after, tokens = before ++ x.token :: after ∧
        x.afterBreak = Token.breaks broken before := by
  induction tokens generalizing broken with
  | nil => simp [ofTokens]
  | cons t tokens ih =>
    -- The lexeme is the first token, or one that comes after it
    have hsplit : (∃ before after, t :: tokens = before ++ x.token :: after ∧
        x.afterBreak = Token.breaks broken before) ↔ (x.token = t ∧ x.afterBreak = broken) ∨
          ∃ before after, tokens = before ++ x.token :: after ∧ x.afterBreak =
            Token.breaks (t.kind.isTrivia && (broken || t.lineBreaks > 0)) before := by
      constructor
      · rintro ⟨before, after, htokens, hbreak⟩
        cases before with
        | nil => exact .inl ⟨(List.cons.inj htokens).1.symm, hbreak⟩
        | cons u before =>
          obtain ⟨rfl, rfl⟩ := List.cons.inj htokens
          exact .inr ⟨before, after, rfl, hbreak⟩
      · rintro (⟨rfl, hbreak⟩ | ⟨before, after, rfl, hbreak⟩)
        · exact ⟨[], tokens, rfl, hbreak⟩
        · exact ⟨t :: before, after, rfl, hbreak⟩
    rw [hsplit]
    cases ht : t.kind.isTrivia with
    | true =>
      rw [ofTokens, if_pos ht, ih, Bool.true_and]
      refine and_congr_right fun hx => (or_iff_right ?_).symm
      rintro ⟨rfl, -⟩
      rw [hx] at ht
      cases ht
    | false =>
      rw [ofTokens, if_neg (by simp [ht]), List.mem_cons, ih, Bool.false_and, and_or_left]
      refine or_congr_left ⟨?_, ?_⟩
      · rintro rfl
        exact ⟨ht, rfl, rfl⟩
      · rintro ⟨-, rfl, rfl⟩
        rfl

/-- The token is one of the given ones and no trivia, and there is a newline in the trivia right
    before it. -/
def Token.StartsLine (tokens : List Token) (t : Token) : Prop :=
  t.kind.isTrivia = false ∧ ∃ before after, tokens = before ++ t :: after ∧
    ∃ u ∈ before.rtakeWhile (·.kind.isTrivia), '\n' ∈ u.text.toList

/-- The tokens of a source count the newlines of their texts. -/
theorem Tiles.lineBreaks_eq {p : Position} {text : List Char} {tokens : List Token}
    (h : Tiles p text tokens) {t : Token} (ht : t ∈ tokens) :
    t.lineBreaks = Text.lineBreaks t.text.toList := by
  induction h with
  | nil => cases ht
  | cons _ _ _ ih =>
    obtain rfl | ht := List.mem_cons.1 ht
    · simp [Lexer.tokenAt]
    · exact ih ht

/-- The trivia of a source count their newlines, so its lexemes know theirs. -/
theorem Token.startsLine_iff {text : List Char} {tokens : List Token} (h : Tiles .start text tokens)
    {t : Token} : t.StartsLine tokens ↔ ⟨t, true⟩ ∈ Lexeme.ofTokens false tokens := by
  have hbreaks : ∀ u ∈ tokens, (u.lineBreaks > 0 ↔ '\n' ∈ u.text.toList) := by
    intro u hu
    rw [h.lineBreaks_eq hu]
    exact List.count_pos_iff
  rw [Lexeme.mem_ofTokens, StartsLine]
  refine and_congr_right fun _ => exists_congr fun before => exists_congr fun after => ?_
  refine and_congr_right fun htokens => ?_
  rw [breaks_eq, eq_comm, List.any_eq_true]
  refine exists_congr fun u => and_congr_right fun hu => ?_
  have hmem : u ∈ tokens := by
    rw [htokens]
    exact List.mem_append_left _ ((List.rtakeWhile_suffix _ _).mem hu)
  rw [decide_eq_true_iff, hbreaks u hmem]

/-! ## The tokens at the joints -/

/-- A lexeme is ambiguous if it comes after a newline, and then it is noted with its kind. -/
theorem Lexeme.ambiguity?_eq_some {x : Lexeme} {a : Ambiguity} :
    x.ambiguity? = some a ↔ x.afterBreak = true ∧ a = ⟨x.token.position, x.token.kind⟩ := by
  unfold ambiguity?
  cases x.afterBreak <;> simp [eq_comm]

/-- No token is empty. -/
theorem Token.Scanned.offset_lt_stop {t : Token} (h : t.Scanned) : t.position.offset < t.stop := by
  obtain ⟨c, rest, hscan⟩ := h
  obtain ⟨d, text, htext⟩ := List.exists_cons_of_ne_nil (Scan.scan_split hscan).1
  have hpos := d.utf8Size_pos
  rw [Token.stop, htext, Text.byteSize_cons]
  omega

/-- Each of the lexemes ends before the next begins. -/
structure Lexeme.Ordered (lexemes : List Lexeme) : Prop where
  apart : lexemes.Pairwise fun x y => x.token.stop ≤ y.token.position.offset
  nonempty : ∀ x ∈ lexemes, x.token.position.offset < x.token.stop

namespace Lexeme.Ordered

variable {lexemes : List Lexeme}

/-- The lexemes begin in their order. -/
theorem pairwise_lt (h : Ordered lexemes) :
    lexemes.Pairwise fun x y => x.token.position.offset < y.token.position.offset := by
  refine h.apart.imp_of_mem fun hx _ hxy => ?_
  exact Nat.lt_of_lt_of_le (h.nonempty _ hx) hxy

/-- Two lexemes that begin at one position are one. -/
theorem eq_of_position (h : Ordered lexemes) {x y : Lexeme} (hx : x ∈ lexemes) (hy : y ∈ lexemes)
    (hp : x.token.position = y.token.position) : x = y := by
  have hnodup : (lexemes.map fun x => x.token.position.offset).Nodup :=
    List.pairwise_map.2 (h.pairwise_lt.imp Nat.ne_of_lt)
  exact List.inj_on_of_nodup_map hnodup hx hy (congrArg Position.offset hp)

/-- The lexeme at a joint is the first one behind the node that ends there. -/
theorem find?_eq (h : Ordered lexemes) {j : Joint} {x : Lexeme} (hx : j.At lexemes x) :
    (lexemes.map Lexeme.token).find? (j.stop ≤ ·.position.offset) = some x.token := by
  obtain ⟨front, y, back, rfl, hstop⟩ := hx.follows
  have hy := h.nonempty y (by simp)
  have happart := List.pairwise_append.1 h.apart
  have hxy : y.token.stop ≤ x.token.position.offset :=
    (List.pairwise_cons.1 happart.2.1).1 x List.mem_cons_self
  have hfront : ∀ u ∈ front.map Lexeme.token, ¬ j.stop ≤ u.position.offset := by
    intro u hu
    obtain ⟨z, hz, rfl⟩ := List.mem_map.1 hu
    have hzy := happart.2.2 z hz y List.mem_cons_self
    have hpos := h.nonempty z (List.mem_append_left _ hz)
    omega
  rw [List.map_append, List.find?_append, List.find?_eq_none.2 (by simpa using hfront),
    Option.none_or, List.map_cons, List.map_cons, List.find?_cons_of_neg (by simp; omega),
    List.find?_cons_of_pos (by simp; omega)]

/-- There is only one lexeme at a joint. -/
theorem at_unique (h : Ordered lexemes) {j : Joint} {x y : Lexeme} (hx : j.At lexemes x)
    (hy : j.At lexemes y) : x = y := by
  have hmem : ∀ {z : Lexeme}, j.At lexemes z → z ∈ lexemes := by
    intro z hz
    obtain ⟨front, y, back, rfl, -⟩ := hz.follows
    simp
  have htoken := Option.some.inj ((h.find?_eq hx).symm.trans (h.find?_eq hy))
  -- Both are the first token behind the node, so they begin at one position
  exact h.eq_of_position (hmem hx) (hmem hy) (congrArg Token.position htoken)

end Lexeme.Ordered

/-- The lexemes of a source stand in it one after another. -/
theorem Tiles.ordered {text : List Char} {tokens : List Token} (h : Tiles .start text tokens)
    (broken : Bool) : Lexeme.Ordered (Lexeme.ofTokens broken tokens) := by
  have hmap := Lexeme.map_token_ofTokens tokens broken
  constructor
  · rw [← List.pairwise_map (f := Lexeme.token) (R := fun t u => t.stop ≤ u.position.offset), hmap]
    exact h.pairwise_stop.filter _
  · intro x hx
    have ht : x.token ∈ (Lexeme.ofTokens broken tokens).map Lexeme.token := List.mem_map_of_mem hx
    rw [hmap] at ht
    exact (h.scanned _ (List.mem_filter.1 ht).1).offset_lt_stop

/-- The tokens with which a node goes on behind another: the operator of a binary node, and the
    first token behind a receiver, trivia apart. -/
def Node.GoesOnWith (tokens : List Token) (n : Node) (t : Token) : Prop :=
  (∃ kind left op right, n.shape = .binary kind left op right ∧ t.position = op.position) ∨
    ∃ receiver, n.receiver = some receiver ∧
      (Token.solid tokens).find? (receiver.stop ≤ ·.position.offset) = some t

/-- The operator of a binary node is a token of the source, and behind a receiver there is a token
    that chains something to it. -/
structure Node.Jointed (tokens : List Token) (n : Node) : Prop where
  operator : ∀ kind left op right, n.shape = .binary kind left op right →
    ∃ t ∈ Token.solid tokens, t.position = op.position
  receiver : ∀ receiver, n.receiver = some receiver →
    ∃ t, (Token.solid tokens).find? (receiver.stop ≤ ·.position.offset) = some t ∧
      t.kind ∈ [.dot, .leftBracket, .leftParen]

/-- The joints of a node are the one before its operator and the one behind its receiver. -/
theorem Node.mem_ownJoints {n : Node} {j : Joint} :
    j ∈ n.ownJoints ↔
      (∃ kind left op right, n.shape = .binary kind left op right ∧
        j = ⟨left.stop, some op.position⟩) ∨
      ∃ receiver, n.receiver = some receiver ∧ j = ⟨receiver.stop, none⟩ := by
  rw [ownJoints, List.mem_append, or_comm]
  refine or_congr ?_ ?_
  · cases n.shape <;> simp
  · simp [Option.mem_toList, eq_comm]

section

variable {lexemes noted : List Lexeme} {tokens : List Token} {nodes : List Node}

/-- A node goes on with the lexemes at its joints and with no others. -/
theorem Node.goesOnWith_iff (h : Lexeme.Ordered lexemes)
    (htokens : lexemes.map Lexeme.token = Token.solid tokens) {n : Node}
    (hjoints : ∀ j ∈ n.ownJoints, ∃ x ∈ lexemes, j.At lexemes x) {x : Lexeme} (hx : x ∈ lexemes) :
    n.GoesOnWith tokens x.token ↔ ∃ j ∈ n.ownJoints, j.At lexemes x := by
  constructor
  · intro hgoes
    -- The joint has a lexeme, and that can only be this one
    obtain ⟨j, hj, hsame⟩ : ∃ j ∈ n.ownJoints, ∀ y ∈ lexemes, j.At lexemes y → y = x := by
      obtain ⟨kind, left, op, right, hshape, hposition⟩ | ⟨receiver, hreceiver, hfind⟩ := hgoes
      · refine ⟨_, mem_ownJoints.2 (.inl ⟨kind, left, op, right, hshape, rfl⟩), fun y hy hat => ?_⟩
        have htakes : y.token.position = op.position := hat.takes
        exact h.eq_of_position hy hx (htakes.trans hposition.symm)
      · refine ⟨_, mem_ownJoints.2 (.inr ⟨receiver, hreceiver, rfl⟩), fun y hy hat => ?_⟩
        have hfind' := h.find?_eq hat
        rw [htokens] at hfind'
        exact h.eq_of_position hy hx (congrArg Token.position
          (Option.some.inj (hfind'.symm.trans hfind)))
    obtain ⟨y, hy, hat⟩ := hjoints j hj
    exact ⟨j, hj, hsame y hy hat ▸ hat⟩
  · rintro ⟨j, hj, hat⟩
    obtain ⟨kind, left, op, right, hshape, rfl⟩ | ⟨receiver, hreceiver, rfl⟩ := mem_ownJoints.1 hj
    · exact .inl ⟨kind, left, op, right, hshape, hat.takes⟩
    · exact .inr ⟨receiver, hreceiver, htokens ▸ h.find?_eq hat⟩

/-- If there is a lexeme at each joint of a node, its operator is a token and its receiver goes on.
    -/
theorem Node.jointed_of_at (h : Lexeme.Ordered lexemes)
    (htokens : lexemes.map Lexeme.token = Token.solid tokens) {n : Node}
    (hjoints : ∀ j ∈ n.ownJoints, ∃ x ∈ lexemes, j.At lexemes x) : n.Jointed tokens := by
  constructor
  · intro kind left op right hshape
    obtain ⟨x, hx, hat⟩ := hjoints _ (mem_ownJoints.2 (.inl ⟨kind, left, op, right, hshape, rfl⟩))
    exact ⟨x.token, htokens ▸ List.mem_map_of_mem hx, hat.takes⟩
  · intro receiver hreceiver
    obtain ⟨x, hx, hat⟩ := hjoints _ (mem_ownJoints.2 (.inr ⟨receiver, hreceiver, rfl⟩))
    exact ⟨x.token, htokens ▸ h.find?_eq hat, hat.takes⟩

/-- A joint of a list of nodes belongs to a node in one of their trees. -/
theorem mem_flatMap_joints {j : Joint} :
    j ∈ nodes.flatMap Node.joints ↔ ∃ n ∈ nodes, ∃ m ∈ n.subtrees, j ∈ m.ownJoints := by
  simp only [List.mem_flatMap, Node.mem_joints]

/-- Every lexeme that was noted is at a joint, and every joint has one. -/
theorem exists_of_forall₂ {js : List Joint} (h : List.Forall₂ (Joint.At lexemes) js noted) :
    (∀ x ∈ noted, ∃ j ∈ js, j.At lexemes x) ∧ ∀ j ∈ js, ∃ x ∈ noted, j.At lexemes x := by
  induction h with
  | nil => simp
  | cons hat _ ih =>
    constructor
    · intro x hx
      obtain rfl | hx := List.mem_cons.1 hx
      · exact ⟨_, List.mem_cons_self, hat⟩
      · obtain ⟨j, hj, hat⟩ := ih.1 x hx
        exact ⟨j, List.mem_cons_of_mem _ hj, hat⟩
    · intro j hj
      obtain rfl | hj := List.mem_cons.1 hj
      · exact ⟨_, List.mem_cons_self, hat⟩
      · obtain ⟨x, hx, hat⟩ := ih.2 j hj
        exact ⟨x, List.mem_cons_of_mem _ hx, hat⟩

end

/-! ## Programs -/

/-- What a successful reading of a program consists of. -/
theorem Parser.readProgram_eq_ok {parser : Parser} {program : Program} :
    parser.readProgram.1 = .ok program ↔ ∃ lexemes stop c,
      Lexeme.ofSource parser.source = .ok (lexemes, stop) ∧
      Parse.program ⟨parser.grammar, parser.limit, parser.source.toList, stop⟩
        (Cursor.start lexemes) = .ok program.statements c ∧
      program.ambiguities = c.ambiguities := by
  rw [readProgram, read_eq_ok]
  refine exists_congr fun lexemes => exists_congr fun stop => ?_
  constructor
  · rintro ⟨c, hsource, h⟩
    obtain ⟨statements, c₁, hprogram, h⟩ := Parse.bind_eq_ok.1 h
    obtain ⟨cursor, c₂, hget, h⟩ := Parse.bind_eq_ok.1 h
    obtain ⟨rfl, rfl⟩ := Parse.get_eq_ok.1 hget
    obtain ⟨rfl, rfl⟩ := Parse.pure_eq_ok.1 h
    exact ⟨c₁, hsource, hprogram, rfl⟩
  · rintro ⟨c, hsource, hprogram, hsame⟩
    refine ⟨c, hsource, Parse.bind_eq_ok.2 ⟨_, c, hprogram, ?_⟩⟩
    refine Parse.bind_eq_ok.2 ⟨c, c, Parse.get_eq_ok.2 ⟨rfl, rfl⟩, Parse.pure_eq_ok.2 ⟨?_, rfl⟩⟩
    rw [← hsame]

/-- With every precedence table and every depth limit, the ambiguities of a program are strictly
    increasing, and they are the tokens at the start of a line with which a node of a statement,
    however deep in it, goes on behind another. -/
theorem readProgram_ambiguities {parser : Parser} {program : Program}
    (h : parser.readProgram.1 = .ok program) :
    ∃ tokens, (Lexer.ofSource parser.source).tokenize = .ok tokens ∧
      program.ambiguities.Pairwise (fun a b => a.position.offset < b.position.offset) ∧
      (∀ a, a ∈ program.ambiguities ↔ ∃ t, t.StartsLine tokens ∧ a = ⟨t.position, t.kind⟩ ∧
        ∃ n ∈ program.statements, ∃ m ∈ n.subtrees, m.GoesOnWith tokens t) ∧
      ∀ n ∈ program.statements, ∀ m ∈ n.subtrees, m.Jointed tokens := by
  obtain ⟨lexemes, stop, c, hsource, hprogram, hsame⟩ := Parser.readProgram_eq_ok.1 h
  obtain ⟨tokens, htiles, rfl, -⟩ := Lexeme.ofSource_eq_ok.1 hsource
  have hmap := Lexeme.map_token_ofTokens tokens false
  have hordered := htiles.ordered false
  -- What was noted are the lexemes at the joints of the statements
  have hlaid : Setting.Laid ⟨parser.grammar, parser.limit, parser.source.toList, stop⟩
      (Lexeme.ofTokens false tokens) := ⟨tokens, htiles, hmap ▸ List.infix_rfl⟩
  obtain ⟨taken, noted, hrest, -, hsub, hjoints, hambiguities⟩ :=
    (Parse.program_noted hlaid _ _ _ (.start _) hprogram).noted
  have hnoted : noted.Sublist (Lexeme.ofTokens false tokens) := by
    have hstart : Lexeme.ofTokens false tokens = taken ++ c.rest := hrest
    rw [hstart]
    exact hsub.trans (List.sublist_append_left _ _)
  obtain ⟨hat, hsome⟩ := exists_of_forall₂ hjoints
  have hown : ∀ n ∈ program.statements, ∀ m ∈ n.subtrees, ∀ j ∈ m.ownJoints,
      ∃ x ∈ Lexeme.ofTokens false tokens, j.At (Lexeme.ofTokens false tokens) x := by
    intro n hn m hm j hj
    obtain ⟨x, hx, hxj⟩ := hsome j (mem_flatMap_joints.2 ⟨n, hn, m, hm, hj⟩)
    exact ⟨x, hnoted.mem hx, hxj⟩
  have hlist : program.ambiguities = noted.filterMap Lexeme.ambiguity? := hsame.trans hambiguities
  refine ⟨tokens, Lexer.tokenize_eq_ok.2 htiles, ?_, fun a => ?_, fun n hn m hm => ?_⟩
  · rw [hlist]
    -- Strictly increasing, because the lexemes are and what was noted is a part of them
    refine (hordered.pairwise_lt.sublist hnoted).filterMap _ fun x y hxy a ha b hb => ?_
    obtain ⟨-, rfl⟩ := Lexeme.ambiguity?_eq_some.1 ha
    obtain ⟨-, rfl⟩ := Lexeme.ambiguity?_eq_some.1 hb
    exact hxy
  · rw [hlist, List.mem_filterMap]
    constructor
    · rintro ⟨x, hx, ha⟩
      obtain ⟨hbreak, rfl⟩ := Lexeme.ambiguity?_eq_some.1 ha
      obtain ⟨j, hj, hxj⟩ := hat x hx
      obtain ⟨n, hn, m, hm, hj⟩ := mem_flatMap_joints.1 hj
      have hmem := hnoted.mem hx
      refine ⟨x.token, (Token.startsLine_iff htiles).2 (hbreak ▸ hmem), rfl, n, hn, m, hm, ?_⟩
      exact (Node.goesOnWith_iff hordered hmap (hown n hn m hm) hmem).2 ⟨j, hj, hxj⟩
    · rintro ⟨t, hline, rfl, n, hn, m, hm, hgoes⟩
      have hmem := (Token.startsLine_iff htiles).1 hline
      obtain ⟨j, hj, htj⟩ :=
        (Node.goesOnWith_iff (x := ⟨t, true⟩) hordered hmap (hown n hn m hm) hmem).1 hgoes
      obtain ⟨x, hx, hxj⟩ := hsome j (mem_flatMap_joints.2 ⟨n, hn, m, hm, hj⟩)
      obtain rfl := hordered.at_unique hxj htj
      exact ⟨_, hx, rfl⟩
  · exact Node.jointed_of_at hordered hmap (hown n hn m hm)

/-- A call over two lines, a comment with a newline before an operator, and a newline behind one, in
    a group inside brackets. -/
theorem readProgram_ambiguities_nested :
    ∃ program tokens, (Parser.ofSource .standard "x\n(y)[(a /*\n*/ * -\nb)\n.c]").readProgram.1 =
        .ok program ∧
      (Lexer.ofSource "x\n(y)[(a /*\n*/ * -\nb)\n.c]").tokenize = .ok tokens ∧
      program.ambiguities.Pairwise (fun a b => a.position.offset < b.position.offset) ∧
      (∀ a, a ∈ program.ambiguities ↔ ∃ t, t.StartsLine tokens ∧ a = ⟨t.position, t.kind⟩ ∧
        ∃ n ∈ program.statements, ∃ m ∈ n.subtrees, m.GoesOnWith tokens t) ∧
      program.ambiguities.map Ambiguity.token = [.leftParen, .star, .dot] := by
  obtain ⟨program, hprogram⟩ := exists_of_isOk (show (Parser.ofSource .standard
    "x\n(y)[(a /*\n*/ * -\nb)\n.c]").readProgram.1.isOk = true by decide +kernel)
  obtain ⟨tokens, htokens, hsorted, hexact, -⟩ := readProgram_ambiguities hprogram
  refine ⟨program, tokens, hprogram, htokens, hsorted, hexact, ?_⟩
  have hkinds : (Parser.ofSource .standard
        "x\n(y)[(a /*\n*/ * -\nb)\n.c]").readProgram.1.toOption.map
      (fun program => program.ambiguities.map Ambiguity.token) =
        some [.leftParen, .star, .dot] := by decide +kernel
  rw [hprogram] at hkinds
  exact Option.some.inj hkinds

end Schemata
