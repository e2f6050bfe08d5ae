import Schemata.Proofs.MendedExpression

/-!
# Mending statements

A statement that is parsed beside its mended self goes on together with it.  The one exception is a
return without a value: the failed parse ends it where its block, its statement or the source ends,
and the mended one goes on with a value if the new token can begin one.  In that case the token was
not what the failed parse expected, because that expects nothing there but the end of the statement
or of the block.
-/

namespace Schemata

open EStateM (Result)

namespace Parse

variable {α β : Type} {s : Setting}

/-! ## Tokens that begin nothing -/

/-- The tokens before which a return has no value. -/
def closes (kind : TokenKind) : Bool :=
  kind = .rightBrace || kind = .semicolon

/-- Before a token that ends a statement or a block, the parse fails right there, and says at most
    that it expected an expression. -/
def Refuses (p : Parse α) : Prop :=
  ∀ c lexeme, c.rest.head? = some lexeme → closes lexeme.token.kind = true →
    ∃ e c', p c = .error e c' ∧ e.position = lexeme.token.position ∧
      (∀ q, e ≠ .invalidTarget q) ∧ ∀ what ∈ e.expected, what ∈ c.expected ∨ what = .expression

/-- What follows a parse that fails is not come to. -/
theorem Refuses.bind {p : Parse α} (h : Refuses p) (f : α → Parse β) : Refuses (p >>= f) := by
  intro c lexeme hhead hkind
  obtain ⟨e, c', hp, hrest⟩ := h c lexeme hhead hkind
  exact ⟨e, c', bind_of_error hp, hrest⟩

/-- A choice that goes one way before every token that ends something. -/
theorem Refuses.peek {p : Parse α} (h : Refuses p) {f : Option Lexeme → Parse α}
    (hf : ∀ lexeme : Lexeme, closes lexeme.token.kind = true → f (some lexeme) = p) :
    Refuses (peek >>= f) := by
  intro c lexeme hhead hkind
  obtain ⟨e, c', hp, hrest⟩ := h c lexeme hhead hkind
  exact ⟨e, c', by rw [peek_bind, hhead, hf lexeme hkind, hp], hrest⟩

/-- A return has no value before a brace and a semicolon. -/
theorem closes_iff {kind : TokenKind} :
    closes kind = true ↔ kind = .rightBrace ∨ kind = .semicolon := by
  simp [closes]

/-- A parse that is too deep fails where it stands. -/
theorem refuses_failTooDeep : Refuses (failTooDeep s : Parse α) := by
  intro c lexeme hhead _
  refine ⟨.tooDeep s.limit (c.position s), c, rfl, ?_, by simp, by simp [ParseError.expected]⟩
  simp [ParseError.position, Cursor.position, hhead]

/-- Where no atom begins, the parse fails where it stands and says that it expected an expression.
    -/
theorem refuses_failAtom : Refuses (failAtom s) := by
  intro c lexeme hhead _
  refine ⟨(c.noting .expression).failure s, c.noting .expression, failHere_eq _, ?_, ?_, by simp⟩
  · simp [Cursor.position, hhead]
  · simp [Cursor.failure, hhead]

/-- No atom begins with a token that ends something. -/
theorem refuses_atom (expression : Parse Node) : Refuses (atom s expression) := by
  refine (refuses_failAtom (s := s)).peek fun lexeme hkind => ?_
  obtain hk | hk := closes_iff.1 hkind <;> simp only [hk]

/-- No level of the standard table begins with a token that ends something. -/
theorem refuses_climb (nested : Nat → Parse Node) (level : Nat) {levels : List Level}
    (h : ∀ row ∈ levels, row ∈ Grammar.standard.levels) :
    Refuses (climb s nested level levels) := by
  induction levels generalizing level with
  | nil => exact (refuses_atom _).bind _
  | cons row levels ih =>
    have hoperand := ih (level + 1) fun row hrow => h row (List.mem_cons_of_mem _ hrow)
    cases row with
    | binary kind operators => exact hoperand.bind _
    | unary operators =>
      refine hoperand.peek fun lexeme hkind => ?_
      have hrows : ∀ row ∈ Grammar.standard.levels, ∀ kind ∈ [TokenKind.rightBrace, .semicolon],
          row.unary? kind = none := by decide
      have hlookup : operators.lookup lexeme.token.kind = none :=
        hrows (.unary operators) (h _ List.mem_cons_self) _ (by simpa using closes_iff.1 hkind)
      simp only [hlookup]

/-- No expression begins with a token that ends something. -/
theorem refuses_nestedLevel (hg : s.grammar = .standard) (room level : Nat) :
    Refuses (nestedLevel s room level) := by
  cases room with
  | zero => exact refuses_failTooDeep
  | succ room =>
    intro c lexeme hhead hkind
    -- The levels that are left are levels of the standard table
    have hlevels : ∀ row ∈ s.grammar.levels.drop level, row ∈ Grammar.standard.levels :=
      fun row hrow => hg ▸ List.mem_of_mem_drop hrow
    have hrun : nestedLevel s (room + 1) level c = climb s (nestedLevel s room) level
        (s.grammar.levels.drop level) (c.descend s (s.limit - room)) := rfl
    rw [hrun]
    exact refuses_climb (nestedLevel s room) level hlevels _ lexeme hhead hkind

/-- No statement begins with a token that ends something. -/
theorem refuses_statement {expression : Parse Node} (h : Refuses expression)
    (block : Parse (List Node)) : Refuses (statement s expression block) := by
  have hexpression : Refuses (expressionStmt s expression) := h.bind _
  refine hexpression.peek fun lexeme hkind => ?_
  obtain hk | hk := closes_iff.1 hkind <;> simp only [hk]

/-- No statement of a program begins with a token that ends something. -/
theorem refuses_topStatement (hg : s.grammar = .standard) : Refuses (topStatement s) := by
  have hother : Refuses (statement s (nestedExpression s s.limit) (nestedBlock s s.limit)) :=
    refuses_statement (refuses_nestedLevel hg s.limit 0) _
  refine hother.peek fun lexeme hkind => ?_
  obtain hk | hk := closes_iff.1 hkind <;> simp only [hk]

/-- A value that is left out where a statement ends, and what follows. -/
def valueThen (expression : Parse Node) (f : Option Node → Parse α) : Parse α := do
  match ← peek with
  | none => f none
  | some lexeme =>
    if closes lexeme.token.kind then f none
    else
      let value ← expression
      f (some value)

/-- Before what ends the statement, or at the end of the source, the value is left out. -/
theorem valueThen_of_closes {expression : Parse Node} {f : Option Node → Parse α} {c : Cursor}
    (h : ∀ lexeme ∈ c.rest.head?, closes lexeme.token.kind = true) :
    valueThen expression f c = f none c := by
  rw [valueThen, peek_bind]
  cases hhead : c.rest.head? with
  | none => rfl
  | some lexeme => simp only [h lexeme hhead, if_true]

/-- Before any other token, the value is read. -/
theorem valueThen_of_not_closes {expression : Parse Node} {f : Option Node → Parse α} {c : Cursor}
    {lexeme : Lexeme} (hhead : c.rest.head? = some lexeme)
    (h : ¬closes lexeme.token.kind = true) :
    valueThen expression f c = (expression >>= fun value => f (some value)) c := by
  rw [valueThen, peek_bind, hhead]
  simp only [h, Bool.false_eq_true, if_false]

/-- A statement of a block, in which the source does not end. -/
def blockItem (s : Setting) (statement : Parse Node) : Parse Node := do
  if (← peek).isNone then failHere s
  statement

/-- Where the source ends inside a block, the parse fails. -/
theorem blockItem_of_none {statement : Parse Node} {c : Cursor} (h : c.rest.head? = none) :
    blockItem s statement c = .error (c.failure s) c := by
  rw [blockItem, peek_bind, h]
  exact bind_of_error (failHere_eq c)

/-- Where the source goes on, there is a statement to read. -/
theorem blockItem_of_some {statement : Parse Node} {c : Cursor} {lexeme : Lexeme}
    (h : c.rest.head? = some lexeme) : blockItem s statement c = statement c := by
  rw [blockItem, peek_bind, h]
  rfl

/-- A statement of a block is tame if statements are. -/
theorem tame_blockItem {statement : Parse Node} (h : Tame s statement) :
    Tame s (blockItem s statement) := by
  refine tame_peek.bind fun next => ?_
  dsimp only
  split
  · exact tame_failHere.bind fun _ => h
  · exact h

/-- A round of a block reads its statements as items. -/
theorem bodyRound_blockItem (s : Setting) (statement : Parse Node) :
    bodyRound (blockItem s statement) = blockRound s statement := by
  unfold bodyRound blockRound blockItem
  congr 1
  funext found
  split
  · rfl
  · rw [bind_assoc]
    congr 1
    funext next
    split
    · exact bind_assoc _ _ _
    · rfl

/-- Where there is a semicolon, skipping goes on after it. -/
theorem skipSemicolons_of_kind {c : Cursor} {lexeme : Lexeme} (h : c.rest.head? = some lexeme)
    (hkind : lexeme.token.kind = .semicolon) :
    skipSemicolons c =
      iterateWithin (fun _ => semicolonStep) c.rest.length () (c.after lexeme.token) := by
  change iterateWithin (fun _ => semicolonStep) (c.rest.length + 1) () c = _
  rw [iterateWithin, bind_of_ok (semicolonStep_of_kind h hkind)]

end Parse

open Parse

namespace Mend

variable {α β : Type} {m : Mend} {M : Cursor → Prop} {c : Cursor}

/-! ## After a return without a value -/

/-- The failed parse is at the place of the failure, where a statement ends, and it does not expect
    what is mended: that is no end of a statement or of a block. -/
structure Closed (m : Mend) (c : Cursor) : Prop where
  rest : c.rest = m.rest
  plain : c.Plain
  unexpected : m.what ∉ c.expected
  closes : ∀ lexeme ∈ c.rest.head?, Parse.closes lexeme.token.kind = true
  what : ∀ kind, Parse.closes kind = true → m.what ≠ .token kind

/-- To note a token that ends something keeps the parse closed. -/
theorem Closed.noting (h : m.Closed c) {kind : TokenKind} (hkind : Parse.closes kind = true) :
    m.Closed (c.noting (.token kind)) where
  rest := by simpa using h.rest
  plain := by
    obtain rfl | rfl := closes_iff.1 hkind
    all_goals exact h.plain.noting rfl
  unexpected := by
    rw [Cursor.mem_noting, not_or]
    exact ⟨h.unexpected, h.what kind hkind⟩
  closes := by simpa using h.closes
  what := h.what

/-- A semicolon is taken; without one, a block or the source ends. -/
theorem Closed.skipSemicolons {p : Parse β} (h : m.Closed c) (hp : Tame m.setting p)
    {z : Result ParseError Cursor β}
    (hend : ∀ c', m.Closed c' → (∀ lexeme ∈ c'.rest.head?, lexeme.token.kind = .rightBrace) →
      Parse.skipSemicolons c = .ok () c' → m.Kept M (p c') z) :
    m.Kept M ((do Parse.skipSemicolons; p) c) z := by
  by_cases hsemicolon : ∃ lexeme ∈ c.rest.head?, lexeme.token.kind = .semicolon
  · obtain ⟨lexeme, hhead, hkind⟩ := hsemicolon
    have hsteps : Tame m.setting (iterateWithin (fun _ => semicolonStep) c.rest.length ()) :=
      tame_iterateWithin (fun _ => ((follows_eats .semicolon rfl).bind fun _ => .pure _ :
        m.Follows semicolonStep).tame) _ _
    rw [bind_congr_at (skipSemicolons_of_kind hhead hkind)]
    exact .of_past (hsteps.bind fun _ => hp).toMarked
      (h.rest ▸ Cursor.length_rest_after hhead _) (c.plain_after _) z
  · have hne : ∀ lexeme ∈ c.rest.head?, lexeme.token.kind ≠ .semicolon :=
      fun lexeme hhead hkind => hsemicolon ⟨lexeme, hhead, hkind⟩
    have hrun := skipSemicolons_of_ne hne
    rw [bind_of_ok hrun]
    refine hend _ (h.noting rfl) (fun lexeme hhead => ?_) hrun
    rw [Cursor.rest_noting] at hhead
    exact (closes_iff.1 (h.closes lexeme hhead)).resolve_right (hne lexeme hhead)

/-- A failure that says nothing more than was noted, and that an expression was expected. -/
theorem Closed.other (h : m.Closed c) {e : ParseError} {c' : Cursor}
    (he : ∀ what ∈ e.expected, what ∈ c.expected ∨ what = .expression)
    (z : Result ParseError Cursor α) : m.Kept M (.error e c') z := by
  refine .other fun hw => absurd (he _ hw) ?_
  rw [not_or]
  exact ⟨h.unexpected, what_ne fun _ => rfl⟩

/-- Where the mended parse would refuse the token, the failed one does not come to the failure that
    is mended. -/
theorem Kept.of_refuses {p : Parse α} {f : α → Parse β} {d : Cursor} (h : m.Follows p)
    (hp : Refuses p) (hcd : m.Together c d) (hd : d.rest = [m.lexeme])
    (hkind : Parse.closes m.lexeme.token.kind = true) (hf : ∀ a, Tame m.setting (f a))
    (z : Result ParseError Cursor β) : m.Kept M ((p >>= f) c) z := by
  obtain ⟨e, d', hrun, hposition, htarget, -⟩ := hp d m.lexeme (by rw [hd]; rfl) hkind
  have hkept := h.kept hcd
  rw [hrun] at hkept
  generalize hx : p c = x at hkept
  -- The refusal is of the added token itself, so it is none of the ways to be spent
  cases hkept with
  | spent hspent =>
    cases hspent with
    | stop hstop => exact absurd (hposition.symm.trans hstop) m.inside
    | target => exact absurd rfl (htarget _)
    | word hwhat =>
      rw [kind_eq hwhat] at hkind
      cases hkind
  | past hlt hplain =>
    rw [bind_of_ok hx]
    exact .of_past (hf _).toMarked hlt hplain z
  | moot hfalse => exact hfalse.elim
  | other hother =>
    rw [bind_of_error hx]
    exact .other hother

/-- A value that may be left out goes on together, unless it is left out at the failure and the new
    token begins one. -/
theorem followsUnless_valueThen {expression : Parse Node} {f : Option Node → Parse α}
    (he : m.Follows expression) (hr : Refuses expression)
    (hf : ∀ value, m.FollowsUnless m.Closed (f value))
    (hnone : ∀ c, ∃ a, f none c = .ok a c) :
    m.FollowsUnless m.Closed (valueThen expression f) := by
  have hvalue : m.FollowsUnless m.Closed (expression >>= fun value => f (some value)) :=
    he.bind fun value => hf (some value)
  refine ⟨tame_peek.bind fun next => ?_, fun {c d} h => ?_⟩
  · cases next with
    | none => exact (hf none).tame
    | some lexeme =>
      dsimp only
      split
      · exact (hf none).tame
      · exact hvalue.tame
  -- Either the failed parse is at the failure and the mended one at the new token, or both are
  -- before the same lexeme
  obtain ⟨hc, hd⟩ | ⟨lexeme, front, -, hc, hd⟩ := h.cases
  · have hhead : d.rest.head? = some m.lexeme := by rw [hd]; rfl
    by_cases hx : ∀ lexeme ∈ c.rest.head?, Parse.closes lexeme.token.kind = true
    · rw [valueThen_of_closes hx]
      by_cases hy : Parse.closes m.lexeme.token.kind = true
      · rw [valueThen_of_closes (by simpa [hhead] using hy)]
        exact (hf none).kept h
      · obtain ⟨a, ha⟩ := hnone c
        rw [ha]
        -- Here the parses part: only the mended one reads a value
        refine .moot ⟨hc, h.plain, h.unexpected hc, hx, fun kind hkind hwhat => hy ?_⟩
        rw [kind_eq hwhat]
        exact hkind
    · simp only [not_forall] at hx
      obtain ⟨lexeme, hfirst, hx⟩ := hx
      rw [valueThen_of_not_closes hfirst hx]
      by_cases hy : Parse.closes m.lexeme.token.kind = true
      · exact .of_refuses he hr h hd hy (fun value => (hf _).tame) _
      · rw [valueThen_of_not_closes hhead hy]
        exact hvalue.kept h
  · have hhead : c.rest.head? = some lexeme := by rw [hc]; rfl
    have hhead' : d.rest.head? = some lexeme := by rw [hd]; rfl
    by_cases hkind : Parse.closes lexeme.token.kind = true
    · rw [valueThen_of_closes (by simpa [hhead] using hkind),
        valueThen_of_closes (by simpa [hhead'] using hkind)]
      exact (hf none).kept h
    · rw [valueThen_of_not_closes hhead hkind, valueThen_of_not_closes hhead' hkind]
      exact hvalue.kept h

/-- A return goes on together, unless it has lost its value by the failure. -/
theorem taken_returnStmt {expression : Parse Node} {lexeme : Lexeme} (he : m.Follows expression)
    (hr : Refuses expression) :
    m.Taken m.Closed lexeme (returnStmt m.setting expression lexeme.token) :=
  .take (followsUnless_valueThen he hr (fun _ => follows_finish _ _ _) fun _ => ⟨_, rfl⟩)

/-! ## Declarations -/

/-- The name of a type goes on together with its mended self. -/
theorem follows_typeName : m.Follows (typeName m.setting) := by
  refine (follows_expect .name rfl).bind fun name => ?_
  refine (follows_eats .leftBracket rfl).bind fun bracket => ?_
  split
  · exact (follows_expect .rightBracket rfl).bind fun _ => .pure _
  · exact .pure _

/-- A parameter goes on together with its mended self. -/
theorem follows_param : m.Follows (param m.setting) := by
  refine (follows_expect .name rfl).bind fun name => ?_
  refine (follows_eats .question rfl).bind fun optional => ?_
  refine (follows_eats .colon rfl).bind fun colon => ?_
  split
  · exact follows_typeName.bind fun type => follows_finish _ _ _
  · exact follows_finish _ _ _

/-- A name that has to be one of certain words. -/
theorem followsUnless_word (accept : String → Option α) (words : List String)
    (hwords : ∀ word ∈ words, Scan.isName word = true ∧ (accept word).isSome = true)
    (hne : words ≠ [])
    {g : Token → Parse β} {f : α → Parse β} (hf : ∀ a, m.FollowsUnless M (f a))
    (hsome : ∀ token a, accept token.value = some a → g token = f a)
    (hnone : ∀ token, accept token.value = none →
      g token = refuse token (words.map .word)) :
    m.FollowsUnless M (expect m.setting .name >>= g) := by
  -- To read a name and then to judge it is to expect a word
  have hword : expect m.setting .name >>= g =
      expectWord m.setting accept (words.map .word) >>= f := by
    rw [expectWord, bind_assoc]
    congr 1
    funext token
    cases haccept : accept token.value with
    | some a => rw [hsome token a haccept, pure_bind]
    | none => exact hnone token haccept
  rw [hword]
  refine (follows_expectWord (fun what hw => ?_) (by simpa using hne)).bind hf
  obtain ⟨word, hmem, rfl⟩ := List.mem_map.1 hw
  exact ⟨word, rfl, hwords word hmem⟩

/-- A field of an index goes on together: its direction is one of two words. -/
theorem follows_indexField : m.Follows (indexField m.setting) := by
  refine (follows_eats .leftBracket rfl).bind fun bracket => ?_
  split
  · refine (follows_expect .name rfl).bind fun name => ?_
    refine (follows_eats .comma rfl).bind fun comma => ?_
    have hclose : ∀ direction, m.Follows (do
        let _ ← expect m.setting .rightBracket
        return IndexField.mk name.value direction) :=
      fun direction => (follows_expect .rightBracket rfl).bind fun _ => .pure _
    split
    · refine followsUnless_word Direction.ofWord? ["asc", "desc"] (by decide) (by decide)
        (fun direction => hclose (some direction)) (fun token direction h => ?_) fun token h => ?_
      · simp only [h]
        rfl
      · simp only [h]
        rfl
    · exact hclose none
  · exact (follows_expect .name rfl).bind fun _ => .pure _

/-- An index goes on together: its directive is one word. -/
theorem taken_index {lexeme : Lexeme} : m.Taken M lexeme (index m.setting lexeme.token) := by
  have hfields : m.FollowsUnless M (do
      let _ ← expect m.setting .leftParen
      let fields ← list m.setting .rightParen (indexField m.setting)
      finish m.setting (.index fields) lexeme.token.position) :=
    (follows_expect .leftParen rfl).bind fun _ =>
      (follows_list .rightParen follows_indexField rfl).bind fun _ => follows_finish _ _ _
  refine .take (followsUnless_word (fun word => if word = "index" then some () else none)
    ["index"] (by decide) (by decide) (fun _ => hfields) (fun token a h => ?_) fun token h => ?_)
  · have hindex : token.value = "index" := by simpa using h
    simp only [hindex, ne_eq, not_true_eq_false, if_false]
  · have hindex : token.value ≠ "index" := by simpa using h
    simp only [hindex, ne_eq, not_false_eq_true, if_true]
    rfl

/-- A field of a collection goes on together with its mended self. -/
theorem taken_field {lexeme : Lexeme} : m.Taken M lexeme (field m.setting lexeme.token) := by
  refine .take ((follows_eats .colon rfl).bind fun _ => follows_typeName.bind fun type => ?_)
  exact (follows_eats .not rfl).bind fun required => follows_finish _ _ _

section Blocks

variable {expression : Parse Node} {block : Parse (List Node)} {lexeme : Lexeme} {room : Nat}

/-- A function goes on together if its body does. -/
theorem taken_function (hb : m.Follows block) :
    m.Taken M lexeme (function m.setting block lexeme.token) := by
  refine .take ((follows_expect .name rfl).bind fun name => ?_)
  refine (follows_expect .leftParen rfl).bind fun _ => ?_
  refine (follows_list .rightParen follows_param rfl).bind fun params => ?_
  exact hb.bind fun body => follows_finish _ _ _

/-- An item of a collection goes on together: all that it can begin with is noted. -/
theorem follows_collectionItem (hb : m.Follows block) :
    m.Follows (collectionItem m.setting block) := by
  refine follows_peek ([TokenKind.keyword .function, .atSign, .name].contains ·) ?_
    (fun lexeme hkind => ?_) fun lexeme hkind => ?_
  · have hend : m.Noted (fun _ => False) ([TokenKind.keyword .function, .atSign, .name].contains ·)
        (failHere m.setting : Parse Node) := follows_failHere.noted _
    exact ((hend.expecting rfl rfl).expecting rfl rfl).expecting rfl rfl
  · dsimp only
    split
    all_goals first | rfl | next hk => simp [hk] at hkind
  · dsimp only
    split
    · exact taken_function hb
    · exact taken_index
    · exact taken_field
    · next h₁ h₂ h₃ => exact absurd hkind (by simpa using ⟨h₁, h₂, h₃⟩)

/-- A collection goes on together with its mended self. -/
theorem taken_collection (hb : m.Follows block) (hreads : ReadsBlock m.setting room block) :
    m.Taken M lexeme (collection m.setting block lexeme.token) := by
  refine .take ((follows_expect .name rfl).bind fun name => ?_)
  refine (follows_expect .leftBrace rfl).bind fun _ => ?_
  refine follows_skipSemicolons.bind fun _ => FollowsUnless.weaken ?_
  exact follows_body (follows_collectionItem hb) (itemRound_reads hreads).length_lt
    (fun h => h.elim) fun items => follows_finish _ _ _

/-- A further clause of a conditional goes on together with its mended self. -/
theorem follows_clause (he : m.Follows expression) (hb : m.Follows block) :
    m.Follows (clause m.setting expression block) := by
  refine (follows_eat? (.keyword .elseWord) rfl).bind fun found => ?_
  cases found with
  | none => exact .pure _
  | some token =>
    refine (follows_eats (.keyword .ifWord) rfl).bind fun condition => ?_
    split
    · refine he.bind fun condition => hb.bind fun body => ?_
      exact (follows_finish _ _ _).bind fun _ => .pure _
    · exact hb.bind fun body => (follows_finish _ _ _).bind fun _ => .pure _

/-- A conditional goes on together with its mended self. -/
theorem taken_ifStmt (he : m.Follows expression) (hb : m.Follows block)
    (hexpr : Reads m.setting room .nested 0 expression)
    (hblock : ReadsBlock m.setting room block) :
    m.Taken M lexeme (ifStmt m.setting expression block lexeme.token) := by
  refine .take (he.bind fun condition => hb.bind fun body => ?_)
  refine (follows_gather (follows_clause he hb) fun c n c' h => ?_).bind fun clauses =>
    follows_finish _ _ _
  exact clause_length_lt hexpr hblock h

/-- The declaration of a constant goes on together with its mended self. -/
theorem taken_constDecl (he : m.Follows expression) :
    m.Taken M lexeme (constDecl m.setting expression lexeme.token) := by
  refine .take ((follows_expect .name rfl).bind fun name => ?_)
  refine (follows_expect .assign rfl).bind fun _ => ?_
  exact he.bind fun value => follows_finish _ _ _

/-- The declaration of a variable goes on together with its mended self. -/
theorem taken_letDecl (he : m.Follows expression) :
    m.Taken M lexeme (letDecl m.setting expression lexeme.token) := by
  refine .take ((follows_expect .name rfl).bind fun name => ?_)
  refine (follows_eats .assign rfl).bind fun sign => ?_
  split
  · exact he.bind fun value => follows_finish _ _ _
  · exact follows_finish _ _ _

/-- What both parses have read as one node begins with a token from before the failure. -/
theorem position_mem_front {place : Place} {level : Nat} {p : Parse Node} {d d' : Cursor}
    {node : Node} (h : m.Together c d) (hd' : ∃ c', m.Together c' d') (hp : p d = .ok node d')
    (hreads : Reads m.setting room place level p) :
    node.position ∈ m.front.map (·.token.position) := by
  obtain ⟨ts, htook, hparsed, -⟩ := hreads d node d' hp
  obtain ⟨front, hfront, -, hd⟩ := h.rest
  obtain ⟨_, front', -, -, hd'⟩ := hd'.imp fun _ h => h.rest
  obtain ⟨t, us, rfl⟩ := hparsed.ne_nil
  -- The tokens that were read are those before the failure that the mended parse does not have left
  have htokens : front.map Lexeme.token = t :: (us ++ front'.map Lexeme.token) := by
    have htokens := htook.tokens
    simp only [Cursor.tokens, hd, hd', List.map_append, ← List.append_assoc] at htokens
    exact List.append_cancel_right htokens
  have hposition : t.position = node.position := by simpa using hparsed.position
  have hmem : t ∈ front.map Lexeme.token := by simp [htokens]
  obtain ⟨lexeme, hlexeme, rfl⟩ := List.mem_map.1 hmem
  rw [← hposition]
  exact List.mem_map.2 ⟨lexeme, hfront.subset hlexeme, rfl⟩

/-- An expression that stands as a statement goes on together, and so does an assignment.  A target
    that cannot be assigned to was there before the failure. -/
theorem follows_expressionStmt (he : m.Follows expression)
    (hexpr : Reads m.setting room .nested 0 expression) :
    m.FollowsUnless M (expressionStmt m.setting expression) := by
  have hoperators : ∀ kind ∈ [TokenKind.assign, .addAssign, .subAssign],
      (Operator.ofKind? kind).isSome = true := by decide
  have hassign : ∀ (left : Node) (token : Token),
      token.kind ∈ [TokenKind.assign, .addAssign, .subAssign] → m.FollowsUnless M (do
        let op ← operatorNode token
        let right ← expression
        finish m.setting (.assign left op right) left.position) := fun left token hkind =>
    (follows_operatorNode (hoperators _ hkind)).bind fun op => he.bind fun right =>
      follows_finish _ _ _
  refine he.bindWhere (fun h hp hd' => position_mem_front h hd' hp hexpr)
    (fun left => tame_checkAny?_bind (.pure left) (fun token hkind => ?_) (by decide))
    fun left hleft => follows_checkAny? (.pure left) (fun lexeme hkind => ?_) (by decide)
  · have htake := (tame_take token).bind fun _ => (hassign left token hkind).tame
    dsimp only
    split
    · exact (Marked.throw rfl).bind fun _ => htake.toMarked
    · exact htake.toMarked
  · dsimp only
    split
    · exact .invalidTarget hkind hleft fun c => rfl
    · exact .take (hassign left lexeme.token hkind)

/-- The words that a statement begins with. -/
def statementKinds : List TokenKind :=
  [.keyword .ifWord, .keyword .constWord, .keyword .letWord, .keyword .returnWord]

/-- A statement goes on together, unless it is a return that has lost its value. -/
theorem followsUnless_statement (he : m.Follows expression) (hr : Refuses expression)
    (hb : m.Follows block) (hexpr : Reads m.setting room .nested 0 expression)
    (hblock : ReadsBlock m.setting room block) :
    m.FollowsUnless m.Closed (statement m.setting expression block) := by
  refine follows_peek (statementKinds.contains ·) ((follows_expressionStmt he hexpr).noted _)
    (fun lexeme hkind => ?_) fun lexeme hkind => ?_
  · dsimp only
    split
    all_goals first | rfl | next hk => simp [statementKinds, hk] at hkind
  · dsimp only
    split
    · exact taken_ifStmt he hb hexpr hblock
    · exact taken_constDecl he
    · exact taken_letDecl he
    · exact taken_returnStmt he hr
    · next h₁ h₂ h₃ h₄ =>
      exact absurd hkind (by simpa [statementKinds] using ⟨h₁, h₂, h₃, h₄⟩)

/-- A statement of a block goes on together: at the end of the source the failed parse stops. -/
theorem followsUnless_blockItem {statement : Parse Node} (h : m.FollowsUnless M statement) :
    m.FollowsUnless M (blockItem m.setting statement) := by
  refine ⟨tame_blockItem h.tame, fun {c d} hcd => ?_⟩
  obtain ⟨hc, hd⟩ | ⟨lexeme, front, -, hc, hd⟩ := hcd.cases
  · cases hhead : c.rest.head? with
    | none =>
      rw [blockItem_of_none hhead]
      exact hcd.failure _
    | some lexeme =>
      have hhead' : d.rest.head? = some m.lexeme := by rw [hd]; rfl
      rw [blockItem_of_some hhead, blockItem_of_some hhead']
      exact h.kept hcd
  · have hhead : c.rest.head? = some lexeme := by rw [hc]; rfl
    have hhead' : d.rest.head? = some lexeme := by rw [hd]; rfl
    rw [blockItem_of_some hhead, blockItem_of_some hhead']
    exact h.kept hcd

/-- After a return without a value, the failed parse takes a semicolon or the brace, or it fails
    because the source ends in the block. -/
theorem Closed.body (h : m.Closed c) {statement : Parse Node} (hs : Tame m.setting statement)
    (rounds : Nat) (f : List Node → Parse β) (z : Result ParseError Cursor β)
    (hf : ∀ items, Tame m.setting (f items))
    (hrounds : ∀ c', Parse.skipSemicolons c = .ok () c' → c'.rest.length < rounds) :
    m.Kept M ((do
      Parse.skipSemicolons
      m.bodyWithin (blockItem m.setting statement) rounds f) c) z := by
  refine h.skipSemicolons (tame_bodyWithin (tame_blockItem hs) hf rounds)
    fun c' hc' hbrace hskip => ?_
  -- A round is left, for what the semicolons took is not there to be read again
  obtain ⟨rounds, rfl⟩ : ∃ n, rounds = n + 1 := ⟨rounds - 1, by have := hrounds c' hskip; omega⟩
  cases hhead : c'.rest.head? with
  | some lexeme =>
    rw [bodyWithin_of_kind hhead (hbrace lexeme hhead)]
    exact .of_past (hf []).toMarked (hc'.rest ▸ Cursor.length_rest_after hhead _)
      (c'.plain_after _) z
  | none =>
    have hnoting : (c'.noting (.token .rightBrace)).rest.head? = none := by simpa using hhead
    rw [bodyWithin_of_ne (by simp [hhead]), bind_of_error (blockItem_of_none hnoting)]
    have hclosed := hc'.noting (rfl : Parse.closes .rightBrace = true)
    refine hclosed.other (fun what hw => .inl ?_) z
    rwa [Cursor.expected_failure] at hw

/-- Statements in braces go on together, and what becomes of a return without a value is settled at
    the brace. -/
theorem follows_braced (he : m.Follows expression) (hr : Refuses expression)
    (hb : m.Follows block) (hexpr : Reads m.setting room .nested 0 expression)
    (hblock : ReadsBlock m.setting room block) :
    m.Follows (braced m.setting (statement m.setting expression block)) := by
  have hstatement := followsUnless_statement he hr hb hexpr hblock
  have hadvances : Advances (bodyRound (blockItem m.setting
      (statement m.setting expression block))) := by
    rw [bodyRound_blockItem]
    exact (blockRound_reads hexpr hblock).length_lt
  have hbody := follows_body (f := fun nodes => (pure nodes : Parse (List Node)))
    (followsUnless_blockItem hstatement) hadvances
    (fun h => h.body hstatement.tame) fun _ => .pure _
  rw [bodyRound_blockItem] at hbody
  exact (follows_expect .leftBrace rfl).bind fun _ => follows_skipSemicolons.bind fun _ => hbody

end Blocks

/-- A block goes on together with its mended self, however much room it has. -/
theorem follows_nestedBlock (hg : m.setting.grammar = .standard) (room : Nat) :
    m.Follows (nestedBlock m.setting room) := by
  induction room with
  | zero => exact follows_failTooDeep
  | succ room ih =>
    exact (follows_enter _ room).bind fun _ => follows_braced (follows_nestedLevel hg room 0)
      (refuses_nestedLevel hg room 0) ih (nestedLevel_reads room 0) (nestedBlock_reads room)

/-- A statement that does not stand in a block goes on together, unless it is a return that has lost
    its value. -/
theorem followsUnless_topStatement (hg : m.setting.grammar = .standard) :
    m.FollowsUnless m.Closed (topStatement m.setting) := by
  have hblock := follows_nestedBlock hg m.setting.limit
  have hreads := @nestedBlock_reads m.setting m.setting.limit
  have hother : m.FollowsUnless m.Closed (statement m.setting
      (nestedExpression m.setting m.setting.limit) (nestedBlock m.setting m.setting.limit)) :=
    followsUnless_statement (follows_nestedLevel hg _ 0) (refuses_nestedLevel hg _ 0) hblock
      (nestedLevel_reads _ 0) hreads
  refine follows_peek ([TokenKind.keyword .collection, .keyword .function].contains ·)
    (hother.noted _) (fun lexeme hkind => ?_) fun lexeme hkind => ?_
  · dsimp only
    split
    all_goals first | rfl | next hk => simp [hk] at hkind
  · dsimp only
    split
    · exact taken_collection hblock hreads
    · exact taken_function hblock
    · next h₁ h₂ => exact absurd hkind (by simpa using ⟨h₁, h₂⟩)

/-! ## Programs -/

/-- What a program is read with after its first semicolons: statements up to the end of the source,
    and what follows. -/
def topWithin (s : Setting) (rounds : Nat) (f : List Node → Parse β) : Parse β := do
  let nodes ← gatherWithin (topRound s) rounds
  f nodes

/-- The end of a program, in which there has to be a statement. -/
def someStatement (s : Setting) (nodes : List Node) : Parse (List Node) := do
  if nodes.isEmpty then
    expecting .statement
    failHere s
  return nodes

/-- At the end of the source there are no more statements. -/
theorem topWithin_of_none {s : Setting} {f : List Node → Parse β} (h : c.rest.head? = none)
    (rounds : Nat) : topWithin s (rounds + 1) f c = f [] c := by
  have hround : topRound s c = .ok .done c := by
    rw [topRound, peek_bind, h]
    rfl
  rw [topWithin, gatherWithin, bind_assoc, bind_of_ok hround]
  rfl

/-- Elsewhere there is one more statement before the others. -/
theorem topWithin_of_some {s : Setting} {f : List Node → Parse β} {lexeme : Lexeme}
    (h : c.rest.head? = some lexeme) (rounds : Nat) :
    topWithin s (rounds + 1) f c =
      (do
        let node ← topStatement s
        skipSemicolons
        topWithin s rounds fun nodes => f (node :: nodes)) c := by
  have hround : topRound s c = (do
      let node ← topStatement s
      skipSemicolons
      return Round.more node) c := by
    rw [topRound, peek_bind, h]
    rfl
  rw [topWithin, gatherWithin, bind_assoc, bind_congr_at hround]
  simp only [bind_assoc, pure_bind]
  rfl

section Program

variable {f : List Node → Parse β} {d : Cursor} (hg : m.setting.grammar = .standard)
include hg

/-- The statements of a program are tame. -/
theorem tame_topWithin (hf : ∀ nodes, Tame m.setting (f nodes)) (rounds : Nat) :
    Tame m.setting (topWithin m.setting rounds f) := by
  refine (tame_gatherWithin (tame_peek.bind fun next => ?_) rounds).bind hf
  split
  · exact .pure _
  · exact (followsUnless_topStatement hg).tame.bind fun _ =>
      follows_skipSemicolons.tame.bind fun _ => .pure _

/-- After a return without a value, the failed parse takes a semicolon, or the source ends, or it
    comes to a closing brace, before which it fails. -/
theorem Closed.top (h : m.Closed c) (rounds : Nat) (hf : ∀ nodes, Tame m.setting (f nodes))
    (hend : ∀ {c : Cursor}, c.rest = m.rest → m.what ∉ c.expected → ∀ z, m.Kept M (f [] c) z)
    (hrounds : ∀ c', Parse.skipSemicolons c = .ok () c' → c'.rest.length < rounds)
    (z : Result ParseError Cursor β) :
    m.Kept M ((do Parse.skipSemicolons; topWithin m.setting rounds f) c) z := by
  refine h.skipSemicolons (tame_topWithin hg hf rounds) fun c' hc' hbrace hskip => ?_
  obtain ⟨rounds, rfl⟩ : ∃ n, rounds = n + 1 := ⟨rounds - 1, by have := hrounds c' hskip; omega⟩
  cases hhead : c'.rest.head? with
  | none =>
    rw [topWithin_of_none hhead]
    exact hend hc'.rest hc'.unexpected z
  | some lexeme =>
    obtain ⟨e, c'', hrun, -, -, hexpected⟩ :=
      refuses_topStatement hg c' lexeme hhead (by rw [hbrace lexeme hhead]; rfl)
    rw [topWithin_of_some hhead, bind_of_error hrun]
    exact hc'.other hexpected z

/-- One more statement in both parses. -/
private theorem kept_topWithin_of_some {x y : Lexeme} (hf : ∀ nodes, m.FollowsUnless M (f nodes))
    (hend : ∀ (nodes : List Node) {c : Cursor}, c.rest = m.rest → m.what ∉ c.expected →
      ∀ z, m.Kept M (f nodes c) z)
    (h : m.Together c d) (hx : c.rest.head? = some x) (hy : d.rest.head? = some y) {n k : Nat}
    (hn : c.rest.length < n + 1)
    (hnext : ∀ (node : Node) {c' d' : Cursor}, m.Together c' d' →
      c'.rest.length < c.rest.length → d'.rest.length < d.rest.length →
      m.Kept M (topWithin m.setting n (fun nodes => f (node :: nodes)) c')
        (topWithin m.setting k (fun nodes => f (node :: nodes)) d')) :
    m.Kept M (topWithin m.setting (n + 1) f c) (topWithin m.setting (k + 1) f d) := by
  -- A round takes a token in both parses, so the bounds go down together
  have htail : ∀ (rounds : Nat) (node : Node), Tame m.setting
      (topWithin m.setting rounds fun nodes => f (node :: nodes)) := fun rounds node =>
    tame_topWithin hg (fun _ => (hf _).tame) rounds
  have hshorter : ∀ {c c₁ c₂ : Cursor} {node : Node} {x : Lexeme}, c.rest.head? = some x →
      topStatement m.setting c = .ok node c₁ → Parse.skipSemicolons c₁ = .ok () c₂ →
      c₂.rest.length < c.rest.length := by
    intro c c₁ c₂ node x hx hp hs
    have hround : topRound m.setting c = .ok (.more node) c₂ := by
      rw [topRound, peek_bind, hx]
      exact (bind_of_ok hp).trans (bind_of_ok hs)
    exact topRound_reads.length_lt c node c₂ hround
  rw [topWithin_of_some hx, topWithin_of_some hy]
  refine kept_line (followsUnless_topStatement hg) h (htail n) (htail k) ?_
    fun hp hclosed z => ?_
  · exact fun hp hq hs hs' h' => hnext _ h' (hshorter hx hp hs) (hshorter hy hq hs')
  · refine hclosed.top hg n (fun _ => (hf _).tame) (hend _) (fun c₂ hs => ?_) z
    have hlt := hshorter hx hp hs
    omega

/-- The statements up to the end of the source, and what follows. -/
theorem kept_topWithin (hf : ∀ nodes, m.FollowsUnless M (f nodes))
    (hend : ∀ (nodes : List Node) {c : Cursor}, c.rest = m.rest → m.what ∉ c.expected →
      ∀ z, m.Kept M (f nodes c) z)
    (h : m.Together c d) {n k : Nat} (hn : c.rest.length < n) (hk : d.rest.length < k) :
    m.Kept M (topWithin m.setting n f c) (topWithin m.setting k f d) := by
  -- Induction on the bound of the failed parse; that of the mended one is only ever large enough
  induction n generalizing k c d f with
  | zero => omega
  | succ n ih =>
    obtain ⟨k, rfl⟩ : ∃ j, k = j + 1 := ⟨k - 1, by omega⟩
    have hmore : ∀ {x y : Lexeme}, c.rest.head? = some x → d.rest.head? = some y →
        m.Kept M (topWithin m.setting (n + 1) f c) (topWithin m.setting (k + 1) f d) :=
      fun hx hy => kept_topWithin_of_some hg hf hend h hx hy hn fun _ _ _ h' hlt hlt' =>
        ih (fun _ => hf _) (fun _ => hend _) h' (by omega) (by omega)
    obtain ⟨hc, hd⟩ | ⟨lexeme, front, -, hc, hd⟩ := h.cases
    · cases hhead : c.rest.head? with
      | none =>
        rw [topWithin_of_none hhead]
        exact hend [] hc (h.unexpected hc) _
      | some lexeme => exact hmore hhead (by rw [hd]; rfl)
    · exact hmore (by rw [hc]; rfl) (by rw [hd]; rfl)

end Program

/-- The end of a program goes on together: what is noted there is no token. -/
theorem followsUnless_someStatement (nodes : List Node) :
    m.FollowsUnless M (someStatement m.setting nodes) := by
  unfold someStatement
  split
  · exact (follows_expecting rfl (what_ne fun _ => rfl)).bind fun _ =>
      follows_failHere.bind fun _ => .pure _
  · exact .pure _

/-- At the end of the source, a program fails only for want of a statement. -/
theorem kept_someStatement (nodes : List Node) (h : m.what ∉ c.expected)
    (z : Result ParseError Cursor (List Node)) :
    m.Kept (fun _ => True) (someStatement m.setting nodes c) z := by
  cases nodes with
  | cons node nodes => exact .moot trivial
  | nil =>
    have hnote : expecting .statement c = .ok () (c.noting .statement) := rfl
    have hrun : someStatement m.setting [] c =
        .error ((c.noting .statement).failure m.setting) (c.noting .statement) :=
      (bind_of_ok hnote).trans (bind_of_error (failHere_eq (c.noting .statement)))
    rw [hrun]
    refine .other fun hw => absurd hw ?_
    rw [Cursor.expected_failure, Cursor.mem_noting, not_or]
    exact ⟨h, what_ne fun _ => rfl⟩

/-- A program beside the mended one: where the failed parse fails after all, the mended one has
    taken the token, or the failure is another one. -/
theorem followsUnless_program (hg : m.setting.grammar = .standard) :
    m.FollowsUnless (fun _ => True) (program m.setting) := by
  have hend : m.FollowsUnless (fun _ => True)
      (gather (topRound m.setting) >>= someStatement m.setting) := by
    -- A sequence is a bounded one, with one round more than there are lexemes
    have hrun : ∀ c, (gather (topRound m.setting) >>= someStatement m.setting) c =
        topWithin m.setting (c.rest.length + 1) (someStatement m.setting) c := fun c => rfl
    refine ⟨.of_eq hrun fun _ => tame_topWithin hg
      (fun nodes => (@followsUnless_someStatement m (fun _ => True) nodes).tame) _,
      fun {c d} h => ?_⟩
    rw [hrun, hrun]
    exact kept_topWithin hg followsUnless_someStatement
      (fun nodes _ _ hunexpected => kept_someStatement nodes hunexpected) h
      (Nat.lt_succ_self _) (Nat.lt_succ_self _)
  exact follows_skipSemicolons.bind fun _ => hend

/-- Where a program fails and says that it expected something, the program that has it there takes
    it. -/
theorem spent_program (hg : m.setting.grammar = .standard) {e : ParseError} {c' : Cursor}
    (h : program m.setting (.start (m.front ++ m.rest)) = .error e c') (hw : m.what ∈ e.expected)
    (hblames : m.Blames c') : m.Spent (program m.setting (.start (m.front ++ [m.lexeme]))) := by
  have htogether : m.Together (.start (m.front ++ m.rest)) (.start (m.front ++ [m.lexeme])) :=
    ⟨⟨m.front, List.suffix_rfl, rfl, rfl⟩, rfl, fun _ hmem => absurd hmem List.not_mem_nil,
      fun _ => List.not_mem_nil⟩
  have hkept := (followsUnless_program hg).kept htogether
  rw [h] at hkept
  generalize program m.setting (.start (m.front ++ [m.lexeme])) = z at hkept ⊢
  cases hkept with
  | spent h => exact h
  | other h => exact absurd hblames (h hw)

end Mend

end Schemata
