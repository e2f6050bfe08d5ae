import Schemata.Proofs.Composition
import Schemata.Proofs.StatementComplete

/-!
# Programs of one expression

A source can be read as an expression and as a program.  Before an expression a program looks for
semicolons, a keyword and the end of the source, and after it for a sign of assignment.  None of
this is there if the source is an expression, and what has been looked for in vain is forgotten
with the first token that is taken (`Forgets`).

Main statement: `parseExpression_agrees`.
-/

namespace Schemata.Parse

variable {α β : Type} {s : Setting} {c c' c₁ : Cursor} {n : Node}

/-! ## What was expected before -/

/-- If the parse succeeds, it does so whatever was expected before, which it forgets. -/
def Forgets (p : Parse α) : Prop :=
  ∀ c a c', p c = .ok a c' → ∀ expected, p { c with expected } = .ok a c'

/-- What never succeeds forgets everything. -/
theorem forgets_of_ne_ok {p : Parse α} (h : ∀ {c a c'}, p c ≠ .ok a c') : Forgets p :=
  fun _ _ _ hp _ => absurd hp h

/-- A parse forgets what its first part forgets. -/
theorem Forgets.bind {p : Parse α} (h : Forgets p) (f : α → Parse β) : Forgets (p >>= f) := by
  intro c b c' hok expected
  obtain ⟨a, c₁, hp, hf⟩ := bind_eq_ok.1 hok
  exact bind_eq_ok.2 ⟨a, c₁, h c a c₁ hp expected, hf⟩

/-- Taking a token forgets what was expected in its place. -/
theorem forgets_take_bind (t : Token) (f : Unit → Parse α) : Forgets (take t >>= f) :=
  fun _ _ _ hok _ => hok

/-- A look at the next token says nothing of what was expected. -/
theorem forgets_peek_bind {f : Option Lexeme → Parse α} (h : ∀ next, Forgets (f next)) :
    Forgets (peek >>= f) := by
  intro c a c' hok expected
  rw [peek_bind] at hok ⊢
  exact h _ c a c' hok expected

/-- Entering a level says nothing of what was expected. -/
theorem forgets_enter_bind {p : Parse α} (room : Nat) (h : Forgets p) :
    Forgets (enter s room >>= fun _ => p) :=
  fun c a c' hok expected => h (c.descend s (s.limit - room)) a c' hok expected

/-- An atom begins with a token that is taken. -/
theorem forgets_atom (expression : Parse Node) : Forgets (atom s expression) := by
  have hfail : Forgets (failAtom s) := forgets_of_ne_ok failAtom_ne_ok
  refine forgets_peek_bind fun next => ?_
  cases next with
  | none => exact hfail
  | some lexeme =>
    obtain ⟨token, broken⟩ := lexeme
    dsimp only
    -- Every atom begins with a token that is taken
    split
    · exact forgets_take_bind _ _
    · exact forgets_take_bind _ _
    · exact forgets_take_bind _ _
    · exact forgets_take_bind _ _
    · exact forgets_take_bind _ _
    · exact forgets_take_bind _ _
    · exact forgets_take_bind _ _
    · exact hfail

/-- An expression of a level begins with a token that is taken. -/
theorem forgets_climb (nested : Nat → Parse Node) (level : Nat) (levels : List Level) :
    Forgets (climb s nested level levels) := by
  -- The first thing that an expression reads is an operator or the atom at its front
  induction levels generalizing level with
  | nil => exact (forgets_atom _).bind _
  | cons row tighter ih =>
    cases row with
    | binary kind operators => exact (ih (level + 1)).bind _
    | unary operators =>
      refine forgets_peek_bind fun next => ?_
      cases next with
      | none => exact ih (level + 1)
      | some lexeme =>
        obtain ⟨token, broken⟩ := lexeme
        dsimp only
        split
        · exact forgets_take_bind _ _
        · exact ih (level + 1)

/-- A nested expression begins with a token that is taken. -/
theorem forgets_nestedLevel (room level : Nat) : Forgets (nestedLevel s room level) := by
  cases room with
  | zero => exact forgets_of_ne_ok failTooDeep_ne_ok
  | succ room => exact forgets_enter_bind room (forgets_climb _ level _)

/-! ## From the expression to the program -/

/-- A statement that begins like an expression is one, or an assignment to it. -/
theorem topStatement_of_starts {x : Lexeme} (hx : c.rest.head? = some x)
    (hstarts : Place.starts x.token.kind .nested = true) :
    topStatement s c = expressionStmt s (nestedExpression s s.limit) c := by
  obtain ⟨t, broken⟩ := x
  -- All other statements begin with a keyword
  have hword : ∀ word, t.kind ≠ .keyword word := by
    intro word hk
    rw [hk] at hstarts
    cases word <;> cases hstarts
  have hother : statement s (nestedExpression s s.limit) (nestedBlock s s.limit) c =
      expressionStmt s (nestedExpression s s.limit) c := by
    simp only [statement, peek_bind, hx]
    change EStateM.run _ c = _
    split
    · next hk => exact absurd hk (hword _)
    · next hk => exact absurd hk (hword _)
    · next hk => exact absurd hk (hword _)
    · next hk => exact absurd hk (hword _)
    · rfl
  simp only [topStatement, peek_bind, hx]
  change EStateM.run _ c = _
  split
  · next hk => exact absurd hk (hword _)
  · next hk => exact absurd hk (hword _)
  · exact hother

/-- At the end, tokens are looked for in vain. -/
theorem exists_checkAny?_at_end (kinds : List TokenKind) (h : c.rest = []) :
    ∃ c', checkAny? kinds c = .ok none c' ∧ c'.rest = [] := by
  induction kinds generalizing c with
  | nil => exact ⟨c, rfl, h⟩
  | cons kind kinds ih =>
    obtain ⟨c', hcheck, hrest⟩ := @ih (c.noting (.token kind)) (by simp [h])
    refine ⟨c', ?_, hrest⟩
    rw [checkAny?, bind_of_ok (check?_of_ne (by simp [h]))]
    exact hcheck

/-- Where an expression begins that goes on to the end of the source, it is the last statement:
    neither a sign of assignment nor a semicolon comes after it. -/
theorem exists_topRound_at_end {x : Lexeme} (hx : c.rest.head? = some x)
    (hstarts : Place.starts x.token.kind .nested = true)
    (hnode : nestedExpression s s.limit c = .ok n c') (hend : c'.rest = []) :
    ∃ c'', topRound s c = .ok (.more n) c'' ∧ c''.rest = [] := by
  obtain ⟨c₁, hcheck, hrest₁⟩ := exists_checkAny?_at_end [.assign, .addAssign, .subAssign] hend
  have hstatement : topStatement s c = .ok n c₁ := by
    rw [topStatement_of_starts hx hstarts]
    exact bind_eq_ok.2 ⟨n, c', hnode, bind_eq_ok.2 ⟨none, c₁, hcheck, rfl⟩⟩
  obtain ⟨c₂, hskip, hskips⟩ := exists_skipSemicolons c₁
  have hrest : c.rest ≠ [] := by
    intro hnil
    rw [hnil] at hx
    cases hx
  refine ⟨c₂, topRound_eq_ok.2 (.inr ⟨hrest, n, c₁, rfl, hstatement, hskip⟩), ?_⟩
  rw [hskips.rest, hrest₁, List.dropWhile_nil]

/-- What makes up a source as an expression makes it up as a program, too. -/
theorem exists_program_of_wholeExpression (hs : s.grammar = .standard)
    (h : wholeExpression s c = .ok n c') : ∃ c'', program s c = .ok [n] c'' := by
  obtain ⟨hnode, hend⟩ := wholeExpression_eq_ok.1 h
  have hwritten := (wholeExpression_reads h).written
  rw [hs] at hwritten
  obtain ⟨t, us, htokens, hstarts⟩ := hwritten.starts
  obtain ⟨x, rest, hrest, rfl⟩ : ∃ x rest, c.rest = x :: rest ∧ x.token = t := by
    obtain ⟨x, rest, hrest, hx, -⟩ := List.map_eq_cons_iff.1 htokens
    exact ⟨x, rest, hrest, hx⟩
  have hsemicolon : ∀ lexeme ∈ c.rest.head?, lexeme.token.kind ≠ .semicolon := by
    rw [hrest]
    rintro _ ⟨⟩ hk
    rw [hk] at hstarts
    cases hstarts
  -- A semicolon is looked for in vain, which the expression forgets
  obtain ⟨expected, hnoting⟩ := c.noting_eq (.token .semicolon)
  have hleading := skipSemicolons_of_ne hsemicolon
  rw [hnoting] at hleading
  have hagain : nestedExpression s s.limit { c with expected } = .ok n c' :=
    forgets_nestedLevel _ _ c n c' hnode expected
  have hx : ({ c with expected } : Cursor).rest.head? = some x := by simp [hrest]
  obtain ⟨c₁, hround, hrest₁⟩ := exists_topRound_at_end hx hstarts hagain hend
  refine ⟨c₁, program_eq_ok.2 ⟨List.cons_ne_nil _ _, _, hleading, .more hround (.done ?_)⟩⟩
  exact topRound_eq_ok.2 (.inl ⟨hrest₁, rfl, rfl⟩)

end Schemata.Parse

namespace Schemata

open Parse

/-! ## From the program to the expression -/

/-- Whether the node is a statement that is no expression. -/
def Node.isProperStatement (n : Node) : Bool :=
  match n.shape with
  | .returnStmt _ | .constDecl _ _ | .letDecl _ _ | .assign _ _ _ | .ifStmt _ _ _
  | .function _ _ _ | .collection _ _ => true
  | _ => false

/-- Any other statement of a program is written as an expression. -/
theorem Written.nested_of_top {grammar : Grammar} {note : SourceNote} {r : Nat} {ts : List Token}
    {n : Node} (h : Written grammar note r .top ts n) (hn : n.isProperStatement = false) :
    Written grammar note r .nested ts n := by
  cases h with
  | functionTop h =>
    cases h
    cases hn
  | collection => cases hn
  | statement h =>
    cases h with
    | expression h => exact h
    | _ => cases hn

/-- The lexemes of a source are among its tokens. -/
theorem Lexeme.exists_tokens {source : String} {lexemes : List Lexeme} {stop : Position}
    (h : ofSource source = .ok (lexemes, stop)) :
    ∃ tokens, (Lexer.ofSource source).tokenize = .ok tokens ∧
      ∀ t ∈ lexemes.map Lexeme.token, t ∈ tokens := by
  obtain ⟨tokens, htiles, rfl, -⟩ := ofSource_eq_ok.1 h
  refine ⟨tokens, Lexer.tokenize_eq_ok.2 htiles, fun t ht => ?_⟩
  rw [map_token_ofTokens] at ht
  exact (List.mem_filter.1 ht).1

/-- Without semicolons, the tokens of a program of one statement are those of the statement. -/
theorem Lines.tokens_of_single {lines : Lines} {grammar : Grammar} {stretch : Stretch}
    (hs : lines.Spaced grammar) (hstretch : lines.stretches = [stretch])
    (hsemicolon : ∀ t ∈ lines.tokens, t.kind ≠ .semicolon) : lines.tokens = stretch.tokens := by
  have htokens : lines.tokens = lines.leading ++ (stretch.tokens ++ stretch.breaks) := by
    simp [Lines.tokens, hstretch]
  rw [htokens] at hsemicolon
  have hleading : lines.leading = [] := List.eq_nil_iff_forall_not_mem.2 fun t ht =>
    hsemicolon t (by simp [ht]) (hs.leading t ht)
  have hbreaks : stretch.breaks = [] := List.eq_nil_iff_forall_not_mem.2 fun t ht =>
    hsemicolon t (by simp [ht]) (hs.breaks stretch (by simp [hstretch]) t ht)
  rw [htokens, hleading, hbreaks, List.nil_append, List.append_nil]

/-- What is parsed as an expression is parsed as a program of just that. -/
theorem parse_of_parseExpression {source : String} {e : Node}
    (h : parseExpression .standard source = .ok e) : parse source = .ok [e] := by
  obtain ⟨lexemes, stop, c, hlexemes, hparse⟩ := parseExpression_eq_ok.1 h
  obtain ⟨c', hprogram⟩ := exists_program_of_wholeExpression rfl hparse
  exact parse_eq_ok.2 ⟨lexemes, stop, c', hlexemes, hprogram⟩

/-- A source can be read as an expression and as a program.  An expression makes up the program
    alone.  A program of one statement that is an expression, in a source without semicolons, is
    that expression. -/
theorem parseExpression_agrees (source : String) :
    (∀ e, parseExpression .standard source = .ok e → parse source = .ok [e]) ∧
      ∀ node, parse source = .ok [node] → node.isProperStatement = false →
        (∀ tokens, (Lexer.ofSource source).tokenize = .ok tokens →
          ∀ t ∈ tokens, t.kind ≠ .semicolon) →
        parseExpression .standard source = .ok node := by
  refine ⟨fun e h => parse_of_parseExpression h, fun node h hnode hsemicolon => ?_⟩
  obtain ⟨lexemes, stop, lines, hlexemes, htokens, hnodes, hparsed⟩ := parse_reads h
  obtain ⟨stretch, hstretch, rfl⟩ : ∃ stretch, lines.stretches = [stretch] ∧ stretch.node = node :=
    List.map_eq_singleton_iff.1 hnodes.symm
  have hmem : stretch ∈ lines.stretches := by simp [hstretch]
  have hsingle : lines.tokens = stretch.tokens := by
    refine Lines.tokens_of_single hparsed.written.spaced hstretch fun t ht => ?_
    obtain ⟨tokens, htokenize, hsub⟩ := Lexeme.exists_tokens hlexemes
    exact hsemicolon tokens htokenize t (hsub t (htokens ▸ ht))
  have hwritten := (hparsed.written.written stretch hmem).nested_of_top hnode
  have hlexes : Lexes source.toList (stretch.tokens.map Token.piece) := by
    refine Lexeme.ofSource_iff_lexes.1 ⟨lexemes, stop, hlexemes, ?_⟩
    rw [← hsingle, ← htokens, List.map_map]
    rfl
  -- The tokens are read as an expression, which is then the one statement of the program
  obtain ⟨e, he, -⟩ := parseExpression_of_written hwritten
    (hparsed.grouped rfl _ (List.mem_map_of_mem hmem)) hlexes
  have hagain := parse_of_parseExpression he
  rw [h] at hagain
  obtain ⟨rfl, -⟩ := List.cons.inj (Except.ok.inj hagain)
  exact he

/-- An expression that goes on in the next line, and a program that is one expression. -/
theorem parseExpression_agrees_lines :
    (∃ e, parseExpression .standard "-f(x)\n[y]" = .ok e ∧ parse "-f(x)\n[y]" = .ok [e]) ∧
      ∃ node, parse "a ^ -b && (c)" = .ok [node] ∧ node.isProperStatement = false ∧
        (∀ tokens, (Lexer.ofSource "a ^ -b && (c)").tokenize = .ok tokens →
          ∀ t ∈ tokens, t.kind ≠ .semicolon) ∧
        parseExpression .standard "a ^ -b && (c)" = .ok node := by
  constructor
  · obtain ⟨e, he⟩ := exists_of_isOk
      (show (parseExpression .standard "-f(x)\n[y]").isOk = true by decide +kernel)
    exact ⟨e, he, (parseExpression_agrees _).1 e he⟩
  · obtain ⟨nodes, hnodes, hsingle⟩ := exists_eq_ok_of_map
      (show (parse "a ^ -b && (c)").toOption.map (fun nodes => nodes.map Node.isProperStatement) =
        some [false] by decide +kernel)
    obtain ⟨node, rfl, hnode⟩ := List.map_eq_singleton_iff.1 hsingle
    have hsemicolon : ∀ tokens, (Lexer.ofSource "a ^ -b && (c)").tokenize = .ok tokens →
        ∀ t ∈ tokens, t.kind ≠ .semicolon := by
      intro tokens htokens
      have hall : (Lexer.ofSource "a ^ -b && (c)").tokenize.toOption.map
          (fun tokens => decide (∀ t ∈ tokens, t.kind ≠ .semicolon)) = some true := by
        decide +kernel
      rw [htokens] at hall
      exact of_decide_eq_true (Option.some.inj hall)
    exact ⟨node, hnodes, hnode, hsemicolon,
      (parseExpression_agrees _).2 node hnodes hnode hsemicolon⟩

end Schemata
