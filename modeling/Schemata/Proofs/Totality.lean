import Schemata.Proofs.Calls
import Schemata.Proofs.LocalParsers

/-!
# Reading never goes wrong

Whatever the precedence table, reading a source ends with a result or an error of the source.

- No step is taken where it is not allowed: the cursor of a reading has no `Fault`s, whether the
  reading succeeds or fails.  Loops end by themselves, not by the bound on their rounds.
- A call of an `ItemParser` takes at least one lexeme if it succeeds (`ItemParser.advances`), also
  where a right operand goes back to a looser row of the table.
- The lexer cuts its source between characters only, and the stream of its tokens has ended where
  collecting them stops.

Main statement: `readings_total`.
-/

namespace Schemata

namespace Parse

variable {α : Type} {s : Setting} {room : Nat}

/-- The parsers of expressions, of statements and of the items of lists and collections, with the
    given room for nesting. -/
inductive ItemParser (s : Setting) (room : Nat) : {α : Type} → Parse α → Prop
  | nestedLevel (level : Nat) : ItemParser s room (nestedLevel s room level)
  | climb (level : Nat) :
      ItemParser s room (climb s (nestedLevel s room) level (s.grammar.levels.drop level))
  | rightOperand {level : Nat} (hlevel : level < s.grammar.levels.length) :
      ItemParser s room (rightOperand s (nestedLevel s room) level
        (climb s (nestedLevel s room) (level + 1) (s.grammar.levels.drop (level + 1))))
  | chain : ItemParser s room (chain s (nestedExpression s room))
  | atom : ItemParser s room (atom s (nestedExpression s room))
  | objectEntry : ItemParser s room (objectEntry s (nestedExpression s room))
  | param : ItemParser s room (param s)
  | indexField : ItemParser s room (indexField s)
  | nestedBlock : ItemParser s room (nestedBlock s room)
  | statement : ItemParser s room (statement s (nestedExpression s room) (nestedBlock s room))
  | topStatement : ItemParser s room (topStatement s)
  | collectionItem : ItemParser s room (collectionItem s (nestedBlock s room))

/-- Every step of a call is allowed, and a call that succeeds takes a lexeme. -/
structure Advances (p : Parse α) : Prop where
  faults : ∀ c, (final (p c)).faults = c.faults
  takes : ∀ c a c', p c = .ok a c' → ∃ x taken, c.rest = x :: taken ++ c'.rest

/-- A local parser makes no step that is not allowed, so it advances if it takes a token whenever it
    succeeds. -/
theorem Advances.of_local {p : Parse α} (hlocal : Local (.ofTexts [] []) p)
    (htook : ∀ c a c', p c = .ok a c' → ∃ t ts, c.Took (t :: ts) c') : Advances p where
  faults c := (hlocal.sure trivial).faults
  takes c a c' h := by
    have hsure := hlocal.sure (c := c) trivial
    rw [h] at hsure
    obtain ⟨taken, htaken⟩ := hsure.rest
    obtain ⟨t, ts, ht⟩ := htook c a c' h
    -- What was taken is not empty, since less is left
    cases taken with
    | nil => exact absurd (congrArg List.length htaken) (Nat.ne_of_lt ht.length_lt)
    | cons x taken => exact ⟨x, taken, htaken.symm⟩

/-- A node is written with at least one token. -/
theorem Parsed.took_cons {place : Place} {ts : List Token} {n : Node} {c c' : Cursor}
    (hn : Parsed s room place ts n) (ht : c.Took ts c') : ∃ t us, c.Took (t :: us) c' := by
  obtain ⟨t, us, rfl⟩ := hn.ne_nil
  exact ⟨t, us, ht⟩

/-- A parser of nodes advances, whatever else is known of how it reads them. -/
theorem Advances.of_parsed {p : Parse Node} {place : Place} {Q : Node → Cursor → Prop}
    (hlocal : Local (.ofTexts [] []) p)
    (hreads : ∀ {c n c'}, p c = .ok n c' →
      ∃ ts, c.Took ts c' ∧ Parsed s room place ts n ∧ Q n c') : Advances p := by
  refine .of_local hlocal fun c n c' h => ?_
  obtain ⟨ts, ht, hn, -⟩ := hreads h
  exact hn.took_cons ht

/-- Every parser of an item advances, at every room within the limit. -/
theorem ItemParser.advances {p : Parse α} (h : ItemParser s room p) (hroom : room ≤ s.limit) :
    Advances p := by
  -- Nothing is known of what follows, so the fork is not tied
  have hs : (Fork.ofTexts [] []).tied = true → s.grammar.Lacks .semicolon :=
    fun htied => absurd htied Bool.false_ne_true
  have hnested := local_nestedLevel hs hroom
  have hblock := local_nestedBlock (k := .ofTexts [] []) hroom
  have hreads := @nestedLevel_reads s room
  have hreadsBlock := @nestedBlock_reads s room
  have hclimb : ∀ level, Local (.ofTexts [] [])
      (Parse.climb s (Parse.nestedLevel s room) level (s.grammar.levels.drop level)) :=
    fun level => local_climb hnested hs hreads rfl
  cases h with
  | nestedLevel level => exact .of_parsed (hnested level) (hreads level _ _ _)
  | climb level => exact .of_parsed (hclimb level) (climb_reads hreads rfl _ _ _)
  | rightOperand hlevel =>
    exact .of_parsed (local_rightOperand hnested hs hlevel (hclimb _))
      (rightOperand_reads hreads (climb_reads hreads rfl))
  | chain => exact .of_parsed (local_chain (hnested 0) (hreads 0)) (chain_reads (hreads 0))
  | atom => exact .of_parsed (local_atom (hnested 0)) (atom_reads (hreads 0))
  | objectEntry =>
    refine .of_local (local_objectEntry (hnested 0)) fun c n c' h => ?_
    obtain ⟨ts, ht, hn⟩ := objectEntry_reads (hreads 0) h
    exact hn.took_cons ht
  | param =>
    refine .of_local local_param fun c n c' h => ?_
    obtain ⟨ts, ht, hn⟩ := @param_reads s room _ _ _ h
    exact hn.took_cons ht
  | indexField =>
    refine .of_local local_indexField fun c field c' h => ?_
    obtain ⟨ts, ht, hw⟩ := indexField_took h
    cases hw with
    | plain | bracketed | directed => exact ⟨_, _, ht⟩
  | nestedBlock =>
    refine .of_local hblock fun c nodes c' h => ?_
    obtain ⟨r, o, close, lines, -, -, -, -, ht, -⟩ := hreadsBlock c nodes c' h
    exact ⟨o, _, ht⟩
  | statement =>
    exact .of_parsed (local_statement (hnested 0) hblock (hreads 0) hreadsBlock)
      (statement_reads (hreads 0) hreadsBlock)
  | topStatement => exact .of_parsed (local_topStatement hs) topStatement_reads
  | collectionItem =>
    exact .of_parsed (local_collectionItem hblock) (collectionItem_reads hreadsBlock)

end Parse

/-! ## The lexer -/

/-- The offset is between two characters of the source, at its start or at its end. -/
theorem Text.isValid_byteSize (front back : List Char) :
    String.Pos.Raw.IsValid (String.ofList (front ++ back)) ⟨byteSize front⟩ := by
  have hsize : (String.ofList front).utf8ByteSize = byteSize front := by
    rw [String.utf8ByteSize_ofList]
    induction front with
    | nil => rfl
    | cons c cs ih => simp [ih, Nat.add_comm]
  refine String.Pos.Raw.isValid_iff_exists_append.2 ⟨.ofList front, .ofList back, ?_, ?_⟩
  · exact String.ofList_append
  · rw [String.rawEndPos, hsize]

/-- A call passes over characters of the source one by one, and all places that it comes to are
    between two characters. -/
def Exchange.Whole (source : String) (x : Exchange) : Prop :=
  ∃ read, x.before.rest = read ++ x.after.rest ∧ ∀ front, front <+: read →
    String.Pos.Raw.IsValid source ⟨(x.before.position.advance front).offset⟩

namespace Lexer

variable {source front : List Char} {lexer : Lexer}

/-- One call from a place of the source cuts it between characters. -/
theorem HasRead.whole_respond (h : HasRead source front lexer) (request : Request) :
    Exchange.Whole (.ofList source)
      ⟨request, lexer, (lexer.respond request).1, (lexer.respond request).2⟩ := by
  obtain ⟨read, hafter, -⟩ := h.respond request
  have hsplit : lexer.rest = read ++ (lexer.respond request).2.rest := by
    have hsource := h.source.symm.trans hafter.source
    rwa [List.append_assoc, List.append_cancel_left_eq] at hsource
  refine ⟨read, hsplit, fun part hpart => ?_⟩
  obtain ⟨back, rfl⟩ := hpart
  have hoffset : (lexer.position.advance part).offset = Text.byteSize (front ++ part) := by
    rw [h.position, ← Position.advance_append, Position.offset_advance_start]
  rw [hoffset, hafter.source, ← List.append_assoc front, List.append_assoc (front ++ part)]
  exact Text.isValid_byteSize _ _

/-- Whatever is asked of a lexer that has read some of a source, every answer is of whole
    characters. -/
theorem HasRead.whole_exchanges (h : HasRead source front lexer) (requests : List Request) :
    ∀ x ∈ lexer.exchanges requests, x.Whole (.ofList source) := by
  -- After each answer more of the source has been read, and the rest follows by induction
  induction requests generalizing front lexer with
  | nil => simp [Lexer.exchanges]
  | cons request requests ih =>
    rw [exchanges_cons]
    intro x hmem
    rcases List.mem_cons.1 hmem with rfl | hmem
    · exact h.whole_respond request
    · obtain ⟨read, hafter, -⟩ := h.respond request
      exact ih hafter x hmem

/-- A stream that has failed has ended. -/
theorem collect_of_failed (hf : lexer.failed = true) (limit : Nat) :
    collect limit lexer = ([], lexer) := by
  cases limit with
  | zero => rfl
  | succ limit => simp [collect, next, hf]

/-- Collecting more items than there are characters comes to the end of the stream. -/
theorem next_collect (limit : Nat) (hlimit : lexer.rest.length < limit) :
    (collect limit lexer).2.next.1 = none := by
  induction limit generalizing lexer with
  | zero => exact absurd hlimit (Nat.not_lt_zero _)
  | succ limit ih =>
    cases hf : lexer.failed with
    | true =>
      rw [collect_of_failed hf, next, if_pos hf]
    | false =>
      obtain ⟨-, h⟩ | ⟨kind, value, text, hne, hp, h⟩ | ⟨e, read, -, h⟩ := lexer.nextToken_cases
      · simp [collect, next, hf, h]
      · -- A token leaves less to read
        have hshort : (lexer.skip text).rest.length < limit := by
          have hpos := List.length_pos_iff.2 hne
          have hle := hp.length_le
          simp only [Lexer.skip, List.length_drop]
          omega
        simpa [collect, next, hf, h] using ih hshort
      · -- An error ends the stream where it is
        simp [collect, next, hf, h, collect_of_failed]

end Lexer

/-! ## Readings -/

namespace Parser

variable {parser : Parser}

/-- A parser whose source cannot be split into tokens stays where it was. -/
theorem read_of_error {α : Type} {e : LexError} (h : Lexeme.ofSource parser.source = .error e)
    (body : Setting → Parse α) : parser.read body = (.error (.lexical e), parser) := by
  simp only [read, load, h]

/-- Reading a program makes no step that is not allowed. -/
theorem faults_readStatements (h : parser.cursor.faults = []) :
    parser.readStatements.2.cursor.faults = [] := by
  -- A source that the lexer refuses is not parsed at all
  cases hl : Lexeme.ofSource parser.source with
  | error e =>
    rw [readStatements, readProgram, read_of_error hl]
    exact h
  | ok result =>
    rw [readStatements_eq hl]
    exact (Parse.sure_program _ _).faults

/-- Reading an expression makes no step that is not allowed. -/
theorem faults_readExpression (h : parser.cursor.faults = []) :
    parser.readExpression.2.cursor.faults = [] := by
  cases hl : Lexeme.ofSource parser.source with
  | error e =>
    rw [readExpression, read_of_error hl]
    exact h
  | ok result =>
    rw [readExpression, read_eq hl]
    exact (Parse.sure_wholeExpression _ _).faults

end Parser

/-- Under every precedence table and every limit, every source is read without a step that is not
    allowed.  The parsers of expressions, of statements and of the items of lists and collections
    take a lexeme whenever they succeed.  The stream of tokens ends, and the source is cut between
    characters only. -/
theorem readings_total (grammar : Grammar) (limit : Nat) (source : String) :
    (Parser.fresh grammar limit source).readStatements.2.cursor.faults = [] ∧
    (Parser.fresh grammar limit source).readExpression.2.cursor.faults = [] ∧
    (∀ (stop : Position) (room : Nat), room ≤ limit → ∀ (α : Type) (p : Parse α),
      Parse.ItemParser ⟨grammar, limit, source.toList, stop⟩ room p → Parse.Advances p) ∧
    (Lexer.ofSource source).run.2.next.1 = none ∧
    ∀ requests, ∀ x ∈ (Lexer.ofSource source).exchanges requests, x.Whole source := by
  have hstart : Lexer.HasRead source.toList [] (Lexer.ofSource source) := ⟨rfl, rfl⟩
  refine ⟨Parser.faults_readStatements rfl, Parser.faults_readExpression rfl, ?_, ?_, ?_⟩
  · exact fun stop room hroom α p hp => hp.advances hroom
  · exact Lexer.next_collect _ (Nat.lt_succ_self _)
  · intro requests
    simpa using hstart.whole_exchanges requests

/-- A token that is not the next one cannot be taken without a fault. -/
example : (Parse.final (Parse.take default (Cursor.start []))).faults = [.token] := by
  decide

/-- A table with semicolons, parentheses and keywords in several rows. -/
private def oddTable : Grammar where
  levels :=
    [.unary [(.semicolon, .negate), (.leftParen, .not)],
     .binary .power [.power, .semicolon, .leftParen],
     .unary [(.keyword .ifWord, .not), (.semicolon, .not)]]

theorem readings_total_oddTable :
    (Parser.fresh oddTable 4 "; 'é' ^ ; if b").readExpression.1.isOk = true ∧
    (Parser.fresh oddTable 4 "; 'é' ^ ; if b").readExpression.2.cursor.faults = [] ∧
    3 ≤ 4 ∧ ∃ p : Parse Node,
      Parse.ItemParser ⟨oddTable, 4, "; 'é' ^ ; if b".toList, .start⟩ 3 p ∧ Parse.Advances p := by
  have htotal := readings_total oddTable 4 "; 'é' ^ ; if b"
  have hitem := @Parse.ItemParser.rightOperand
    ⟨oddTable, 4, "; 'é' ^ ; if b".toList, .start⟩ 3 1 (by decide)
  refine ⟨by decide +kernel, htotal.2.1, by decide, _, hitem, ?_⟩
  exact htotal.2.2.1 .start 3 (by decide) Node _ hitem

end Schemata
