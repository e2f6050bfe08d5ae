import Schemata.Proofs.Calls
import Schemata.Proofs.Prefixes
import Schemata.Proofs.Targets

/-!
# Excerpts

An error that quotes the source says where it is in three ways: by a byte offset, by a line and a
column, and by a caret below the line.  All three mean the same character
(`readStatements_excerpt`).

Such an error is always at a character that is not blank: the first one of a token, or the one that
reading a token could not pass (`Position.Visible`).  So the character is neither a part of a line
end nor behind the end of its line.
-/

namespace Schemata

/-! ## Lines -/

namespace Text

/-- What follows a line in its text: nothing, or a newline and the rest.  A carriage return before
    the newline belongs to the line end. -/
inductive EndsLine (line : List Char) : List Char → Prop
  | nothing : EndsLine line []
  | carriage (rest : List Char) : EndsLine line ('\r' :: '\n' :: rest)
  | newline (rest : List Char) (h : line.getLast? ≠ some '\r') : EndsLine line ('\n' :: rest)

/-- A line may begin after this text. -/
def StartsLine (before : List Char) : Prop :=
  before = [] ∨ before.getLast? = some '\n'

/-- The line of a text with the given number, counting from 1. -/
def IsLine (text : List Char) (number : Nat) (line : List Char) : Prop :=
  ∃ before after, text = before ++ (line ++ after) ∧ StartsLine before ∧
    number = lineBreaks before + 1 ∧ '\n' ∉ line ∧ EndsLine line after

/-- The first line goes up to the first line end. -/
theorem firstLine_spec (text : List Char) :
    ∃ after, text = firstLine text ++ after ∧ '\n' ∉ firstLine text ∧
      EndsLine (firstLine text) after := by
  obtain ⟨after, hsplit, hafter⟩ : ∃ after,
      text = text.takeWhile (· ≠ '\n') ++ after ∧ (after = [] ∨ ∃ rest, after = '\n' :: rest) := by
    refine ⟨text.dropWhile (· ≠ '\n'), List.takeWhile_append_dropWhile.symm, ?_⟩
    have hhead := List.head?_dropWhile_not (fun c => decide (c ≠ '\n')) text
    cases hdrop : text.dropWhile (· ≠ '\n') with
    | nil => exact .inl rfl
    | cons c rest =>
      rw [hdrop] at hhead
      have hc : c = '\n' := by simpa using hhead
      exact .inr ⟨rest, by rw [hc]⟩
  have hline : '\n' ∉ text.takeWhile (· ≠ '\n') := fun hmem => by
    have hne := List.all_eq_true.1 List.all_takeWhile _ hmem
    cases hne
  unfold firstLine
  -- There is a newline after the line just if the line is shorter than the text
  generalize text.takeWhile (· ≠ '\n') = line at hsplit hline
  subst hsplit
  obtain rfl | ⟨rest, rfl⟩ := hafter
  · refine ⟨[], ?_, ?_, ?_⟩ <;> simp [hline, EndsLine.nothing]
  · have hlength : line.length < (line ++ '\n' :: rest).length := by simp
    simp only [hlength, if_true, dropReturn]
    split
    · next hreturn =>
      have hdrop : line.dropLast ++ ['\r'] = line := List.dropLast_append_getLast? _ hreturn
      refine ⟨'\r' :: '\n' :: rest, ?_, fun hmem => hline ((List.dropLast_prefix line).mem hmem),
        .carriage rest⟩
      rw [List.append_cons line.dropLast, hdrop]
    · next hreturn => exact ⟨'\n' :: rest, rfl, hline, .newline rest hreturn⟩

/-- The line after so many newlines is the first one of what comes after them. -/
theorem lineAt_append {before : List Char} (h : StartsLine before) (c : Char) (rest : List Char) :
    lineAt (lineBreaks before) (before ++ c :: rest) = firstLine (c :: rest) := by
  -- Induction on the lines to pass over, each of which takes the first newline away
  generalize hn : lineBreaks before = n
  induction n generalizing before with
  | zero =>
    obtain rfl : before = [] := h.resolve_right fun hlast =>
      List.count_eq_zero.1 hn (List.mem_of_getLast? hlast)
    rfl
  | succ n ih =>
    have hmem : '\n' ∈ before := List.count_pos_iff.1 (by rw [← lineBreaks, hn]; exact n.succ_pos)
    obtain ⟨first, later, rfl, hfirst⟩ := List.eq_append_cons_of_mem hmem
    have hlater : StartsLine later := by
      cases later with
      | nil => exact .inl rfl
      | cons d later =>
        obtain h | h := h
        · simp at h
        · exact .inr (by simpa [List.getLast?_append] using h)
    have hcount : lineBreaks later = n := by
      have hzero : first.count '\n' = 0 := List.count_eq_zero.2 hfirst
      simp only [lineBreaks, List.count_append, List.count_cons_self, hzero] at hn
      simp only [lineBreaks]
      omega
    have hdrop : (first ++ '\n' :: later ++ c :: rest).dropWhile (· ≠ '\n') =
        '\n' :: (later ++ c :: rest) := by
      rw [List.append_assoc, List.dropWhile_append_of_pos]
      · simp
      · intro d hd
        rw [decide_eq_true_iff]
        rintro rfl
        exact hfirst hd
    rw [lineAt, if_neg (by simp), hdrop, List.tail_cons]
    exact ih hlater hcount

/-- A character that is no part of a line end is in the line at its column. -/
theorem EndsLine.getElem? {front after lead back : List Char} {c : Char} (h : EndsLine front after)
    (hsplit : front ++ after = lead ++ c :: back) (hlead : '\n' ∉ lead) (hnewline : c ≠ '\n')
    (hreturn : c ≠ '\r') : front[lead.length]? = some c := by
  -- No line end begins with the character
  have hends : ∀ {rest}, after ≠ c :: rest := by
    rintro rest rfl
    cases h with
    | carriage => exact hreturn rfl
    | newline => exact hnewline rfl
  obtain ⟨between, rfl, hback⟩ | ⟨between, rfl, hback⟩ := List.append_eq_append_iff.1 hsplit
  · -- The line ends before the character, and its end has no newline
    exfalso
    rw [List.mem_append, not_or] at hlead
    cases between with
    | nil => exact hends hback
    | cons d between =>
      cases h with
      | nothing => cases hback
      | newline =>
        obtain ⟨rfl, -⟩ := List.cons.inj hback
        exact hlead.2 List.mem_cons_self
      | carriage =>
        obtain ⟨-, hback⟩ := List.cons.inj hback
        cases between with
        | nil => exact hnewline (List.cons.inj hback).1.symm
        | cons e between =>
          obtain ⟨rfl, -⟩ := List.cons.inj hback
          exact hlead.2 (.tail _ List.mem_cons_self)
  · cases between with
    | nil => exact absurd hback.symm hends
    | cons d between =>
      obtain ⟨rfl, -⟩ := List.cons.inj hback
      simp

end Text

/-! ## Coordinates -/

/-- The position is that of a character of the text that is not blank. -/
def Position.Visible (text : List Char) (p : Position) : Prop :=
  ∃ front c back, text = front ++ c :: back ∧ p = Position.start.advance front ∧
    Text.isBlank c = false

/-- A position counts the lines before its own, and the characters before it in its own. -/
theorem Position.exists_lead (front : List Char) :
    ∃ before lead, front = before ++ lead ∧ Text.StartsLine before ∧ '\n' ∉ lead ∧
      (start.advance front).line = Text.lineBreaks before + 1 ∧
      (start.advance front).col = lead.length + 1 := by
  -- The last line begins after the last line feed
  have hsplit : front = front.rdropWhile (· ≠ '\n') ++ front.rtakeWhile (· ≠ '\n') :=
    (List.rdropWhile_append_rtakeWhile ..).symm
  have hlead : '\n' ∉ front.rtakeWhile (· ≠ '\n') := fun hmem => by
    simpa using List.mem_rtakeWhile_imp hmem
  have hcount : Text.lineBreaks front = Text.lineBreaks (front.rdropWhile (· ≠ '\n')) := by
    have hzero : (front.rtakeWhile (· ≠ '\n')).count '\n' = 0 := List.count_eq_zero.2 hlead
    calc Text.lineBreaks front
        = (front.rdropWhile (· ≠ '\n') ++ front.rtakeWhile (· ≠ '\n')).count '\n' := by
          rw [← hsplit, Text.lineBreaks]
      _ = Text.lineBreaks (front.rdropWhile (· ≠ '\n')) := by
          rw [List.count_append, hzero, Nat.add_zero, Text.lineBreaks]
  refine ⟨_, _, hsplit, ?_, hlead, ?_, ?_⟩
  · rw [Text.StartsLine, or_iff_not_imp_left]
    intro hne
    have hlast := List.rdropWhile_last_not _ _ hne
    rw [List.getLast?_eq_some_getLast hne]
    simpa using hlast
  · rw [line_advance, hcount, Nat.add_comm]
    rfl
  · rw [col_advance_start, Nat.add_comm]

namespace Text

/-- The first line of an excerpt before the quoted line. -/
def gutter (number : Nat) : List Char :=
  (Nat.repr number ++ " | ").toList

/-- The second line of an excerpt. -/
def caretLine (p : Position) : List Char :=
  (spaces (Nat.repr p.line).length ++ " | " ++ spaces (p.col - 1) ++ "^").toList

/-- There is no newline before the quoted line. -/
theorem newline_not_mem_gutter (number : Nat) : '\n' ∉ gutter number := by
  have hdigits : '\n' ∉ (Nat.repr number).toList := by
    rw [Nat.toList_repr]
    intro hmem
    exact absurd (Nat.isDigit_of_mem_toDigits (by decide) (by decide) hmem) (by decide)
  simpa [gutter] using hdigits

/-- The caret stands after a blank gutter and as many characters as there are before the column. -/
theorem caretLine_eq (p : Position) :
    ∃ lead, caretLine p = lead ++ ['^'] ∧ '\n' ∉ lead ∧ '^' ∉ lead ∧
      lead.length = (gutter p.line).length + (p.col - 1) := by
  refine ⟨List.replicate (Nat.repr p.line).length ' ' ++ [' ', '|', ' '] ++
    List.replicate (p.col - 1) ' ', ?_, ?_, ?_, ?_⟩
  · simp [caretLine, spaces]
  · simp
  · simp
  · simp [gutter, ← String.length_toList]
    omega

/-- An excerpt consists of the gutter, the quoted line and the line with the caret. -/
theorem toList_excerpt (source : String) (p : Position) :
    (excerpt source p).toList =
      gutter p.line ++ lineAt (p.line - 1) source.toList ++ '\n' :: caretLine p := by
  simp [excerpt, gutter, caretLine]

/-- The quoted line is that of the position, and the caret stands below the character. -/
theorem excerpt_spec {text front back : List Char} {c : Char} {p : Position}
    (htext : text = front ++ c :: back) (hp : p = Position.start.advance front)
    (hc : isBlank c = false) :
    IsLine text p.line (lineAt (p.line - 1) text) ∧
      ∀ k : Nat, (caretLine p)[k]? = some '^' →
        (gutter p.line ++ lineAt (p.line - 1) text)[k]? = some c := by
  subst htext hp
  obtain ⟨before, lead, rfl, hbefore, hlead, hline, hcol⟩ := Position.exists_lead front
  have hnewline : c ≠ '\n' := by
    rintro rfl
    cases hc
  have hreturn : c ≠ '\r' := by
    rintro rfl
    cases hc
  obtain ⟨after, hsplit, hmem, hends⟩ := firstLine_spec (lead ++ c :: back)
  have hquoted : lineAt ((Position.start.advance (before ++ lead)).line - 1)
      (before ++ lead ++ c :: back) = firstLine (lead ++ c :: back) := by
    obtain ⟨d, rest, hrest⟩ : ∃ d rest, lead ++ c :: back = d :: rest :=
      List.exists_cons_of_ne_nil (by simp)
    rw [hline, Nat.add_sub_cancel, List.append_assoc, hrest]
    exact lineAt_append hbefore d rest
  rw [hquoted]
  constructor
  · exact ⟨before, after, by rw [List.append_assoc, ← hsplit], hbefore, hline, hmem, hends⟩
  · intro k hk
    obtain ⟨blanks, hcaret, -, hblanks, hlength⟩ :=
      caretLine_eq (Position.start.advance (before ++ lead))
    -- The caret is the only one in its line, since what stands before it is blank
    have hk' : k = blanks.length := by
      rw [hcaret, List.getElem?_append] at hk
      split at hk
      · exact absurd (List.mem_of_getElem? hk) hblanks
      · next hle =>
        have hlt := (List.getElem?_eq_some_iff.1 hk).1
        rw [List.length_singleton] at hlt
        omega
    rw [hk', hlength, hcol, Nat.add_sub_cancel,
      List.getElem?_append_right (Nat.le_add_right _ _), Nat.add_sub_cancel_left]
    exact hends.getElem? hsplit.symm hlead hnewline hreturn

end Text

/-! ## Places of errors -/

/-- A fault is located at a character that is not blank. -/
theorem Scan.Fault.exists_place {c : Char} {rest : List Char} {cause : Scan.Fault}
    (h : Scan.scan c rest = .fault cause) (p : Position) :
    ∃ lead d back, c :: rest = lead ++ d :: back ∧
      (cause.locate p).position = p.advance lead ∧ Text.isBlank d = false := by
  have hblank : Text.isBlank c = false := by
    cases hc : Text.isBlank c with
    | false => rfl
    | true =>
      rw [Scan.scan, if_pos hc] at h
      cases h
  cases cause with
  | unexpectedCharacter | unterminatedString | unterminatedComment =>
    exact ⟨[], c, rest, rfl, rfl, hblank⟩
  | invalidEscape before d =>
    obtain ⟨back, hback⟩ := Scan.fault_read_prefix h
    refine ⟨before, '\\', back, ?_, rfl, by decide⟩
    rw [← hback, Scan.Fault.read, List.append_assoc]
    rfl

namespace Lexer

variable {source front : List Char} {lexer : Lexer} {e : LexError}

/-- The stream fails with the fault of reading what is left. -/
theorem exists_fault_of_next (h : lexer.next.1 = some (.error e)) :
    ∃ c rest cause, lexer.rest = c :: rest ∧ Scan.scan c rest = .fault cause ∧
      e = cause.locate lexer.position := by
  unfold next nextToken at h
  -- There is a fault only where something is left to read
  cases hrest : lexer.rest with
  | nil =>
    simp only [hrest] at h
    split at h <;> cases h
  | cons c rest =>
    cases hscan : Scan.scan c rest with
    | token kind value text =>
      simp only [hrest, hscan] at h
      split at h <;> cases h
    | fault cause =>
      refine ⟨c, rest, cause, rfl, hscan, ?_⟩
      simp only [hrest, hscan] at h
      split at h
      · cases h
      · exact (Except.error.inj (Option.some.inj h)).symm

/-- An error in the stream is at a character that is not blank. -/
theorem HasRead.visible_of_mem_collect (h : HasRead source front lexer) {limit : Nat}
    (he : .error e ∈ (collect limit lexer).1) : e.position.Visible source := by
  -- Wherever the stream has come to, what is left is the rest of the source
  induction limit generalizing front lexer with
  | zero => cases he
  | succ limit ih =>
    obtain ⟨read, hafter, -⟩ := h.respond .next
    rw [collect] at he
    change HasRead source (front ++ read) lexer.next.2 at hafter
    have herror : lexer.next.1 = some (.error e) → e.position.Visible source := by
      intro hanswer
      obtain ⟨c, rest, cause, hrest, hscan, rfl⟩ := exists_fault_of_next hanswer
      obtain ⟨lead, d, back, hsplit, hposition, hd⟩ :=
        Scan.Fault.exists_place hscan lexer.position
      refine ⟨front ++ lead, d, back, ?_, ?_, hd⟩
      · rw [h.source, hrest, hsplit, List.append_assoc]
      · rw [hposition, h.position, Position.advance_append]
    generalize lexer.next = result at he hafter herror
    obtain ⟨answer, after⟩ := result
    cases answer with
    | none => cases he
    | some item =>
      obtain rfl | he := List.mem_cons.1 he
      · exact herror rfl
      · exact ih hafter he

/-- If collecting the items of a stream fails, the error is one of the items. -/
theorem mem_of_mapM_id_eq_error {items : List (Except LexError Token)}
    (h : items.mapM id = .error e) : .error e ∈ items := by
  -- Induction on the items: the first error is the first item that is none
  induction items with
  | nil => cases h
  | cons item items ih =>
    cases item with
    | error e' =>
      obtain rfl : e' = e := by simpa [bind, Except.bind] using h
      exact List.mem_cons_self
    | ok token =>
      cases hitems : items.mapM id with
      | ok tokens => simp [hitems, bind, Except.bind, pure, Except.pure] at h
      | error e' =>
        obtain rfl : e' = e := by simpa [hitems, bind, Except.bind] using h
        exact .tail _ (ih hitems)

/-- An error in the tokens of a source is at a character that is not blank. -/
theorem visible_of_tokenize {source : String} (h : (ofSource source).tokenize = .error e) :
    e.position.Visible source.toList :=
  have hstart : HasRead source.toList [] (ofSource source) := ⟨rfl, rfl⟩
  hstart.visible_of_mem_collect (mem_of_mapM_id_eq_error h)

end Lexer

/-- A token that is not trivia begins with a character that is not blank. -/
theorem Tiles.visible_of_mem {text : List Char} {tokens : List Token} {t : Token}
    (h : Tiles .start text tokens) (ht : t ∈ tokens) (htrivia : t.kind.isTrivia = false) :
    t.position.Visible text := by
  obtain ⟨before, after, rfl⟩ := List.append_of_mem ht
  obtain ⟨front, back, rfl, -, hback⟩ := h.of_append
  cases hback with
  | @cons _ c rest _ _ _ kind _ hscan =>
    refine ⟨front, c, rest, rfl, rfl, ?_⟩
    cases hc : Text.isBlank c with
    | false => rfl
    | true =>
      -- A token that begins with a blank is a run of blanks
      rw [Scan.scan, if_pos hc] at hscan
      obtain ⟨rfl, -⟩ := Scan.Outcome.token.inj hscan
      cases htrivia

/-! ## Excerpts of errors -/

/-- What a message quotes of the source, if the error is one that quotes it. -/
def ParseError.excerpt? (source : String) : ParseError → Option String
  | lexical e => some (Text.excerpt source e.position)
  | unexpectedToken _ _ p _ => some (Text.excerpt source p)
  | invalidTarget p => some (Text.excerpt source p)
  | unexpectedEnd _ _ | tooDeep _ _ => none

namespace ParseError

variable {source snippet : String} {error : ParseError}

/-- What a message quotes is the excerpt at the position of the error. -/
theorem eq_excerpt (h : error.excerpt? source = some snippet) :
    snippet = Text.excerpt source error.position := by
  cases error with
  | lexical | unexpectedToken | invalidTarget => exact (Option.some.inj h).symm
  | unexpectedEnd | tooDeep => cases h

/-- A message ends with what it quotes. -/
theorem exists_head_message (h : error.excerpt? source = some snippet) :
    ∃ head, error.message source = head ++ "\n" ++ snippet := by
  obtain rfl := eq_excerpt h
  cases error with
  | lexical | unexpectedToken | invalidTarget => exact ⟨_, rfl⟩
  | unexpectedEnd | tooDeep => cases h

end ParseError

/-- An error that quotes the source is at a character that is not blank. -/
theorem Parser.visible_of_excerpt {parser : Parser} {error : ParseError} {snippet : String}
    (h : parser.readStatements.1 = .error error)
    (hs : error.excerpt? parser.source = some snippet) :
    error.position.Visible parser.source.toList := by
  cases htokens : (Lexer.ofSource parser.source).tokenize with
  | error e =>
    obtain rfl : error = .lexical e :=
      Except.error.inj (h.symm.trans (readStatements_lexical.2 htokens))
    exact Lexer.visible_of_tokenize htokens
  | ok tokens =>
    have htiles := Lexer.tokenize_eq_ok.1 htokens
    have hsource := Lexeme.ofSource_eq_ok.2 ⟨tokens, htiles, rfl, rfl⟩
    -- An error with an excerpt is at a token, and no token begins with a blank
    have hvisible : ∀ x ∈ Lexeme.ofTokens false tokens,
        x.token.position.Visible parser.source.toList := by
      intro x hx
      have hmem : x.token ∈ (Lexeme.ofTokens false tokens).map Lexeme.token :=
        List.mem_map_of_mem hx
      rw [Lexeme.map_token_ofTokens] at hmem
      obtain ⟨hmem, htrivia⟩ := List.mem_filter.1 hmem
      exact htiles.visible_of_mem hmem (by simpa using htrivia)
    cases error with
    | lexical e =>
      rw [readStatements_lexical.1 h] at htokens
      cases htokens
    | unexpectedEnd | tooDeep => cases hs
    | unexpectedToken kind value p expected =>
      rw [readStatements_eq hsource] at h
      obtain ⟨c, hrun⟩ := Parse.outcome_eq_error.1 h
      obtain ⟨x, hx, -, -, hp⟩ := (Parse.sure_program _ _).place kind value p expected c hrun
      exact hp ▸ hvisible x hx
    | invalidTarget p =>
      rw [readStatements_eq hsource] at h
      obtain ⟨c, hrun⟩ := Parse.outcome_eq_error.1 h
      obtain ⟨x, hx, hp⟩ := Parse.aimed_program.target hrun
      exact hp ▸ hvisible x hx

/-- Two lines that quote a text at a position.  The first one is a gutter with the number of the
    line and then the line itself, without its line end.  The second one has a caret, and above it
    stands the character at the offset of the position. -/
structure Text.Quotes (text : List Char) (p : Position) (first second : List Char) : Prop where
  oneLine : '\n' ∉ first
  oneMore : '\n' ∉ second
  line : ∃ line, first = (Nat.repr p.line ++ " | ").toList ++ line ∧ IsLine text p.line line
  caret : '^' ∈ second
  above : ∀ k : Nat, second[k]? = some '^' →
    ∃ front c back, first[k]? = some c ∧ text = front ++ c :: back ∧ byteSize front = p.offset

/-- The excerpt at a character that is not blank quotes the source there. -/
theorem Position.Visible.quotes {source : String} {p : Position}
    (h : p.Visible source.toList) :
    ∃ first second, (Text.excerpt source p).toList = first ++ '\n' :: second ∧
      Text.Quotes source.toList p first second := by
  obtain ⟨front, c, back, hsource, hp, hc⟩ := h
  obtain ⟨hline, habove⟩ := Text.excerpt_spec hsource hp hc
  obtain ⟨lead, hsecond, hlead, -, -⟩ := Text.caretLine_eq p
  refine ⟨_, _, Text.toList_excerpt source p, ?_, ?_, ⟨_, rfl, hline⟩, ?_, fun k hk => ?_⟩
  · obtain ⟨-, -, -, -, -, hnewline, -⟩ := hline
    rw [List.mem_append, not_or]
    exact ⟨Text.newline_not_mem_gutter _, hnewline⟩
  · simpa [hsecond] using hlead
  · simp [hsecond]
  · refine ⟨front, c, back, habove k hk, hsource, ?_⟩
    rw [hp, Position.offset_advance_start]

/-- A source that fails with an error that quotes it: the message ends with the quotation, and that
    is two lines that quote the source at the position of the error.  This holds with every
    precedence table and every depth limit. -/
theorem readStatements_excerpt {parser : Parser} {error : ParseError} {snippet : String}
    (h : parser.readStatements.1 = .error error)
    (hs : error.excerpt? parser.source = some snippet) :
    (∃ head, error.message parser.source = head ++ "\n" ++ snippet) ∧
      ∃ first second, snippet.toList = first ++ '\n' :: second ∧
        Text.Quotes parser.source.toList error.position first second := by
  refine ⟨ParseError.exists_head_message hs, ?_⟩
  rw [ParseError.eq_excerpt hs]
  exact (Parser.visible_of_excerpt h hs).quotes

/-- A backslash that escapes nothing, on the second line of a string. -/
theorem readStatements_excerpt_escape :
    parse "let a = 'é\r\n ü \\q'\r\nlet b" =
        .error (.lexical (.invalidEscape 'q' ⟨2, 4, 17⟩)) ∧
      (∃ head, ParseError.message "let a = 'é\r\n ü \\q'\r\nlet b"
          (.lexical (.invalidEscape 'q' ⟨2, 4, 17⟩)) =
        head ++ "\n" ++ "2 |  ü \\q'\n  |    ^") ∧
      ∃ first second, "2 |  ü \\q'\n  |    ^".toList = first ++ '\n' :: second ∧
        Text.Quotes "let a = 'é\r\n ü \\q'\r\nlet b".toList ⟨2, 4, 17⟩ first second := by
  have herror : parse "let a = 'é\r\n ü \\q'\r\nlet b" =
      .error (.lexical (.invalidEscape 'q' ⟨2, 4, 17⟩)) :=
    @eq_error_of_map _ _ Unit _ (fun _ => ()) _ (by decide +kernel)
  have hs : ParseError.excerpt? "let a = 'é\r\n ü \\q'\r\nlet b"
      (.lexical (.invalidEscape 'q' ⟨2, 4, 17⟩)) = some "2 |  ü \\q'\n  |    ^" := by
    decide +kernel
  exact ⟨herror, @readStatements_excerpt
    (.ofSource .standard "let a = 'é\r\n ü \\q'\r\nlet b") _ _ herror hs⟩

end Schemata
