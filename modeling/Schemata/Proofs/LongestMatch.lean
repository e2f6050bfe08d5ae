import Schemata.Proofs.Patterns
import Schemata.Proofs.Tiling

/-!
# What a lexer reads next

The classes of tokens compete for the first characters of a text: a slash may begin a symbol or one
of two sorts of comments, and a number or a symbol may go on or not.  `Scan.Specified` says for each
class, without an order among them, what is to be read at the front of a text, `Scan.Matched` when
there is such a token, and `Scan.FaultAt` which error there is otherwise.

Main statement: `Lexer.nextToken_specified`, that a lexer does just this.
-/

namespace Schemata.Scan

/-! ## Comments -/

/-- The text ends at the first end mark of a comment, after `body`. -/
structure EndsFirst (body cs : List Char) : Prop where
  mark : body ++ ['*', '/'] <+: cs
  first : ∀ other, other ++ ['*', '/'] <+: cs → body.length ≤ other.length

/-- There is one first end mark. -/
theorem EndsFirst.unique {body body' cs : List Char} (h : EndsFirst body cs)
    (h' : EndsFirst body' cs) : body = body' := by
  have hle := h.first body' h'.mark
  have hge := h'.first body h.mark
  have hfront : body <+: cs := (List.prefix_append ..).trans h.mark
  have hfront' : body' <+: cs := (List.prefix_append ..).trans h'.mark
  exact (List.prefix_of_prefix_length_le hfront hfront' hle).eq_of_length_le hge

/-- A comment is read up to the first end mark, and not read if there is none. -/
theorem commentBody?_spec (cs : List Char) :
    (∃ body, commentBody? cs = some (body ++ ['*', '/']) ∧ EndsFirst body cs) ∨
      commentBody? cs = none ∧ ∀ body, ¬body ++ ['*', '/'] <+: cs := by
  -- Induction follows the search for the end mark
  fun_induction commentBody? cs with
  | case1 =>
    right
    simp
  | case2 rest =>
    left
    exact ⟨[], rfl, ⟨rest, rfl⟩, fun _ _ => Nat.zero_le _⟩
  | case3 c rest hend ih =>
    -- An end mark of the longer text does not begin at its first character
    have hlater : ∀ body, body ++ ['*', '/'] <+: c :: rest →
        ∃ tail, body = c :: tail ∧ tail ++ ['*', '/'] <+: rest := by
      intro body hbody
      cases body with
      | nil =>
        obtain ⟨hc, after, hafter⟩ := List.cons_prefix_cons.1 hbody
        exact absurd hafter.symm (hend after hc.symm)
      | cons d tail =>
        obtain ⟨rfl, htail⟩ := List.cons_prefix_cons.1 hbody
        exact ⟨tail, rfl, htail⟩
    obtain ⟨body, hbody, hfirst⟩ | ⟨hnone, hno⟩ := ih
    · left
      refine ⟨c :: body, by rw [hbody]; rfl, List.cons_prefix_cons.2 ⟨rfl, hfirst.mark⟩, ?_⟩
      intro other hother
      obtain ⟨tail, rfl, htail⟩ := hlater other hother
      exact Nat.succ_le_succ (hfirst.first tail htail)
    · right
      refine ⟨by rw [hnone]; rfl, fun body hbody => ?_⟩
      obtain ⟨tail, -, htail⟩ := hlater body hbody
      exact hno tail htail

/-! ## Strings -/

/-- What may follow a backslash in a string, and what it stands for. -/
def escapes : List (Char × Char) :=
  [('n', '\n'), ('t', '\t'), ('r', '\r'), ('"', '"'), ('\'', '\''), ('\\', '\\')]

/-- What stands between the quotes of a string, and what it means. -/
inductive Content (quote : Char) : List Char → List Char → Prop
  | nil : Content quote [] []
  | plain {c : Char} {text value : List Char} (hquote : c ≠ quote) (hbackslash : c ≠ '\\')
      (h : Content quote text value) : Content quote (c :: text) (c :: value)
  | escape {c meant : Char} {text value : List Char} (hc : (c, meant) ∈ escapes)
      (h : Content quote text value) : Content quote ('\\' :: c :: text) (meant :: value)

/-- What can come after the content of a string. -/
inductive Ending (quote : Char) : List Char → Prop
  | quote (after : List Char) : Ending quote (quote :: after)
  | nothing : Ending quote []
  | backslash : Ending quote ['\\']
  | unknown {c : Char} (hc : ∀ meant, (c, meant) ∉ escapes) (after : List Char) :
      Ending quote ('\\' :: c :: after)

/-- What an escape stands for is in the table of escapes. -/
theorem unescape?_eq_some {c meant : Char} :
    unescape? c = some meant ↔ (c, meant) ∈ escapes := by
  unfold unescape?
  split <;> simp_all [escapes, eq_comm]

/-- What stands for nothing is not in the table of escapes. -/
theorem unescape?_eq_none {c : Char} :
    unescape? c = none ↔ ∀ meant, (c, meant) ∉ escapes := by
  rw [Option.eq_none_iff_forall_not_mem]
  exact forall_congr' fun meant => not_congr unescape?_eq_some

/-- A string body with some more content in front. -/
def StringBody.prepend (value text : List Char) : StringBody → StringBody
  | closed value' text' => closed (value ++ value') (text ++ text')
  | unterminated read => unterminated (text ++ read)
  | invalidEscape before c => invalidEscape (text ++ before) c

/-- What follows the content of a string decides how the string is read. -/
theorem Content.stringBody {quote : Char} {text value : List Char} (h : Content quote text value)
    (rest : List Char) :
    stringBody quote (text ++ rest) = (stringBody quote rest).prepend value text := by
  induction h with
  | nil =>
    rw [List.nil_append]
    cases Scan.stringBody quote rest <;> rfl
  | plain hquote hbackslash _ ih =>
    rw [List.cons_append, stringBody_cons hbackslash, if_neg hquote, ih]
    cases Scan.stringBody quote rest <;> rfl
  | escape hc _ ih =>
    rw [List.cons_append, List.cons_append, Scan.stringBody, unescape?_eq_some.2 hc, ih]
    cases Scan.stringBody quote rest <;> rfl

/-- A string ends at its quote. -/
theorem stringBody_quote {quote : Char} (hquote : quote = '"' ∨ quote = '\'')
    (after : List Char) : stringBody quote (quote :: after) = .closed [] [quote] := by
  have hbackslash : quote ≠ '\\' := by rcases hquote with rfl | rfl <;> decide
  rw [stringBody_cons hbackslash, if_pos rfl]

/-- A string is at fault where an escape stands for nothing. -/
theorem stringBody_unknown {quote c : Char} (hc : ∀ meant, (c, meant) ∉ escapes)
    (after : List Char) : stringBody quote ('\\' :: c :: after) = .invalidEscape [] c := by
  rw [stringBody, unescape?_eq_none.2 hc]

/-- Whatever follows a quote is the content of a string and an ending. -/
theorem exists_content (quote : Char) (cs : List Char) :
    ∃ text value rest, cs = text ++ rest ∧ Content quote text value ∧ Ending quote rest := by
  fun_induction Scan.stringBody quote cs with
  | case1 => exact ⟨[], [], [], rfl, .nil, .nothing⟩
  | case2 => exact ⟨[], [], _, rfl, .nil, .backslash⟩
  | case3 c rest meant hc ih =>
    obtain ⟨text, value, after, rfl, hcontent, hending⟩ := ih
    exact ⟨_, _, after, rfl, .escape (unescape?_eq_some.1 hc) hcontent, hending⟩
  | case4 c rest hc =>
    exact ⟨[], [], _, rfl, .nil, .unknown (unescape?_eq_none.1 hc) rest⟩
  | case5 rest => exact ⟨[], [], _, rfl, .nil, .quote rest⟩
  | case6 c rest hlast hescape hc ih =>
    obtain ⟨text, value, after, rfl, hcontent, hending⟩ := ih
    exact ⟨_, _, after, rfl, .plain hc (ne_backslash hlast hescape) hcontent, hending⟩

/-! ## The specification -/

/-- What is specified to be read at the front of a text. -/
inductive Specified (cs : List Char) : TokenKind → List Char → List Char → Prop
  | whitespace {text : List Char} (h : Longest blankPattern cs text) :
      Specified cs .whitespace text text
  /-- The newline that ends a comment is not a part of it. -/
  | lineComment {body after : List Char} (hsplit : cs = '/' :: '/' :: (body ++ after))
      (hbody : '\n' ∉ body) (hafter : after = [] ∨ ∃ tail, after = '\n' :: tail) :
      Specified cs .comment ('/' :: '/' :: body) ('/' :: '/' :: body)
  | blockComment {body tail : List Char} (hstart : cs = '/' :: '*' :: tail)
      (h : EndsFirst body tail) :
      Specified cs .comment ('/' :: '*' :: (body ++ ['*', '/']))
        ('/' :: '*' :: (body ++ ['*', '/']))
  | string {quote : Char} {text value after : List Char} (hquote : quote = '"' ∨ quote = '\'')
      (hsplit : cs = quote :: (text ++ quote :: after)) (h : Content quote text value) :
      Specified cs .string value (quote :: (text ++ [quote]))
  | number {text : List Char} (h : Longest numberPattern cs text) : Specified cs .number text text
  | name {text : List Char} (h : Longest wordPattern cs text)
      (hfree : ∀ kind, (String.ofList text, kind) ∉ TokenKind.reserved) :
      Specified cs .name text text
  | reserved {kind : TokenKind} {text : List Char} (h : Longest wordPattern cs text)
      (hmem : (String.ofList text, kind) ∈ TokenKind.reserved) : Specified cs kind text text
  | symbol {kind : TokenKind} {text : List Char} (hline : ¬['/', '/'] <+: cs)
      (hblock : ¬['/', '*'] <+: cs) (h : Longest symbolPattern cs text)
      (hmem : (text, kind) ∈ TokenKind.symbols) : Specified cs kind text text

/-- Some front part of the text is of a class of tokens. -/
inductive Matched (cs : List Char) : Prop
  | whitespace {text : List Char} (h : text ∈ blankPattern) (hfront : text <+: cs)
  | lineComment (hstart : ['/', '/'] <+: cs)
  | blockComment {body : List Char} (hfront : '/' :: '*' :: (body ++ ['*', '/']) <+: cs)
  | string {quote : Char} {text value : List Char} (hquote : quote = '"' ∨ quote = '\'')
      (h : Content quote text value) (hfront : quote :: (text ++ [quote]) <+: cs)
  | number {text : List Char} (h : text ∈ numberPattern) (hfront : text <+: cs)
  | word {text : List Char} (h : text ∈ wordPattern) (hfront : text <+: cs)
  | symbol {text : List Char} (hline : ¬['/', '/'] <+: cs) (hblock : ¬['/', '*'] <+: cs)
      (h : text ∈ symbolPattern) (hfront : text <+: cs)

/-- The error about a text at a position that no class of tokens matches. -/
inductive FaultAt (cs : List Char) (start : Position) : LexError → Prop
  | comment (hstart : ['/', '*'] <+: cs) : FaultAt cs start (.unterminatedComment start)
  /-- The place is that of the backslash. -/
  | escape {quote c : Char} {text value after : List Char} (hquote : quote = '"' ∨ quote = '\'')
      (hsplit : cs = quote :: (text ++ '\\' :: c :: after)) (h : Content quote text value)
      (hc : ∀ meant, (c, meant) ∉ escapes) :
      FaultAt cs start (.invalidEscape c (start.advance (quote :: text)))
  | string {quote : Char} {text value ending : List Char} (hquote : quote = '"' ∨ quote = '\'')
      (hsplit : cs = quote :: (text ++ ending)) (h : Content quote text value)
      (hending : ending = [] ∨ ending = ['\\']) : FaultAt cs start (.unterminatedString start)
  | character {c : Char} {rest : List Char} (hsplit : cs = c :: rest)
      (hquote : ¬(c = '"' ∨ c = '\'')) (hblock : ¬['/', '*'] <+: cs) :
      FaultAt cs start (.unexpectedCharacter c start)

/-! ## One class after another -/

section

variable {c : Char} {rest : List Char}

/-- Where a blank character comes first, all blank characters are read. -/
theorem scan_blank (hc : Text.isBlank c = true) :
    scan c rest = plain .whitespace ((c :: rest).takeWhile Text.isBlank) :=
  if_pos hc

/-- The first two characters of a text that begins with a mark of two. -/
private theorem eq_of_mark {a b : Char} (h : [a, b] <+: c :: rest) :
    ∃ tail, c = a ∧ rest = b :: tail := by
  obtain ⟨tail, htail⟩ := h
  obtain ⟨rfl, rfl⟩ := List.cons.inj htail
  exact ⟨tail, rfl, rfl⟩

theorem scan_lineComment :
    scan '/' ('/' :: rest) = plain .comment (('/' :: '/' :: rest).takeWhile (· ≠ '\n')) := rfl

theorem scan_blockComment : scan '/' ('*' :: rest) = blockComment rest := rfl

/-- Where a quote comes first, a string is read. -/
theorem scan_quote (hc : c = '"' ∨ c = '\'') : scan c rest = stringToken c rest := by
  rcases hc with rfl | rfl <;> rfl

/-- Whether a character begins no token but a symbol or a comment. -/
def isOther (c : Char) : Bool :=
  !(Text.isBlank c || c = '"' || c = '\'' || c.isDigit || isWordStart c)

/-- Anything else that begins no comment is a symbol or at fault. -/
theorem scan_other (hc : isOther c = true) (hline : ¬['/', '/'] <+: c :: rest)
    (hblock : ¬['/', '*'] <+: c :: rest) :
    scan c rest = (symbol? (c :: rest)).elim (.fault (.unexpectedCharacter c))
      fun found => plain found.2 found.1 := by
  have hcomment : ∀ d, ¬['/', d] <+: c :: rest → (c = '/' && rest.head? = some d) = false := by
    intro d hd
    rw [Bool.eq_false_iff]
    intro h
    simp only [Bool.and_eq_true, decide_eq_true_eq] at h
    obtain ⟨rfl, hhead⟩ := h
    obtain ⟨tail, rfl⟩ := List.head?_eq_some_iff.1 hhead
    exact hd ⟨tail, rfl⟩
  simp only [isOther, Bool.not_eq_true', Bool.or_eq_false_iff] at hc
  obtain ⟨⟨⟨⟨hblank, hdouble⟩, hsingle⟩, hdigit⟩, hword⟩ := hc
  simp only [scan, hblank, hcomment _ hline, hcomment _ hblock, hdouble, hsingle, hdigit, hword,
    Bool.false_eq_true, if_false, Bool.or_self]
  cases symbol? (c :: rest) <;> rfl

/-- A run of blank characters is read as specified. -/
theorem specified_blank (hc : Text.isBlank c = true) :
    Specified (c :: rest) .whitespace ((c :: rest).takeWhile Text.isBlank)
      ((c :: rest).takeWhile Text.isBlank) :=
  .whitespace (longest_takeWhile (fun _ => Iff.rfl) subset_rfl hc)

/-- A line ends before its newline, or at the end of the text. -/
private theorem takeWhile_line {body after : List Char} (hbody : '\n' ∉ body)
    (hafter : after = [] ∨ ∃ tail, after = '\n' :: tail) :
    (body ++ after).takeWhile (· ≠ '\n') = body := by
  have hall : ∀ d ∈ body, decide (d ≠ '\n') = true := by
    intro d hd
    rw [decide_eq_true_iff]
    rintro rfl
    exact hbody hd
  rw [List.takeWhile_append_of_pos hall]
  obtain rfl | ⟨tail, rfl⟩ := hafter
  · simp
  · simp

/-- A comment up to the end of its line is read as specified. -/
theorem specified_lineComment :
    Specified ('/' :: '/' :: rest) .comment (('/' :: '/' :: rest).takeWhile (· ≠ '\n'))
      (('/' :: '/' :: rest).takeWhile (· ≠ '\n')) := by
  have hsplit := @List.takeWhile_append_dropWhile _ (fun d => decide (d ≠ '\n')) rest
  have hbody : '\n' ∉ rest.takeWhile (· ≠ '\n') := by
    intro hmem
    have hne := List.all_eq_true.1 List.all_takeWhile _ hmem
    cases hne
  have hafter : rest.dropWhile (· ≠ '\n') = [] ∨
      ∃ tail, rest.dropWhile (· ≠ '\n') = '\n' :: tail := by
    have hhead := List.head?_dropWhile_not (fun d => decide (d ≠ '\n')) rest
    cases hdrop : rest.dropWhile (· ≠ '\n') with
    | nil => exact .inl rfl
    | cons d tail =>
      rw [hdrop] at hhead
      have hd : d = '\n' := by simpa using hhead
      exact .inr ⟨tail, by rw [hd]⟩
  exact .lineComment (congrArg (fun t => '/' :: '/' :: t) hsplit.symm) hbody hafter

/-- A number is read as specified. -/
theorem specified_number (hc : c.isDigit = true) :
    Specified (c :: rest) .number (numberText (c :: rest)) (numberText (c :: rest)) :=
  .number (longest_numberText hc)

/-- All the characters that can go on with a word make the longest one. -/
theorem longest_word (hc : isWordStart c = true) :
    Longest wordPattern (c :: rest) ((c :: rest).takeWhile isWordRest) :=
  longest_takeWhile (fun _ => mem_letters_union_digits) Set.subset_union_left (mem_letters.2 hc)

/-- A reserved word has the kind that it is reserved for. -/
theorem ofWord_of_mem_reserved {word : String} {kind : TokenKind}
    (h : (word, kind) ∈ TokenKind.reserved) : TokenKind.ofWord word = kind := by
  have hall : ∀ entry ∈ TokenKind.reserved, TokenKind.ofWord entry.1 = entry.2 := by decide
  exact hall _ h

/-- A word that is not reserved is a name. -/
theorem ofWord_of_free {word : String} (h : ∀ kind, (word, kind) ∉ TokenKind.reserved) :
    TokenKind.ofWord word = .name := by
  unfold TokenKind.ofWord
  cases hword : TokenKind.ofReserved? word with
  | none => rfl
  | some kind => exact absurd (TokenKind.mem_reserved_of_ofReserved? hword) (h kind)

/-- A word is read as specified, be it reserved or a name. -/
theorem specified_word (hc : isWordStart c = true) :
    Specified (c :: rest) (TokenKind.ofWord (String.ofList ((c :: rest).takeWhile isWordRest)))
      ((c :: rest).takeWhile isWordRest) ((c :: rest).takeWhile isWordRest) := by
  have hlongest := @longest_word c rest hc
  by_cases hreserved : ∃ kind,
      (String.ofList ((c :: rest).takeWhile isWordRest), kind) ∈ TokenKind.reserved
  · obtain ⟨kind, hmem⟩ := hreserved
    rw [ofWord_of_mem_reserved hmem]
    exact .reserved hlongest hmem
  · rw [not_exists] at hreserved
    rw [ofWord_of_free hreserved]
    exact .name hlongest hreserved

/-- A symbol is read as specified where no comment begins. -/
theorem specified_symbol {text : List Char} {kind : TokenKind}
    (hline : ¬['/', '/'] <+: c :: rest) (hblock : ¬['/', '*'] <+: c :: rest)
    (h : symbol? (c :: rest) = some (text, kind)) : Specified (c :: rest) kind text text :=
  .symbol hline hblock (longest_symbol? h) (symbol?_mem h).1

end

/-! ## What is read is what is specified -/

/-- A string is read as specified, or is at fault as specified. -/
private theorem scan_spec_string {c : Char} {rest : List Char} (hquote : c = '"' ∨ c = '\'') :
    (∃ kind value text, scan c rest = .token kind value text ∧
      Specified (c :: rest) kind value text) ∨
    ∃ cause, scan c rest = .fault cause ∧
      ∀ start, FaultAt (c :: rest) start (cause.locate start) := by
  obtain ⟨text, value, ending, rfl, hcontent, hending⟩ := exists_content c rest
  rw [scan_quote hquote, stringToken, hcontent.stringBody]
  cases hending with
  | quote after =>
    rw [stringBody_quote hquote, StringBody.prepend, List.append_nil]
    exact .inl ⟨_, _, _, rfl, .string hquote rfl hcontent⟩
  | nothing => exact .inr ⟨_, rfl, fun start => .string hquote rfl hcontent (.inl rfl)⟩
  | backslash => exact .inr ⟨_, rfl, fun start => .string hquote rfl hcontent (.inr rfl)⟩
  | unknown hc after =>
    rw [stringBody_unknown hc, StringBody.prepend, List.append_nil]
    exact .inr ⟨_, rfl, fun start => .escape hquote rfl hcontent hc⟩

/-- Every outcome is a token as specified, or an error as specified. -/
theorem scan_spec (c : Char) (rest : List Char) :
    (∃ kind value text, scan c rest = .token kind value text ∧
      Specified (c :: rest) kind value text) ∨
    ∃ cause, scan c rest = .fault cause ∧
      ∀ start, FaultAt (c :: rest) start (cause.locate start) := by
  -- The first characters decide which class it is; each of the cases excludes those before it
  by_cases hblank : Text.isBlank c = true
  · exact .inl ⟨_, _, _, scan_blank hblank, specified_blank hblank⟩
  by_cases hline : ['/', '/'] <+: c :: rest
  · obtain ⟨tail, rfl, rfl⟩ := eq_of_mark hline
    exact .inl ⟨_, _, _, scan_lineComment, specified_lineComment⟩
  by_cases hblock : ['/', '*'] <+: c :: rest
  · obtain ⟨tail, rfl, rfl⟩ := eq_of_mark hblock
    obtain ⟨body, hbody, hfirst⟩ | ⟨hnone, -⟩ := commentBody?_spec tail
    · have hscan : scan '/' ('*' :: tail) = .token .comment
          ('/' :: '*' :: (body ++ ['*', '/'])) ('/' :: '*' :: (body ++ ['*', '/'])) := by
        rw [scan_blockComment, blockComment, hbody]
      exact .inl ⟨_, _, _, hscan, .blockComment rfl hfirst⟩
    · have hscan : scan '/' ('*' :: tail) =
          .fault (.unterminatedComment ('/' :: '*' :: tail)) := by
        rw [scan_blockComment, blockComment, hnone]
      exact .inr ⟨_, hscan, fun start => .comment hblock⟩
  by_cases hquote : c = '"' ∨ c = '\''
  · exact scan_spec_string hquote
  by_cases hdigit : c.isDigit = true
  · exact .inl ⟨_, _, _, scan_number hdigit, specified_number hdigit⟩
  by_cases hword : isWordStart c = true
  · exact .inl ⟨_, _, _, scan_word hword, specified_word hword⟩
  have hother : isOther c = true := by
    simp_all [isOther]
  rw [scan_other hother hline hblock]
  cases hs : symbol? (c :: rest) with
  | some found => exact .inl ⟨_, _, _, rfl, specified_symbol hline hblock hs⟩
  | none => exact .inr ⟨_, rfl, fun start => .character rfl hquote hblock⟩

section

variable {c : Char} {rest text : List Char}

/-- A symbol begins with a character that begins nothing else but a comment. -/
private theorem isOther_head (h : text ∈ symbolPattern) (hfront : text <+: c :: rest) :
    isOther c = true := by
  have hall : ∀ entry ∈ TokenKind.symbols, entry.1.head?.any isOther = true := by decide
  obtain ⟨kind, hmem⟩ := h
  have hhead := hall _ hmem
  cases text with
  | nil => cases hhead
  | cons d ds =>
    rw [← (List.cons_prefix_cons.1 hfront).1]
    exact hhead

/-- The table is searched to the end if need be. -/
private theorem exists_symbol? (h : text ∈ symbolPattern) (hfront : text <+: c :: rest) :
    ∃ text' kind, symbol? (c :: rest) = some (text', kind) := by
  obtain ⟨kind, hmem⟩ := h
  cases hs : symbol? (c :: rest) with
  | some found => exact ⟨found.1, found.2, rfl⟩
  | none =>
    have hno := List.find?_eq_none.1 hs _ hmem
    exact absurd (List.isPrefixOf_iff_prefix.2 hfront) hno

/-- The longest symbol is the one that is found in the table. -/
private theorem symbol?_of_longest {kind : TokenKind} (h : Longest symbolPattern (c :: rest) text)
    (hmem : (text, kind) ∈ TokenKind.symbols) : symbol? (c :: rest) = some (text, kind) := by
  have hunique : ∀ a ∈ TokenKind.symbols, ∀ b ∈ TokenKind.symbols, a.1 = b.1 → a = b := by
    decide +kernel
  obtain ⟨text', kind', hs⟩ := exists_symbol? h.mem h.front
  obtain rfl := h.unique (longest_symbol? hs)
  rw [hs, hunique _ (symbol?_mem hs).1 _ hmem rfl]

end

/-- What is specified to be read is read. -/
theorem Specified.scan {c : Char} {rest value text : List Char} {kind : TokenKind}
    (h : Specified (c :: rest) kind value text) : scan c rest = .token kind value text := by
  -- The first character decides the rule, and the longest text of the class is what it reads
  cases h with
  | whitespace h =>
    have hc : c ∈ blanks := head_mem h.mem h.front
    rw [scan_blank hc, h.unique (longest_takeWhile (fun _ => Iff.rfl) subset_rfl hc), plain]
  | @lineComment body after hsplit hbody hafter =>
    obtain ⟨rfl, rfl⟩ := List.cons.inj hsplit
    have hline : '\n' ∉ '/' :: '/' :: body := by simpa using hbody
    have htake : ('/' :: '/' :: (body ++ after)).takeWhile (· ≠ '\n') = '/' :: '/' :: body :=
      takeWhile_line hline hafter
    rw [scan_lineComment, htake, plain]
  | blockComment hstart h =>
    obtain ⟨rfl, rfl⟩ := List.cons.inj hstart
    obtain ⟨body, hbody, hfirst⟩ | ⟨-, hno⟩ := commentBody?_spec _
    · rw [scan_blockComment, Scan.blockComment, hbody, h.unique hfirst]
    · exact absurd h.mark (hno _)
  | string hquote hsplit h =>
    obtain ⟨rfl, rfl⟩ := List.cons.inj hsplit
    rw [scan_quote hquote, stringToken, h.stringBody, stringBody_quote hquote, StringBody.prepend,
      List.append_nil]
  | number h =>
    have hc := isDigit_head h.mem h.front
    rw [scan_number hc, h.unique (longest_numberText hc), plain]
  | name h hfree =>
    have hc := mem_letters.1 (head_mem h.mem h.front)
    have htext := h.unique (longest_word hc)
    rw [scan_word hc, ← htext, ofWord_of_free hfree, plain]
  | reserved h hmem =>
    have hc := mem_letters.1 (head_mem h.mem h.front)
    have htext := h.unique (longest_word hc)
    rw [scan_word hc, ← htext, ofWord_of_mem_reserved hmem, plain]
  | symbol hline hblock h hmem =>
    rw [scan_other (isOther_head h.mem h.front) hline hblock, symbol?_of_longest h hmem]
    rfl

/-- Something is read just where a class of tokens matches. -/
theorem matched_iff {c : Char} {rest : List Char} :
    Matched (c :: rest) ↔ ∃ kind value text, Specified (c :: rest) kind value text := by
  -- Each class of tokens that matches also has a longest text
  constructor
  · intro h
    cases h with
    | whitespace h hfront => exact ⟨_, _, _, specified_blank (head_mem h hfront)⟩
    | lineComment hstart =>
      obtain ⟨tail, rfl, rfl⟩ := eq_of_mark hstart
      exact ⟨_, _, _, specified_lineComment⟩
    | @blockComment body hfront =>
      obtain ⟨after, hsplit⟩ := hfront
      obtain ⟨rfl, rfl⟩ := List.cons.inj hsplit
      obtain ⟨first, -, hfirst⟩ | ⟨-, hno⟩ := commentBody?_spec (body ++ ['*', '/'] ++ after)
      · exact ⟨_, _, _, .blockComment rfl hfirst⟩
      · exact absurd (List.prefix_append ..) (hno body)
    | string hquote h hfront =>
      obtain ⟨after, hsplit⟩ := hfront
      rw [List.cons_append, List.append_assoc] at hsplit
      exact ⟨_, _, _, .string hquote hsplit.symm h⟩
    | number h hfront => exact ⟨_, _, _, specified_number (isDigit_head h hfront)⟩
    | word h hfront => exact ⟨_, _, _, specified_word (mem_letters.1 (head_mem h hfront))⟩
    | symbol hline hblock h hfront =>
      obtain ⟨text, kind, hs⟩ := exists_symbol? h hfront
      exact ⟨_, _, _, specified_symbol hline hblock hs⟩
  · rintro ⟨kind, value, text, h⟩
    cases h with
    | whitespace h => exact .whitespace h.mem h.front
    | lineComment hsplit => exact .lineComment ⟨_, hsplit.symm⟩
    | blockComment hstart h =>
      obtain ⟨after, hafter⟩ := h.mark
      exact .blockComment ⟨after, by rw [hstart, ← hafter]; rfl⟩
    | @string quote text value after hquote hsplit h =>
      exact .string hquote h ⟨after, by simp [hsplit]⟩
    | number h => exact .number h.mem h.front
    | name h => exact .word h.mem h.front
    | reserved h => exact .word h.mem h.front
    | symbol hline hblock h => exact .symbol hline hblock h.mem h.front

/-- Where no class of tokens matches, the error is as specified. -/
theorem FaultAt.scan {c : Char} {rest : List Char} {start : Position} {e : LexError}
    (h : FaultAt (c :: rest) start e) (hno : ¬Matched (c :: rest)) :
    ∃ cause, scan c rest = .fault cause ∧ cause.locate start = e := by
  obtain ⟨kind, value, text, -, hspecified⟩ | ⟨cause, hscan, hfault⟩ := scan_spec c rest
  · exact absurd (matched_iff.2 ⟨kind, value, text, hspecified⟩) hno
  refine ⟨cause, hscan, ?_⟩
  cases h with
  | comment hstart =>
    obtain ⟨tail, rfl, rfl⟩ := eq_of_mark hstart
    change Scan.scan '/' ('*' :: tail) = .fault cause at hscan
    rw [scan_blockComment, Scan.blockComment] at hscan
    split at hscan
    · cases hscan
    · rw [← Outcome.fault.inj hscan]
      rfl
  | escape hquote hsplit hcontent hc =>
    obtain ⟨rfl, rfl⟩ := List.cons.inj hsplit
    rw [scan_quote hquote, stringToken, hcontent.stringBody, stringBody_unknown hc,
      StringBody.prepend, List.append_nil] at hscan
    rw [← Outcome.fault.inj hscan]
    rfl
  | string hquote hsplit hcontent hending =>
    obtain ⟨rfl, rfl⟩ := List.cons.inj hsplit
    rw [scan_quote hquote, stringToken, hcontent.stringBody] at hscan
    obtain rfl | rfl := hending
    all_goals
      rw [← Outcome.fault.inj hscan]
      rfl
  | character hsplit hquote hblock =>
    obtain ⟨rfl, rfl⟩ := List.cons.inj hsplit
    -- Every other error is about a text that begins in another way
    have hother := hfault start
    generalize cause.locate start = e at hother
    cases hother with
    | comment hstart => exact absurd hstart hblock
    | escape hquote' hsplit' | string hquote' hsplit' =>
      rw [← (List.cons.inj hsplit').1] at hquote'
      exact absurd hquote' hquote
    | character hsplit' => rw [(List.cons.inj hsplit').1]

end Schemata.Scan

namespace Schemata.Lexer

section

variable {lexer : Lexer} {c : Char} {rest : List Char}

/-- Where `scan` finds a fault, a lexer fails with it. -/
private theorem nextToken_of_fault {cause : Scan.Fault} (hrest : lexer.rest = c :: rest)
    (hscan : Scan.scan c rest = .fault cause) :
    lexer.nextToken.1 = .error (cause.locate lexer.position) := by
  unfold nextToken
  rw [hrest]
  simp only [hscan]

/-- A lexer reads a token just where one is specified. -/
theorem nextToken_eq_token_iff (h : lexer.rest ≠ []) {token : Token} :
    lexer.nextToken.1 = .ok (some token) ↔
      ∃ kind value text, Scan.Specified lexer.rest kind value text ∧
        token = tokenAt lexer.position kind value text := by
  obtain ⟨c, rest, hrest⟩ := List.exists_cons_of_ne_nil h
  rw [hrest]
  constructor
  · intro htoken
    obtain ⟨kind, value, text, hscan, hspecified⟩ | ⟨cause, hscan, -⟩ := Scan.scan_spec c rest
    · rw [nextToken_of_scan hrest hscan] at htoken
      obtain rfl := Option.some.inj (Except.ok.inj htoken)
      exact ⟨kind, value, text, hspecified, rfl⟩
    · rw [nextToken_of_fault hrest hscan] at htoken
      cases htoken
  · rintro ⟨kind, value, text, hspecified, rfl⟩
    rw [nextToken_of_scan hrest hspecified.scan]

/-- A lexer fails just where no class of tokens matches. -/
theorem nextToken_fails_iff (h : lexer.rest ≠ []) :
    (∃ e, lexer.nextToken.1 = .error e) ↔ ¬Scan.Matched lexer.rest := by
  obtain ⟨c, rest, hrest⟩ := List.exists_cons_of_ne_nil h
  rw [hrest, Scan.matched_iff]
  constructor
  · rintro ⟨e, herror⟩ ⟨kind, value, text, hspecified⟩
    rw [nextToken_of_scan hrest hspecified.scan] at herror
    cases herror
  · intro hno
    obtain ⟨kind, value, text, -, hspecified⟩ | ⟨cause, hscan, -⟩ := Scan.scan_spec c rest
    · exact absurd ⟨kind, value, text, hspecified⟩ hno
    · exact ⟨_, nextToken_of_fault hrest hscan⟩

/-- A lexer fails just with the error that is specified. -/
theorem nextToken_eq_error_iff (h : lexer.rest ≠ []) {e : LexError} :
    lexer.nextToken.1 = .error e ↔
      ¬Scan.Matched lexer.rest ∧ Scan.FaultAt lexer.rest lexer.position e := by
  obtain ⟨c, rest, hrest⟩ := List.exists_cons_of_ne_nil h
  constructor
  · intro herror
    refine ⟨(nextToken_fails_iff h).1 ⟨e, herror⟩, ?_⟩
    rw [hrest]
    obtain ⟨kind, value, text, hscan, -⟩ | ⟨cause, hscan, hfault⟩ := Scan.scan_spec c rest
    · rw [nextToken_of_scan hrest hscan] at herror
      cases herror
    · rw [nextToken_of_fault hrest hscan] at herror
      obtain rfl := Except.error.inj herror
      exact hfault lexer.position
  · rintro ⟨hno, hfault⟩
    rw [hrest] at hno hfault
    obtain ⟨cause, hscan, rfl⟩ := hfault.scan hno
    exact nextToken_of_fault hrest hscan

end

/-- Where there is something to read, a token is read just if one is specified, and it is that
    one: of words, numbers, symbols and blank characters the longest, a comment or a string up to
    its first end.  Reading fails just if no class of tokens matches, with the error for the way in
    which the text begins. -/
theorem nextToken_specified {lexer : Lexer} (h : lexer.rest ≠ []) :
    (∀ token, lexer.nextToken.1 = .ok (some token) ↔
      ∃ kind value text, Scan.Specified lexer.rest kind value text ∧
        token = tokenAt lexer.position kind value text) ∧
    ((∃ e, lexer.nextToken.1 = .error e) ↔ ¬Scan.Matched lexer.rest) ∧
    ∀ e, lexer.nextToken.1 = .error e ↔
      ¬Scan.Matched lexer.rest ∧ Scan.FaultAt lexer.rest lexer.position e :=
  ⟨fun _ => nextToken_eq_token_iff h, nextToken_fails_iff h, fun _ => nextToken_eq_error_iff h⟩

/-- The slash of an opening mark is not that of a closing one as well. -/
theorem nextToken_specified_comment :
    (ofSource "/*/").rest ≠ [] ∧ ¬Scan.Matched (ofSource "/*/").rest ∧
      Scan.FaultAt (ofSource "/*/").rest .start (.unterminatedComment .start) := by
  have h : (ofSource "/*/").rest ≠ [] := by decide
  have herror : (ofSource "/*/").nextToken.1 = .error (.unterminatedComment .start) := by rfl
  exact ⟨h, ((nextToken_specified h).2.2 _).1 herror⟩

end Schemata.Lexer
