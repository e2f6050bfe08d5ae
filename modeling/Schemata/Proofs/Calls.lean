import Mathlib.Data.List.DropRight
import Mathlib.Data.String.Basic
import Schemata.Proofs.Lexing

/-!
# Calls of a lexer

A lexer may be asked for its tokens in two ways, in any order and also after errors.  Whatever it
is asked, it stands between two characters of its source with the true coordinates of that place
(`Position.Exact`), it never goes back, and a token that it returns is the piece of source between
where it stood before and where it stands after (`Exchange.Exact`).

Main statement: `exchanges_exact`, for every sequence of calls.
-/

namespace Schemata

/-! ## Coordinates -/

namespace Position

/-- The position is that of a place in the source, between two characters.  Its offset is the size
    of what stands before the place, its line counts the newlines there, and its column the
    characters since the last of them. -/
def Exact (source : List Char) (p : Position) : Prop :=
  ∃ front back, source = front ++ back ∧ p.offset = Text.byteSize front ∧
    p.line = 1 + Text.lineBreaks front ∧ p.col = 1 + (front.rtakeWhile (· ≠ '\n')).length

/-- Passing over a text counts its newlines into the line. -/
theorem line_advance (p : Position) (text : List Char) :
    (p.advance text).line = p.line + Text.lineBreaks text := by
  induction text generalizing p with
  | nil => simp [Text.lineBreaks]
  | cons c cs ih =>
    rw [advance_cons, ih, Text.lineBreaks, Text.lineBreaks, List.count_cons]
    by_cases hc : c = '\n'
    · simp [next, hc]
      omega
    · simp [next, hc]

/-- Columns count from the last newline. -/
theorem col_advance_start (text : List Char) :
    (start.advance text).col = 1 + (text.rtakeWhile (· ≠ '\n')).length := by
  -- The last character decides whether the column goes on or starts again
  induction text using List.reverseRecOn with
  | nil => rfl
  | append_singleton text c ih =>
    rw [advance_append, List.rtakeWhile_concat]
    by_cases hc : c = '\n'
    · simp [next, hc]
    · simp [next, hc, ih]
      omega

/-- Passing over the front of a source leads to a place in it. -/
theorem exact_advance_start (front back : List Char) :
    Exact (front ++ back) (start.advance front) := by
  refine ⟨front, back, rfl, offset_advance_start front, ?_, col_advance_start front⟩
  exact line_advance start front

end Position

/-! ## What is read before a fault -/

namespace Scan

/-- If a string is not closed, all of its text is read. -/
private theorem stringBody_unterminated {quote : Char} {cs read : List Char}
    (h : stringBody quote cs = .unterminated read) : read = cs := by
  -- The cases are those of the function: the end, an escape or a character
  fun_induction stringBody quote cs generalizing read with
  | case1 | case2 =>
    obtain rfl := StringBody.unterminated.inj h
    rfl
  | case3 c rest v hv ih | case6 c rest _ _ _ ih =>
    cases hb : stringBody quote rest with
    | unterminated read' =>
      rw [hb] at h
      obtain rfl := StringBody.unterminated.inj h
      rw [ih hb]
      rfl
    | closed | invalidEscape =>
      rw [hb] at h
      cases h
  | case4 | case5 => cases h

/-- Up to an escape that escapes nothing, everything is read, and its backslash. -/
private theorem stringBody_invalidEscape {quote c : Char} {cs before : List Char}
    (h : stringBody quote cs = .invalidEscape before c) : before ++ ['\\'] <+: cs := by
  fun_induction stringBody quote cs generalizing before with
  | case1 | case2 | case5 => cases h
  | case3 d rest v hv ih | case6 d rest _ _ _ ih =>
    cases hb : stringBody quote rest with
    | invalidEscape before' c' =>
      rw [hb] at h
      obtain ⟨rfl, rfl⟩ := StringBody.invalidEscape.inj h
      simpa using ih hb
    | closed | unterminated =>
      rw [hb] at h
      cases h
  | case4 d rest hv =>
    obtain ⟨rfl, rfl⟩ := StringBody.invalidEscape.inj h
    simp

/-- What is read before a fault is a front part of the text. -/
theorem fault_read_prefix {c : Char} {rest : List Char} {cause : Fault}
    (h : scan c rest = .fault cause) : cause.read <+: c :: rest := by
  -- Only comments, strings and what is no symbol can be at fault
  unfold scan plain at h
  split at h
  · cases h
  split at h
  · cases h
  split at h
  · next hc =>
    simp only [Bool.and_eq_true, decide_eq_true_eq] at hc
    obtain ⟨rfl, hr⟩ := hc
    obtain ⟨tail, rfl⟩ := List.head?_eq_some_iff.1 hr
    unfold blockComment at h
    split at h
    · cases h
    · obtain rfl := Outcome.fault.inj h
      exact List.prefix_rfl
  split at h
  · unfold stringToken at h
    split at h
    · cases h
    · next read hb =>
      obtain rfl := Outcome.fault.inj h
      rw [stringBody_unterminated hb]
      exact List.prefix_rfl
    · next before d hb =>
      obtain rfl := Outcome.fault.inj h
      exact (List.prefix_cons_inj c).2 (stringBody_invalidEscape hb)
  split at h
  · cases h
  split at h
  · cases h
  split at h
  · cases h
  · obtain rfl := Outcome.fault.inj h
    exact List.nil_prefix

end Scan

/-! ## Calls -/

/-- The two ways to ask a lexer for what comes next. -/
inductive Request where
  /-- The next item of the stream of tokens, which ends with its first error. -/
  | next
  /-- The next token, whatever happened before. -/
  | nextToken
  deriving DecidableEq, Repr

/-- A call of a lexer: what was asked and answered, and the lexer before and after. -/
structure Exchange where
  request : Request
  before : Lexer
  /-- A token, an error, or nothing. -/
  answer : Option (Except LexError Token)
  after : Lexer
  deriving DecidableEq, Repr

namespace Lexer

/-- What a lexer answers to a request, and the lexer after that. -/
def respond (lexer : Lexer) : Request → Option (Except LexError Token) × Lexer
  | .next => lexer.next
  | .nextToken =>
    match lexer.nextToken with
    | (.ok token, after) => (token.map .ok, after)
    | (.error e, after) => (some (.error e), after)

/-- All calls of one lexer that is asked one request after another. -/
def exchanges (lexer : Lexer) : List Request → List Exchange
  | [] => []
  | request :: requests =>
    let (answer, after) := lexer.respond request
    ⟨request, lexer, answer, after⟩ :: after.exchanges requests

/-- The lexer has read the front part of the source. -/
structure HasRead (source front : List Char) (lexer : Lexer) : Prop where
  source : source = front ++ lexer.rest
  position : lexer.position = Position.start.advance front

end Lexer

namespace Exchange

/-- The token stream ended with an error in this call. -/
def endsStream (x : Exchange) : Bool :=
  x.request = .next && match x.answer with
    | some (.error _) => true
    | _ => false

/-- The lexer stands at true coordinates of the source before and after the call, does not go back,
    and returns the piece of source in between if it returns a token. -/
structure Exact (source : List Char) (x : Exchange) : Prop where
  before : x.before.position.Exact source
  after : x.after.position.Exact source
  unread : x.after.rest = Text.dropBytes x.after.position.offset source
  forward : x.before.position.offset ≤ x.after.position.offset
  token : ∀ token, x.answer = some (.ok token) →
    token.text ≠ "" ∧ token.position = x.before.position ∧
      token.text.toList =
        Text.slice source x.before.position.offset x.after.position.offset ∧
      token.lineBreaks = Text.lineBreaks token.text.toList

end Exchange

namespace Lexer

variable {source front : List Char} {lexer : Lexer}

/-- A lexer stands at the true coordinates of what it has read. -/
theorem HasRead.exact (h : HasRead source front lexer) : lexer.position.Exact source := by
  rw [h.position, h.source]
  exact Position.exact_advance_start front lexer.rest

/-- The offset of a lexer is the size of what it has read. -/
theorem HasRead.offset (h : HasRead source front lexer) :
    lexer.position.offset = Text.byteSize front := by
  rw [h.position, Position.offset_advance_start]

/-- What is not read yet is the source from the offset of the lexer. -/
theorem HasRead.unread (h : HasRead source front lexer) :
    lexer.rest = Text.dropBytes lexer.position.offset source := by
  rw [h.offset, h.source, Text.dropBytes_byteSize_append]

/-- Passing over a front part of what is left. -/
theorem HasRead.skip (h : HasRead source front lexer) {read : List Char}
    (hr : read <+: lexer.rest) : HasRead source (front ++ read) (lexer.skip read) := by
  obtain ⟨rest, hrest⟩ := hr
  constructor
  · rw [Lexer.skip, ← hrest, List.drop_left, h.source, ← hrest, List.append_assoc]
  · rw [Lexer.skip, h.position, Position.advance_append]

/-- All that reading a token can do: nothing at the end of the source, else it passes over a front
    part of what is left, which is all of the token if there is no error. -/
theorem nextToken_cases (lexer : Lexer) :
    (lexer.rest = [] ∧ lexer.nextToken = (.ok none, lexer)) ∨
      (∃ kind value text, text ≠ [] ∧ text <+: lexer.rest ∧ lexer.nextToken =
        (.ok (some (tokenAt lexer.position kind value text)), lexer.skip text)) ∨
      ∃ e read, read <+: lexer.rest ∧ lexer.nextToken = (.error e, lexer.skip read) := by
  unfold nextToken
  cases hrest : lexer.rest with
  | nil => exact .inl ⟨rfl, rfl⟩
  | cons c rest =>
    cases hscan : Scan.scan c rest with
    | token kind value text =>
      obtain ⟨hne, after, hsplit⟩ := Scan.scan_split hscan
      exact .inr (.inl ⟨kind, value, text, hne, ⟨after, hsplit.symm⟩, by simp only [hscan]; rfl⟩)
    | fault cause =>
      exact .inr (.inr ⟨cause.locate lexer.position, cause.read, Scan.fault_read_prefix hscan,
        by simp only [hscan]⟩)

/-- A lexer whose stream has ended answers nothing to a request for the stream. -/
theorem respond_next_of_failed (hf : lexer.failed = true) :
    lexer.respond .next = (none, lexer) := by
  simp [respond, next, hf]

/-- Otherwise it answers what it would to a request for a token, from the same place. -/
theorem respond_next (hf : lexer.failed = false) :
    (lexer.respond .next).1 = (lexer.respond .nextToken).1 ∧
      (lexer.respond .next).2.rest = (lexer.respond .nextToken).2.rest ∧
      (lexer.respond .next).2.position = (lexer.respond .nextToken).2.position := by
  obtain ⟨-, h⟩ | ⟨kind, value, text, -, -, h⟩ | ⟨e, read, -, h⟩ := lexer.nextToken_cases
  all_goals simp [respond, next, hf, h]

/-- The stream has failed once it had failed before or a request for it was answered by an error. -/
theorem failed_respond (lexer : Lexer) (request : Request) :
    (lexer.respond request).2.failed =
      (lexer.failed || Exchange.endsStream
        ⟨request, lexer, (lexer.respond request).1, (lexer.respond request).2⟩) := by
  cases request with
  | nextToken =>
    obtain ⟨-, h⟩ | ⟨kind, value, text, -, -, h⟩ | ⟨e, read, -, h⟩ := lexer.nextToken_cases
    all_goals simp [respond, h, Exchange.endsStream, Lexer.skip]
  | next =>
    cases hf : lexer.failed with
    | true => simp [respond_next_of_failed hf, hf]
    | false =>
      obtain ⟨-, h⟩ | ⟨kind, value, text, -, -, h⟩ | ⟨e, read, -, h⟩ := lexer.nextToken_cases
      all_goals simp [respond, next, hf, h, Exchange.endsStream, Lexer.skip]

/-- One call reads a front part of what is left, and all of it is the token, if there is one. -/
theorem HasRead.respond (h : HasRead source front lexer) (request : Request) :
    ∃ read, HasRead source (front ++ read) (lexer.respond request).2 ∧
      ∀ token, (lexer.respond request).1 = some (.ok token) →
        read ≠ [] ∧ ∃ kind value, token = tokenAt lexer.position kind value read := by
  -- Reading a token is the case to which the other one comes down
  have htoken : ∃ read, HasRead source (front ++ read) (lexer.respond .nextToken).2 ∧
      ∀ token, (lexer.respond .nextToken).1 = some (.ok token) →
        read ≠ [] ∧ ∃ kind value, token = tokenAt lexer.position kind value read := by
    obtain ⟨-, hn⟩ | ⟨kind, value, text, hne, hp, hn⟩ | ⟨e, read, hp, hn⟩ := lexer.nextToken_cases
    · exact ⟨[], by simpa [Lexer.respond, hn] using h, by simp [Lexer.respond, hn]⟩
    · refine ⟨text, by simpa [Lexer.respond, hn] using h.skip hp, ?_⟩
      simp only [Lexer.respond, hn]
      rintro _ ⟨⟩
      exact ⟨hne, kind, value, rfl⟩
    · exact ⟨read, by simpa [Lexer.respond, hn] using h.skip hp, by simp [Lexer.respond, hn]⟩
  cases request with
  | nextToken => exact htoken
  | next =>
    cases hf : lexer.failed with
    | true =>
      rw [respond_next_of_failed hf]
      exact ⟨[], by simpa using h, by simp⟩
    | false =>
      obtain ⟨hanswer, hrest, hposition⟩ := respond_next hf
      obtain ⟨read, hafter, hread⟩ := htoken
      refine ⟨read, ⟨?_, ?_⟩, hanswer ▸ hread⟩
      · rw [hrest]
        exact hafter.source
      · rw [hposition]
        exact hafter.position

/-- One call from a place of the source is exact. -/
theorem HasRead.exact_respond (h : HasRead source front lexer) (request : Request) :
    Exchange.Exact source
      ⟨request, lexer, (lexer.respond request).1, (lexer.respond request).2⟩ := by
  obtain ⟨read, hafter, hread⟩ := h.respond request
  have hstop : (lexer.respond request).2.position.offset =
      Text.byteSize front + Text.byteSize read := by
    rw [hafter.offset, Text.byteSize_append]
  -- The places before and after, what is left, the order of both, and the token
  refine ⟨h.exact, hafter.exact, hafter.unread, ?_, ?_⟩
  · rw [h.offset, hstop]
    exact Nat.le_add_right _ _
  · intro token ht
    obtain ⟨hne, kind, value, rfl⟩ := hread token ht
    have htext : (tokenAt lexer.position kind value read).text.toList = read :=
      String.toList_ofList
    refine ⟨?_, rfl, ?_, ?_⟩
    · intro hempty
      rw [hempty] at htext
      exact hne htext.symm
    · rw [htext, hstop, h.offset, hafter.source, List.append_assoc, Text.slice_append_append]
    · rw [htext]
      rfl

/-! ## Sequences of calls -/

/-- The calls begin with that of the first request, and go on from the lexer after it. -/
theorem exchanges_cons (lexer : Lexer) (request : Request) (requests : List Request) :
    lexer.exchanges (request :: requests) =
      ⟨request, lexer, (lexer.respond request).1, (lexer.respond request).2⟩ ::
        (lexer.respond request).2.exchanges requests :=
  rfl

/-- Every call of a lexer that stands at a place of the source is exact, and happens there or
    later. -/
theorem HasRead.exchanges (h : HasRead source front lexer) (requests : List Request) :
    ∀ x ∈ lexer.exchanges requests,
      x.Exact source ∧ lexer.position.offset ≤ x.before.position.offset := by
  induction requests generalizing front lexer with
  | nil => simp [Lexer.exchanges]
  | cons request requests ih =>
    obtain ⟨read, hafter, -⟩ := h.respond request
    have hx := h.exact_respond request
    rw [exchanges_cons]
    intro x hmem
    rcases List.mem_cons.1 hmem with rfl | hmem
    · exact ⟨hx, Nat.le_refl _⟩
    · obtain ⟨hexact, hle⟩ := ih hafter x hmem
      exact ⟨hexact, Nat.le_trans hx.forward hle⟩

/-- No call begins before an earlier one has ended. -/
theorem HasRead.pairwise_exchanges (h : HasRead source front lexer) (requests : List Request) :
    (lexer.exchanges requests).Pairwise fun x y =>
      x.after.position.offset ≤ y.before.position.offset := by
  induction requests generalizing front lexer with
  | nil => exact .nil
  | cons request requests ih =>
    obtain ⟨read, hafter, -⟩ := h.respond request
    rw [exchanges_cons]
    exact .cons (fun y hy => (hafter.exchanges requests y hy).2) (ih hafter)

/-- A call in a sequence is that of the lexer before it, whose stream has failed if that of the
    first lexer had or one of the calls before ended it. -/
theorem exchanges_eq_append {requests : List Request} {earlier later : List Exchange}
    {x : Exchange} (h : lexer.exchanges requests = earlier ++ x :: later) :
    (x.answer, x.after) = x.before.respond x.request ∧
      x.before.failed = (lexer.failed || earlier.any Exchange.endsStream) := by
  -- Induction on the calls before it, the lexer being whatever these leave
  induction earlier generalizing lexer requests with
  | nil =>
    cases requests with
    | nil => cases h
    | cons request requests =>
      rw [exchanges_cons] at h
      obtain ⟨rfl, -⟩ := List.cons.inj h
      simp
  | cons first earlier ih =>
    cases requests with
    | nil => cases h
    | cons request requests =>
      rw [exchanges_cons] at h
      obtain ⟨rfl, hrest⟩ := List.cons.inj h
      obtain ⟨hrespond, hfailed⟩ := ih hrest
      refine ⟨hrespond, ?_⟩
      rw [hfailed, failed_respond, List.any_cons, Bool.or_assoc]

end Lexer

/-- The texts of the tokens that tile a text make up the text. -/
theorem Tiles.join_text {p : Position} {text : List Char} {tokens : List Token}
    (h : Tiles p text tokens) : String.join (tokens.map Token.text) = String.ofList text := by
  rw [String.join_eq, List.map_map]
  congr 1
  induction h with
  | nil => rfl
  | cons _ hsplit _ ih =>
    rw [List.map_cons, List.flatten_cons, ih, hsplit]
    simp [Lexer.tokenAt]

/-- However often and in whichever way a lexer is asked, also after errors: it stands at true
    coordinates of its source and moves on only, and the tokens it returns are the pieces of source
    that it passes over.  The stream ends with its own first error, and until then it goes on from
    wherever the lexer stands, even after errors that were answered to requests for a token.  The
    texts of all tokens make up the source, if there is no error. -/
theorem exchanges_exact (source : String) (requests : List Request) :
    (∀ x ∈ (Lexer.ofSource source).exchanges requests, x.Exact source.toList) ∧
    ((Lexer.ofSource source).exchanges requests).Pairwise (fun x y =>
      x.after.position.offset ≤ y.before.position.offset) ∧
    (∀ earlier x later,
      (Lexer.ofSource source).exchanges requests = earlier ++ x :: later → x.request = .next →
        if earlier.any Exchange.endsStream then x.answer = none ∧ x.after = x.before
        else x.answer = (x.before.respond .nextToken).1 ∧
          x.after.position = (x.before.respond .nextToken).2.position) ∧
    ∀ tokens, (Lexer.ofSource source).tokenize = .ok tokens →
      String.join (tokens.map Token.text) = source := by
  have hstart : Lexer.HasRead source.toList [] (Lexer.ofSource source) := ⟨rfl, rfl⟩
  refine ⟨fun x hx => (hstart.exchanges requests x hx).1, hstart.pairwise_exchanges requests,
    fun earlier x later h hnext => ?_, fun tokens ht => ?_⟩
  -- Whether the stream had failed before the call is known from the calls before it
  · obtain ⟨hrespond, hfailed⟩ := Lexer.exchanges_eq_append h
    have hfailed : x.before.failed = earlier.any Exchange.endsStream := hfailed
    rw [hnext] at hrespond
    split
    · next hany =>
      rw [Lexer.respond_next_of_failed (hfailed.trans hany)] at hrespond
      exact Prod.mk.inj hrespond
    · next hany =>
      obtain ⟨hanswer, -, hposition⟩ :=
        Lexer.respond_next (hfailed.trans (Bool.eq_false_iff.2 hany))
      rw [← hrespond] at hanswer hposition
      exact ⟨hanswer, hposition⟩
  · rw [(Lexer.tokenize_eq_ok.1 ht).join_text, String.ofList_toList]

/-- An escape that escapes nothing, behind a character of two bytes: the request for a token fails,
    the stream goes on after the backslash.  Without it there is no error. -/
theorem exchanges_exact_resumed :
    (∃ failure resumed token, (Lexer.ofSource "'é\\q").exchanges [.nextToken, .next] =
        [failure] ++ resumed :: [] ∧
      failure.answer = some (.error (.invalidEscape 'q' ⟨1, 3, 3⟩)) ∧
      resumed.request = .next ∧ resumed.answer = some (.ok token) ∧
      token = ⟨.name, "q", "q", ⟨1, 4, 4⟩, 0⟩ ∧
      token.text.toList = Text.slice "'é\\q".toList resumed.before.position.offset
        resumed.after.position.offset ∧
      resumed.answer = (resumed.before.respond .nextToken).1) ∧
    ∃ tokens, (Lexer.ofSource "'é'\nq").tokenize = .ok tokens ∧
      String.join (tokens.map Token.text) = "'é'\nq" := by
  constructor
  · obtain ⟨hexact, -, hstream, -⟩ := exchanges_exact "'é\\q" [.nextToken, .next]
    -- The run of the two requests is computed, and the general theorem says the rest
    obtain ⟨failure, resumed, h, hfailure, hnext, hends, hanswer⟩ :
        ∃ failure resumed, (Lexer.ofSource "'é\\q").exchanges [.nextToken, .next] =
            [failure] ++ resumed :: [] ∧
          failure.answer = some (.error (.invalidEscape 'q' ⟨1, 3, 3⟩)) ∧
          resumed.request = .next ∧ [failure].any Exchange.endsStream = false ∧
          resumed.answer = some (.ok ⟨.name, "q", "q", ⟨1, 4, 4⟩, 0⟩) :=
      ⟨_, _, rfl, by decide +kernel, rfl, by decide +kernel, by decide +kernel⟩
    have hgoes := hstream [failure] resumed [] h hnext
    rw [hends, if_neg Bool.false_ne_true] at hgoes
    have htoken := (hexact resumed (by simp [h])).token _ hanswer
    exact ⟨failure, resumed, _, h, hfailure, hnext, hanswer, rfl, htoken.2.2.1, hgoes.1⟩
  · have hok : (Lexer.ofSource "'é'\nq").tokenize.isOk = true := by decide +kernel
    cases ht : (Lexer.ofSource "'é'\nq").tokenize with
    | error e =>
      rw [ht] at hok
      cases hok
    | ok tokens => exact ⟨tokens, rfl, (exchanges_exact "'é'\nq" []).2.2.2 tokens ht⟩

end Schemata
