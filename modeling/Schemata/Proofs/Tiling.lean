import Schemata.Proofs.Cursor

/-!
# Reading a part of a source

Tokens lie side by side in their source (`Tiles`), and each of them is read in the same way if the
source ends right after it or anywhere later (`Scan.scan_of_scan_append`).  So a part of a source
that begins and ends with whole tokens has just these tokens (`Tiles.of_append`), and the text from
the start of one token to the end of another is read as what lies between (`Tiles.lexes_slice`).
-/

namespace Schemata

/-! ## Reading less text -/

namespace Scan

/-- What is taken from the front of a text is taken from less text too, if it is all there. -/
private theorem takeWhile_of_append {p : Char → Bool} {cs back : List Char}
    (h : (cs ++ back).takeWhile p <+: cs) : cs.takeWhile p = (cs ++ back).takeWhile p := by
  induction cs with
  | nil => exact (List.prefix_nil.1 h).symm
  | cons c cs ih =>
    by_cases hc : p c = true
    · rw [List.cons_append, List.takeWhile_cons_of_pos hc] at h
      rw [List.cons_append, List.takeWhile_cons_of_pos hc, List.takeWhile_cons_of_pos hc,
        ih ((List.prefix_cons_inj c).1 h)]
    · rw [List.cons_append, List.takeWhile_cons_of_neg hc, List.takeWhile_cons_of_neg hc]

/-- The body of a comment has at least its end mark. -/
private theorem commentBody?_ne_nil {cs : List Char} : commentBody? cs ≠ some [] := by
  intro h
  unfold commentBody? at h
  split at h
  · cases h
  · cases h
  · obtain ⟨tail, -, ht⟩ := Option.map_eq_some_iff.1 h
    cases ht

/-- The body of a comment does not depend on what comes after it. -/
private theorem commentBody?_of_append {cs back body : List Char}
    (h : commentBody? (cs ++ back) = some body) (hp : body <+: cs) :
    commentBody? cs = some body := by
  fun_induction commentBody? cs generalizing body with
  | case1 =>
    obtain rfl := List.prefix_nil.1 hp
    exact absurd h commentBody?_ne_nil
  | case2 rest => exact h
  | case3 c rest hend ih =>
    rw [List.cons_append] at h
    unfold commentBody? at h
    split at h
    · next heq => cases heq
    -- The end mark would reach beyond the text
    · next rest' heq =>
      obtain ⟨rfl, hrest⟩ := List.cons.inj heq
      obtain rfl := Option.some.inj h
      cases rest with
      | nil => simp at hp
      | cons d rest =>
        obtain ⟨rfl, -⟩ := List.cons.inj hrest
        exact absurd rfl (hend rest rfl)
    · next c' rest' _ heq =>
      obtain ⟨rfl, rfl⟩ := List.cons.inj heq
      obtain ⟨tail, ht, rfl⟩ := Option.map_eq_some_iff.1 h
      rw [ih ht ((List.prefix_cons_inj c).1 hp), Option.map_some]

/-- A body that is closed after one more character was closed before. -/
theorem eq_closed_of_cons_eq_closed {c : Char} {front value text : List Char}
    {body : StringBody} (h : body.cons c front = .closed value text) :
    ∃ value' text', body = .closed value' text' ∧ value = c :: value' ∧ text = front ++ text' := by
  cases body with
  | closed value' text' =>
    obtain ⟨rfl, rfl⟩ := StringBody.closed.inj h
    exact ⟨value', text', rfl, rfl, rfl⟩
  | unterminated | invalidEscape => cases h

/-- A closed body has at least its closing quote. -/
private theorem closed_ne_nil {quote : Char} {cs value : List Char} :
    stringBody quote cs ≠ .closed value [] := by
  intro h
  unfold stringBody at h
  split at h
  · cases h
  · cases h
  · split at h
    · obtain ⟨value', text', -, -, ht⟩ := eq_closed_of_cons_eq_closed h
      cases ht
    · cases h
  · split at h
    · cases h
    · obtain ⟨value', text', -, -, ht⟩ := eq_closed_of_cons_eq_closed h
      cases ht

/-- A character other than a backslash closes the body or stands for itself. -/
theorem stringBody_cons {quote c : Char} {rest : List Char} (hc : c ≠ '\\') :
    stringBody quote (c :: rest) =
      if c = quote then .closed [] [c] else (stringBody quote rest).cons c [c] := by
  rw [stringBody]
  · exact fun h => absurd h hc
  · exact fun _ _ h => absurd h hc

/-- A backslash is the last character or escapes the next. -/
theorem ne_backslash {c : Char} {rest : List Char} (hlast : c = '\\' → rest = [] → False)
    (hescape : ∀ d tail, c = '\\' → rest = d :: tail → False) : c ≠ '\\' := by
  intro hc
  cases rest with
  | nil => exact hlast hc rfl
  | cons d tail => exact hescape d tail hc rfl

/-- The body of a string does not depend on what comes after it. -/
private theorem stringBody_of_append {quote : Char} {cs back value text : List Char}
    (h : stringBody quote (cs ++ back) = .closed value text) (hp : text <+: cs) :
    stringBody quote cs = .closed value text := by
  fun_induction stringBody quote cs generalizing value text with
  | case1 =>
    obtain rfl := List.prefix_nil.1 hp
    exact absurd h closed_ne_nil
  -- An escape would reach beyond the text
  | case2 =>
    cases back with
    | nil => exact h
    | cons c back =>
      simp only [List.cons_append, List.nil_append, stringBody] at h
      split at h
      · obtain ⟨value', text', -, -, rfl⟩ := eq_closed_of_cons_eq_closed h
        simp at hp
      · cases h
  | case3 c rest v hv ih =>
    simp only [List.cons_append, stringBody, hv] at h
    obtain ⟨value', text', hb, rfl, rfl⟩ := eq_closed_of_cons_eq_closed h
    rw [ih hb (by simpa using hp)]
    rfl
  | case4 c rest hv =>
    simp only [List.cons_append, stringBody, hv] at h
    cases h
  | case5 rest hlast hescape =>
    rw [List.cons_append, stringBody_cons (ne_backslash hlast hescape), if_pos rfl] at h
    exact h
  | case6 c rest hlast hescape hc ih =>
    rw [List.cons_append, stringBody_cons (ne_backslash hlast hescape), if_neg hc] at h
    obtain ⟨value', text', hb, rfl, rfl⟩ := eq_closed_of_cons_eq_closed h
    rw [ih hb ((List.prefix_cons_inj c).1 hp)]
    rfl

/-- A fraction that ends within a text does not depend on what comes after the text. -/
private theorem fraction_of_append {cs back : List Char} (h : fraction (cs ++ back) <+: cs) :
    fraction cs = fraction (cs ++ back) := by
  cases cs with
  | nil => exact (List.prefix_nil.1 h).symm
  | cons c cs =>
    by_cases hc : c = '.'
    · subst hc
      simp only [List.cons_append, fraction] at h ⊢
      have hdigits : cs.takeWhile Char.isDigit = (cs ++ back).takeWhile Char.isDigit := by
        by_cases hd : ((cs ++ back).takeWhile Char.isDigit).isEmpty = true
        · apply takeWhile_of_append
          rw [List.isEmpty_iff.1 hd]
          exact List.nil_prefix
        · rw [if_neg hd] at h
          exact takeWhile_of_append ((List.prefix_cons_inj '.').1 h)
      rw [hdigits]
    · simp [fraction, hc]

/-- A whole part that ends within a text does not depend on what comes after the text. -/
private theorem wholePart_of_append {c : Char} {cs back : List Char}
    (h : wholePart (c :: (cs ++ back)) <+: c :: cs) :
    wholePart (c :: cs) = wholePart (c :: (cs ++ back)) := by
  by_cases hc : c = '0'
  · subst hc
    rfl
  · have hplain : ∀ ds, wholePart (c :: ds) = (c :: ds).takeWhile Char.isDigit := by
      intro ds
      rw [wholePart]
      exact fun _ h => hc (List.cons.inj h).1
    rw [hplain] at h ⊢
    rw [hplain]
    exact takeWhile_of_append h

/-- A number that ends within a text does not depend on what comes after the text. -/
private theorem numberText_of_append {c : Char} {cs back : List Char}
    (h : numberText (c :: (cs ++ back)) <+: c :: cs) :
    numberText (c :: cs) = numberText (c :: (cs ++ back)) := by
  simp only [numberText] at h ⊢
  have hwhole := wholePart_of_append ((List.prefix_append _ _).trans h)
  obtain ⟨after, hw⟩ := wholePart_prefix (c :: cs)
  rw [← hwhole] at h ⊢
  generalize wholePart (c :: cs) = whole at h hw ⊢
  -- Both fractions are read from what the same whole part leaves
  have hlong : c :: (cs ++ back) = whole ++ (after ++ back) := by
    rw [← List.cons_append, ← hw, List.append_assoc]
  rw [hlong, ← hw, List.drop_left] at h
  rw [hlong, ← hw, List.drop_left, List.drop_left,
    fraction_of_append ((List.prefix_append_right_inj whole).1 h)]

/-- A symbol within a text is read there whatever comes after the text. -/
private theorem symbol?_of_append {cs back text : List Char} {kind : TokenKind}
    (h : symbol? (cs ++ back) = some (text, kind)) (hp : text <+: cs) :
    symbol? cs = some (text, kind) := by
  unfold symbol? at h ⊢
  obtain ⟨-, before, after, hsymbols, hbefore⟩ := List.find?_eq_some_iff_append.1 h
  refine List.find?_eq_some_iff_append.2 ⟨List.isPrefixOf_iff_prefix.2 hp, before, after,
    hsymbols, ?_⟩
  -- A symbol that does not fit the longer text does not fit the shorter one
  intro symbol hs
  have hnot := hbefore symbol hs
  rw [Bool.not_eq_true', Bool.eq_false_iff] at hnot ⊢
  intro hfits
  apply hnot
  rw [List.isPrefixOf_iff_prefix] at hfits ⊢
  exact hfits.trans (List.prefix_append cs back)

/-- A comment is longer than the character it begins with. -/
private theorem not_prefix_of_comment {d : Char} {rest value text : List Char} {kind : TokenKind}
    (hd : d = '/' ∨ d = '*') (h : scan '/' (d :: rest) = .token kind value text) :
    ¬ text <+: ['/'] := by
  have hblank : ¬ Text.isBlank '/' = true := by decide
  unfold scan at h
  rw [if_neg hblank] at h
  rcases hd with rfl | rfl
  · rw [if_pos (by simp)] at h
    obtain ⟨-, -, rfl⟩ := Outcome.token.inj h
    simp
  · rw [if_neg (by simp), if_pos (by simp), List.tail_cons] at h
    unfold blockComment at h
    split at h
    · obtain ⟨-, -, rfl⟩ := Outcome.token.inj h
      simp
    · cases h

/-- A token is read in the same way if the text ends after it or anywhere later. -/
theorem scan_of_scan_append {c : Char} {rest back value text : List Char} {kind : TokenKind}
    (h : scan c (rest ++ back) = .token kind value text) (hp : text <+: c :: rest) :
    scan c rest = .token kind value text := by
  -- A comment is not begun by a character beyond the text
  have hhead : ∀ d, d = '/' ∨ d = '*' → ((c = '/' && (rest ++ back).head? = some d) =
      (c = '/' && rest.head? = some d)) := by
    intro d hd
    cases rest with
    | cons e rest => rfl
    | nil =>
      by_cases hc : c = '/'
      · subst hc
        cases back with
        | nil => rfl
        | cons e back =>
          have hne : e ≠ d := by
            rintro rfl
            exact not_prefix_of_comment hd h hp
          simp [hne]
      · simp [hc]
  unfold scan at h ⊢
  rw [hhead '/' (.inl rfl), hhead '*' (.inr rfl)] at h
  -- The same branch is taken for both texts, and reads the same
  split at h
  · next hc =>
    obtain ⟨rfl, rfl, rfl⟩ := Outcome.token.inj h
    rw [if_pos hc, plain, takeWhile_of_append hp]
    rfl
  next hblank =>
  rw [if_neg hblank]
  split at h
  · next hc =>
    obtain ⟨rfl, rfl, rfl⟩ := Outcome.token.inj h
    rw [if_pos hc, plain, takeWhile_of_append hp]
    rfl
  next hline =>
  rw [if_neg hline]
  split at h
  · next hc =>
    rw [if_pos hc]
    unfold blockComment at h ⊢
    split at h
    · next body hb =>
      obtain ⟨rfl, rfl, rfl⟩ := Outcome.token.inj h
      cases rest with
      | nil => simp at hc
      | cons d rest =>
        have hbody : body <+: rest := (List.cons_prefix_cons.1 (List.cons_prefix_cons.1 hp).2).2
        rw [List.tail_cons, commentBody?_of_append hb hbody]
    · cases h
  next hblock =>
  rw [if_neg hblock]
  split at h
  · next hc =>
    rw [if_pos hc]
    unfold stringToken at h ⊢
    split at h
    · next value' text' hb =>
      obtain ⟨rfl, rfl, rfl⟩ := Outcome.token.inj h
      rw [stringBody_of_append hb ((List.prefix_cons_inj c).1 hp)]
    · cases h
    · cases h
  next hstring =>
  rw [if_neg hstring]
  split at h
  · next hc =>
    obtain ⟨rfl, rfl, rfl⟩ := Outcome.token.inj h
    rw [if_pos hc, numberText_of_append hp]
    rfl
  next hdigit =>
  rw [if_neg hdigit]
  split at h
  · next hc =>
    obtain ⟨rfl, rfl, rfl⟩ := Outcome.token.inj h
    rw [if_pos hc, takeWhile_of_append hp]
    rfl
  next hword =>
  rw [if_neg hword]
  split at h
  · next text' kind' hs =>
    obtain ⟨rfl, rfl, rfl⟩ := Outcome.token.inj h
    rw [symbol?_of_append hs hp]
    rfl
  · cases h

end Scan

/-! ## Parts of a source -/

namespace Tiles

variable {p : Position} {text : List Char} {tokens us vs : List Token}

/-- Where the tokens are split, the text splits too, and each part has its own tokens. -/
theorem of_append (h : Tiles p text (us ++ vs)) :
    ∃ front back, text = front ++ back ∧ Tiles p front us ∧ Tiles (p.advance front) back vs := by
  induction us generalizing p text with
  | nil => exact ⟨[], text, rfl, .nil, h⟩
  | cons token us ih =>
    cases h with
    | @cons _ c rest first after value kind _ hscan hsplit hafter =>
      obtain ⟨front, back, rfl, hfront, hback⟩ := ih hafter
      obtain ⟨hne, -⟩ := Scan.scan_split hscan
      obtain ⟨d, tail, rfl⟩ := List.exists_cons_of_ne_nil hne
      rw [List.cons_append] at hsplit
      obtain ⟨rfl, rfl⟩ := List.cons.inj hsplit
      -- The first token does not need the text after the split to be read
      rw [← List.append_assoc] at hscan
      have hless := Scan.scan_of_scan_append hscan (List.prefix_append (c :: tail) front)
      refine ⟨c :: (tail ++ front), back, by simp, .cons hless rfl hfront, ?_⟩
      rw [← List.cons_append, Position.advance_append]
      exact hback

/-- The first token stands where the text does. -/
theorem position_head? (h : Tiles p text tokens) {first : Token}
    (hf : tokens.head? = some first) : first.position = p := by
  cases h with
  | nil => cases hf
  | cons =>
    obtain rfl := Option.some.inj hf
    rfl

/-- The last token ends where the text does. -/
theorem stop_getLast? (h : Tiles p text tokens) {last : Token}
    (hl : tokens.getLast? = some last) : last.stop = p.offset + Text.byteSize text := by
  induction h with
  | nil => cases hl
  | @cons p c rest first after value kind tokens _ hsplit hafter ih =>
    rw [hsplit, Text.byteSize_append]
    cases tokens with
    | nil =>
      obtain rfl := Option.some.inj hl
      cases hafter
      simp [Token.stop, Lexer.tokenAt]
    | cons token tokens =>
      rw [List.getLast?_cons_cons] at hl
      rw [ih hl, Position.offset_advance]
      omega

/-- Some tokens that come one after another in a text are those of a part of it, which begins where
    the first of them stands and ends where the last of them does. -/
theorem part_of_append {ts : List Token} {first last : Token}
    (h : Tiles .start text (us ++ (ts ++ vs))) (hf : ts.head? = some first)
    (hl : ts.getLast? = some last) :
    ∃ front middle back, text = front ++ (middle ++ back) ∧
      first.position = Position.start.advance front ∧
      last.stop = Text.byteSize front + Text.byteSize middle ∧ Tiles first.position middle ts := by
  obtain ⟨front, rest, rfl, hfront, hrest⟩ := h.of_append
  obtain ⟨middle, back, rfl, hmiddle, hback⟩ := hrest.of_append
  have hstart := hmiddle.position_head? hf
  refine ⟨front, middle, back, rfl, hstart, ?_, by rwa [hstart]⟩
  rw [hmiddle.stop_getLast? hl, Position.offset_advance_start]

/-- A text that is one token is the text of that token. -/
theorem eq_text {t : Token} (h : Tiles p text [t]) : text = t.text.toList := by
  cases h with
  | cons _ hsplit hafter =>
    cases hafter
    rw [hsplit]
    simp [Lexer.tokenAt]

/-- The text of a token is the piece of source where it stands. -/
theorem slice_of_mem {t : Token} (h : Tiles .start text tokens) (ht : t ∈ tokens) :
    Text.slice text t.position.offset t.stop = t.text.toList := by
  obtain ⟨before, after, rfl⟩ := List.append_of_mem ht
  have hsplit : before ++ t :: after = before ++ ([t] ++ after) := rfl
  rw [hsplit] at h
  obtain ⟨front, middle, back, rfl, hposition, hstop, htile⟩ :=
    h.part_of_append (List.head?_singleton (a := t)) List.getLast?_singleton
  rw [hstop, hposition, Position.offset_advance_start, Text.slice_append_append]
  exact htile.eq_text

/-- No token stands before the text. -/
theorem offset_le_of_mem {t : Token} (h : Tiles p text tokens) (ht : t ∈ tokens) :
    p.offset ≤ t.position.offset := by
  induction h with
  | nil => cases ht
  | cons _ _ _ ih =>
    rcases List.mem_cons.1 ht with rfl | ht
    · exact Nat.le_refl _
    · refine Nat.le_trans ?_ (ih ht)
      rw [Position.offset_advance]
      exact Nat.le_add_right _ _

/-- A token begins after every token before it has ended. -/
theorem pairwise_stop (h : Tiles p text tokens) :
    tokens.Pairwise fun t u => t.stop ≤ u.position.offset := by
  induction h with
  | nil => exact .nil
  | cons _ _ hafter ih =>
    refine .cons (fun u hu => ?_) ih
    refine Nat.le_trans (Nat.le_of_eq ?_) (hafter.offset_le_of_mem hu)
    rw [Position.offset_advance]
    simp [Token.stop, Lexer.tokenAt]

end Tiles

/-- Elements that come one after another once others are left out are those of one part of the
    list, which begins with the first of them and ends with the last. -/
private theorem exists_of_filter_eq_append {α : Type} {q : α → Bool} {xs us ts vs : List α}
    {first last : α} (h : xs.filter q = us ++ (ts ++ vs)) (hf : ts.head? = some first)
    (hl : ts.getLast? = some last) :
    ∃ us' ts' vs', xs = us' ++ (ts' ++ vs') ∧ ts'.filter q = ts ∧ ts'.head? = some first ∧
      ts'.getLast? = some last := by
  obtain ⟨ts₁, rfl⟩ := List.head?_eq_some_iff.1 hf
  obtain ⟨ts₂, hts⟩ := List.getLast?_eq_some_iff.1 hl
  -- What is left out before the first and after the last goes with the other parts
  obtain ⟨before, rest, rfl, -, hrest⟩ := List.filter_eq_append_iff.1 h
  obtain ⟨gap, after, rfl, -, hfirst, hafter⟩ := List.filter_eq_cons_iff.1 hrest
  obtain ⟨middle, behind, rfl, hmiddle, -⟩ := List.filter_eq_append_iff.1 hafter
  have hall : (first :: middle).filter q = ts₂ ++ [last] := by
    rw [List.filter_cons_of_pos hfirst, hmiddle, hts]
  obtain ⟨front, back, hsplit, hfront, hback⟩ := List.filter_eq_append_iff.1 hall
  obtain ⟨gap₂, tail, rfl, hgap₂, hlast, htail⟩ := List.filter_eq_cons_iff.1 hback
  refine ⟨before ++ gap, front ++ (gap₂ ++ [last]), tail ++ behind, ?_, ?_, ?_, ?_⟩
  · have : first :: (middle ++ behind) = (first :: middle) ++ behind := rfl
    rw [this, hsplit]
    simp
  · have hnone : gap₂.filter q = [] := by simpa [List.filter_eq_nil_iff] using hgap₂
    rw [List.filter_append, List.filter_append, hfront, hnone, List.filter_cons_of_pos hlast,
      hts]
    rfl
  · have hhead := congrArg List.head? hsplit
    cases front with
    | cons x front => simpa using hhead.symm
    | nil =>
      cases gap₂ with
      | nil => simpa using hhead.symm
      | cons x gap₂ => simpa using hhead.symm
  · simp

/-- Tokens that come one after another once trivia are left out are what is read from a part of the
    source, which begins where the first of them stands and ends where the last of them does. -/
theorem Tiles.part_of_filter {text : List Char} {tokens us ts vs : List Token}
    {first last : Token} (h : Tiles .start text tokens)
    (hts : tokens.filter (fun token => !token.kind.isTrivia) = us ++ (ts ++ vs))
    (hf : ts.head? = some first) (hl : ts.getLast? = some last) :
    ∃ front middle back, text = front ++ (middle ++ back) ∧
      first.position = Position.start.advance front ∧
      last.stop = Text.byteSize front + Text.byteSize middle ∧
      Lexes middle (ts.map Token.piece) := by
  obtain ⟨us', ts', vs', rfl, rfl, hf', hl'⟩ := exists_of_filter_eq_append hts hf hl
  obtain ⟨front, middle, back, htext, hposition, hstop, htiles⟩ := h.part_of_append hf' hl'
  exact ⟨front, middle, back, htext, hposition, hstop, htiles.lexes⟩

/-- In a source, the text from the start of one token to the end of another is read as the tokens
    from the one to the other, trivia left out. -/
theorem Tiles.lexes_slice {text : List Char} {tokens us ts vs : List Token} {first last : Token}
    (h : Tiles .start text tokens)
    (hts : tokens.filter (fun token => !token.kind.isTrivia) = us ++ (ts ++ vs))
    (hf : ts.head? = some first) (hl : ts.getLast? = some last) :
    Lexes (Text.slice text first.position.offset last.stop) (ts.map Token.piece) := by
  obtain ⟨front, middle, back, rfl, hposition, hstop, hlexes⟩ := h.part_of_filter hts hf hl
  rwa [hstop, hposition, Position.offset_advance_start, Text.slice_append_append]

end Schemata
