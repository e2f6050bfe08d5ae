import Schemata.Proofs.Ambiguities
import Schemata.Proofs.Expectations
import Schemata.Proofs.LocalParsers

/-!
# Rejected prefixes

An error says at once what is wrong: a source that cannot be split into tokens fails with the error
of that, and a source in which a token is refused fails in the same way however it goes on after
that token (`readStatements_determined`).

For the second part the source is first cut behind the refused token, which a `Local` parse does not
notice.  What is left is then compared with the beginning of the other source, which says the same
at other places, and that beginning is put back into its source.
-/

namespace Schemata

/-- The error of a token in whose place something else was expected. -/
def Token.refusal (token : Token) (expected : List Expectation) : ParseError :=
  .unexpectedToken token.kind token.value token.position expected

namespace Parse

variable {α : Type} {s t : Setting}

/-- No parse fails with an error of splitting a source into tokens. -/
theorem ne_lexical {R : α → α → Prop} {p : Parse α}
    (h : Agree (.ofPositions fun _ _ => True) R p p) {c c' : Cursor} {e : LexError} :
    p c ≠ .error (.lexical e) c' := by
  intro hp
  have hsame := h c c ⟨List.forall₂_same.2 fun x _ => ⟨rfl, rfl, trivial⟩, rfl, trivial⟩
  rw [hp] at hsame
  cases hsame with
  | error he => cases he

section

variable {body : Setting → Parse α} {xs ys : List Lexeme} {x y : Lexeme} {i : Nat} {c : Cursor}
  {expected : List Expectation}

/-- A token is refused wherever it stands. -/
theorem refused_elsewhere
    (hagree : ∀ (K : Likeness) s t, s.Alike K t →
      Agree K (fun _ _ => True) (body s) (body t))
    (hgrammar : s.grammar = t.grammar) (hlimit : s.limit = t.limit)
    (hpieces : xs.map Lexeme.piece = ys.map Lexeme.piece)
    (hnodup : ((xs.map Lexeme.token).map Token.position ++ [s.stop]).Nodup)
    (hx : xs[i]? = some x) (hy : ys[i]? = some y)
    (h : body s (.start xs) = .error (x.token.refusal expected) c) :
    ∃ d, body t (.start ys) = .error (y.token.refusal expected) d := by
  let places := SameIndex ((xs.map Lexeme.token).map Token.position ++ [s.stop])
    ((ys.map Lexeme.token).map Token.position ++ [t.stop])
  have hlength : xs.length = ys.length := by simpa using congrArg List.length hpieces
  have hstop : places s.stop t.stop := ⟨xs.length, by simp, by simp [hlength]⟩
  have hsame := hagree (.ofPositions places) s t ⟨hgrammar, hlimit, hstop⟩ (.start xs) (.start ys)
    ⟨alike_of_map_piece hpieces, rfl, trivial⟩
  obtain ⟨d, q, hq, j, hj, hqj⟩ : ∃ d q, body t (.start ys) =
      .error (.unexpectedToken x.token.kind x.token.value q expected) d ∧
        places x.token.position q := by
    rw [h] at hsame
    generalize body t (.start ys) = z at hsame
    cases hsame with
    | error he =>
      cases he with
      | unexpectedToken hplace => exact ⟨_, _, rfl, hplace⟩
  -- The place of the token in the first list tells its index
  have hi := (List.getElem?_eq_some_iff.1 hx).1
  have hxi : ((xs.map Lexeme.token).map Token.position ++ [s.stop])[i]? =
      some x.token.position := by
    rw [List.getElem?_append_left (by simpa using hi)]
    simp [hx]
  obtain rfl : i = j :=
    (List.getElem?_inj (by simpa using Nat.lt_succ_of_lt hi) hnodup).1 (hxi.trans hj.symm)
  have hposition : y.token.position = q := by
    rw [List.getElem?_append_left (by simpa [← hlength] using hi)] at hqj
    simpa [hy] using hqj
  have hpiece : x.piece = y.piece := by
    have hget := congrArg (·[i]?) hpieces
    simpa [hx, hy] using hget
  obtain ⟨hkind, hvalue⟩ := Piece.mk.inj hpiece
  refine ⟨d, ?_⟩
  rw [hq, ← hposition, Token.refusal, ← hkind, ← hvalue]

/-- A token is refused whatever comes after it, and wherever it stands. -/
theorem refused_of_prefix (hlocal : ∀ (k : Fork) s, k.tied = false → Local k (body s))
    (hagree : ∀ (K : Likeness) s t, s.Alike K t →
      Agree K (fun _ _ => True) (body s) (body t))
    (hgrammar : s.grammar = t.grammar) (hlimit : s.limit = t.limit)
    (hnodup : ((xs.map Lexeme.token).map Token.position ++ [s.stop]).Nodup)
    (hpieces : (xs.take (i + 1)).map Lexeme.piece = (ys.take (i + 1)).map Lexeme.piece)
    (hx : xs[i]? = some x) (h : body s (.start xs) = .error (x.token.refusal expected) c) :
    ∃ y d, ys[i]? = some y ∧ y.piece = x.piece ∧
      body t (.start ys) = .error (y.token.refusal expected) d := by
  have hx' : (xs.take (i + 1))[i]? = some x := by
    rw [List.getElem?_take_of_lt (Nat.lt_succ_self i), hx]
  have hpiece : (ys.take (i + 1))[i]?.map Lexeme.piece = some x.piece := by
    rw [← List.getElem?_map, ← hpieces, List.getElem?_map, hx', Option.map_some]
  obtain ⟨y, hy', hyx⟩ := Option.map_eq_some_iff.1 hpiece
  have hy : ys[i]? = some y := by rwa [List.getElem?_take_of_lt (Nat.lt_succ_self i)] at hy'
  -- Behind the token, no other stands in its place
  rw [← List.take_append_drop (i + 1) xs, List.map_append, List.map_append, List.append_assoc]
    at hnodup
  have hafter : ∀ z ∈ xs.drop (i + 1), z.token.position ≠ x.token.position := by
    intro z hz heq
    refine (List.nodup_append.1 hnodup).2.2 _ ?_ _ (List.mem_append_left _ ?_) heq.symm
    · exact List.mem_map_of_mem (List.mem_map_of_mem (List.mem_of_getElem? hx'))
    · exact List.mem_map_of_mem (List.mem_map_of_mem hz)
  -- The first source is cut there, and what the second one begins with is put back into it
  have hcut : (Fork.ofTexts (xs.drop (i + 1)) []).Abreast (.start xs) (.start (xs.take (i + 1))) :=
    ⟨⟨xs.take (i + 1), (List.take_append_drop _ _).symm, (List.append_nil _).symm⟩, rfl, rfl, rfl⟩
  obtain ⟨c₁, hxs⟩ :=
    ((hlocal _ s rfl).together trivial hcut).error _ _ h ⟨_, _, _, _, rfl, hafter⟩
  have hplaces := hnodup.sublist (List.Sublist.append_left (List.sublist_append_right _ _) _)
  obtain ⟨d₁, hys⟩ := refused_elsewhere hagree hgrammar hlimit hpieces hplaces hx' hy' hxs
  have hwhole :
      (Fork.ofTexts [] (ys.drop (i + 1))).Abreast (.start (ys.take (i + 1))) (.start ys) :=
    ⟨⟨ys.take (i + 1), (List.append_nil _).symm, (List.take_append_drop _ _).symm⟩, rfl, rfl, rfl⟩
  obtain ⟨d, hrun⟩ := ((hlocal _ t rfl).together trivial hwhole).error _ _ hys
    ⟨_, _, _, _, rfl, fun z hz => absurd hz List.not_mem_nil⟩
  exact ⟨y, d, hy, hyx, hrun⟩

end

end Parse

/-! ## Sources -/

/-- No two tokens stand at the same place, and none at the end of the source. -/
theorem Tiles.nodup_places {text : List Char} {tokens : List Token} (h : Tiles .start text tokens)
    (broken : Bool) :
    (((Lexeme.ofTokens broken tokens).map Lexeme.token).map Token.position ++
      [Position.start.advance text]).Nodup := by
  rw [List.map_map]
  refine List.nodup_append.2 ⟨?_, List.nodup_singleton _, ?_⟩
  · refine List.pairwise_map.2 ((h.ordered broken).pairwise_lt.imp fun hlt heq => ?_)
    exact Nat.ne_of_lt hlt (congrArg Position.offset heq)
  · rintro _ hp _ hq rfl
    obtain ⟨x, hx, heq⟩ := List.mem_map.1 hp
    have hmem : x.token ∈ (Lexeme.ofTokens broken tokens).map Lexeme.token := List.mem_map_of_mem hx
    rw [Lexeme.map_token_ofTokens] at hmem
    have hlt := h.offset_lt_of_mem (List.mem_filter.1 hmem).1
    rw [List.mem_singleton.1 hq] at heq
    replace heq : x.token.position.offset = _ := congrArg Position.offset heq
    rw [heq, Position.offset_advance] at hlt
    exact Nat.lt_irrefl _ hlt

namespace Parser

/-- A source is read as statements only if it can be split into tokens, and a parser that splits it
    fails with no error of that sort. -/
theorem readStatements_lexical {parser : Parser} {e : LexError} :
    parser.readStatements.1 = .error (.lexical e) ↔
      (Lexer.ofSource parser.source).tokenize = .error e := by
  cases htokens : (Lexer.ofSource parser.source).tokenize with
  | error e' =>
    have hsource : Lexeme.ofSource parser.source = .error e' := by
      unfold Lexer.tokenize at htokens
      simp only [Lexeme.ofSource, htokens]
    simp [readStatements, readProgram, read, load, hsource, Except.map]
  | ok tokens =>
    have hsource := Lexeme.ofSource_eq_ok.2 ⟨tokens, Lexer.tokenize_eq_ok.1 htokens, rfl, rfl⟩
    simp only [readStatements_eq hsource, reduceCtorEq, iff_false]
    intro h
    -- Whatever the parser fails with, it is not an error of splitting
    have hprogram := fun s => Parse.agree_program (K := .ofPositions fun _ _ => True) (s := s)
      ⟨rfl, rfl, trivial⟩
    generalize hrun : Parse.program _ _ = result at h
    cases result with
    | ok nodes c => cases h
    | error e' c =>
      obtain rfl : e' = .lexical e := Except.error.inj h
      exact Parse.ne_lexical (hprogram _) hrun

end Parser

/-- With every precedence table and every depth limit, a source fails with an error of splitting it
    into tokens exactly if it cannot be split, whatever else is wrong with it.  Otherwise a token
    that is refused is one of the source, and every source that begins with the same tokens up to
    that one fails by refusing it in the same way. -/
theorem readStatements_determined (a : Parser) :
    (∀ e, a.readStatements.1 = .error (.lexical e) ↔
      (Lexer.ofSource a.source).tokenize = .error e) ∧
    ∀ tokens, (Lexer.ofSource a.source).tokenize = .ok tokens →
      (∀ kind value p expected,
        a.readStatements.1 = .error (.unexpectedToken kind value p expected) →
          ∃ t ∈ Token.solid tokens, t.refusal expected = .unexpectedToken kind value p expected) ∧
      ∀ i t expected, (Token.solid tokens)[i]? = some t →
        a.readStatements.1 = .error (t.refusal expected) →
        ∀ (b : Parser) tokens', b.grammar = a.grammar → b.limit = a.limit →
          (Lexer.ofSource b.source).tokenize = .ok tokens' →
          (Token.visible tokens').take (i + 1) = (Token.visible tokens).take (i + 1) →
            ∃ u, (Token.solid tokens')[i]? = some u ∧ u.piece = t.piece ∧
              b.readStatements.1 = .error (u.refusal expected) := by
  refine ⟨fun e => Parser.readStatements_lexical, fun tokens htokens => ?_⟩
  have htiles := Lexer.tokenize_eq_ok.1 htokens
  have hsource := Lexeme.ofSource_eq_ok.2 ⟨tokens, htiles, rfl, rfl⟩
  rw [Parser.readStatements_eq hsource]
  constructor
  · intro kind value p expected h
    obtain ⟨c, hrun⟩ := Parse.outcome_eq_error.1 h
    obtain ⟨x, hx, rfl, rfl, rfl⟩ := (Parse.sure_program _ _).place kind value p expected c hrun
    refine ⟨x.token, ?_, rfl⟩
    rw [Token.solid, ← Lexeme.map_token_ofTokens tokens false]
    exact List.mem_map_of_mem hx
  -- Both sources are parsed with the same table and limit, and agree up to the refused token
  · intro i t expected ht h b tokens' hgrammar hlimit htokens' hpieces
    have hsource' :=
      Lexeme.ofSource_eq_ok.2 ⟨tokens', Lexer.tokenize_eq_ok.1 htokens', rfl, rfl⟩
    rw [Parser.readStatements_eq hsource']
    simp only [Token.solid, ← Lexeme.map_token_ofTokens _ false, List.getElem?_map,
      ← Lexeme.map_piece_ofTokens _ false, ← List.map_take] at ht hpieces ⊢
    obtain ⟨x, hx, rfl⟩ := Option.map_eq_some_iff.1 ht
    obtain ⟨c, hrun⟩ := Parse.outcome_eq_error.1 h
    obtain ⟨y, d, hy, hyx, hrun'⟩ := Parse.refused_of_prefix
      (s := ⟨a.grammar, a.limit, a.source.toList, Position.start.advance a.source.toList⟩)
      (t := ⟨b.grammar, b.limit, b.source.toList, Position.start.advance b.source.toList⟩)
      (fun k s hk => Parse.local_program hk)
      (fun K s t hs => (Parse.agree_program hs).mono fun _ _ _ => trivial)
      hgrammar.symm hlimit.symm (htiles.nodup_places false) hpieces.symm hx hrun
    exact ⟨y.token, Option.map_eq_some_iff.2 ⟨y, hy, rfl⟩, hyx, Parse.outcome_eq_error.2 ⟨d, hrun'⟩⟩

/-- A directive that does not exist is refused, although it has been taken, whatever follows it. -/
theorem readStatements_determined_directive :
    ∃ tokens tokens' t u,
      (Lexer.ofSource "collection C \x7b @indx(x) \x7d").tokenize = .ok tokens ∧
      (Token.solid tokens)[4]? = some t ∧
      parse "collection C \x7b @indx(x) \x7d" = .error (t.refusal [.word "index"]) ∧
      (Lexer.ofSource "collection C\n\x7b @ indx ) return").tokenize = .ok tokens' ∧
      (Token.visible tokens').take 5 = (Token.visible tokens).take 5 ∧
      (Token.solid tokens')[4]? = some u ∧
      parse "collection C\n\x7b @ indx ) return" = .error (u.refusal [.word "index"]) := by
  obtain ⟨tokens, htokens⟩ := exists_of_isOk
    (show (Lexer.ofSource "collection C \x7b @indx(x) \x7d").tokenize.isOk = true by decide +kernel)
  obtain ⟨tokens', htokens'⟩ := exists_of_isOk
    (show (Lexer.ofSource "collection C\n\x7b @ indx ) return").tokenize.isOk = true by
      decide +kernel)
  -- The first five tokens are the same, though the texts around them differ
  have hpieces : (Token.visible tokens').take 5 = (Token.visible tokens).take 5 := by
    have hvisible : (Lexer.ofSource "collection C\n\x7b @ indx ) return").tokenize.toOption.map
          (fun tokens => (Token.visible tokens).take 5) =
        (Lexer.ofSource "collection C \x7b @indx(x) \x7d").tokenize.toOption.map
          (fun tokens => (Token.visible tokens).take 5) := by decide +kernel
    rw [htokens, htokens'] at hvisible
    exact Option.some.inj hvisible
  have ht : (Token.solid tokens)[4]? = some ⟨.name, "indx", "indx", ⟨1, 17, 16⟩, 0⟩ := by
    have hsolid : (Lexer.ofSource "collection C \x7b @indx(x) \x7d").tokenize.toOption.map
        (fun tokens => (Token.solid tokens)[4]?) =
          some (some ⟨.name, "indx", "indx", ⟨1, 17, 16⟩, 0⟩) := by decide +kernel
    rw [htokens] at hsolid
    exact Option.some.inj hsolid
  have herror : parse "collection C \x7b @indx(x) \x7d" =
      .error (Token.refusal ⟨.name, "indx", "indx", ⟨1, 17, 16⟩, 0⟩ [.word "index"]) :=
    @eq_error_of_map _ _ Unit _ (fun _ => ()) _ (by decide +kernel)
  obtain ⟨-, hrefused⟩ := (readStatements_determined
    (.ofSource .standard "collection C \x7b @indx(x) \x7d")).2 tokens htokens
  obtain ⟨u, hu, -, herror'⟩ := hrefused 4 _ _ ht herror
    (.ofSource .standard "collection C\n\x7b @ indx ) return") tokens' rfl rfl htokens' hpieces
  exact ⟨tokens, tokens', _, u, htokens, ht, herror, htokens', hpieces, hu, herror'⟩

end Schemata
