import Mathlib.Data.List.Forall2
import Schemata.Proofs.Canonical
import Schemata.Proofs.Printing
import Schemata.Proofs.StatementComplete

/-!
# Printing and parsing

A tree that is printed and parsed again comes back unchanged.

Main statements:

- `parse_printAll_iff`: a list of well-formed statements survives exactly if its nesting stays
  within the limit of the parser
- `parse_printAll_of_same`: what was parsed once survives, also when it has lost what it notes
  about its source
-/

namespace Schemata

/-- Printable statements come back from their canonical text, if their nesting stays within the
    limit. -/
theorem parse_printAll {nodes : List Node} (hne : nodes ≠ [])
    (htop : ∀ n ∈ nodes, n.isTop = true) (h : ∀ n ∈ nodes, n.AllPrintable)
    (hr : Node.programNesting nodes ≤ maxDepth) :
    ∃ nodes', parse (Node.printAll nodes) = .ok nodes' ∧
      nodes'.map Node.erase = nodes.map Node.erase := by
  have hwritten : ∀ n ∈ nodes, Written .standard .any maxDepth .top n.tokens n := fun n hn =>
    Node.canonical (fun m hm => (h n hn m hm).toWellFormed) maxDepth .top (htop n hn)
      (largest_map_le_iff.1 hr n hn)
  obtain ⟨lines, rfl, htokens, hspaced, hstretches⟩ := exists_lines hwritten
  have hnonempty : lines.stretches ≠ [] := by simpa [Lines.nodes] using hne
  refine parse_of_written ⟨hnonempty, hspaced, hstretches⟩
    (fun n hn m hm => (h n hn m hm).ordered) ?_
  have hlexes := lexes_printAll htop h
  rw [htokens, List.map_map]
  simpa [Function.comp_def, Node.programPieces] using hlexes

/-- A list of well-formed statements, built in whatever way, is what its canonical text is parsed
    as, exactly if its nesting stays within the limit of the parser. -/
theorem parse_printAll_iff {nodes : List Node} (hne : nodes ≠ [])
    (htop : ∀ n ∈ nodes, n.isTop = true) (hwf : ∀ n ∈ nodes, ∀ m ∈ n.subtrees, m.WellFormed)
    (htext : ∀ n ∈ nodes, ∀ m ∈ n.subtrees, m.role = .operator → m.text = "") :
    (∃ nodes', parse (Node.printAll nodes) = .ok nodes' ∧ Node.sameList nodes' nodes = true) ↔
      Node.programNesting nodes ≤ maxDepth := by
  constructor
  · rintro ⟨nodes', hparse, hsame⟩
    have hnesting := (parse_form hparse).2.2
    rwa [Node.programNesting_congr (Node.sameList_iff_erase.1 hsame)] at hnesting
  · intro hr
    have hprintable : ∀ n ∈ nodes, n.AllPrintable := fun n hn m hm =>
      ⟨hwf n hn m hm, fun op hop => .inl (htext n hn m hm (by rw [Node.role, hop]; rfl))⟩
    obtain ⟨nodes', hparse, herase⟩ := parse_printAll hne htop hprintable hr
    exact ⟨nodes', hparse, Node.sameList_iff_erase.2 herase⟩

/-- The tree of `-a[b.c]`, built by hand. -/
private def builtAccess : Node :=
  let name word := Node.ofShape (.name word) Position.start
  .ofShape (.unary .negate (((name "c").chainedFrom (name "b")).bracketed (name "a")))
    Position.start

/-- A minus sign before a key with a receiver of its own, without any source. -/
theorem parse_printAll_builtAccess :
    ∃ nodes', parse (Node.printAll [builtAccess]) = .ok nodes' ∧
      Node.sameList nodes' [builtAccess] = true := by
  refine (parse_printAll_iff (by simp) (by decide) ?_ (by decide)).2 (by decide)
  have hname : ∀ word, Scan.isName word = true →
      (Node.ofShape (.name word) Position.start).WellFormed :=
    fun word hword => ⟨hword, Node.marksValid_of_standsAlone rfl, trivial, by simp [Node.ofShape],
      trivial, by simp [Node.ofShape]⟩
  have hreceiver : ∀ word receiver,
      some (Node.ofShape (.name word) Position.start) = some receiver →
        receiver.role = .expression ∧ receiver.Closed := by
    rintro word _ ⟨⟩
    exact ⟨rfl, rfl, rfl⟩
  -- The negation, the key, its receiver and the two names, in this order
  have hsubtrees : builtAccess.subtrees.Forall Node.WellFormed :=
    ⟨⟨trivial, Node.marksValid_of_standsAlone rfl, rfl, by simp, ⟨fun k hk => (by cases hk),
        by simp⟩⟩,
      ⟨trivial, ⟨fun _ => rfl, rfl, rfl⟩, rfl, fun r hr => (hreceiver _ r hr).1, trivial,
        fun r hr => (hreceiver _ r hr).2⟩,
      hname "a" (by decide),
      ⟨show Scan.isName "c" = true by decide, ⟨fun _ => rfl, trivial⟩, trivial,
        fun r hr => (hreceiver _ r hr).1, trivial, fun r hr => (hreceiver _ r hr).2⟩,
      hname "b" (by decide)⟩
  simpa using List.forall_iff_forall_mem.1 hsubtrees

/-- Erasing all nodes of trees gives all nodes of the erased trees. -/
private theorem map_erase_flatMap (nodes : List Node) :
    (nodes.flatMap Node.subtrees).map Node.erase =
      (nodes.map Node.erase).flatMap Node.subtrees := by
  simp [List.map_flatMap, List.flatMap_map, Node.subtrees_erase]

/-- The nodes of two lists that are the same correspond by their places. -/
private theorem exists_partner {as bs : List Node} {R : Node → Node → Prop}
    (he : as.map Node.erase = bs.map Node.erase) (hR : List.Forall₂ R as bs) :
    ∀ a ∈ as, ∃ b ∈ bs, a.erase = b.erase ∧ R a b := by
  induction hR with
  | nil => simp
  | @cons a b as bs hab _ ih =>
    obtain ⟨hhead, htail⟩ := List.cons.inj he
    intro c hc
    rcases List.mem_cons.1 hc with rfl | hc
    · exact ⟨b, by simp, hhead, hab⟩
    · obtain ⟨d, hd, hcd⟩ := ih htail c hc
      exact ⟨d, List.mem_cons_of_mem _ hd, hcd⟩

/-- An operator of a list of statements that is the same as a printable one can be printed, if it
    has lost its text or still has it. -/
private theorem allPrintable_of_same {nodes₂ nodes : List Node}
    (h : ∀ n ∈ nodes, n.AllPrintable) (herase : nodes₂.map Node.erase = nodes.map Node.erase)
    (htext : List.Forall₂ (fun m₂ m => m₂.role = .operator → m₂.text = "" ∨ m₂.text = m.text)
      (nodes₂.flatMap Node.subtrees) (nodes.flatMap Node.subtrees)) :
    ∀ n ∈ nodes₂, n.AllPrintable := by
  have hsubtrees : (nodes₂.flatMap Node.subtrees).map Node.erase =
      (nodes.flatMap Node.subtrees).map Node.erase := by
    rw [map_erase_flatMap, map_erase_flatMap, herase]
  intro n hn m₂ hm₂
  -- The node stands where a node of the other list does, which is printable
  obtain ⟨m, hm, he, htext⟩ := exists_partner hsubtrees htext m₂ (List.mem_flatMap.2 ⟨n, hn, hm₂⟩)
  obtain ⟨n', hn', hm'⟩ := List.mem_flatMap.1 hm
  have hprintable := h n' hn' m hm'
  refine ⟨(Node.wellFormed_erase m₂).1 ?_, fun op hop => ?_⟩
  · rw [he]
    exact (Node.wellFormed_erase m).2 hprintable.toWellFormed
  · have hshape : m.shape = .operator op := by
      rw [← Node.shape_erase_eq_operator, ← he, Node.shape_erase_eq_operator]
      exact hop
    rcases htext (by rw [Node.role, hop]; rfl) with hempty | hkept
    · exact .inl hempty
    · rw [hkept]
      exact hprintable.spelled op hshape

/-- A program that is parsed is what the canonical text of its statements is parsed as.  This holds
    of every list of statements that is the same, even if operators have lost their text. -/
theorem parse_printAll_of_same {source : String} {nodes nodes₂ : List Node}
    (h : parse source = .ok nodes) (hsame : Node.sameList nodes₂ nodes = true)
    (htext : List.Forall₂ (fun m₂ m => m₂.role = .operator → m₂.text = "" ∨ m₂.text = m.text)
      (nodes₂.flatMap Node.subtrees) (nodes.flatMap Node.subtrees)) :
    ∃ nodes₃, parse (Node.printAll nodes₂) = .ok nodes₃ ∧
      Node.sameList nodes₃ nodes = true := by
  have herase := Node.sameList_iff_erase.1 hsame
  obtain ⟨hne, hnodes, hr⟩ := parse_form h
  have hne₂ : nodes₂ ≠ [] := by
    rintro rfl
    exact hne (List.map_eq_nil_iff.1 herase.symm)
  have htop₂ : ∀ n ∈ nodes₂, n.isTop = true := by
    intro n hn
    have hmem : n.erase ∈ nodes.map Node.erase := herase ▸ List.mem_map_of_mem hn
    obtain ⟨m, hm, he⟩ := List.mem_map.1 hmem
    rw [← Node.isTop_erase, ← he, Node.isTop_erase]
    exact (hnodes m hm).1
  rw [← Node.programNesting_congr herase] at hr
  obtain ⟨nodes₃, hparse, herase₃⟩ := parse_printAll hne₂ htop₂
    (allPrintable_of_same (fun n hn => (hnodes n hn).2) herase htext) hr
  exact ⟨nodes₃, hparse, Node.sameList_iff_erase.2 (herase₃.trans herase)⟩

/-- A program that needs a semicolon, with operators that have two spellings and lose theirs. -/
theorem parse_printAll_of_erased :
    ∃ nodes nodes₃, parse "let x = not a ** (b[c.d] or \x7be: 1\x7d) return; (g)" = .ok nodes ∧
      parse (Node.printAll (nodes.map Node.erase)) = .ok nodes₃ ∧
      Node.sameList nodes₃ nodes = true := by
  obtain ⟨nodes, h⟩ := exists_of_isOk
    (show (parse "let x = not a ** (b[c.d] or \x7be: 1\x7d) return; (g)").isOk = true by
      decide +kernel)
  have hsame : Node.sameList (nodes.map Node.erase) nodes = true :=
    Node.sameList_iff_erase.2 (by simp)
  have hsubtrees : (nodes.map Node.erase).flatMap Node.subtrees =
      (nodes.flatMap Node.subtrees).map Node.erase := (map_erase_flatMap nodes).symm
  have htext : ∀ m : Node, m.erase.text = "" := fun m => by rw [Node.erase_eq m]
  obtain ⟨nodes₃, h₃, hsame₃⟩ := parse_printAll_of_same h hsame (by
    rw [hsubtrees, List.forall₂_map_left_iff, List.forall₂_same]
    exact fun m _ _ => .inl (htext m))
  exact ⟨nodes, nodes₃, h, h₃, hsame₃⟩

end Schemata
