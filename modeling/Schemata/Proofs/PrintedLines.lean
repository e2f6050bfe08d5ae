import Schemata.Proofs.Canonical
import Schemata.Proofs.Continuation
import Schemata.Proofs.RoundTrip

/-!
# The lines of the canonical text

The canonical text has a line break only before and after a statement.  Each of its lines is read
on its own, and no expression goes on from one line into the next (`Lined`), so the canonical text
of a program is read without ambiguities (`parseProgram_printAll`).
-/

namespace Schemata

open Scan Piece

/-! ## Texts of lines -/

/-- No expression goes on over a line break from the first pieces to the second. -/
def Piece.Apart (before after : List Piece) : Prop :=
  (∃ last ∈ before.getLast?, last.kind.opensLine = true) ∨
    ∀ first ∈ after.head?, Grammar.standard.continues 0 first.kind = false

/-- The text is read as the pieces line by line, and no expression goes on from one line into the
    next. -/
inductive Lined : List Char → List Piece → Prop
  | line {text : List Char} {pieces : List Piece} (hflat : '\n' ∉ text) (h : Lexes text pieces) :
      Lined text pieces
  | newline {text text' : List Char} {pieces pieces' : List Piece} (hflat : '\n' ∉ text)
      (h : Lexes text pieces) (hapart : Apart pieces pieces') (h' : Lined text' pieces') :
      Lined (text ++ '\n' :: text') (pieces ++ pieces')

/-- Only the first piece of a line can come after a line break. -/
private theorem afterBreak_of_flat {p : Position} {text : List Char} {tokens : List Token}
    (h : Tiles p text tokens) (hflat : '\n' ∉ text) (broken : Bool) :
    (broken = false → ∀ lexeme ∈ Lexeme.ofTokens broken tokens, lexeme.afterBreak = false) ∧
      (Lexeme.ofTokens broken tokens).IsChain fun _ lexeme => lexeme.afterBreak = false := by
  -- Induction on the tokens: only the trivia of another line would bring in a break
  induction h generalizing broken with
  | nil => exact ⟨by simp [Lexeme.ofTokens], .nil⟩
  | @cons p c rest front after value kind tokens hscan hsplit _ ih =>
    rw [hsplit, List.mem_append, not_or] at hflat
    have hfront : Text.lineBreaks front = 0 := List.count_eq_zero.2 hflat.1
    cases hkind : kind.isTrivia with
    | true =>
      simp only [Lexeme.ofTokens, Lexer.tokenAt, hkind, if_true, hfront, gt_iff_lt, Nat.lt_irrefl,
        decide_false, Bool.or_false]
      exact ih hflat.2 broken
    | false =>
      obtain ⟨hall, hchain⟩ := ih hflat.2 false
      simp only [Lexeme.ofTokens, Lexer.tokenAt, hkind, Bool.false_eq_true, if_false]
      refine ⟨?_, hchain.cons fun lexeme hl => hall rfl lexeme (List.mem_of_mem_head? hl)⟩
      rintro hbroken lexeme (_ | ⟨_, hl⟩)
      · exact hbroken
      · exact hall rfl lexeme hl

/-- The line breaks of a text of lines are steady. -/
theorem Lined.exists_steady {text : List Char} {pieces : List Piece} (h : Lined text pieces)
    (broken : Bool) :
    ∃ marks, Lays broken text marks ∧ marks.map Prod.fst = pieces ∧
      Grammar.standard.Steady marks := by
  -- Within a line no lexeme comes after a break, and between two lines they stand apart
  have hline : ∀ {text pieces}, '\n' ∉ text → Lexes text pieces → ∀ broken,
      ∃ marks, Lays broken text marks ∧ marks.map Prod.fst = pieces ∧
        Grammar.standard.Steady marks := by
    intro text pieces hflat h broken
    obtain ⟨tokens, ht⟩ := h.tiles .start
    have hlays := Lays.of_tiles ht broken
    refine ⟨_, hlays, hlays.lexes.unique h, (List.isChain_map _).2 ?_⟩
    refine (afterBreak_of_flat ht hflat broken).2.imp fun _ lexeme hl hbreak => ?_
    exact absurd (hl.symm.trans hbreak) (by decide)
  induction h generalizing broken with
  | line hflat h => exact hline hflat h broken
  | newline hflat h hapart _ ih =>
    obtain ⟨marks, hlays, rfl, hsteady⟩ := hline hflat h broken
    obtain ⟨marks', hlays', rfl, hsteady'⟩ := ih true
    refine ⟨marks ++ marks', hlays.append_newline hlays', List.map_append, ?_⟩
    refine List.isChain_append.2 ⟨hsteady, hsteady', fun last hlast first hfirst _ => ?_⟩
    rw [Apart, List.getLast?_map, List.head?_map] at hapart
    obtain ⟨piece, hpiece, hopens⟩ | hstops := hapart
    · obtain rfl := Option.mem_unique hpiece (Option.mem_map_of_mem _ hlast)
      exact .inl hopens
    · exact .inr (hstops _ (Option.mem_map_of_mem _ hfirst))

/-- A line may begin with a text that its rest does not go on with. -/
theorem Lined.prepend {text rest : List Char} {pieces ps : List Piece} (hflat : '\n' ∉ text)
    (hs : Spells text pieces) (hb : isBoundary rest = true) (h : Lined rest ps) :
    Lined (text ++ rest) (pieces ++ ps) := by
  cases h with
  | line hflat' h => exact .line (by simp [hflat, hflat']) (hs _ _ hb h)
  | @newline first _ before _ hflat' h hapart h' =>
    have hfirst : isBoundary first = true := by
      cases first with
      | nil => rfl
      | cons c first =>
        cases first with
        | nil => simp_all [isBoundary]
        | cons d first => exact hb
    rw [← List.append_assoc, ← List.append_assoc]
    refine .newline (by simp [hflat, hflat']) (hs _ _ hfirst h) ?_ h'
    obtain ⟨last, hlast, hopens⟩ | hstops := hapart
    · exact .inl ⟨last, List.mem_getLast?_append_of_mem_getLast? hlast, hopens⟩
    · exact .inr hstops

/-- A space in front does not matter. -/
theorem Lined.space {rest : List Char} {ps : List Piece} (h : Lined rest ps) :
    Lined (' ' :: rest) ps := by
  cases h with
  | line hflat h => exact .line (by simp [hflat]) (lexes_space h)
  | @newline first _ _ _ hflat h hapart h' =>
    exact @Lined.newline (' ' :: first) _ _ _ (by simp [hflat]) (lexes_space h) hapart h'

/-! ## Texts of one line -/

/-- The text is all in one line. -/
def Flat (text : String) : Prop :=
  '\n' ∉ text.toList

instance (text : String) : Decidable (Flat text) :=
  inferInstanceAs (Decidable ('\n' ∉ text.toList))

@[simp] theorem flat_append {a b : String} : Flat (a ++ b) ↔ Flat a ∧ Flat b := by
  simp [Flat]

/-- Texts of one line with commas between them are in one line. -/
private theorem flat_intercalate {texts : List String} (h : ∀ text ∈ texts, Flat text) :
    Flat (", ".intercalate texts) := by
  induction texts with
  | nil => simp [Flat]
  | cons text texts ih =>
    have ih := ih fun text ht => h text (List.mem_cons_of_mem _ ht)
    cases texts with
    | nil => simpa using h text (by simp)
    | cons next texts =>
      rw [String.intercalate_cons_cons, flat_append, flat_append]
      exact ⟨⟨h text (by simp), by decide⟩, ih⟩

/-- A name is in one line. -/
private theorem flat_name {name : String} (h : isName name = true) : Flat name := by
  obtain ⟨c, cs, ht, -, hrest, -⟩ := exists_of_isName h
  rw [Flat, ht]
  exact fun hmem => absurd (hrest _ hmem) (by decide)

/-- A number is in one line. -/
private theorem flat_number {literal : String} (h : isNumber literal = true) : Flat literal := by
  obtain ⟨whole, part, ht, hwhole, hpart⟩ := isNumber_iff.1 h
  have hdigits : ∀ {cs : List Char}, cs.all Char.isDigit = true → '\n' ∉ cs :=
    fun h hmem => absurd (List.all_eq_true.1 h _ hmem) (by decide)
  rw [Flat, ht, List.mem_append, not_or]
  constructor
  · cases whole with
    | nil => simp
    | cons c cs =>
      simp only [isWhole, Bool.and_eq_true] at hwhole
      exact hdigits (List.all_cons.trans (by simp [hwhole.1]))
  · cases part with
    | nil => simp
    | cons c cs =>
      simp only [isFraction, Bool.and_eq_true, decide_eq_true_eq] at hpart
      rw [hpart.1.1, List.mem_cons, not_or]
      exact ⟨by decide, hdigits hpart.2⟩

/-- A type is in one line. -/
private theorem flat_type {type : String} (h : IsType type) : Flat type := by
  obtain ⟨name, hname, rfl | rfl⟩ := h
  · exact flat_name hname
  · exact flat_append.2 ⟨flat_name hname, by decide⟩

/-- A field of an index is in one line. -/
private theorem flat_indexField {field : IndexField} (h : isName field.name = true) :
    Flat field.print := by
  obtain ⟨name, direction⟩ := field
  cases direction with
  | none => exact flat_name h
  | some direction =>
    have hword : Flat direction.word := by cases direction <;> decide
    simp only [IndexField.print, flat_append]
    exact ⟨⟨⟨⟨by decide, flat_name h⟩, by decide⟩, hword⟩, by decide⟩

/-- Whether a shape is written with a block. -/
def Shape.hasBlock {ν : Type} : Shape ν → Bool
  | ifStmt _ _ _ | elseIf _ _ | elseClause _ | function _ _ _ | collection _ _ => true
  | _ => false

/-- Expressions, entries and parameters have no block. -/
private theorem hasBlock_of_role {n : Node} {role : Role} (h : n.role = role)
    (hrole : role ∈ [Role.expression, .entry, .param]) : n.shape.hasBlock = false := by
  obtain ⟨shape, p, b, x, parenthesized, bracket, receiver⟩ := n
  subst h
  cases shape <;> first | rfl | simp [Shape.role] at hrole

/-- What a shape without a block is made of has none either. -/
private theorem hasBlock_of_mem_parts {shape : Shape Node} (hp : shape.PartsValid)
    (h : shape.hasBlock = false) : ∀ part ∈ shape.parts, part.shape.hasBlock = false := by
  -- Blocks belong to statements and declarations, and the parts below are neither
  have hoperator : ∀ {op : Node}, op.operator?.isSome = true → op.shape.hasBlock = false := by
    intro op hop
    obtain ⟨o, hop⟩ := Option.isSome_iff_exists.1 hop
    obtain ⟨p, b, x, rfl⟩ := Node.eq_of_operator? hop
    rfl
  cases shape with
  | array items | call items | object items =>
    exact fun part hpart => hasBlock_of_role (hp part hpart) (by decide)
  | entry key value =>
    have hkey : key.shape.hasBlock = false := by
      obtain ⟨p, b, x, ⟨name, rfl⟩ | ⟨text, rfl⟩⟩ := Node.eq_of_isKey hp.1 <;> rfl
    simpa [Shape.parts] using ⟨hkey, hasBlock_of_role hp.2 (by decide)⟩
  | binary kind left op right =>
    simpa [Shape.parts] using ⟨hasBlock_of_role hp.1 (by decide), hoperator hp.2.1,
      hasBlock_of_role hp.2.2 (by decide)⟩
  | assign left op right =>
    obtain ⟨hleft, -, ⟨o, hop, -⟩, hright⟩ := hp
    simpa [Shape.parts] using ⟨hasBlock_of_role hleft (by decide), hoperator (by rw [hop]; rfl),
      hasBlock_of_role hright (by decide)⟩
  | unary kind value | computed value | constDecl name value =>
    simpa [Shape.parts] using hasBlock_of_role hp (by decide)
  | returnStmt value | letDecl name value =>
    intro part hpart
    exact hasBlock_of_role (hp part (Option.mem_toList.1 hpart)) (by decide)
  | ifStmt | elseIf | elseClause | function | collection => cases h
  | _ => simp [Shape.parts]

/-- A shape without a block is printed in one line. -/
private theorem flat_printShape {shape : Shape Node} {x : String} {object : Option String}
    (hw : shape.WordsValid) (h : shape.hasBlock = false)
    (hspelled : ∀ op, shape = .operator op → x = "" ∨ x ∈ op.kind.spellings)
    (hobject : ∀ text, object = some text → Flat text)
    (ih : ∀ part ∈ shape.parts, Flat part.print) : Flat (Node.printShape shape x object) := by
  have hobject' : Flat (object.getD "") := by
    cases object with
    | none => decide
    | some text => exact hobject text rfl
  have hlist : ∀ {nodes : List Node}, (∀ n ∈ nodes, Flat n.print) →
      Flat (", ".intercalate (nodes.map Node.print)) :=
    fun hnodes => flat_intercalate (by simpa using hnodes)
  -- One case for each shape that is printed in one line
  cases shape with
  | name name =>
    cases object with
    | none => exact flat_name hw
    | some text => simpa [Node.printShape, hobject text rfl, flat_name hw] using by decide
  | call args => simp +decide [Node.printShape, hobject', @hlist args ih]
  | number literal => exact flat_number hw
  | string value => exact newline_not_mem_stringLiteral value
  | boolean value => cases value <;> simp +decide [Node.printShape]
  | array items => simp +decide [Node.printShape, @hlist items ih]
  | object entries =>
    simp only [Node.printShape, Node.printList_eq_map]
    split
    · decide
    · simp +decide [@hlist entries ih]
  | operator op =>
    simp only [Node.printShape]
    split
    · cases op <;> decide
    · next hx =>
      have hspellings : ∀ text ∈ op.kind.spellings, Flat text := by cases op <;> decide
      refine hspellings x ((hspelled op rfl).resolve_left ?_)
      rintro rfl
      exact hx rfl
  | index fields =>
    have hfields : Flat (", ".intercalate (fields.map IndexField.print)) :=
      flat_intercalate (by simpa using fun field hf => flat_indexField (hw field hf))
    simp +decide [Node.printShape, hfields]
  | param name type optional =>
    have htype : ∀ t, type = some t → Flat t := fun t ht => flat_type (hw.2 t ht)
    cases type <;> cases optional <;> simp +decide [Node.printShape, flat_name hw.1, htype]
  | field name type required =>
    cases required <;> simp +decide [Node.printShape, flat_name hw.1, flat_type hw.2]
  | entry key value =>
    simp only [Shape.parts, List.mem_cons, List.not_mem_nil, or_false, forall_eq_or_imp,
      forall_eq] at ih
    simp only [Node.printShape]
    split
    · exact ih.1
    · simp +decide [ih]
  | binary kind left op right | assign left op right =>
    simp only [Shape.parts, List.mem_cons, List.not_mem_nil, or_false, forall_eq_or_imp,
      forall_eq] at ih
    simp +decide [Node.printShape, ih]
  | unary kind value =>
    have hkind : Flat kind.symbol := by cases kind <;> decide
    simpa [Node.printShape, hkind] using ih value (by simp [Shape.parts])
  | computed key => exact ih key (by simp [Shape.parts])
  | constDecl name value =>
    have hname : Flat name := flat_name hw
    simp +decide [Node.printShape, hname, ih value (by simp [Shape.parts])]
  | returnStmt value =>
    cases value with
    | none => simp +decide [Node.printShape]
    | some value => simp +decide [Node.printShape, ih value (by simp [Shape.parts])]
  | letDecl name value =>
    have hname : Flat name := flat_name hw
    cases value with
    | none => simp +decide [Node.printShape, hname]
    | some value => simp +decide [Node.printShape, hname, ih value (by simp [Shape.parts])]
  | ifStmt | elseIf | elseClause | function | collection => cases h

/-- A node without a block is printed in one line. -/
theorem Node.flat_print {n : Node} (h : n.AllPrintable) (hblock : n.shape.hasBlock = false) :
    Flat n.print := by
  induction n using Node.induction with
  | step n ih =>
    obtain ⟨hn, hparts⟩ := allPrintable_iff.1 h
    obtain ⟨shape, p, b, x, parenthesized, bracket, receiver⟩ := n
    have hreceiver : ∀ text, receiver.map Node.print = some text → Flat text := by
      intro text ht
      obtain ⟨object, rfl, rfl⟩ := Option.map_eq_some_iff.1 ht
      exact ih object (by simp) (hparts object (by simp))
        (hasBlock_of_role (hn.receiver object rfl) (by decide))
    have hshape : ∀ object : Option String, (∀ text, object = some text → Flat text) →
        Flat (printShape shape x object) := fun object hobject =>
      flat_printShape hn.words hblock hn.spelled hobject fun part hpart =>
        ih part (List.mem_append_right _ hpart) (hparts part (List.mem_append_right _ hpart))
          (hasBlock_of_mem_parts hn.parts hblock part hpart)
    have hnone := hshape none (by simp)
    have hobject : Flat ((receiver.map Node.print).getD "") := by
      cases receiver with
      | none => decide
      | some object => exact hreceiver _ rfl
    have hmarked := hshape _ hreceiver
    -- Marks put a character before and after what is flat already
    cases parenthesized <;> cases bracket <;> simp +decide [Node.print, *]

/-! ## Statements -/

/-- The text of the node is a text of lines, whatever lines follow. -/
def Node.Lined (node : Node) : Prop :=
  ∀ rest ps, isBoundary rest = true → Schemata.Lined rest ps →
    Schemata.Lined (node.print.toList ++ rest) (node.pieces ++ ps)

/-- The node can stand as lines of its own in the place. -/
structure Node.LinedIn (place : Place) (node : Node) : Prop where
  printable : node.AllPrintable
  admitted : place.admits node = true
  lined : node.Lined

/-- Nothing that stands in a place of statements is an operator. -/
private theorem role_of_admits {n : Node} {place : Place} (h : place.admits n = true) :
    n.role ≠ .operator := by
  intro hrole
  cases place <;> simp [Place.admits, Node.isItem, Node.isStatement, Node.isTop, hrole] at h

/-- A statement begins with a piece that no expression goes on with, where the printer sees that it
    needs no semicolon before it. -/
private theorem Node.LinedIn.apart {n : Node} {place : Place} (h : n.LinedIn place)
    (hc : Piece.continues n.pieces = false) (before ps : List Piece) :
    Apart before (n.pieces ++ ps) := by
  have hwritten := Node.canonical (fun m hm => (h.printable m hm).toWellFormed) _ place h.admitted
    le_rfl
  obtain ⟨t, us, hts, hstart⟩ := hwritten.starts
  obtain ⟨piece, pieces, hpieces, rfl, -⟩ := List.map_eq_cons_iff.1 hts
  rw [hpieces] at hc ⊢
  refine .inr fun first hfirst => ?_
  obtain rfl := Option.some.inj hfirst
  exact continues_of_starts hstart hc

section Blocks

variable {nodes : List Node} {place : Place} {rest : List Char} {ps : List Piece}

/-- Printed statements are lines of a text, one or more for each. -/
private theorem lined_lines (hn : ∀ n ∈ nodes, n.LinedIn place) (hb : isBoundary rest = true)
    (hrest : Lined rest ps) :
    Lined ((Line.join (Node.printLines nodes)).toList ++ rest)
      (ofLines (nodes.map Node.withPieces) ++ ps) := by
  rw [Node.printLines_eq_map]
  -- Induction on the statements, with a line break before the next one
  induction nodes with
  | nil => exact hrest
  | cons n nodes ih =>
    cases nodes with
    | nil => exact (hn n (by simp)).lined rest ps hb hrest
    | cons m nodes =>
      have ih := ih fun k hk => hn k (List.mem_cons_of_mem _ hk)
      have hnext := hn m (by simp)
      have hm := Line.continues_eq
        (Node.printed hnext.printable (role_of_admits hnext.admitted)).opens m.isBareReturn
      obtain ⟨qs, hqs⟩ : ∃ qs, ofLines ((m :: nodes).map Node.withPieces) = m.pieces ++ qs := by
        cases nodes with
        | nil => exact ⟨[], (List.append_nil _).symm⟩
        | cons k nodes => exact ⟨_, rfl⟩
      simp only [List.map_cons, Line.join, ofLines, String.toList_append,
        List.append_assoc] at ih hqs ⊢
      rw [Line.separator, hm, Node.ofBreak_withPieces]
      -- Where the printer leaves the semicolon out, the next line begins something new
      cases hsep : n.isBareReturn || Piece.continues m.pieces with
      | true =>
        have hsemicolon := lexes_delimiter (by decide : (';', TokenKind.semicolon) ∈ _) .nil
        exact (hn n (by simp)).lined _ _ rfl
          (.newline (by decide) hsemicolon (.inl ⟨_, rfl, rfl⟩) ih)
      | false =>
        refine (hn n (by simp)).lined _ _ rfl (@Lined.newline [] _ [] _ (by simp) .nil ?_ ih)
        rw [hqs, List.append_assoc]
        exact hnext.apart (Bool.or_eq_false_iff.1 hsep).2 _ _

/-- The lines of a block stand between one that ends with a brace and one that begins with one. -/
private theorem lined_block (hn : ∀ n ∈ nodes, n.LinedIn place) (hb : isBoundary rest = true)
    (hrest : Lined rest ps) :
    Lined ((Line.block (Node.printLines nodes)).toList ++ rest)
      (ofBlock (nodes.map Node.withPieces) ++ ps) := by
  have hclose : Lined ('\x7d' :: rest) (usual .rightBrace :: ps) :=
    @Lined.prepend ['\x7d'] _ [usual .rightBrace] _ (by decide)
      (fun _ _ _ => lexes_delimiter (by decide)) hb hrest
  have hlast : Lined ('\n' :: '\x7d' :: rest) (usual .rightBrace :: ps) := by
    refine @Lined.newline [] _ [] _ (by simp) .nil (.inr fun first hfirst => ?_) hclose
    obtain rfl := Option.some.inj hfirst
    decide
  have hopen := lexes_delimiter (by decide : ('\x7b', TokenKind.leftBrace) ∈ _) .nil
  have hwhole := Lined.newline (by decide) hopen (.inl ⟨_, rfl, rfl⟩) (lined_lines hn rfl hlast)
  simpa [Line.block, ofBlock, enclosed] using hwhole

/-- A block after a header that fits in one line. -/
private theorem lined_headed {header : String} {head : List Piece} (hflat : Flat header)
    (hs : Spells header.toList head) (hn : ∀ n ∈ nodes, n.LinedIn place)
    (hb : isBoundary rest = true) (hrest : Lined rest ps) :
    Lined (header.toList ++ ((Line.block (Node.printLines nodes)).toList ++ rest))
      (head ++ (ofBlock (nodes.map Node.withPieces) ++ ps)) := by
  refine .prepend hflat hs ?_ (lined_block hn hb hrest)
  simp only [Line.block, String.toList_append, List.append_assoc]
  rfl

/-- Clauses go on in the line of the brace before them. -/
private theorem lined_clauses (hn : ∀ n ∈ nodes, n.Lined) (hb : isBoundary rest = true)
    (hrest : Lined rest ps) :
    isBoundary ((String.join (nodes.map ((" " ++ ·) ∘ Node.print))).toList ++ rest) = true ∧
      Lined ((String.join (nodes.map ((" " ++ ·) ∘ Node.print))).toList ++ rest)
        ((nodes.map Node.withPieces).flatMap (·.2) ++ ps) := by
  induction nodes with
  | nil => exact ⟨hb, hrest⟩
  | cons n nodes ih =>
    simp only [List.mem_cons, forall_eq_or_imp] at hn
    obtain ⟨hboundary, hlined⟩ := ih hn.2
    simp only [List.map_cons, String.join_cons, Function.comp_apply, String.toList_append,
      List.append_assoc, List.flatMap_cons]
    exact ⟨rfl, (hn.1 _ _ hboundary hlined).space⟩

end Blocks

/-- A word and a condition, before the block that it is for. -/
private theorem spells_condition {condition : Node} (h : condition.AllPrintable)
    (hrole : condition.role = .expression) :
    Flat ("if " ++ condition.print ++ " ") ∧
      Spells ("if " ++ condition.print ++ " ").toList
        (usual (.keyword .ifWord) :: condition.pieces) := by
  have hflat := Node.flat_print h (hasBlock_of_role hrole (by decide))
  have hs := (Node.printed h (by simp [hrole])).spells
  refine ⟨by simp +decide [hflat], fun rest ps _ hl => ?_⟩
  simp only [String.toList_append, List.append_assoc]
  exact lexes_keyword .ifWord rfl (lexes_space (hs _ _ rfl (lexes_space hl)))

/-- A shape with a block is a text of lines. -/
private theorem lined_shape {shape : Shape Node} {x : String} (hblock : shape.hasBlock = true)
    (hw : shape.WordsValid) (hp : shape.PartsValid)
    (h : ∀ part ∈ shape.parts, part.AllPrintable)
    (ih : ∀ part ∈ shape.parts, part.role ≠ .operator → part.Lined) {rest : List Char}
    {ps : List Piece} (hb : isBoundary rest = true) (hrest : Lined rest ps) :
    Lined ((Node.printShape shape x none).toList ++ rest)
      (Node.shapePieces x none (shape.map Node.withPieces) ++ ps) := by
  have hlines : ∀ {nodes : List Node} (place : Place), (∀ n ∈ nodes, n ∈ shape.parts) →
      (∀ n ∈ nodes, place.admits n = true) → ∀ n ∈ nodes, n.LinedIn place :=
    fun place hmem hplace n hn => ⟨h n (hmem n hn), hplace n hn,
      ih n (hmem n hn) (role_of_admits (hplace n hn))⟩
  -- Each case is a header on one line and then a block, so `lined_headed` does the rest
  cases shape with
  | ifStmt condition body clauses =>
    obtain ⟨hrole, hbody, hclauses, -⟩ := hp
    obtain ⟨hflat, hs⟩ := spells_condition (h condition (by simp [Shape.parts])) hrole
    obtain ⟨hboundary, hlast⟩ := @lined_clauses clauses _ _ (fun n hn =>
      ih n (by simp [Shape.parts, hn]) (by simp [hclauses n hn])) hb hrest
    have hwhole := lined_headed hflat hs
      (@hlines body .statement (by simp +contextual [Shape.parts]) hbody) hboundary hlast
    simpa [Node.printShape, Shape.map, Node.shapePieces] using hwhole
  | elseIf condition body =>
    obtain ⟨hrole, hbody⟩ := hp
    obtain ⟨hflat, hs⟩ := spells_condition (h condition (by simp [Shape.parts])) hrole
    have hheader : Spells ("else " ++ ("if " ++ condition.print ++ " ")).toList
        (usual (.keyword .elseWord) :: usual (.keyword .ifWord) :: condition.pieces) := by
      intro rest ps hb hl
      rw [String.toList_append, List.append_assoc]
      exact lexes_keyword .elseWord rfl (lexes_space (hs _ _ hb hl))
    have hwhole := lined_headed (flat_append.2 ⟨by decide, hflat⟩) hheader
      (@hlines body .statement (by simp +contextual [Shape.parts]) hbody) hb hrest
    simpa [Node.printShape, Shape.map, Node.shapePieces] using hwhole
  | elseClause body =>
    have hheader : Spells "else ".toList [usual (.keyword .elseWord)] :=
      fun rest ps _ hl => lexes_keyword .elseWord rfl (lexes_space hl)
    have hwhole := lined_headed (by decide) hheader
      (@hlines body .statement (fun n hn => hn) hp) hb hrest
    simpa [Node.printShape, Shape.map, Node.shapePieces] using hwhole
  | function name params body =>
    obtain ⟨hparams, hbody⟩ := hp
    have hmem : ∀ n ∈ params, n.AllPrintable := fun n hn => h n (by simp [Shape.parts, hn])
    have hflat : Flat (", ".intercalate (params.map Node.print)) := by
      refine flat_intercalate fun text ht => ?_
      obtain ⟨n, hn, rfl⟩ := List.mem_map.1 ht
      exact Node.flat_print (hmem n hn) (hasBlock_of_role (hparams n hn) (by decide))
    have hs : ∀ n ∈ params, Spells n.print.toList n.pieces := fun n hn =>
      (Node.printed (hmem n hn) (by simp [hparams n hn])).spells
    have hname : Flat name := flat_name hw
    -- The header goes as far as the space before the block
    have hheader : Spells
        ("function " ++ name ++ " (" ++ ", ".intercalate (params.map Node.print) ++ ") ").toList
        (usual (.keyword .function) :: word name ::
          enclosed .leftParen .rightParen (commas (params.map Node.pieces))) := by
      intro rest ps _ hl
      simp only [String.toList_append, List.append_assoc]
      refine lexes_keyword .function rfl (lexes_space (lexes_name hw rfl (lexes_space ?_)))
      exact lexes_enclosed Node.print Node.pieces (by decide) (by decide) rfl hs (lexes_space hl)
    have hwhole := lined_headed (by simp +decide [hname, hflat]) hheader
      (@hlines body .statement (by simp +contextual [Shape.parts]) hbody) hb hrest
    simpa [Node.printShape, Shape.map, Node.shapePieces, Function.comp_def] using hwhole
  | collection name items =>
    have hname : Flat name := flat_name hw
    have hheader : Spells ("collection " ++ name ++ " ").toList
        [usual (.keyword .collection), word name] := by
      intro rest ps _ hl
      simp only [String.toList_append, List.append_assoc]
      exact lexes_keyword .collection rfl (lexes_space (lexes_name hw rfl (lexes_space hl)))
    have hwhole := lined_headed (by simp +decide [hname]) hheader
      (@hlines items .item (fun n hn => hn) hp) hb hrest
    simpa [Node.printShape, Shape.map, Node.shapePieces] using hwhole
  | _ => cases hblock

/-- The canonical text of a printable node is a text of lines. -/
theorem Node.lined {n : Node} (h : n.AllPrintable) (hrole : n.role ≠ .operator) : n.Lined := by
  induction n using Node.induction with
  | step n ih =>
    obtain ⟨hn, hparts⟩ := allPrintable_iff.1 h
    intro rest ps hb hrest
    cases hblock : n.shape.hasBlock with
    | false => exact .prepend (flat_print h hblock) (printed h hrole).spells hb hrest
    | true =>
      -- A node with a block is no expression, so it has neither marks nor receiver
      have hother : n.role ≠ .expression := by
        intro hrole
        rw [hasBlock_of_role hrole (by decide)] at hblock
        cases hblock
      have hmem : ∀ part ∈ n.shape.parts, part ∈ n.parts :=
        fun part hpart => List.mem_append_right _ hpart
      have hshape := @lined_shape n.shape n.text hblock hn.words hn.parts
        (fun part hpart => hparts part (hmem part hpart))
        (fun part hpart => ih part (hmem part hpart) (hparts part (hmem part hpart)))
        rest ps hb hrest
      rw [hn.eq_unmarked hother, pieces_mk_unmarked, print]
      exact hshape

/-- The canonical text of printable statements is a text of lines. -/
theorem lined_printAll {nodes : List Node} (htop : ∀ n ∈ nodes, n.isTop = true)
    (h : ∀ n ∈ nodes, n.AllPrintable) :
    Lined (Node.printAll nodes).toList (Node.programPieces nodes) := by
  have hlined : ∀ n ∈ nodes, n.LinedIn .top := fun n hn =>
    ⟨h n hn, htop n hn, Node.lined (h n hn) (@role_of_admits n .top (htop n hn))⟩
  simpa [Node.printAll, Node.programPieces] using
    lined_lines hlined rfl (.line List.not_mem_nil .nil)

/-! ## Programs -/

/-- The canonical text of a program is read as a program without ambiguities. -/
theorem parseProgram_printAll {source : String} {nodes : List Node} (h : parse source = .ok nodes) :
    ∃ program, parseProgram .standard (Node.printAll nodes) = .ok program ∧
      program.ambiguities = [] := by
  obtain ⟨hne, hnodes, hr⟩ := parse_form h
  have htop : ∀ n ∈ nodes, n.isTop = true := fun n hn => (hnodes n hn).1
  have hprintable : ∀ n ∈ nodes, n.AllPrintable := fun n hn => (hnodes n hn).2
  obtain ⟨nodes', hparse, -⟩ := parse_printAll hne htop hprintable hr
  obtain ⟨lexemes, stop, c, hsource, hp⟩ := parse_eq_ok.1 hparse
  obtain ⟨marks, hlays, -, hsteady⟩ := (lined_printAll htop hprintable).exists_steady false
  obtain ⟨lexemes', stop', hsource', rfl⟩ := Lexeme.ofSource_of_lays hlays
  obtain ⟨rfl, rfl⟩ := Prod.mk.inj (Except.ok.inj (hsource.symm.trans hsource'))
  have hcalm := (Parse.calm_program _ _ _ hp hsteady).1
  refine ⟨⟨nodes', c.ambiguities⟩, ?_, hcalm⟩
  refine Parser.read_eq_ok.2 ⟨lexemes, stop, c, hsource, ?_⟩
  exact Parse.bind_eq_ok.2 ⟨nodes', c, hp, rfl⟩

/-- A program with empty and nested blocks, some of whose statements need a semicolon. -/
private def blocksSource : String :=
  "function f() \x7b return; [a] \x7d if x \x7b \x7d else \x7b b; -c \x7d; (d)"

/-- Its canonical text has a block in each of the three places for one. -/
theorem parseProgram_printAll_blocks :
    ∃ nodes program, parse blocksSource = .ok nodes ∧
      parseProgram .standard (Node.printAll nodes) = .ok program ∧ program.ambiguities = [] := by
  obtain ⟨nodes, h⟩ := exists_of_isOk (show (parse blocksSource).isOk = true by decide +kernel)
  obtain ⟨program, hprogram, hempty⟩ := parseProgram_printAll h
  exact ⟨nodes, program, h, hprogram, hempty⟩

end Schemata
