import Schemata.Proofs.Derivation

/-!
# Keys in brackets

`object[key]` is no node with two parts: it is the key itself, which takes a mark and the object for
its receiver, or a wrapping of the key if the key has marks of its own.  Both sides can still be
told from the result, for no expression that is read looks like a wrapping before it is in brackets
(`Written.standsAlone`):

- `bracketed_inj` and `same_bracketed_iff`: the access is the same just if key and object are
- `print_bracketed`: the access prints as the object and, in brackets, the key

Main statement: `bracketed_faithful`.
-/

namespace Schemata

/-! ## Expressions that are read -/

/-- The expression parser returns the node: under some precedence table, from some place of a source
    on, and at some level. -/
def Node.IsRead (node : Node) : Prop :=
  ∃ setting room level c c', Parse.nestedLevel setting room level c = .ok node c'

/-- Without marks nothing is written as a call or as a wrapped key. -/
theorem Written.standsAlone {grammar : Grammar} {note : SourceNote} {r : Nat} {place : Place}
    {ts : List Token} {n : Node} (h : Written grammar note r place ts n)
    (hn : n.isUnmarked = true) : n.shape.standsAlone = true := by
  induction h with
  -- Rules that only change the place leave the node as it is
  | nested _ ih | functionItem _ ih | functionTop _ ih | expression _ ih | statement _ ih =>
    exact ih hn
  -- Parentheses, brackets and receivers are marks
  | group | member | key | call => simp [Node.isUnmarked] at hn
  | _ => rfl

namespace Node

/-- What the expression parser returns is written as a nested expression. -/
theorem IsRead.written {node : Node} (h : node.IsRead) :
    ∃ grammar note room ts, Written grammar note room .nested ts node := by
  obtain ⟨setting, room, level, c, c', hread⟩ := h
  obtain ⟨ts, -, hparsed, -⟩ := Parse.nestedLevel_reads room level c node c' hread
  exact ⟨_, _, _, ts, hparsed.written⟩

/-- What the expression parser returns is an expression. -/
theorem IsRead.role {node : Node} (h : node.IsRead) : node.role = .expression := by
  obtain ⟨grammar, note, room, ts, hw⟩ := h.written
  exact beq_iff_eq.1 hw.admits

/-- What the expression parser returns without marks is neither a call nor a wrapped key. -/
theorem IsRead.standsAlone {node : Node} (h : node.IsRead) (hn : node.isUnmarked = true) :
    node.shape.standsAlone = true := by
  obtain ⟨grammar, note, room, ts, hw⟩ := h.written
  exact hw.standsAlone hn

/-- What is parsed as an expression was returned by the expression parser. -/
theorem isRead_of_parseExpression {grammar : Grammar} {source : String} {node : Node}
    (h : parseExpression grammar source = .ok node) : node.IsRead := by
  obtain ⟨lexemes, stop, c, -, hwhole⟩ := parseExpression_eq_ok.1 h
  exact ⟨_, _, 0, _, c, (Parse.wholeExpression_eq_ok.1 hwhole).1⟩

/-! ## Telling key and object -/

section

variable {key key' object object' : Node}

/-- Whether a key was wrapped can be told from the shape of the access. -/
theorem standsAlone_bracketed (h : key.isUnmarked = true → key.shape.standsAlone = true)
    (object : Node) : (key.bracketed object).shape.standsAlone = key.isUnmarked := by
  obtain ⟨hmarks, he⟩ | ⟨shape, p, b, x, rfl, he⟩ := bracketed_cases key object
  · rw [he, hmarks]
    rfl
  · rw [he]
    exact h rfl

/-- Key and object can be told from the access, unless one of the keys looks wrapped already. -/
theorem bracketed_inj (h : key.isUnmarked = true → key.shape.standsAlone = true)
    (h' : key'.isUnmarked = true → key'.shape.standsAlone = true) :
    key.bracketed object = key'.bracketed object' ↔ key = key' ∧ object = object' := by
  constructor
  · intro heq
    have hmarks : key.isUnmarked = key'.isUnmarked := by
      rw [← standsAlone_bracketed h object, heq, standsAlone_bracketed h' object']
    -- Each key was wrapped or gave its shape to the access
    obtain ⟨hkey, he⟩ | ⟨shape, p, b, x, rfl, he⟩ := bracketed_cases key object <;>
      obtain ⟨hkey', he'⟩ | ⟨shape', p', b', x', rfl, he'⟩ := bracketed_cases key' object'
    · rw [he, he'] at heq
      obtain ⟨hshape, -, -, -, -, -, hobject⟩ := mk.inj heq
      exact ⟨Shape.computed.inj hshape, Option.some.inj hobject⟩
    -- One key cannot be wrapped and the other not
    · rw [hkey] at hmarks
      cases hmarks
    · rw [hkey'] at hmarks
      cases hmarks
    · rw [he, he'] at heq
      obtain ⟨rfl, rfl, rfl, rfl, -, -, hobject⟩ := mk.inj heq
      exact ⟨rfl, Option.some.inj hobject⟩
  · rintro ⟨rfl, rfl⟩
    rfl

/-- A wrapping that is not in brackets yet would be taken for what it wraps. -/
example : let key := (ofShape (.name "c") .start).chainedFrom (ofShape (.name "b") .start)
    (ofShape (.computed key) .start).bracketed key = key.bracketed key := rfl

/-- The accesses are the same just if the keys are and the objects are. -/
theorem same_bracketed_iff (h : key.isUnmarked = true → key.shape.standsAlone = true)
    (h' : key'.isUnmarked = true → key'.shape.standsAlone = true) :
    (key.bracketed object).same (key'.bracketed object') = true ↔
      key.same key' = true ∧ object.same object' = true := by
  rw [same_iff_erase, same_iff_erase, same_iff_erase, erase_bracketed, erase_bracketed]
  apply bracketed_inj
  · rwa [isUnmarked_erase, standsAlone_erase]
  · rwa [isUnmarked_erase, standsAlone_erase]

end

/-! ## Printing the access -/

/-- The receiver of a key in brackets is printed before the brackets only, whatever the key is. -/
theorem print_bracketed (key object : Node) :
    (key.bracketed object).print = object.print ++ "[" ++ key.print ++ "]" := by
  obtain ⟨-, he⟩ | ⟨shape, p, b, x, rfl, he⟩ := bracketed_cases key object
  · simp [he, print, printShape]
  · simp [he, print]

/-- Only an operator prints the text that it was read from. -/
theorem printShape_congr_text {shape : Shape Node} (h : shape.role ≠ .operator) (x x' : String)
    (object : Option String) : printShape shape x object = printShape shape x' object := by
  cases shape with
  | operator op => exact absurd rfl h
  | _ => simp only [printShape]

/-- The span of a node is not printed, unless it is an operator. -/
theorem print_spanned {node : Node} (h : node.role ≠ .operator) (setting : Setting)
    (start : Position) (stop : Nat) : (setting.spanned start stop node).print = node.print := by
  obtain ⟨shape, p, b, x, parenthesized, bracket, receiver⟩ := node
  simp only [Setting.spanned, print, printShape_congr_text h _ x]

/-- Erasing a node erases its span. -/
theorem erase_spanned (setting : Setting) (start : Position) (stop : Nat) (node : Node) :
    (setting.spanned start stop node).erase = node.erase := by
  rw [erase_eq node, Setting.spanned, erase_mk]

end Node

/-! ## The access that is read -/

open Parse in
/-- From any two objects, and keys that the expression parser returns, accesses are built, wherever
    they stand.  The accesses are the same just if the keys are the same and so are the objects;
    and an access prints as the object and, in brackets, the key. -/
theorem bracketed_faithful {key₁ key₂ : Node} (h₁ : key₁.IsRead) (h₂ : key₂.IsRead)
    (object₁ object₂ : Node) (s₁ s₂ : Setting) (start₁ start₂ : Position) (c₁ c₂ : Cursor) :
    ∃ node₁ node₂, span s₁ start₁ (key₁.bracketed object₁) c₁ = .ok node₁ c₁ ∧
      span s₂ start₂ (key₂.bracketed object₂) c₂ = .ok node₂ c₂ ∧
      (node₁.same node₂ = true ↔ key₁.same key₂ = true ∧ object₁.same object₂ = true) ∧
      node₁.print = object₁.print ++ "[" ++ key₁.print ++ "]" ∧
      node₂.print = object₂.print ++ "[" ++ key₂.print ++ "]" := by
  -- What the access says about its source is neither compared nor printed
  have hprint : ∀ {key : Node}, key.IsRead → ∀ object s start stop,
      (Setting.spanned s start stop (key.bracketed object)).print =
        object.print ++ "[" ++ key.print ++ "]" := by
    intro key h object s start stop
    rw [Node.print_spanned (by simp [Node.role_bracketed h.role]), Node.print_bracketed]
  refine ⟨_, _, span_eq_ok.2 ⟨rfl, rfl⟩, span_eq_ok.2 ⟨rfl, rfl⟩, ?_, hprint h₁ .., hprint h₂ ..⟩
  rw [Node.same_iff_erase, Node.erase_spanned, Node.erase_spanned, ← Node.same_iff_erase]
  exact Node.same_bracketed_iff h₁.standsAlone h₂.standsAlone

/-- A key that is wrapped, and one that is not and has an operator of another spelling. -/
theorem bracketed_faithful_wrapped :
    ∃ parser₁ parser₂ key₁ key₂ object node₁ node₂,
      parser₁ = (Parser.ofSource .standard "f(a)[b.c]").readExpression.2 ∧
      parser₂ = (Parser.ofSource .standard "f(a)[b or c]").readExpression.2 ∧
      parseExpression .standard "b.c" = .ok key₁ ∧ key₁.IsRead ∧
      parseExpression .standard "b or c" = .ok key₂ ∧ key₂.IsRead ∧
      parseExpression .standard "f(a)" = .ok object ∧
      Parse.span parser₁.setting .start (key₁.bracketed object) parser₁.cursor =
        .ok node₁ parser₁.cursor ∧
      Parse.span parser₂.setting .start (key₂.bracketed object) parser₂.cursor =
        .ok node₂ parser₂.cursor ∧
      (node₁.same node₂ = true ↔ key₁.same key₂ = true ∧ object.same object = true) ∧
      node₁.print = object.print ++ "[" ++ key₁.print ++ "]" ∧
      node₂.print = object.print ++ "[" ++ key₂.print ++ "]" := by
  obtain ⟨key₁, hkey₁⟩ := exists_of_isOk
    (show (parseExpression .standard "b.c").isOk = true by decide +kernel)
  obtain ⟨key₂, hkey₂⟩ := exists_of_isOk
    (show (parseExpression .standard "b or c").isOk = true by decide +kernel)
  obtain ⟨object, hobject⟩ := exists_of_isOk
    (show (parseExpression .standard "f(a)").isOk = true by decide +kernel)
  have h₁ := Node.isRead_of_parseExpression hkey₁
  have h₂ := Node.isRead_of_parseExpression hkey₂
  obtain ⟨node₁, node₂, haccess⟩ := bracketed_faithful h₁ h₂ object object _ _ .start .start _ _
  exact ⟨_, _, key₁, key₂, object, node₁, node₂, rfl, rfl, hkey₁, h₁, hkey₂, h₂, hobject, haccess⟩

end Schemata
