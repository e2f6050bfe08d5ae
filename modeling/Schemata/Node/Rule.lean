import Schemata.Node.Slot

/-!
# Changing trees by rules

`Node.transformM` walks with any function.  A `Rule` is such a function written down as data, for
those who can only pass data: it changes the nodes that fit its pattern, at most so many times.
`Rule.transform` is the walk with a list of rules; at each node the first rule that fits and is not
used up applies.  The walk also keeps a trace of the nodes it came to.

No other module of the library makes use of rules.
-/

namespace Schemata

/-- Conditions on a node; those that are absent hold of every node. -/
structure Pattern where
  /-- The shape has one of these names. -/
  labels : Option (List String)
  /-- The node is this name. -/
  name : Option String
  parenthesized : Option Bool
  bracket : Option Bool
  /-- Whether the node has a receiver. -/
  chained : Option Bool
  assignable : Option Bool

/-- Whether a node meets all conditions. -/
def Pattern.fits (pattern : Pattern) (node : Node) : Bool :=
  pattern.labels.all (·.contains node.label) &&
    pattern.name.all (node.name? == some ·) &&
    pattern.parenthesized.all (· == node.parenthesized) &&
    pattern.bracket.all (· == node.bracket) &&
    pattern.chained.all (· == node.receiver.isSome) &&
    pattern.assignable.all (· == node.isAssignable)

/-- A change to a node. -/
inductive Change where
  /-- The node becomes a name, and keeps all but its shape. -/
  | rename (name : String)
  | replace (node : Node)
  | parenthesize (set : Bool)
  | bracket (set : Bool)
  /-- The node gets the receiver, or loses the one it has. -/
  | chain (receiver : Option Node)
  | clearText

namespace Change

/-- The changed node. -/
def apply (change : Change) (node : Node) : Node :=
  match change with
  | rename name => { node with shape := .name name }
  | replace other => other
  | parenthesize set => { node with parenthesized := set }
  | bracket set => { node with bracket := set }
  | chain receiver => { node with receiver }
  | clearText => { node with text := "" }

/-- How much higher than before a node can be after the change. -/
def growth : Change → Nat
  | replace node => node.height
  | chain (some receiver) => receiver.height + 1
  | _ => 0

end Change

/-- A change to the nodes that fit a pattern. -/
structure Rule where
  pattern : Pattern
  change : Change
  /-- How often the rule may still apply; without it there is no bound. -/
  limit : Option Nat

namespace Rule

/-- Whether the rule applies to a node. -/
def applies (rule : Rule) (node : Node) : Bool :=
  rule.pattern.fits node && rule.limit != some 0

/-- The rule after one application. -/
def spend (rule : Rule) : Rule :=
  { rule with limit := rule.limit.map (· - 1) }

/-- Applies the first rule that applies, if any, and spends it. -/
def applyFirst (node : Node) : List Rule → Node × List Rule
  | [] => (node, [])
  | rule :: rules =>
    if rule.applies node then (rule.change.apply node, rule.spend :: rules)
    else
      let (changed, spent) := applyFirst node rules
      (changed, rule :: spent)

/-- How a node is named in the trace of a walk. -/
def traceLabel (node : Node) : String :=
  match node.name? with
  | some name => "name:" ++ name
  | none => node.label

/-- What a walk keeps: the rules as far as they are spent, and the trace. -/
structure Walk where
  rules : List Rule
  trace : List String

/-- Comes to a node: adds it to the trace and applies a rule to it. -/
def visit (node : Node) : StateM Walk Node :=
  modifyGet fun walk =>
    let (changed, rules) := applyFirst node walk.rules
    (changed, { rules, trace := walk.trace ++ [traceLabel node] })

/-- A bound on the levels that a walk goes down.  Along one way down, a rule without a limit does
    not apply twice unless a limited one has applied in between, or it would do so for ever. -/
def depthBound (rules : List Rule) (nodes : List Node) : Nat :=
  let applications := rules.foldr (fun rule total => rule.limit.getD 0 + total) 1
  let growth := rules.foldr (fun rule total => rule.change.growth + 1 + total) 0
  Node.listHeight nodes + applications * growth + 1

/-- Changes nodes by rules.  Gives the new nodes and the trace of the walk. -/
def transform (rules : List Rule) (nodes : List Node) : List Node × List String :=
  let walk := nodes.mapM (Node.transformM visit (depthBound rules nodes))
  let (changed, last) := walk.run ⟨rules, []⟩
  (changed, last.trace)

end Rule

end Schemata
