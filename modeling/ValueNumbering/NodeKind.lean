/-!
# Kinds of nodes

Nodes are sorted by the part that they play. The kind decides whether a node can have a value, and
how it carries it.
-/

namespace ValueNumbering

/-- How a node carries a value. -/
inductive Binding
  /-- The node is its own value. -/
  | ownValue
  /-- A session records the value of the node. -/
  | recorded
  /-- The node has no value. -/
  | valueless
deriving DecidableEq, Repr

/-- The text of a way to carry a value. -/
def Binding.text : Binding → String
  | .ownValue => "SelfValued"
  | .recorded => "Annotated"
  | .valueless => "Unsupported"

/-- The part that a node plays. -/
inductive NodeKind
  | constant | variableRef | expression | declaration | statement | other
deriving DecidableEq, Repr

namespace NodeKind

/-- The text of a kind. -/
def text : NodeKind → String
  | constant => "Constant"
  | variableRef => "VariableRef"
  | expression => "Expression"
  | declaration => "Declaration"
  | statement => "Statement"
  | other => "Other"

/-- How the nodes of a kind carry a value: constants are their own value, and all other nodes but
those of kind `other` can be given one. -/
def binding : NodeKind → Binding
  | constant => .ownValue
  | variableRef | expression | declaration | statement => .recorded
  | other => .valueless

end NodeKind

end ValueNumbering
