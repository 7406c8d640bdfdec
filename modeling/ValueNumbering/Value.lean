import ValueNumbering.Ident

/-!
# Values

What an expression is known to compute: either the result of a constant node, or a value that a
session has allocated and that all expressions with the same result share.
-/

namespace ValueNumbering

/-- The value of an expression. -/
inductive Value
  /-- The value of a constant is the constant node itself. -/
  | const (node : NodeId)
  /-- A value allocated by a session. -/
  | handle (id : Handle)
deriving DecidableEq, Repr

namespace Value

/-- The constant node that is the value, if it is one. -/
def const? : Value → Option NodeId
  | const n => some n
  | handle _ => none

/-- The handle of the value, if it was allocated. -/
def handle? : Value → Option Handle
  | const _ => none
  | handle h => some h

/-- Whether the value is a constant node. -/
def isConst (v : Value) : Bool := v.const?.isSome

/-- The text of a value. -/
def text : Value → String
  | const n => n.text
  | handle h => h.text

/-- The text of a value together with its sort. -/
def sortedText : Value → String
  | const n => s!"Constant({n.text})"
  | handle h => s!"Handle({h.text})"

end Value

end ValueNumbering
