import ValueNumbering.Arena.Basic

/-!
# Views

A view is an arena together with the choice of what counts when its expressions are hashed and
compared. Hashes and equality are defined for views.
-/

namespace ValueNumbering

/-- What counts when expressions are hashed and compared. -/
structure Policy where
  /-- Whether a hash reads the operations, or only the shape of an expression. -/
  hashesOps : Bool
  /-- Whether an expression with side effects differs from every other one. -/
  heedsEffects : Bool
  /-- Whether interchangeable types count as the same. -/
  heedsAliases : Bool
deriving DecidableEq, Repr

namespace Policy

/-- Everything counts. -/
def full : Policy := ⟨true, true, true⟩

/-- Neither side effects nor interchangeable types count. -/
def plain : Policy := ⟨true, false, false⟩

/-- Everything counts, but a hash reads only the shape. -/
def shapeHash : Policy := ⟨false, true, true⟩

end Policy

/-- An arena and what counts in it. -/
structure View where
  arena : Arena
  policy : Policy

namespace View

variable (v : View)

/-- Whether a node has side effects that count. -/
def hasEffects (node : Node) : Bool :=
  v.policy.heedsEffects && node.flags.contains .sideEffects

/-- Whether one type may stand for the other. -/
def interchangeable (s t : Ty) : Bool :=
  s = t || (v.policy.heedsAliases && v.arena.aliases.related s t)

end View

end ValueNumbering
