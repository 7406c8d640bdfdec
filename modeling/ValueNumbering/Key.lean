import ValueNumbering.Ident

/-!
# Keys

What a value belongs to is not an expression alone: an expression that reads memory computes
something else once the memory has changed. A key is an expression at given versions of the memory.
-/

namespace ValueNumbering

/-- An expression and the memory versions that its result depends on. The order of the versions
matters. -/
structure Key where
  node : NodeId
  deps : List MemVersion
deriving DecidableEq, Repr

end ValueNumbering
