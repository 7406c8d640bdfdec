/-!
# Settings

The two choices that a table or a session is opened with. Neither changes an answer: the capacity
is a hint, and remembering hashes only saves work.
-/

namespace ValueNumbering

/-- The settings of a table or a session. -/
structure Settings where
  /-- For how many entries the table is to have room at first. -/
  capacity : Nat
  /-- Whether the hashes of nodes are remembered. -/
  memoize : Bool
deriving DecidableEq, Repr

namespace Settings

/-- The settings used when none are given. -/
def standard : Settings := ⟨511, true⟩

/-- The standard settings with another capacity. -/
def ofCapacity (capacity : Nat) : Settings := { standard with capacity }

/-- The standard settings, but no hash is remembered. -/
def forgetful : Settings := { standard with memoize := false }

/-- The text of settings. -/
def text (s : Settings) : String :=
  let memoize := if s.memoize then "true" else "false"
  s!"VnConfig \x7b initial_capacity: {s.capacity}, memoize_hashes: {memoize} \x7d"

end Settings

end ValueNumbering
