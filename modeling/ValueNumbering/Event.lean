import ValueNumbering.Settings
import ValueNumbering.Value

/-!
# Events

What a session reports about its own work while it runs.
-/

namespace ValueNumbering

/-- The state of a session at its close, in numbers. -/
structure Summary where
  /-- The number of table entries. -/
  entries : Nat
  /-- The number of allocated values. -/
  values : Nat
  /-- The number of nodes with a recorded value. -/
  associations : Nat
deriving DecidableEq, Repr

/-- How much a report matters. -/
inductive Level
  | debug | trace
deriving DecidableEq, Repr

/-- The text of a level. -/
def Level.text : Level → String
  | .debug => "DEBUG"
  | .trace => "TRACE"

/-- Something that happened in a session. -/
inductive Event
  /-- The session was opened. -/
  | started (settings : Settings)
  /-- A value was allocated for a node that had none. -/
  | created (value : Value) (node : NodeId)
  /-- A table entry with an equal key was replaced. -/
  | replaced (node : NodeId) (old new : Value)
  /-- The session was closed. -/
  | closed (summary : Summary)
deriving DecidableEq, Repr

namespace Event

/-- The level of an event. -/
def level : Event → Level
  | replaced _ _ _ => .trace
  | started _ | created _ _ | closed _ => .debug

/-- The headline of an event. -/
def message : Event → String
  | started _ => "value numbering session started"
  | created _ _ => "created value"
  | replaced _ _ _ => "replaced value table entry"
  | closed _ => "value numbering session closed"

/-- The details of an event, by name. -/
def fields : Event → List (String × String)
  | started s =>
    [("capacity", toString s.capacity), ("memoize", if s.memoize then "true" else "false")]
  | created v n => [("value", v.text), ("expr", n.text)]
  | replaced n old new => [("expr", n.text), ("old", old.text), ("new", new.text)]
  | closed s =>
    [("entries", toString s.entries), ("values", toString s.values),
      ("associations", toString s.associations)]

end Event

end ValueNumbering
