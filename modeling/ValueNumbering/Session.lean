import ValueNumbering.Event
import ValueNumbering.Table

/-!
# Sessions

A session numbers the values of expressions: expressions that are known to compute the same thing
get the same value. It keeps a table of keys and values, the values it has allocated with the nodes
that produce them, and the value recorded for each node.

`Session.number` is the main operation. `Session.valueOf` only asks, and `Session.define` lets the
caller choose the value. These three consult the table, and may end in a fault after they have
changed something: they return the session as it is then, and `number` and `define` also the events
up to that point (`Outcome`). `Session.allocate` and `Session.record` either succeed with a new
session or change nothing.
-/

namespace ValueNumbering

/-- An allocated value and the nodes that are known to produce it. -/
structure ValueClass where
  /-- The type of the value. -/
  ty : Ty
  /-- The nodes that produce the value, in the order in which they joined. -/
  members : List NodeId
deriving DecidableEq, Repr

/-- Adds a node to those that produce the value, unless it is there already. -/
def ValueClass.join (c : ValueClass) (n : NodeId) : ValueClass :=
  if c.members.contains n then c else { c with members := c.members ++ [n] }

/-- The state of a numbering. -/
structure Session where
  settings : Settings
  /-- The values of the keys seen so far. -/
  table : Table
  /-- The value recorded for each node. -/
  bound : Std.TreeMap NodeId Value
  /-- The allocated values, by their numbers. -/
  classes : Array ValueClass

/-- The result of an operation on a session, with the session and the events that it leads to. -/
structure Outcome (α : Type) where
  result : Except Fault α
  session : Session
  events : List Event

namespace Session

/-- A new session. -/
def start (settings : Settings) : Session where
  settings := settings
  table := .empty settings
  bound := ∅
  classes := #[]

/-! ### Values -/

/-- The number of allocated values. -/
def allocated (s : Session) : Nat := s.classes.size

/-- The class of an allocated value. -/
def classOf (s : Session) (id : Handle) : Except Fault ValueClass :=
  match s.classes[id.index]? with
  | some c => .ok c
  | none => .error (.unknownHandle id)

/-- Allocates a value of the given type. -/
def allocate (s : Session) (ty : Ty) : Except Fault (Handle × Session) :=
  if s.allocated < identLimit then
    .ok (.ofIndex s.allocated, { s with classes := s.classes.push ⟨ty, []⟩ })
  else .error .handlesExhausted

/-- The type of a value. -/
def typeOf (s : Session) (a : Arena) : Value → Except Fault Ty
  | .const n => (a.node n).map (·.ty)
  | .handle id => (s.classOf id).map (·.ty)

/-- The nodes that are known to produce an allocated value. -/
def members (s : Session) (id : Handle) : Except Fault (List NodeId) :=
  (s.classOf id).map (·.members)

/-! ### Values of nodes -/

/-- How a node is to carry a value, if it can: a constant has no other value than itself, a node of
kind `other` has none, and a handle has to be one of this session. -/
def bindingFor (s : Session) (a : Arena) (n : NodeId) (value : Value) : Except Fault Binding :=
  match a.node n with
  | .error fault => .error fault
  | .ok node =>
    let binding := node.op.kind.binding
    if binding = .ownValue ∧ value ≠ .const n then .error (.constantRebound n value)
    else if binding = .valueless then .error (.notBindable n node.op.kind)
    else match value with
      | .const _ => .ok binding
      | .handle id => (s.classOf id).map fun _ => binding

/-- The value recorded for a node; a constant is its own value. -/
def recorded (s : Session) (a : Arena) (n : NodeId) : Except Fault (Option Value) :=
  match a.node n with
  | .error fault => .error fault
  | .ok node =>
    match node.op.kind.binding with
    | .ownValue => .ok (some (.const n))
    | .recorded => .ok s.bound[n]?
    | .valueless => .error (.notBindable n node.op.kind)

/-- Puts down the value of a node that needs a record. -/
def write (s : Session) (binding : Binding) (n : NodeId) (value : Value) : Session :=
  if binding = .recorded then { s with bound := s.bound.insert n value } else s

/-- Records the value of a node. -/
def record (s : Session) (a : Arena) (n : NodeId) (value : Value) : Except Fault Session :=
  match s.bindingFor a n value with
  | .error fault => .error fault
  | .ok binding => .ok (s.write binding n value)

/-- Puts a node among those that produce a value, if the value was allocated. -/
def join (s : Session) (n : NodeId) : Value → Session
  | .const _ => s
  | .handle id => { s with classes := s.classes.modify id.index (·.join n) }

/-! ### The table -/

/-- The hash of a key, as the table computes it. -/
def hashKey (s : Session) (v : View) (key : Key) : Except Fault UInt64 × Session :=
  match s.table.hashKey v key with
  | (hash, table) => (hash, { s with table })

/-- The value of a key in the table. -/
def find (s : Session) (v : View) (key : Key) : Except Fault (Option Value) × Session :=
  match s.table.find v key with
  | (found, table) => (found, { s with table })

/-! ### Numbering -/

/-- The value of a key, if it is known. A constant is its own value. -/
def valueOf (s : Session) (v : View) (key : Key) : Except Fault (Option Value) × Session :=
  match v.arena.node key.node with
  | .error fault => (.error fault, s)
  | .ok node =>
    if node.op.kind = .constant then (.ok (some (.const key.node)), s) else s.find v key

/-- The report of a replaced entry, if one was. -/
def replacedEvents (n : NodeId) (value : Value) : Option Entry → List Event
  | some old => [.replaced n old.value value]
  | none => []

/-- Gives a key a value: in the table, as the recorded value of the node, and by making the node one
that produces the value. That the node can carry the value is checked once, at the start. Recording
the value and joining its class need the same, which still holds then: `defineStepwise` checks it at
each step, and is the same function. -/
def define (s : Session) (v : View) (key : Key) (value : Value) : Outcome Unit :=
  match s.bindingFor v.arena key.node value with
  | .error fault => ⟨.error fault, s, []⟩
  | .ok binding =>
    match s.table.insert v key value with
    | (.error fault, table) => ⟨.error fault, { s with table }, []⟩
    | (.ok old, table) =>
      ⟨.ok (), ({ s with table }.write binding key.node value).join key.node value,
        replacedEvents key.node value old⟩

/-- Gives a key a newly allocated value of the given type. -/
def defineNew (s : Session) (v : View) (key : Key) (ty : Ty) : Outcome Value :=
  match s.allocate ty with
  | .error fault => ⟨.error fault, s, []⟩
  | .ok (id, s) =>
    let value := .handle id
    match s.define v key value with
    | ⟨.error fault, s, events⟩ => ⟨.error fault, s, .created value key.node :: events⟩
    | ⟨.ok (), s, events⟩ => ⟨.ok value, s, .created value key.node :: events⟩

/-- The value of a key. A key without one gets a new value of the type of its node; a known value is
recorded for the node. A new value is not recorded again after `define` has done so, as this would
change nothing (`Tracks.record_number`). -/
def number (s : Session) (v : View) (key : Key) : Outcome Value :=
  match s.valueOf v key with
  | (.error fault, s) => ⟨.error fault, s, []⟩
  | (.ok (some value), s) =>
    match s.record v.arena key.node value with
    | .error fault => ⟨.error fault, s, []⟩
    | .ok s => ⟨.ok value, s, []⟩
  | (.ok none, s) =>
    match v.arena.node key.node with
    | .error fault => ⟨.error fault, s, []⟩
    | .ok node => s.defineNew v key node.ty

/-! ### Opening and closing -/

/-- The report that a session was opened. -/
def startEvent (settings : Settings) : Event := .started settings

/-- The state of the session in numbers. -/
def summary (s : Session) : Summary := ⟨s.table.size, s.allocated, s.bound.size⟩

/-- The report that the session was closed. -/
def closeEvent (s : Session) : Event := .closed s.summary

end Session

end ValueNumbering
