import ValueNumbering.Fault
import ValueNumbering.Flags
import ValueNumbering.Span
import ValueNumbering.TypeAliases

/-!
# Arenas

An arena is a growing graph of nodes. A node refers only to nodes that were there before it, so the
graph has no cycles and every question about a node can be answered by recursion on its operands.
That order is part of the type (`Arena.ordered`), and `Arena.index_lt_of_mem_operands` is the form
in which recursions use it.

Nodes are never changed or removed. Literals are interned: `Arena.constants` knows the node of each
literal and type.
-/

namespace ValueNumbering

/-- A node: what it computes, the type of its result, remarks on it, and where its operands are. -/
structure Node where
  op : Op
  ty : Ty
  flags : Flags
  /-- The stretch of the arena's pool that holds the operands. -/
  span : Span
deriving DecidableEq, Repr

/-- Every node's operands lie in the pool and are older than the node. -/
def Ordered (nodes : Array Node) (pool : Array NodeId) : Prop :=
  ∀ (i : Nat) (h : i < nodes.size),
    nodes[i].span.stop ≤ pool.size ∧ ∀ o ∈ nodes[i].span.slice pool, o.index < i

/-- A graph of nodes, with the types that may stand for each other in it. -/
structure Arena where
  /-- The nodes, by their numbers. -/
  nodes : Array Node
  /-- The operands of all nodes. -/
  pool : Array NodeId
  /-- The node of each literal and type that occurs. -/
  constants : Std.TreeMap (Literal × Ty) NodeId lexOrd.compare
  /-- The interchangeable types. -/
  aliases : TypeAliases
  /-- Operands are older than the nodes that use them. -/
  ordered : Ordered nodes pool

namespace Arena

/-- The arena without nodes. -/
def empty : Arena where
  nodes := #[]
  pool := #[]
  constants := ∅
  aliases := .empty
  ordered := fun _ h => absurd h (Nat.not_lt_zero _)

/-- The number of nodes. -/
def size (a : Arena) : Nat := a.nodes.size

/-- The ids of all nodes, oldest first. -/
def ids (a : Arena) : List NodeId := (List.range a.size).map NodeId.ofIndex

/-- The node of a number, if the arena has it. -/
def node? (a : Arena) (n : NodeId) : Option Node := a.nodes[n.index]?

/-- The node of a number; it is a fault to ask for a node that the arena does not have. -/
def node (a : Arena) (n : NodeId) : Except Fault Node :=
  match a.node? n with
  | some node => .ok node
  | none => .error (.noSuchNode a.size n)

/-- The operands of a node in order; a node that the arena does not have has none. -/
def operands (a : Arena) (n : NodeId) : List NodeId :=
  match a.node? n with
  | some node => node.span.slice a.pool
  | none => []

/-- Makes two types interchangeable. -/
def declare (a : Arena) (s t : Ty) : Arena := { a with aliases := a.aliases.declare s t }

/-! ### Reading -/

theorem node?_eq_none_iff {a : Arena} {n : NodeId} : a.node? n = none ↔ a.size ≤ n.index := by
  simp [node?, size]

theorem node?_isSome_iff {a : Arena} {n : NodeId} : (a.node? n).isSome ↔ n.index < a.size := by
  simp [node?, size]

theorem index_lt_of_mem_operands {a : Arena} {n o : NodeId} (h : o ∈ a.operands n) :
    o.index < n.index := by
  unfold operands at h
  split at h
  next node hn =>
    obtain ⟨hi, rfl⟩ := Array.getElem?_eq_some_iff.1 hn
    exact (a.ordered n.index hi).2 o h
  next => simp at h

theorem index_lt_size_of_mem_operands {a : Arena} {n o : NodeId} (h : o ∈ a.operands n) :
    o.index < a.size := by
  have hn : n.index < a.size := by
    rw [← node?_isSome_iff]
    unfold operands at h
    split at h
    next hn => simp [hn]
    next => simp at h
  exact Nat.lt_trans (index_lt_of_mem_operands h) hn

end Arena

end ValueNumbering
