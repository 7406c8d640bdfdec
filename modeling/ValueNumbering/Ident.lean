import Std.Data.TreeMap
import Std.Data.TreeSet

/-!
# Identifiers

Nodes, types, names, memory versions and value handles are numbered by 32-bit words. Each sort of
identifier is a type of its own, so that one cannot stand for another, and each has the text under
which reports show it.

Nodes and types are also keys of ordered maps; both are ordered by their numbers, and the order is
lawful: identifiers compare as equal exactly when they are equal.
-/

namespace ValueNumbering

/-- A node of an arena, numbered from zero in the order of creation. -/
structure NodeId where
  /-- The node's number. -/
  raw : UInt32
deriving DecidableEq, Repr

/-- The result type of a node. The first five numbers are the built-in types. -/
structure Ty where
  /-- The type's number. -/
  raw : UInt32
deriving DecidableEq, Repr

/-- The name of a variable, a declaration, a called function or a label. -/
structure Symbol where
  /-- The name's number. -/
  raw : UInt32
deriving DecidableEq, Repr

/-- A version of the memory that an expression reads. -/
structure MemVersion where
  /-- The version's number. -/
  raw : UInt32
deriving DecidableEq, Repr

/-- A value allocated by a session, numbered from zero in the order of allocation. -/
structure Handle where
  /-- The value's number. -/
  raw : UInt32
deriving DecidableEq, Repr

/-- How many identifiers of one sort there are. -/
def identLimit : Nat := 4294967296

/-! ### Nodes -/

namespace NodeId

/-- The position of the node in its arena. -/
def index (n : NodeId) : Nat := n.raw.toNat

/-- The node at a position. Positions from `identLimit` on wrap around. -/
def ofIndex (i : Nat) : NodeId := ⟨UInt32.ofNat i⟩

/-- The text of a node. -/
def text (n : NodeId) : String := s!"ExprId({n.raw})"

theorem index_lt (n : NodeId) : n.index < identLimit := n.raw.toNat_lt

theorem index_inj {m n : NodeId} : m.index = n.index ↔ m = n := by
  cases m; cases n
  simp [index, UInt32.toNat_inj]

theorem index_ofIndex {i : Nat} (h : i < identLimit) : (ofIndex i).index = i := by
  simp only [index, ofIndex, UInt32.toNat_ofNat']
  exact Nat.mod_eq_of_lt h

instance : Ord NodeId := ⟨fun m n => compare m.raw n.raw⟩

instance : Std.TransOrd NodeId where
  eq_swap {m n} := Std.OrientedOrd.eq_swap (a := m.raw) (b := n.raw)
  isLE_trans {m n k} := Std.TransOrd.isLE_trans (a := m.raw) (b := n.raw) (c := k.raw)

instance : Std.LawfulEqOrd NodeId where
  compare_self {n} := Std.ReflOrd.compare_self (a := n.raw)
  eq_of_compare {m n} h := by
    cases m; cases n
    exact congrArg mk (Std.LawfulEqOrd.eq_of_compare (α := UInt32) h)

end NodeId

/-! ### Types -/

namespace Ty

/-- The type of integers. -/
def int : Ty := ⟨0⟩

/-- The type of truth values. -/
def bool : Ty := ⟨1⟩

/-- The type of floating-point numbers. -/
def float : Ty := ⟨2⟩

/-- The type of addresses. -/
def pointer : Ty := ⟨3⟩

/-- The type of nodes that produce nothing. -/
def void : Ty := ⟨4⟩

/-- The text of a type: the built-in types go by their names. -/
def text (t : Ty) : String :=
  if t = int then "int"
  else if t = bool then "bool"
  else if t = float then "float"
  else if t = pointer then "ptr"
  else if t = void then "void"
  else s!"TypeId({t.raw})"

instance : Ord Ty := ⟨fun s t => compare s.raw t.raw⟩

instance : Std.TransOrd Ty where
  eq_swap {s t} := Std.OrientedOrd.eq_swap (a := s.raw) (b := t.raw)
  isLE_trans {s t u} := Std.TransOrd.isLE_trans (a := s.raw) (b := t.raw) (c := u.raw)

instance : Std.LawfulEqOrd Ty where
  compare_self {t} := Std.ReflOrd.compare_self (a := t.raw)
  eq_of_compare {s t} h := by
    cases s; cases t
    exact congrArg mk (Std.LawfulEqOrd.eq_of_compare (α := UInt32) h)

end Ty

/-! ### Names, memory versions and handles -/

/-- The text of a name. -/
def Symbol.text (s : Symbol) : String := s!"Name({s.raw})"

/-- The text of a memory version. -/
def MemVersion.text (m : MemVersion) : String := s!".MEM_{m.raw}"

/-- The text of a list of memory versions. -/
def MemVersion.listText (ms : List MemVersion) : String :=
  "[" ++ ", ".intercalate (ms.map text) ++ "]"

namespace Handle

/-- The position of the value among those of its session. -/
def index (h : Handle) : Nat := h.raw.toNat

/-- The handle at a position. Positions from `identLimit` on wrap around. -/
def ofIndex (i : Nat) : Handle := ⟨UInt32.ofNat i⟩

/-- The text of a handle. -/
def text (h : Handle) : String := s!"VH.{h.raw}"

/-- Handles are ordered by their numbers. -/
instance : Ord Handle := ⟨fun g h => compare g.raw h.raw⟩

theorem index_inj {g h : Handle} : g.index = h.index ↔ g = h := by
  cases g; cases h
  simp [index, UInt32.toNat_inj]

theorem index_ofIndex {i : Nat} (h : i < identLimit) : (ofIndex i).index = i := by
  simp only [index, ofIndex, UInt32.toNat_ofNat']
  exact Nat.mod_eq_of_lt h

end Handle

end ValueNumbering
