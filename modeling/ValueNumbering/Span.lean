import ValueNumbering.Ident

/-!
# Spans

The operands of all nodes of an arena stand in one shared pool. A span says which stretch of the
pool belongs to one node.
-/

namespace ValueNumbering

/-- A stretch of an operand pool: where it starts and how many entries it has. -/
structure Span where
  /-- The position of the first entry. -/
  start : UInt32
  /-- The number of entries. -/
  length : UInt16
deriving DecidableEq, Repr

namespace Span

/-- The span of a node without operands. -/
def empty : Span := ⟨0, 0⟩

/-- The number of entries that a span can hold, plus one. -/
def lengthLimit : Nat := 65536

/-- The position after the last entry. -/
def stop (s : Span) : Nat := s.start.toNat + s.length.toNat

/-- Whether the span has no entries. -/
def isEmpty (s : Span) : Bool := s.length = 0

/-- The text of a span; there is none if its end is not itself a pool position. -/
def text? (s : Span) : Option String :=
  if s.stop < identLimit then some s!"ExprRange({s.start}..{s.stop})" else none

/-- The entries of a pool that the span covers. -/
def slice (s : Span) (pool : Array NodeId) : List NodeId :=
  (pool.extract s.start.toNat s.stop).toList

@[simp] theorem slice_empty (pool : Array NodeId) : empty.slice pool = [] := by
  simp [slice, empty, stop]

theorem slice_append {s : Span} {pool : Array NodeId} (h : s.stop ≤ pool.size)
    (more : List NodeId) : s.slice (pool ++ more) = s.slice pool := by
  simp only [slice, Array.toList_extract, Array.toList_appendList, List.extract_eq_take_drop]
  have hs : s.start.toNat ≤ pool.toList.length := by
    simp only [Array.length_toList]; simp only [stop] at h; omega
  rw [List.drop_append_of_le_length hs, List.take_append_of_le_length]
  simp only [List.length_drop, Array.length_toList]
  omega

theorem slice_append_self {pool : Array NodeId} {more : List NodeId}
    (hp : pool.size < identLimit) (hm : more.length < lengthLimit) :
    (Span.mk (UInt32.ofNat pool.size) (UInt16.ofNat more.length)).slice (pool ++ more) = more := by
  have h1 : (UInt32.ofNat pool.size).toNat = pool.size := by
    rw [UInt32.toNat_ofNat']; exact Nat.mod_eq_of_lt hp
  have h2 : (UInt16.ofNat more.length).toNat = more.length := by
    rw [UInt16.toNat_ofNat']; exact Nat.mod_eq_of_lt hm
  simp [slice, stop, h1, h2, List.extract_eq_take_drop]

end Span

end ValueNumbering
