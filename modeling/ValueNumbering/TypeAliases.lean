import ValueNumbering.Ident

/-!
# Interchangeable types

A table of pairs of types that may stand for each other when two expressions are compared. The
relation is reflexive and symmetric. It is not transitive: that `s` goes with `t` and `t` with `u`
says nothing about `s` and `u`.
-/

namespace ValueNumbering

/-- Pairs of different types that were declared interchangeable. Each pair stands once, with the
type of the smaller number first. -/
structure TypeAliases where
  /-- The declared pairs, latest first. -/
  pairs : List (Ty × Ty)
deriving DecidableEq, Repr

namespace TypeAliases

/-- No pair is declared. -/
def empty : TypeAliases := ⟨[]⟩

/-- The pair of two types in the order of their numbers. -/
def pair (s t : Ty) : Ty × Ty := if s.raw ≤ t.raw then (s, t) else (t, s)

/-- Makes two types interchangeable. A type already goes with itself, so nothing is recorded then. -/
def declare (as : TypeAliases) (s t : Ty) : TypeAliases :=
  if s = t then as else ⟨as.pairs.insert (pair s t)⟩

/-- Whether one type may stand for the other. -/
def related (as : TypeAliases) (s t : Ty) : Bool := s = t || as.pairs.contains (pair s t)

/-- The number of declared pairs. -/
def size (as : TypeAliases) : Nat := as.pairs.length

theorem pair_comm (s t : Ty) : pair s t = pair t s := by
  cases s with | mk a
  cases t with | mk b
  simp only [pair]
  split <;> split <;> simp_all
  · exact ⟨UInt32.le_antisymm ‹_› ‹_›, UInt32.le_antisymm ‹_› ‹_›⟩
  · exact absurd (Std.le_of_lt ‹_›) (by simpa using ‹_›)

end TypeAliases

end ValueNumbering
