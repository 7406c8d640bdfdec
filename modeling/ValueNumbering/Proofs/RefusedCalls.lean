import Mathlib.Algebra.GroupWithZero.Nat
import ValueNumbering.Proofs.ReadingBack

/-!
# Refused calls cannot be seen

A call that is refused may have changed the arena: a list of too many operands is in the pool by the time it is
found to be too long, and it stays there. The spans of all nodes that are pushed later start further back
because of it. `Arena.refused_calls_invisible` says that this makes no difference to what can be read: leave
out the calls that were refused, and the others are answered as before, and all nodes read the same. Only the
pool is larger, by just the lists that were too long.

The proof runs the calls on two arenas side by side. `Arena.Shows a b extra` relates them: all reads agree, and
the pool of `a` has `extra` entries more. A call that `a` refuses is none of `b` and adds to `extra` what it
leaves behind (`Arena.Shows.refused`). A call that `a` serves is served alike by `b`
(`Arena.Shows.push`), where it is not refused either: it only needs the room in the pool that it had in `a`.
-/

namespace ValueNumbering

/-- The number of operands that a call has left in the pool without a node that uses them. -/
def leftBehind {α : Type} : Except Fault α → Nat
  | .ok _ => 0
  | .error (.tooManyOperands count) => count
  | .error _ => 0

namespace Arena

/-- What is read of a node: its operation, its type, its flags and its operands. -/
def read (a : Arena) (n : NodeId) : Except Fault (Op × Ty × Flags × List NodeId) :=
  (a.node n).map fun q => (q.op, q.ty, q.flags, a.operands n)

/-- The calls that were not refused, with their answers. -/
def accepted (a : Arena) (calls : List Call) : List (Call × Except Fault (Option NodeId)) :=
  (a.answered calls).filter (·.2.isOk)

theorem accepted_cons (a : Arena) (c : Call) (rest : List Call) :
    a.accepted (c :: rest) =
      if (a.perform c).1.isOk then (c, (a.perform c).1) :: (a.perform c).2.accepted rest
      else (a.perform c).2.accepted rest := by
  rw [accepted, answered_cons, List.filter_cons]
  rfl

/-! ### Reading -/

section push

variable {a a' b : Arena} {op : Op} {ty : Ty} {operands : List NodeId} {flags : Flags} {n : NodeId}

theorem read_of_node {q : Node} (hq : a.node? n = some q) :
    a.read n = .ok (q.op, q.ty, q.flags, a.operands n) := by
  rw [read, node, hq]
  rfl

theorem read_of_size_le (hn : a.size ≤ n.index) : a.read n = .error (.noSuchNode a.size n) := by
  rw [read, node, node?_eq_none_iff.2 hn]
  rfl

theorem Extends.read_eq (h : a.Extends b) (hn : n.index < a.size) : b.read n = a.read n := by
  rw [read, read, h.node_eq hn, h.operands_eq hn]

theorem read_of_push (hnew : a.interned? op ty = none) (h : a.push op ty operands flags = (.ok n, b))
    (m : NodeId) :
    b.read m =
      if m.index < a.size then a.read m
      else if m = n then .ok (op, ty, flags, operands)
      else .error (.noSuchNode (a.size + 1) m) := by
  obtain ⟨hindex, hsize, span, hnode, hops, -⟩ := new_of_push hnew h
  split
  next hm => exact (precedes_of_push h).grown.read_eq hm
  next hm =>
    split
    next hmn => rw [hmn, read_of_node hnode, hops]
    next hmn =>
      have hne : m.index ≠ n.index := fun e => hmn (NodeId.index_inj.1 e)
      rw [← hsize]
      exact read_of_size_le (by omega)

/-! ### What stays in the pool -/

theorem size_pool_extendPool (a : Arena) (more : List NodeId) :
    (a.extendPool more).pool.size = a.pool.size + more.length := by
  simp [extendPool, ← Array.length_toList]

theorem leftBehind_arityFault {fault : Fault} (h : arityFault? op operands = some fault) :
    leftBehind (.error fault : Except Fault NodeId) = 0 := by
  unfold arityFault? at h
  split at h
  next k _ =>
    split at h
    next => cases h
    next =>
      obtain rfl := Option.some.inj h
      rfl
  next => cases h

/-- What it adds to the pool to add a node: its operands, also if they are too many. -/
theorem size_pool_allocate (h : operands.all (·.index < a.size)) :
    (a.allocate op ty operands flags h).2.pool.size =
      a.pool.size + leftBehind (a.allocate op ty operands flags h).1 +
        if (a.allocate op ty operands flags h).1.isOk then operands.length else 0 := by
  unfold allocate
  split
  next => rfl
  next =>
    split
    next hempty =>
      rw [List.isEmpty_iff.1 hempty]
      rfl
    next =>
      split
      next => rfl
      next =>
        split
        next => exact a.size_pool_extendPool operands
        next => exact a.size_pool_extendPool operands

theorem size_pool_push (a : Arena) (op : Op) (ty : Ty) (operands : List NodeId) (flags : Flags) :
    (a.push op ty operands flags).2.pool.size =
      a.pool.size + leftBehind (a.push op ty operands flags).1 +
        if (a.push op ty operands flags).1.isOk ∧ a.interned? op ty = none then operands.length
        else 0 := by
  unfold push
  split
  next fault hfault => simp [leftBehind_arityFault hfault, Except.isOk, Except.toBool]
  next =>
    split
    next h =>
      split
      next n hn => simp [hn, leftBehind]
      next hn =>
        simp only [hn, and_true]
        exact size_pool_allocate h
    next => simp [leftBehind, Except.isOk, Except.toBool]

theorem size_pool_of_push (hnew : a.interned? op ty = none)
    (h : a.push op ty operands flags = (.ok n, b)) : b.pool.size = a.pool.size + operands.length := by
  have hpool := a.size_pool_push op ty operands flags
  rw [h, hnew] at hpool
  simpa [leftBehind, Except.isOk, Except.toBool] using hpool

theorem size_pool_of_refused {fault : Fault} (h : a.push op ty operands flags = (.error fault, b)) :
    b.pool.size = a.pool.size + leftBehind (.error fault : Except Fault NodeId) := by
  have hpool := a.size_pool_push op ty operands flags
  rw [h] at hpool
  simpa [Except.isOk, Except.toBool] using hpool

/-! ### Two arenas side by side -/

/-- All reads agree, and the pool of the first arena has some entries more. -/
structure Shows (a b : Arena) (extra : Nat) : Prop where
  size : b.size = a.size
  read : ∀ n, b.read n = a.read n
  constants : b.constants = a.constants
  pool : a.pool.size = b.pool.size + extra

variable {extra : Nat}

theorem Shows.refl (a : Arena) : a.Shows a 0 := ⟨rfl, fun _ => rfl, rfl, rfl⟩

/-- A push that is refused cannot be read, but for what it leaves in the pool. -/
theorem Shows.refused (h : a.Shows b extra) {fault : Fault}
    (hpush : a.push op ty operands flags = (.error fault, a')) :
    a'.Shows b (extra + leftBehind (.error fault : Except Fault NodeId)) := by
  have hgrown := (precedes_of_push hpush).grown
  have hpool := size_pool_of_refused hpush
  have hp := a.pushes op ty operands flags
  rw [hpush] at hp
  cases hp with
  | refused hnodes hconst =>
    have hsize : a'.size = a.size := by rw [Arena.size, hnodes, Arena.size]
    refine ⟨h.size.trans hsize.symm, fun n => ?_, h.constants.trans hconst.symm, ?_⟩
    · rw [h.read]
      by_cases hn : n.index < a.size
      · exact (hgrown.read_eq hn).symm
      · rw [read_of_size_le (Nat.le_of_not_lt hn), read_of_size_le (by omega), hsize]
    · have hmore := h.pool
      omega

theorem Shows.served (h : a.Shows b extra) (hok : ∃ n, (a.push op ty operands flags).1 = .ok n) :
    ∃ n, (b.push op ty operands flags).1 = .ok n := by
  obtain ⟨hfits, hexist, hroom⟩ := push_ok_iff.1 hok
  have hmore := h.pool
  rw [push_ok_iff, interned?_congr h.constants, h.size]
  refine ⟨hfits, hexist, ?_⟩
  rcases hroom with hknown | ⟨hn, hnone | ⟨hp, hl⟩⟩
  · exact .inl hknown
  · exact .inr ⟨hn, .inl hnone⟩
  · exact .inr ⟨hn, .inr ⟨by omega, hl⟩⟩

theorem constantsWith_congr (hsize : b.size = a.size) (hconst : b.constants = a.constants)
    (node : Node) : b.constantsWith node = a.constantsWith node := by
  unfold constantsWith
  rw [hsize, hconst]

/-- Where a node lies in the pool has no part in which literals are known. -/
theorem constants_of_push (hnew : a.interned? op ty = none)
    (h : a.push op ty operands flags = (.ok n, b)) :
    b.constants = a.constantsWith ⟨op, ty, flags, .empty⟩ := by
  obtain ⟨-, -, span, -, -, hconst⟩ := new_of_push hnew h
  exact hconst

/-- A push that is served leads to the same node in both arenas, and reads agree after it. -/
theorem Shows.push (h : a.Shows b extra) (hpush : a.push op ty operands flags = (.ok n, a')) :
    ∃ b', b.push op ty operands flags = (.ok n, b') ∧ a'.Shows b' extra := by
  have hlit : b.interned? op ty = a.interned? op ty := interned?_congr h.constants op ty
  obtain ⟨m, hm⟩ := h.served ⟨n, congrArg Prod.fst hpush⟩
  have hpush' : b.push op ty operands flags = (.ok m, (b.push op ty operands flags).2) :=
    Prod.ext hm rfl
  generalize (b.push op ty operands flags).2 = b' at hpush'
  -- both arenas know the same literals, so both find the node or both add it
  cases hnew : a.interned? op ty with
  | some k =>
    obtain ⟨rfl, rfl⟩ := found_of_push hnew hpush
    obtain ⟨rfl, rfl⟩ := found_of_push (hlit.trans hnew) hpush'
    exact ⟨_, hpush', h⟩
  | none =>
    have hnew' := hlit.trans hnew
    obtain ⟨hindex, hsize, -⟩ := new_of_push hnew hpush
    obtain ⟨hindex', hsize', -⟩ := new_of_push hnew' hpush'
    obtain rfl : m = n := NodeId.index_inj.1 (by rw [hindex, hindex', h.size])
    refine ⟨b', hpush', by rw [hsize, hsize', h.size], fun k => ?_, ?_, ?_⟩
    · rw [read_of_push hnew hpush, read_of_push hnew' hpush', h.size, h.read]
    · rw [constants_of_push hnew hpush, constants_of_push hnew' hpush',
        constantsWith_congr h.size h.constants]
    · have hmore := h.pool
      have hpool := size_pool_of_push hnew hpush
      have hpool' := size_pool_of_push hnew' hpush'
      omega

end push

/-! ### Calls -/

variable {a b : Arena} {extra : Nat}

theorem leftBehind_map {α β : Type} (f : α → β) (r : Except Fault α) :
    leftBehind (r.map f) = leftBehind r := by
  cases r with
  | error fault => cases fault <;> rfl
  | ok x => rfl

theorem leftBehind_of_isOk {α : Type} {r : Except Fault α} (h : r.isOk) : leftBehind r = 0 := by
  cases r with
  | error fault => cases h
  | ok x => rfl

theorem Shows.perform (h : a.Shows b extra) {c : Call} (hok : (a.perform c).1.isOk) :
    (b.perform c).1 = (a.perform c).1 ∧ (a.perform c).2.Shows (b.perform c).2 extra := by
  rw [perform_eq] at hok
  rw [perform_eq, perform_eq]
  cases he : c.edit with
  | declare s t => exact ⟨rfl, h.size, h.read, h.constants, h.pool⟩
  | push op ty operands flags =>
    rcases hpush : a.push op ty operands flags with ⟨answer, a'⟩
    simp only [he, edit, hpush] at hok ⊢
    cases answer with
    | error fault => cases hok
    | ok n =>
      obtain ⟨b', hpush', hnext⟩ := h.push hpush
      rw [hpush']
      exact ⟨rfl, hnext⟩

theorem Shows.perform_refused (h : a.Shows b extra) {c : Call} (hfail : ¬ (a.perform c).1.isOk) :
    (a.perform c).2.Shows b (extra + leftBehind (a.perform c).1) := by
  rw [perform_eq] at hfail ⊢
  cases he : c.edit with
  | declare s t =>
    rw [he] at hfail
    exact absurd rfl hfail
  | push op ty operands flags =>
    rcases hpush : a.push op ty operands flags with ⟨answer, a'⟩
    simp only [he, edit, hpush, leftBehind_map] at hfail ⊢
    cases answer with
    | error fault => exact h.refused hpush
    | ok n => exact absurd rfl hfail

/-- The calls that are not refused are answered alike by both arenas, and reads agree after all calls of the
one and these calls of the other. -/
theorem Shows.performAll (h : a.Shows b extra) (calls : List Call) :
    (b.performAll ((a.accepted calls).map Prod.fst)).1 = (a.accepted calls).map Prod.snd ∧
      (a.performAll calls).2.Shows (b.performAll ((a.accepted calls).map Prod.fst)).2
        (extra + ((a.performAll calls).1.map leftBehind).sum) := by
  induction calls generalizing a b extra with
  | nil => exact ⟨rfl, h⟩
  | cons c rest ih =>
    rw [performAll_cons, List.map_cons, List.sum_cons, accepted_cons, ← Nat.add_assoc]
    split
    next hok =>
      obtain ⟨hanswer, hnext⟩ := h.perform hok
      obtain ⟨hanswers, hshows⟩ := ih hnext
      rw [leftBehind_of_isOk hok, Nat.add_zero, List.map_cons, List.map_cons, performAll_cons, hanswer,
        hanswers]
      exact ⟨rfl, hshows⟩
    next hfail =>
      -- the other arena stays where it is
      exact ih (h.perform_refused hfail)

/-- Make calls on an arena, and make those of them that were not refused on the arena as it was before: these are
answered as they were, there are as many nodes, and the operation, the type, the flags and the operands of each
read the same. The pools differ by the lists that were refused as too long. -/
theorem refused_calls_invisible (a : Arena) (calls : List Call) :
    let whole := a.performAll calls
    let done := a.accepted calls
    let part := a.performAll (done.map Prod.fst)
    part.1 = done.map Prod.snd ∧ part.2.size = whole.2.size ∧ (∀ n, part.2.read n = whole.2.read n) ∧
      whole.2.pool.size = part.2.pool.size + (whole.1.map leftBehind).sum := by
  intro whole done part
  obtain ⟨hanswers, hshows⟩ := (Shows.refl a).performAll calls
  refine ⟨hanswers, hshows.size, hshows.read, ?_⟩
  rw [hshows.pool, Nat.zero_add]

end Arena

end ValueNumbering
