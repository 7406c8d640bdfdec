import ValueNumbering.Proofs.Growth

/-!
# What a push does

A push is refused, finds the node that a literal has, or adds a node: `Arena.Pushes` spells out what
each of these leaves behind, and `Arena.pushes` says that there is nothing else.

* `Arena.Precedes a b`: all that is in `a` is in `b`, and the literals of `a` have the same nodes in
  `b`. A push leads to an arena that the old one precedes (`Arena.precedes_push`).
* `Arena.Reachable`: the arenas that changes make of the empty one.
-/

namespace ValueNumbering.Arena

/-! ### Pushing -/

/-- The ways in which a push can end. -/
inductive Pushes (a : Arena) (op : Op) (ty : Ty) (operands : List NodeId) (flags : Flags) :
    Except Fault NodeId × Arena → Prop
  /-- The node is refused. At most the pool has changed. -/
  | refused {fault : Fault} {b : Arena} (hnodes : b.nodes = a.nodes)
      (hconst : b.constants = a.constants) : Pushes a op ty operands flags (.error fault, b)
  /-- The literal has a node. -/
  | interned {l : Literal} {n : NodeId} (hop : op = .lit l) (hn : a.constants[(l, ty)]? = some n) :
      Pushes a op ty operands flags (.ok n, a)
  /-- The node is added. -/
  | added {b : Arena} {span : Span} (hsize : a.size < identLimit)
      (hnew : a.interned? op ty = none) (hnodes : b.nodes = a.nodes.push ⟨op, ty, flags, span⟩)
      (hslice : span.slice b.pool = operands)
      (hconst : b.constants = a.constantsWith ⟨op, ty, flags, span⟩) :
      Pushes a op ty operands flags (.ok (.ofIndex a.size), b)

theorem pushes_allocate (a : Arena) (op : Op) (ty : Ty) (operands : List NodeId) (flags : Flags)
    (h : operands.all (·.index < a.size)) (hnew : a.interned? op ty = none) :
    a.Pushes op ty operands flags (a.allocate op ty operands flags h) := by
  unfold allocate
  split
  next => exact .refused rfl rfl
  next hsize =>
    have hsize : a.size < identLimit := Nat.lt_of_not_le hsize
    split
    next he =>
      have hslice : Span.empty.slice a.pool = operands := by
        rw [Span.slice_empty, List.isEmpty_iff.1 he]
      exact .added hsize hnew rfl hslice rfl
    next =>
      split
      next => exact .refused rfl rfl
      next hp =>
        split
        next => exact .refused rfl rfl
        next hl =>
          have hslice := a.slice_nextSpan (Nat.lt_of_not_le hp) (Nat.lt_of_not_le hl)
          exact .added hsize hnew rfl hslice rfl

theorem interned?_eq_some {a : Arena} {op : Op} {ty : Ty} {n : NodeId}
    (h : a.interned? op ty = some n) : ∃ l, op = .lit l ∧ a.constants[(l, ty)]? = some n := by
  cases op with
  | lit l => exact ⟨l, rfl, h⟩
  | _ => simp [interned?] at h

/-- A push ends in one of the ways that `Pushes` lists. -/
theorem pushes (a : Arena) (op : Op) (ty : Ty) (operands : List NodeId) (flags : Flags) :
    a.Pushes op ty operands flags (a.push op ty operands flags) := by
  unfold push
  split
  next => exact .refused rfl rfl
  next =>
    split
    next h =>
      split
      next n hn =>
        obtain ⟨l, hop, hl⟩ := interned?_eq_some hn
        exact .interned hop hl
      next hnew => exact a.pushes_allocate op ty operands flags h hnew
    next => exact .refused rfl rfl

/-! ### Literals keep their nodes -/

theorem getElem?_constantsWith (a : Arena) (node : Node) (l : Literal) (ty : Ty) :
    (a.constantsWith node)[(l, ty)]? =
      if node.op = .lit l ∧ node.ty = ty then some (.ofIndex a.size)
      else a.constants[(l, ty)]? := by
  unfold constantsWith
  split
  next l' hop =>
    rw [Std.TreeMap.getElem?_insert, hop]
    simp only [Std.compare_eq_iff_eq, Prod.mk.injEq, Op.lit.injEq]
  next hop =>
    have hne : ¬ (node.op = .lit l ∧ node.ty = ty) := fun h => hop l h.1
    rw [if_neg hne]

/-- The second arena has all that the first has, and literals have the same nodes in it. -/
structure Precedes (a b : Arena) : Prop where
  grown : a.Extends b
  literal : ∀ {l : Literal} {ty : Ty} {n}, a.constants[(l, ty)]? = some n →
    b.constants[(l, ty)]? = some n

theorem Precedes.refl (a : Arena) : a.Precedes a := ⟨.refl a, id⟩

theorem Precedes.trans {a b c : Arena} (h : a.Precedes b) (h' : b.Precedes c) : a.Precedes c :=
  ⟨h.grown.trans h'.grown, fun hn => h'.literal (h.literal hn)⟩

theorem precedes_push (a : Arena) (op : Op) (ty : Ty) (operands : List NodeId) (flags : Flags) :
    a.Precedes (a.push op ty operands flags).2 := by
  refine ⟨a.extends_push op ty operands flags, fun {l ty' n} hn => ?_⟩
  have hp := a.pushes op ty operands flags
  generalize a.push op ty operands flags = r at hp ⊢
  cases hp with
  | refused hnodes hconst => rwa [hconst]
  | interned hop hl => exact hn
  | added hsize hnew hnodes hslice hconst =>
    rw [hconst, getElem?_constantsWith]
    split
    next heq =>
      -- a literal that has a node is not added
      obtain ⟨rfl, rfl⟩ := heq
      simp [interned?, hn] at hnew
    next => exact hn

/-! ### Nodes that were pushed -/

section

variable {a b : Arena} {op : Op} {ty : Ty} {operands : List NodeId} {flags : Flags} {n : NodeId}

theorem precedes_of_push {r : Except Fault NodeId} (h : a.push op ty operands flags = (r, b)) :
    a.Precedes b := by
  have hp := a.precedes_push op ty operands flags
  rwa [h] at hp

theorem node?_ofIndex_size {node : Node} (hsize : a.size < identLimit)
    (hnodes : b.nodes = a.nodes.push node) : b.node? (.ofIndex a.size) = some node := by
  rw [node?, NodeId.index_ofIndex hsize, hnodes]
  exact Array.getElem?_push_size

theorem size_le_of_push (h : a.push op ty operands flags = (.ok n, b)) : a.size ≤ b.size := by
  have hp := a.pushes op ty operands flags
  rw [h] at hp
  cases hp with
  | interned hlit hn => exact Nat.le_refl _
  | added hsize hnew hnodes hslice hconst =>
    rw [size, size, hnodes, Array.size_push]
    exact Nat.le_succ _

theorem interned?_congr (hconst : b.constants = a.constants) (op : Op) (ty : Ty) :
    b.interned? op ty = a.interned? op ty := by
  unfold interned?
  rw [hconst]

theorem found_of_push {m : NodeId} (hfound : a.interned? op ty = some m)
    (h : a.push op ty operands flags = (.ok n, b)) : n = m ∧ b = a := by
  have hp := a.pushes op ty operands flags
  rw [h] at hp
  cases hp with
  | interned hlit hn =>
    subst hlit
    exact ⟨Option.some.inj (hn.symm.trans hfound), rfl⟩
  | added hsize hnew hnodes hslice hconst =>
    rw [hnew] at hfound
    cases hfound

theorem interned?_of_ne_constant (hop : op.kind ≠ .constant) : a.interned? op ty = none := by
  cases hn : a.interned? op ty with
  | none => rfl
  | some n =>
    obtain ⟨l, hlit, -⟩ := interned?_eq_some hn
    exact absurd (Op.kind_eq_constant_iff.2 ⟨l, hlit⟩) hop

/-- A node that was pushed, and had no node before, has the next number and reads back as it was given. -/
theorem new_of_push (hnew : a.interned? op ty = none)
    (h : a.push op ty operands flags = (.ok n, b)) :
    n.index = a.size ∧ b.size = a.size + 1 ∧
      ∃ span, b.node? n = some ⟨op, ty, flags, span⟩ ∧ b.operands n = operands ∧
        b.constants = a.constantsWith ⟨op, ty, flags, span⟩ := by
  have hp := a.pushes op ty operands flags
  rw [h] at hp
  cases hp with
  | interned hlit hn =>
    subst hlit
    rw [interned?, hn] at hnew
    cases hnew
  | @added _ span hsize hnew hnodes hslice hconst =>
    have hnode := node?_ofIndex_size hsize hnodes
    refine ⟨NodeId.index_ofIndex hsize, by simp [size, hnodes], span, hnode, ?_, hconst⟩
    rw [Arena.operands, hnode]
    exact hslice

theorem node?_of_push (hop : op.kind ≠ .constant)
    (h : a.push op ty operands flags = (.ok n, b)) :
    b.size = a.size + 1 ∧
      ∃ span, b.node? n = some ⟨op, ty, flags, span⟩ ∧ b.operands n = operands := by
  obtain ⟨-, hsize, span, hnode, hops, -⟩ := new_of_push (interned?_of_ne_constant hop) h
  exact ⟨hsize, span, hnode, hops⟩

/-- The node that a push of a literal returns is the node of that literal. -/
theorem literal_of_push {l : Literal} (h : a.push (.lit l) ty operands flags = (.ok n, b)) :
    b.constants[(l, ty)]? = some n := by
  have hp := a.pushes (.lit l) ty operands flags
  rw [h] at hp
  cases hp with
  | interned hlit hn =>
    cases hlit
    exact hn
  | added hsize hnew hnodes hslice hconst =>
    rw [hconst, getElem?_constantsWith, if_pos ⟨rfl, rfl⟩]

theorem eq_of_push_literal {l : Literal} {m : NodeId} (hn : a.constants[(l, ty)]? = some n)
    (h : a.push (.lit l) ty operands flags = (.ok m, b)) : m = n := by
  have hkept := (precedes_of_push h).literal hn
  exact Option.some.inj ((literal_of_push h).symm.trans hkept)

end

/-! ### Reachable arenas -/

/-- The arena comes from the empty one by changes, some of which may have been refused. -/
inductive Reachable : Arena → Prop
  | empty : Reachable .empty
  | edit {a : Arena} (h : Reachable a) (e : Edit) : Reachable (a.edit e).2

theorem Reachable.of_push {a b : Arena} (h : a.Reachable) {op : Op} {ty : Ty}
    {operands : List NodeId} {flags : Flags} {r : Except Fault NodeId}
    (hpush : a.push op ty operands flags = (r, b)) : b.Reachable := by
  have hb := h.edit (.push op ty operands flags)
  rwa [Arena.edit, hpush] at hb

end ValueNumbering.Arena
