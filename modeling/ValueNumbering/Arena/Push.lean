import ValueNumbering.Arena.Basic

/-!
# Adding nodes

`Arena.push` adds a node, or finds the node that a literal already has. It refuses a node whose
operands do not fit its operation, are not in the arena, or are too many for a span. A refusal
leaves all nodes as they were. Only the list that is too long for a span leaves a trace: it stays
in the pool, where no node refers to it.

That operands fit their operation and are in the arena is up to the caller. Both checks are assertions,
and are taken to be enabled.
-/

namespace ValueNumbering

/-! ### The order of nodes is kept -/

namespace Ordered

variable {nodes : Array Node} {pool : Array NodeId}

theorem extend (h : Ordered nodes pool) (more : List NodeId) : Ordered nodes (pool ++ more) := by
  intro i hi
  obtain ⟨hs, ho⟩ := h i hi
  refine ⟨Nat.le_trans hs (by simp [← Array.length_toList]), ?_⟩
  rwa [Span.slice_append hs]

theorem push (h : Ordered nodes pool) {node : Node} (hs : node.span.stop ≤ pool.size)
    (ho : ∀ o ∈ node.span.slice pool, o.index < nodes.size) : Ordered (nodes.push node) pool := by
  intro i hi
  rw [Array.getElem_push]
  split
  next hlt => exact h i hlt
  next hge =>
    have : i = nodes.size := by simp at hi; omega
    subst this
    exact ⟨hs, ho⟩

end Ordered

namespace Arena

variable (a : Arena)

/-! ### Growing the arena -/

/-- Adds entries to the pool. -/
def extendPool (more : List NodeId) : Arena :=
  { a with pool := a.pool ++ more, ordered := a.ordered.extend more }

/-- The nodes of literals after a node was added: the node of a literal becomes the one that later
pushes of that literal find. -/
def constantsWith (node : Node) : Std.TreeMap (Literal × Ty) NodeId lexOrd.compare :=
  match node.op with
  | .lit l => a.constants.insert (l, node.ty) (.ofIndex a.size)
  | _ => a.constants

/-- Adds a node whose operands are in the pool. -/
def append (node : Node) (hs : node.span.stop ≤ a.pool.size)
    (ho : ∀ o ∈ node.span.slice a.pool, o.index < a.size) : Arena :=
  let constants := a.constantsWith node
  { a with nodes := a.nodes.push node, constants, ordered := a.ordered.push hs ho }

/-- The span of an operand list that is stored at the end of the pool. -/
def nextSpan (operands : List NodeId) : Span :=
  ⟨UInt32.ofNat a.pool.size, UInt16.ofNat operands.length⟩

theorem stop_nextSpan {operands : List NodeId} (hp : a.pool.size < identLimit)
    (hl : operands.length < Span.lengthLimit) :
    (a.nextSpan operands).stop = (a.extendPool operands).pool.size := by
  have h1 : a.pool.size % 2 ^ 32 = a.pool.size := Nat.mod_eq_of_lt hp
  have h2 : operands.length % 2 ^ 16 = operands.length := Nat.mod_eq_of_lt hl
  simp only [Span.stop, nextSpan, extendPool, UInt32.toNat_ofNat', UInt16.toNat_ofNat', h1, h2]
  simp [← Array.length_toList]

theorem slice_nextSpan {operands : List NodeId} (hp : a.pool.size < identLimit)
    (hl : operands.length < Span.lengthLimit) :
    (a.nextSpan operands).slice (a.extendPool operands).pool = operands :=
  Span.slice_append_self hp hl

/-! ### Pushing a node -/

/-- The fault of an operand list that does not fit the operation. -/
def arityFault? (op : Op) (operands : List NodeId) : Option Fault :=
  match op.arity? with
  | some k => if operands.length = k then none else some (.wrongArity op k operands.length)
  | none => none

/-- The node that a literal of this type already has. -/
def interned? (op : Op) (ty : Ty) : Option NodeId :=
  match op with
  | .lit l => a.constants[(l, ty)]?
  | _ => none

/-- Adds a node to the arena, whose operands are nodes already. -/
def allocate (op : Op) (ty : Ty) (operands : List NodeId) (flags : Flags)
    (h : operands.all (·.index < a.size)) : Except Fault NodeId × Arena :=
  if identLimit ≤ a.size then (.error (.tooManyNodes a.size), a)
  else if operands.isEmpty then
    (.ok (.ofIndex a.size),
      a.append ⟨op, ty, flags, .empty⟩ (Nat.zero_le _) (by simp))
  else if hp : identLimit ≤ a.pool.size then (.error (.tooManyPoolEntries a.pool.size), a)
  else if hl : Span.lengthLimit ≤ operands.length then
    (.error (.tooManyOperands operands.length), a.extendPool operands)
  else
    let node : Node := ⟨op, ty, flags, a.nextSpan operands⟩
    (.ok (.ofIndex a.size),
      (a.extendPool operands).append node
        (Nat.le_of_eq (a.stop_nextSpan (Nat.lt_of_not_le hp) (Nat.lt_of_not_le hl)))
        (by
          rw [a.slice_nextSpan (Nat.lt_of_not_le hp) (Nat.lt_of_not_le hl)]
          exact fun o ho => of_decide_eq_true (List.all_eq_true.1 h o ho)))

/-- Adds a node and returns its id. A literal that the arena has with the same type is not added
again: its first node is returned, with the flags it was pushed with. Faults are found in this
order: the number of operands, operands that are not in the arena, too many operands. The first two
are failed assertions. -/
def push (op : Op) (ty : Ty) (operands : List NodeId) (flags : Flags) :
    Except Fault NodeId × Arena :=
  match arityFault? op operands with
  | some fault => (.error fault, a)
  | none =>
    if h : operands.all (·.index < a.size) then
      match a.interned? op ty with
      | some n => (.ok n, a)
      | none => a.allocate op ty operands flags h
    else (.error .operandNotAllocated, a)

end Arena

end ValueNumbering
