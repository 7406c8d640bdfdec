import ValueNumbering.Hash

/-!
# Equality of expressions

Two expressions are equal if they are the same node, or if neither has side effects, their
operations are the same, their types may stand for each other, and their operands are equal one by
one. `View.sameTree` says just that, by recursion.

`View.equal` decides it with the pairs that were already proven equal at hand, so that a pair of
shared nodes is compared once. It works through a list of obligations in order and stops at the
first that fails.
-/

namespace ValueNumbering

/-- Pairs of nodes that are known to be equal. -/
abbrev ProvenPairs := Std.TreeSet (NodeId × NodeId) lexOrd.compare

/-- What is left to do in a comparison. -/
inductive Obligation
  /-- Show that two nodes are equal. -/
  | compare (x y : NodeId)
  /-- Put down that two nodes are equal; their operands have been shown to be. -/
  | record (x y : NodeId)
deriving DecidableEq, Repr

/-- The nodes that are passed to meet an obligation, if nothing is known. -/
def Obligation.steps (a : Arena) : Obligation → List NodeId
  | .compare x _ => a.steps x
  | .record x _ => [x]

namespace View

variable (v : View)

/-- Whether two nodes agree in all but their operands: no side effects, the same operation, types
that may stand for each other, and as many operands. -/
def agree (x y : NodeId) : Bool :=
  match v.arena.node? x, v.arena.node? y with
  | some p, some q =>
    !v.hasEffects p && !v.hasEffects q && p.op = q.op && v.interchangeable p.ty q.ty &&
      (v.arena.operands x).length = (v.arena.operands y).length
  | _, _ => false

/-- Whether two nodes are equal, read as trees. -/
def sameTree (x y : NodeId) : Bool :=
  x = y || (v.agree x y &&
    ((v.arena.operands x).attach.zip (v.arena.operands y)).all fun p => sameTree p.1.1 p.2)
termination_by x.index
decreasing_by exact Arena.index_lt_of_mem_operands p.1.2

/-! ### Working through obligations -/

/-- The operands of two nodes in pairs. -/
def operandPairs (x y : NodeId) : List (NodeId × NodeId) :=
  (v.arena.operands x).zip (v.arena.operands y)

/-- What it takes to compare two nodes that agree but for their operands. Nodes without operands
are not worth putting down. -/
def obligations (x y : NodeId) : List Obligation :=
  if (v.operandPairs x y).isEmpty then []
  else (v.operandPairs x y).map (fun p => .compare p.1 p.2) ++ [.record x y]

theorem length_steps_zip_le (a : Arena) (xs ys : List NodeId) :
    ((xs.zip ys).flatMap fun p => a.steps p.1).length ≤ (xs.flatMap a.steps).length := by
  induction xs generalizing ys with
  | nil => exact Nat.le_refl _
  | cons x xs ih =>
    cases ys with
    | nil => exact Nat.zero_le _
    | cons y ys =>
      simp only [List.zip_cons_cons, List.flatMap_cons, List.length_append]
      exact Nat.add_le_add_left (ih ys) _

/-- Comparing the operands of a node takes fewer steps than comparing the node. -/
theorem length_steps_obligations_lt (x y : NodeId) :
    ((v.obligations x y).flatMap (Obligation.steps v.arena)).length < (v.arena.steps x).length := by
  have h := length_steps_zip_le v.arena (v.arena.operands x) (v.arena.operands y)
  rw [Arena.steps_eq]
  unfold obligations operandPairs
  split
  · simp
  · simp only [List.flatMap_append, List.flatMap_map, Obligation.steps, List.flatMap_singleton,
      List.length_append, List.length_cons, List.length_nil]
    omega

/-- Works through obligations in order until one fails, and returns whether all were met and which
pairs are known then. -/
def settle (obs : List Obligation) (known : ProvenPairs) : Bool × ProvenPairs :=
  match obs with
  | [] => (true, known)
  | .compare x y :: rest =>
    if x = y || known.contains (x, y) then settle rest known
    else if v.agree x y then settle (v.obligations x y ++ rest) known
    else (false, known)
  | .record x y :: rest => settle rest (known.insert (x, y))
termination_by (obs.flatMap (Obligation.steps v.arena)).length
decreasing_by
  · simp only [List.flatMap_cons, List.length_append, Obligation.steps, Arena.steps_eq v.arena x,
      List.length_cons]
    omega
  · have := v.length_steps_obligations_lt x y
    simp only [List.flatMap_append, List.flatMap_cons, List.length_append, Obligation.steps]
    omega
  · simp only [List.flatMap_cons, List.length_append, Obligation.steps, List.length_cons]
    omega

/-- Whether two expressions are equal. A node equals itself, whether it exists or not. Otherwise it
is a fault if the first node does not exist, or if the second does not and the first has no side
effects. -/
def equal (x y : NodeId) : Except Fault Bool :=
  if x = y then .ok true
  else match v.arena.node x with
    | .error fault => .error fault
    | .ok p =>
      if v.hasEffects p then .ok false
      else match v.arena.node y with
        | .error fault => .error fault
        | .ok _ => .ok (v.settle [.compare x y] ∅).1

/-- Whether two keys are equal: the same memory versions, and equal expressions. -/
def equalKeys (k l : Key) : Except Fault Bool :=
  if k.deps == l.deps then v.equal k.node l.node else .ok false

end View

end ValueNumbering
