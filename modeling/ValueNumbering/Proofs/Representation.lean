import Mathlib.Logic.Relation
import ValueNumbering.Arena.Build
import ValueNumbering.Proofs.Pushes

/-!
# How an arena represents a graph

An arena keeps its nodes in one array, the operands of all nodes in one pool, and the nodes of literals
in a map. A push changes these one after the other and may stop halfway. `Arena.WellFormed` says how they
fit together nevertheless, and `Arena.representation` that they do so in every arena that calls make of
the empty one, whichever of the calls were refused:

* the columns of the nodes have one length, and each node has a number of its own;
* the operands of a node are the stretch of the pool that its span covers, they are as many as its
  operation takes, and they are older than the node;
* the map knows the node of a literal and a type exactly if there is such a node.

The graph therefore has no cycles, and what is computed for a node, its hash or the result of a
comparison, comes from nodes with smaller numbers (`View.Descends`).

What a push has to keep by itself are the arity of new nodes (`Arena.arity_of_push`) and the map
(`Arena.WellFormed.push`). The rest holds as operands are in order (`Arena.ordered`).
-/

namespace ValueNumbering

theorem Span.length_slice {s : Span} {pool : Array NodeId} (h : s.stop ≤ pool.size) :
    (s.slice pool).length = s.length.toNat := by
  simp only [slice, Array.length_toList, Array.size_extract]
  simp only [stop] at h ⊢
  omega

/-! ### Calls -/

/-- A call that changes an arena: a push, one of the functions that build a sort of node, or a
declaration of types. -/
inductive Call
  | push (op : Op) (ty : Ty) (operands : List NodeId) (flags : Flags)
  | int (value : Int64)
  | bool (value : Bool)
  | float (bits : UInt64)
  | var (name : Symbol) (version : UInt32) (ty : Ty)
  | decl (name : Symbol) (ty : Ty)
  | binary (op : BinaryOp) (left right : NodeId) (ty : Ty)
  | unary (op : UnaryOp) (operand : NodeId) (ty : Ty)
  | convert (operand : NodeId) (ty : Ty)
  | load (address : NodeId) (ty : Ty)
  | call (callee : Symbol) (args : List NodeId) (ty : Ty)
  | effectfulCall (callee : Symbol) (args : List NodeId) (ty : Ty)
  | assign (target value : NodeId)
  | store (address value : NodeId)
  | label (name : Symbol)
  | declare (s t : Ty)
deriving DecidableEq, Repr

/-- The change that a call makes. A call for a sort of node pushes it with the type and the flags that belong
to the sort. -/
def Call.edit : Call → Edit
  | .push op ty operands flags => .push op ty operands flags
  | .int value => .push (.lit (.int value)) .int [] .empty
  | .bool value => .push (.lit (.bool value)) .bool [] .empty
  | .float bits => .push (.lit (.float bits)) .float [] .empty
  | .var name version ty => .push (.var name version) ty [] .empty
  | .decl name ty => .push (.decl name) ty [] .empty
  | .binary op left right ty =>
    .push (.binary op) ty [left, right] (if op.mayTrap then .mayTrap else .empty)
  | .unary op operand ty => .push (.unary op) ty [operand] .empty
  | .convert operand ty => .push .convert ty [operand] .empty
  | .load address ty => .push .load ty [address] .empty
  | .call callee args ty => .push (.call callee) ty args .empty
  | .effectfulCall callee args ty => .push (.call callee) ty args .sideEffects
  | .assign target value => .push .assign .void [target, value] .empty
  | .store address value => .push .store .void [address, value] .sideEffects
  | .label name => .push (.label name) .void [] .empty
  | .declare s t => .declare s t

namespace Arena

/-- The answer to a call that builds a node. -/
def built (r : Except Fault NodeId × Arena) : Except Fault (Option NodeId) × Arena :=
  (r.1.map some, r.2)

/-- Makes a call, and returns the node that it led to, if any. -/
def perform (a : Arena) : Call → Except Fault (Option NodeId) × Arena
  | .push op ty operands flags => built (a.push op ty operands flags)
  | .int value => built (a.int value)
  | .bool value => built (a.bool value)
  | .float bits => built (a.float bits)
  | .var name version ty => built (a.var name version ty)
  | .decl name ty => built (a.decl name ty)
  | .binary op left right ty => built (a.binary op left right ty)
  | .unary op operand ty => built (a.unary op operand ty)
  | .convert operand ty => built (a.convert operand ty)
  | .load address ty => built (a.load address ty)
  | .call callee args ty => built (a.call callee args ty)
  | .effectfulCall callee args ty => built (a.effectfulCall callee args ty)
  | .assign target value => built (a.assign target value)
  | .store address value => built (a.store address value)
  | .label name => built (a.label name)
  | .declare s t => (.ok none, a.declare s t)

/-- Makes calls in order, whether they are refused or not, and returns the answers. -/
def performAll (a : Arena) : List Call → List (Except Fault (Option NodeId)) × Arena
  | [] => ([], a)
  | c :: rest =>
    let (answers, last) := (a.perform c).2.performAll rest
    ((a.perform c).1 :: answers, last)

/-- Calls with the answers to them. -/
def answered (a : Arena) (calls : List Call) : List (Call × Except Fault (Option NodeId)) :=
  calls.zip (a.performAll calls).1

theorem performAll_cons (a : Arena) (c : Call) (rest : List Call) :
    a.performAll (c :: rest) =
      ((a.perform c).1 :: ((a.perform c).2.performAll rest).1, ((a.perform c).2.performAll rest).2) :=
  rfl

theorem answered_cons (a : Arena) (c : Call) (rest : List Call) :
    a.answered (c :: rest) = (c, (a.perform c).1) :: (a.perform c).2.answered rest := rfl

/-- Every call is a push or a declaration. -/
theorem perform_eq (a : Arena) (c : Call) : a.perform c = a.edit c.edit := by
  cases c <;> rfl

/-- What every push and every declaration keeps is kept by calls. -/
theorem performAll_keeps {P : Arena → Prop} (step : ∀ a e, P a → P (a.edit e).2) {a : Arena} (h : P a)
    (calls : List Call) : P (a.performAll calls).2 := by
  induction calls generalizing a with
  | nil => exact h
  | cons c rest ih =>
    have hnext : P (a.perform c).2 := by
      rw [perform_eq]
      exact step a c.edit h
    exact ih hnext

theorem Reachable.performAll {a : Arena} (h : a.Reachable) (calls : List Call) :
    (a.performAll calls).2.Reachable :=
  performAll_keeps (fun _ e h => h.edit e) h calls

/-! ### The parts of an arena -/

/-- The operations of the nodes. -/
def ops (a : Arena) : Array Op := a.nodes.map (·.op)

/-- The types of the nodes. -/
def types (a : Arena) : Array Ty := a.nodes.map (·.ty)

/-- The flags of the nodes. -/
def flags (a : Arena) : Array Flags := a.nodes.map (·.flags)

/-- The spans of the nodes. -/
def spans (a : Arena) : Array Span := a.nodes.map (·.span)

/-- The parts of an arena fit together. -/
structure WellFormed (a : Arena) : Prop where
  columns : a.ops.size = a.size ∧ a.types.size = a.size ∧ a.flags.size = a.size ∧
    a.spans.size = a.size
  /-- Every node has a number of its own. -/
  size_le : a.size ≤ identLimit
  /-- A span lies in the pool, and the operands of the node are all that it covers. -/
  span : ∀ n q, a.node? n = some q → q.span.stop ≤ a.pool.size ∧
    (a.operands n).length = q.span.length.toNat ∧ q.span.length.toNat ≤ 65535
  /-- Operands are older than their user. -/
  older : ∀ n, ∀ o ∈ a.operands n, o.index < n.index
  /-- A node has as many operands as its operation takes. -/
  arity : ∀ n q k, a.node? n = some q → q.op.arity? = some k → (a.operands n).length = k
  /-- The map has the nodes of literals, and nothing else. -/
  literal : ∀ (l : Literal) (ty : Ty) n, a.constants[(l, ty)]? = some n ↔
    ∃ q, a.node? n = some q ∧ q.op = .lit l ∧ q.ty = ty

section push

variable {a b : Arena} {op : Op} {ty : Ty} {operands : List NodeId} {flags : Flags} {n : NodeId}

theorem node?_added {node : Node} (hsize : a.size < identLimit)
    (hnodes : b.nodes = a.nodes.push node) (n : NodeId) :
    b.node? n = if n = .ofIndex a.size then some node else a.node? n := by
  have hn : n = .ofIndex a.size ↔ n.index = a.nodes.size := by
    rw [← NodeId.index_inj, NodeId.index_ofIndex hsize, size]
  rw [node?, node?, hnodes, Array.getElem?_push]
  simp only [hn]

theorem arity_of_push (h : a.push op ty operands flags = (.ok n, b)) {k : Nat}
    (hk : op.arity? = some k) : operands.length = k := by
  by_contra hne
  simp [push, arityFault?, hk, hne] at h

/-- What a push has to keep. The rest of being well-formed holds of every arena whose operands are in
order. -/
theorem WellFormed.of_kept (hsize : a.size ≤ identLimit)
    (harity : ∀ n q k, a.node? n = some q → q.op.arity? = some k → (a.operands n).length = k)
    (hliteral : ∀ (l : Literal) (ty : Ty) n, a.constants[(l, ty)]? = some n ↔
      ∃ q, a.node? n = some q ∧ q.op = .lit l ∧ q.ty = ty) : a.WellFormed := by
  refine ⟨?_, hsize, fun n q hq => ?_, fun n o ho => index_lt_of_mem_operands ho, harity, hliteral⟩
  · simp [ops, types, Arena.flags, spans, size]
  · obtain ⟨hi, rfl⟩ := Array.getElem?_eq_some_iff.1 hq
    have hstop := (a.ordered n.index hi).1
    have hlength := a.nodes[n.index].span.length.toNat_lt
    refine ⟨hstop, ?_, by omega⟩
    rw [Arena.operands, hq]
    exact Span.length_slice hstop

theorem wellFormed_empty : Arena.empty.WellFormed := by
  have hnode : ∀ n, Arena.empty.node? n = none := fun n => rfl
  have hconst : ∀ (l : Literal) (ty : Ty), Arena.empty.constants[(l, ty)]? = none := by
    simp [Arena.empty]
  refine .of_kept (Nat.zero_le _) (fun n q k hq => ?_) (fun l ty n => ?_)
  · simp [hnode] at hq
  · simp [hnode, hconst]

theorem WellFormed.declare (h : a.WellFormed) (s t : Ty) : (a.declare s t).WellFormed :=
  ⟨h.columns, h.size_le, h.span, h.older, h.arity, h.literal⟩

/-- A push that adds no node changes at most the pool, and that only behind the operands. -/
theorem WellFormed.of_nodes_eq (h : a.WellFormed) (hab : a.Extends b) (hnodes : b.nodes = a.nodes)
    (hconst : b.constants = a.constants) : b.WellFormed := by
  have hnode : ∀ n, b.node? n = a.node? n := fun n => by rw [node?, node?, hnodes]
  refine .of_kept ?_ (fun n q k hq hk => ?_) (fun l ty n => ?_)
  · rw [size, hnodes]
    exact h.size_le
  · rw [hnode] at hq
    rw [hab.operands_eq (index_lt_of_node hq)]
    exact h.arity n q k hq hk
  · rw [hconst, hnode]
    exact h.literal l ty n

theorem WellFormed.added {span : Span} (h : a.WellFormed) (hab : a.Extends b)
    (hsize : a.size < identLimit) (hnew : a.interned? op ty = none)
    (hnodes : b.nodes = a.nodes.push ⟨op, ty, flags, span⟩) (hslice : span.slice b.pool = operands)
    (hconst : b.constants = a.constantsWith ⟨op, ty, flags, span⟩)
    (harity : ∀ k, op.arity? = some k → operands.length = k) : b.WellFormed := by
  have hnode := node?_added hsize hnodes
  have hlast : a.node? (.ofIndex a.size) = none :=
    node?_eq_none_iff.2 (Nat.le_of_eq (NodeId.index_ofIndex hsize).symm)
  refine .of_kept ?_ (fun n q k hq hk => ?_) (fun l t n => ?_)
  · rw [size, hnodes, Array.size_push]
    exact hsize
  · rw [hnode] at hq
    split at hq
    next hn =>
      obtain rfl := Option.some.inj hq
      rw [hn, Arena.operands, node?_ofIndex_size hsize hnodes]
      exact (congrArg List.length hslice).trans (harity k hk)
    next =>
      rw [hab.operands_eq (index_lt_of_node hq)]
      exact h.arity n q k hq hk
  · rw [hconst, getElem?_constantsWith, hnode]
    by_cases hn : n = .ofIndex a.size
    · -- the new node is in the map exactly if it is this literal
      rw [if_pos hn, hn]
      split
      next heq => simpa using heq
      next hne =>
        rw [h.literal, hlast]
        simpa using fun hop hty => hne ⟨hop, hty⟩
    · rw [if_neg hn, ← h.literal]
      split
      next heq =>
        -- a literal that is added had no node before
        obtain ⟨rfl, rfl⟩ := heq
        refine iff_of_false (fun hsame => hn (Option.some.inj hsame).symm) fun hold => ?_
        simp [interned?, hold] at hnew
      next => exact Iff.rfl

/-- A push keeps an arena well-formed, whether it is refused or not. -/
theorem WellFormed.push (h : a.WellFormed) (op : Op) (ty : Ty) (operands : List NodeId)
    (flags : Flags) : (a.push op ty operands flags).2.WellFormed := by
  have hgrown := a.extends_push op ty operands flags
  have hp := a.pushes op ty operands flags
  rcases hpush : a.push op ty operands flags with ⟨r, b⟩
  rw [hpush] at hgrown hp
  cases hp with
  | refused hnodes hconst => exact h.of_nodes_eq hgrown hnodes hconst
  | interned hop hn => exact h
  | added hsize hnew hnodes hslice hconst =>
    exact h.added hgrown hsize hnew hnodes hslice hconst fun k hk => arity_of_push hpush hk

end push

/-! ### Arenas that calls have built -/

theorem Reachable.wellFormed {a : Arena} (h : a.Reachable) : a.WellFormed := by
  induction h with
  | empty => exact wellFormed_empty
  | edit _ e ih =>
    cases e with
    | push op ty operands flags => exact ih.push op ty operands flags
    | declare s t => exact ih.declare s t

theorem Reachable.size_le {a : Arena} (h : a.Reachable) : a.size ≤ identLimit := h.wellFormed.size_le

theorem Reachable.op_of_push {a b : Arena} (h : a.Reachable) {op : Op} {ty : Ty}
    {operands : List NodeId} {flags : Flags} {n : NodeId}
    (hpush : a.push op ty operands flags = (.ok n, b)) : ∃ q, b.node? n = some q ∧ q.op = op := by
  by_cases hc : op.kind = .constant
  · obtain ⟨l, rfl⟩ := Op.kind_eq_constant_iff.1 hc
    obtain ⟨q, hq, hop, -⟩ := ((h.of_push hpush).wellFormed.literal l ty n).1 (literal_of_push hpush)
    exact ⟨q, hq, hop⟩
  · obtain ⟨-, span, hn, -⟩ := node?_of_push hc hpush
    exact ⟨_, hn, rfl⟩

/-- The first node is an operand of the second. -/
def Feeds (a : Arena) (o n : NodeId) : Prop := o ∈ a.operands n

theorem index_lt_of_transGen {a : Arena} {o n : NodeId} (h : Relation.TransGen a.Feeds o n) :
    o.index < n.index := by
  induction h with
  | single ho => exact index_lt_of_mem_operands ho
  | tail _ ho ih => exact Nat.lt_trans ih (index_lt_of_mem_operands ho)

end Arena

/-! ### Recursion over the graph -/

namespace View

variable {v : View}

/-- Hashes come from the hashes of operands, and comparisons of different nodes from those of operands.
These have smaller numbers, and none of them is refused. -/
structure Descends (v : View) : Prop where
  hash : ∀ n, n.index < v.arena.size → ∃ below,
    List.Forall₂ (fun o hash => o.index < n.index ∧ v.hashNode o = .ok hash)
      (v.arena.operands n) below ∧ v.hashNode n = .ok (v.combine n below)
  equal : ∀ x y, x ≠ y → x.index < v.arena.size → y.index < v.arena.size →
    ∃ same, v.equal x y = .ok same ∧ (same = true ↔ v.agree x y ∧
      List.Forall₂ (fun o o' => o.index < x.index ∧ o'.index < y.index ∧ v.equal o o' = .ok true)
        (v.arena.operands x) (v.arena.operands y))

theorem hashNode_of_lt {n : NodeId} (hn : n.index < v.arena.size) :
    v.hashNode n = .ok (v.treeHash n) := by
  obtain ⟨q, hq⟩ := Arena.exists_node hn
  simp [hashNode_eq, Arena.node, hq, Except.map]

theorem descends (v : View) : v.Descends := by
  refine ⟨fun n hn => ?_, fun x y hne hx hy => ?_⟩
  · refine ⟨(v.arena.operands n).map v.treeHash, ?_, ?_⟩
    · rw [List.forall₂_map_right_iff, List.forall₂_same]
      intro o ho
      exact ⟨Arena.index_lt_of_mem_operands ho,
        hashNode_of_lt (Arena.index_lt_size_of_mem_operands ho)⟩
    · rw [hashNode_of_lt hn, treeHash, Arena.fold_eq]
      rfl
  · refine ⟨v.sameTree x y, equal_eq_sameTree hx hy, ?_⟩
    rw [sameTree_iff, or_iff_right hne]
    refine and_congr_right fun _ => ?_
    simp only [List.forall₂_iff_zip, equal_eq_true_iff]
    refine and_congr_right fun _ => ⟨fun h o o' ho => ?_, fun h o o' ho => (h ho).2.2⟩
    obtain ⟨hox, hoy⟩ := List.of_mem_zip ho
    exact ⟨Arena.index_lt_of_mem_operands hox, Arena.index_lt_of_mem_operands hoy, h ho⟩

end View

/-- However an arena was built from the empty one, by pushes, by calls for sorts of nodes and by
declarations, some of which may have been refused: its parts fit together, its graph has no cycles,
and hashes and comparisons descend to smaller numbers under every policy. -/
theorem Arena.representation (calls : List Call) :
    let a := (Arena.empty.performAll calls).2
    a.WellFormed ∧ (∀ n, ¬ Relation.TransGen a.Feeds n n) ∧ ∀ p, (View.mk a p).Descends := by
  intro a
  have ha : a.Reachable := Reachable.empty.performAll calls
  refine ⟨ha.wellFormed, fun n hn => ?_, fun p => View.descends ⟨a, p⟩⟩
  exact Nat.lt_irrefl _ (index_lt_of_transGen hn)

end ValueNumbering
