import Mathlib.Data.Finset.Card
import ValueNumbering.Proofs.ReadingBack

/-!
# Literals are interned

The first push of a literal with a type adds a node, and every later one finds this node, with the flags of the
first push. A push of anything else adds a node each time. `Arena.literals_interned` says so of all arenas that
calls make of the empty one, whichever of the calls were refused.

It is about the history of an arena: `Arena.pushed` lists the pushes that were not refused (`Pushed`), in order.
An arena is accounted for by its history (`Arena.Accounted`) if the map of literals knows the nodes of first
pushes, if these nodes have the flags of first pushes, and if the number of nodes is that of the pushes of other
operations plus that of different literals. Each push keeps that (`Arena.Accounted.push`), and so do calls.
-/

namespace ValueNumbering

/-- A push that was not refused: what was pushed, and the node that it led to. -/
structure Pushed where
  op : Op
  ty : Ty
  flags : Flags
  node : NodeId
deriving DecidableEq, Repr

/-- What a change has pushed, if it is a push and was not refused. -/
def Edit.pushed? : Edit → Except Fault (Option NodeId) → Option Pushed
  | .push op ty _ flags, .ok (some n) => some ⟨op, ty, flags, n⟩
  | _, _ => none

/-! ### Histories -/

namespace Pushed

/-- The first push of an operation with a type. -/
def first? (done : List Pushed) (op : Op) (ty : Ty) : Option Pushed :=
  done.find? fun r => r.op = op ∧ r.ty = ty

/-- The literals that were pushed, with their types. -/
def literals (done : List Pushed) : Finset (Op × Ty) :=
  ((done.filter fun r => r.op.kind = .constant).map fun r => (r.op, r.ty)).toFinset

/-- The number of pushes of operations that are no literals. -/
def others (done : List Pushed) : Nat := done.countP fun r => r.op.kind ≠ .constant

variable {done : List Pushed} {op : Op} {ty : Ty}

theorem first?_concat (r : Pushed) :
    first? (done ++ [r]) op ty =
      (first? done op ty).or (if r.op = op ∧ r.ty = ty then some r else none) := by
  unfold first?
  rw [List.find?_append, List.find?_singleton]
  simp only [decide_eq_true_eq]

theorem isSome_first?_iff (hop : op.kind = .constant) :
    (first? done op ty).isSome ↔ (op, ty) ∈ literals done := by
  simp only [first?, literals, List.find?_isSome, List.mem_toFinset, List.mem_map, List.mem_filter,
    decide_eq_true_eq, Prod.mk.injEq]
  constructor
  · rintro ⟨r, hr, rfl, rfl⟩
    exact ⟨r, ⟨hr, hop⟩, rfl, rfl⟩
  · rintro ⟨r, ⟨hr, -⟩, hrop, hrty⟩
    exact ⟨r, hr, hrop, hrty⟩

theorem literals_concat (r : Pushed) :
    literals (done ++ [r]) =
      if r.op.kind = .constant then insert (r.op, r.ty) (literals done) else literals done := by
  unfold literals
  rw [List.filter_append, List.map_append, List.toFinset_append]
  split
  next h => simp [h, Finset.union_comm]
  next h => simp [h]

theorem others_concat (r : Pushed) :
    others (done ++ [r]) = others done + if r.op.kind = .constant then 0 else 1 := by
  unfold others
  rw [List.countP_append, List.countP_singleton]
  split <;> simp_all

end Pushed

namespace Arena

open Pushed (first? literals others)

/-- What calls have pushed, in order. -/
def pushed (a : Arena) (calls : List Call) : List Pushed :=
  (a.answered calls).filterMap fun p => p.1.edit.pushed? p.2

theorem pushed_cons (a : Arena) (c : Call) (rest : List Call) :
    a.pushed (c :: rest) =
      (c.edit.pushed? (a.perform c).1).toList ++ (a.perform c).2.pushed rest := by
  rw [pushed, answered_cons, List.filterMap_cons]
  cases c.edit.pushed? (a.perform c).1 <;> rfl

/-- The literals and the number of nodes of an arena are what pushes have made of the empty one. -/
structure Accounted (a : Arena) (done : List Pushed) : Prop where
  /-- A literal has the node of its first push. -/
  interned : ∀ op ty, op.kind = .constant → a.interned? op ty = (first? done op ty).map (·.node)
  /-- The node has the flags of that push. -/
  node : ∀ op ty r, op.kind = .constant → first? done op ty = some r →
    ∃ q, a.node? r.node = some q ∧ q.op = op ∧ q.ty = ty ∧ q.flags = r.flags
  size : a.size = others done + (literals done).card

theorem accounted_empty : Arena.empty.Accounted [] := by
  refine ⟨fun op ty hop => ?_, fun op ty r hop hr => ?_, rfl⟩
  · obtain ⟨l, rfl⟩ := Op.kind_eq_constant_iff.1 hop
    simp [interned?, Arena.empty, first?]
  · simp [first?] at hr

section push

variable {a b : Arena} {done : List Pushed} {op : Op} {ty : Ty} {operands : List NodeId}
  {flags : Flags} {n : NodeId}

theorem interned?_added {node : Node} (hconst : b.constants = a.constantsWith node)
    (hop : op.kind = .constant) :
    b.interned? op ty =
      if node.op = op ∧ node.ty = ty then some (.ofIndex a.size) else a.interned? op ty := by
  obtain ⟨l, rfl⟩ := Op.kind_eq_constant_iff.1 hop
  simp only [interned?, hconst, getElem?_constantsWith]

theorem Accounted.refused (h : a.Accounted done) (hnodes : b.nodes = a.nodes)
    (hconst : b.constants = a.constants) : b.Accounted done := by
  have hnode : ∀ n, b.node? n = a.node? n := fun n => by rw [node?, node?, hnodes]
  refine ⟨fun op ty hop => ?_, fun op ty r hop hr => ?_, ?_⟩
  · rw [interned?_congr hconst]
    exact h.interned op ty hop
  · rw [hnode]
    exact h.node op ty r hop hr
  · rw [Arena.size, hnodes]
    exact h.size

/-- One more push of a literal that was pushed before is not the first and no new literal. -/
theorem Accounted.again (h : a.Accounted done) {r : Pushed} (hr : r.op.kind = .constant)
    (hknown : (first? done r.op r.ty).isSome) : a.Accounted (done ++ [r]) := by
  have hfirst : ∀ op ty, first? (done ++ [r]) op ty = first? done op ty := by
    intro op ty
    rw [Pushed.first?_concat]
    split
    next heq =>
      -- there is an earlier one
      obtain ⟨rfl, rfl⟩ := heq
      obtain ⟨r', hr'⟩ := Option.isSome_iff_exists.1 hknown
      rw [hr', Option.some_or]
    next => rw [Option.or_none]
  have hmem := (Pushed.isSome_first?_iff hr).1 hknown
  refine ⟨fun op ty hop => ?_, fun op ty r' hop hr' => ?_, ?_⟩
  · rw [hfirst]
    exact h.interned op ty hop
  · rw [hfirst] at hr'
    exact h.node op ty r' hop hr'
  · rw [Pushed.others_concat, Pushed.literals_concat, if_pos hr, if_pos hr,
      Finset.insert_eq_of_mem hmem]
    exact h.size

/-- A new node is that of the first push of a literal, or one more node of another operation. -/
theorem Accounted.added (h : a.Accounted done) (hab : a.Extends b) {span : Span}
    (hsize : a.size < identLimit) (hnew : a.interned? op ty = none)
    (hnodes : b.nodes = a.nodes.push ⟨op, ty, flags, span⟩)
    (hconst : b.constants = a.constantsWith ⟨op, ty, flags, span⟩) :
    b.Accounted (done ++ [⟨op, ty, flags, .ofIndex a.size⟩]) := by
  have hunknown : op.kind = .constant → first? done op ty = none := by
    intro hop
    rw [h.interned op ty hop, Option.map_eq_none_iff] at hnew
    exact hnew
  refine ⟨fun op' ty' hop' => ?_, fun op' ty' r hop' hr => ?_, ?_⟩
  · rw [interned?_added hconst hop', Pushed.first?_concat, h.interned op' ty' hop']
    split
    next heq =>
      obtain ⟨rfl, rfl⟩ := heq
      rw [hunknown hop', Option.none_or]
      rfl
    next => rw [Option.or_none]
  · rw [Pushed.first?_concat, Option.or_eq_some_iff] at hr
    rcases hr with hr | ⟨-, hr⟩
    · obtain ⟨q, hq, hqr⟩ := h.node op' ty' r hop' hr
      exact ⟨q, hab.node? hq, hqr⟩
    · split at hr
      next heq =>
        obtain ⟨rfl, rfl⟩ := heq
        obtain rfl := Option.some.inj hr
        exact ⟨_, node?_ofIndex_size hsize hnodes, rfl, rfl, rfl⟩
      next => cases hr
  · have hgrown : b.size = a.size + 1 := by rw [Arena.size, hnodes, Array.size_push, Arena.size]
    have hcount := h.size
    rw [Pushed.others_concat, Pushed.literals_concat]
    by_cases hop : op.kind = .constant
    · have hfresh : (op, ty) ∉ literals done := by
        rw [← Pushed.isSome_first?_iff hop, hunknown hop]
        exact Bool.false_ne_true
      rw [if_pos hop, if_pos hop, Finset.card_insert_of_notMem hfresh]
      omega
    · rw [if_neg hop, if_neg hop]
      omega

theorem Accounted.push (h : a.Accounted done) (op : Op) (ty : Ty) (operands : List NodeId)
    (flags : Flags) :
    (a.push op ty operands flags).2.Accounted
      (done ++ ((Edit.push op ty operands flags).pushed? (a.edit (.push op ty operands flags)).1).toList) := by
  have hgrown := a.extends_push op ty operands flags
  have hp := a.pushes op ty operands flags
  simp only [edit]
  generalize a.push op ty operands flags = answer at hgrown hp ⊢
  cases hp with
  | refused hnodes hconst =>
    rw [Except.map, Edit.pushed?, Option.toList_none, List.append_nil]
    · exact h.refused hnodes hconst
    · simp
  | @interned l n hop hn =>
    subst hop
    refine h.again rfl ?_
    have hknown := h.interned (.lit l) ty rfl
    rw [interned?, hn] at hknown
    obtain ⟨r, hr, -⟩ := Option.map_eq_some_iff.1 hknown.symm
    exact Option.isSome_iff_exists.2 ⟨r, hr⟩
  | added hsize hnew hnodes hslice hconst => exact h.added hgrown hsize hnew hnodes hconst

end push

theorem Accounted.edit {a : Arena} {done : List Pushed} (h : a.Accounted done) (e : Edit) :
    (a.edit e).2.Accounted (done ++ (e.pushed? (a.edit e).1).toList) := by
  cases e with
  | push op ty operands flags => exact h.push op ty operands flags
  | declare s t =>
    rw [Edit.pushed?, Option.toList_none, List.append_nil]
    · exact h.refused rfl rfl
    · simp

theorem Accounted.performAll {a : Arena} {done : List Pushed} (h : a.Accounted done)
    (calls : List Call) : (a.performAll calls).2.Accounted (done ++ a.pushed calls) := by
  induction calls generalizing a done with
  | nil =>
    have hnone : done ++ a.pushed [] = done := List.append_nil done
    rw [hnone]
    exact h
  | cons c rest ih =>
    rw [performAll_cons, pushed_cons, ← List.append_assoc, perform_eq]
    exact ih (h.edit c.edit)

/-! ### What a push finds -/

/-- A push of a literal that has a node finds it and changes nothing. With operands it is refused, which changes
nothing either. -/
theorem push_of_interned {a : Arena} {op : Op} {ty : Ty} {n : NodeId}
    (h : a.interned? op ty = some n) (operands : List NodeId) (flags : Flags) :
    a.push op ty operands flags =
      (if operands = [] then .ok n else .error (.wrongArity op 0 operands.length), a) := by
  obtain ⟨l, rfl, -⟩ := interned?_eq_some h
  unfold push
  cases operands with
  | nil => simp [arityFault?, Op.arity?, h]
  | cons o os => simp [arityFault?, Op.arity?]

/-- What is no literal, or was not pushed before, has no node to be found. -/
theorem Accounted.interned?_eq_none {a : Arena} {done : List Pushed} (h : a.Accounted done) {op : Op}
    {ty : Ty} (hfirst : op.kind ≠ .constant ∨ first? done op ty = none) :
    a.interned? op ty = none := by
  by_cases hop : op.kind = .constant
  · rw [h.interned op ty hop, hfirst.resolve_left (not_not.2 hop)]
    rfl
  · exact interned?_of_ne_constant hop

theorem Reachable.eq_of_literal {a : Arena} (h : a.Reachable) {m n : NodeId} {p q : Node}
    (hm : a.node? m = some p) (hn : a.node? n = some q) (hp : p.op.kind = .constant)
    (hop : p.op = q.op) (hty : p.ty = q.ty) : m = n := by
  obtain ⟨l, hl⟩ := Op.kind_eq_constant_iff.1 hp
  have hfirst := (h.wellFormed.literal l p.ty m).2 ⟨p, hm, hl, rfl⟩
  have hsecond := (h.wellFormed.literal l p.ty n).2 ⟨q, hn, hop ▸ hl, hty.symm⟩
  exact Option.some.inj (hfirst.symm.trans hsecond)

/-- While there are numbers and places left, a push is not refused if its operands are as many as the operation
takes and a span holds, and exist. -/
theorem push_succeeds {a : Arena} {op : Op} {operands : List NodeId} (hn : a.size < identLimit)
    (hp : a.pool.size < identLimit) (harity : ∀ k, op.arity? = some k → operands.length = k)
    (hops : ∀ o ∈ operands, o.index < a.size) (hlen : operands.length ≤ 65535) (ty : Ty) (flags : Flags) :
    ∃ n b, a.push op ty operands flags = (.ok n, b) := by
  have hfits : arityFault? op operands = none := by
    rw [arityFault?_eq_none_iff]
    rintro ⟨k, hk, hne⟩
    exact hne (harity k hk)
  have hexist : operands.all (·.index < a.size) := by simpa using hops
  have hroom : operands.length < Span.lengthLimit := by
    unfold Span.lengthLimit
    omega
  obtain ⟨n, h⟩ := push_ok_iff.2 ⟨hfits, hexist, .inr ⟨hn, .inr ⟨hp, hroom⟩⟩⟩
  exact ⟨n, _, Prod.ext h rfl⟩

/-- However an arena was built from the empty one, where some calls may have been refused:

* two nodes with the same literal and the same type are one node;
* a literal that was pushed before with this type is found at the node of its first push, which keeps the flags
  of that push, and nothing changes; only with operands, which no literal takes, it is refused;
* any other push that is not refused adds a node, and it is not refused while there are numbers and places left,
  if its operands are as many as the operation takes and a span holds, and exist;
* there are as many nodes as pushes of other operations that were not refused and different literals that were
  pushed. -/
theorem literals_interned (calls : List Call) :
    let a := (Arena.empty.performAll calls).2
    let done := Arena.empty.pushed calls
    (∀ m n p q, a.node? m = some p → a.node? n = some q → p.op.kind = .constant → p.op = q.op →
      p.ty = q.ty → m = n) ∧
    (∀ op ty r, op.kind = .constant → first? done op ty = some r →
      (∃ q, a.node r.node = .ok q ∧ q.op = op ∧ q.ty = ty ∧ q.flags = r.flags) ∧
      ∀ operands flags, a.push op ty operands flags =
        (if operands = [] then .ok r.node else .error (.wrongArity op 0 operands.length), a)) ∧
    (∀ op ty operands flags, op.kind ≠ .constant ∨ first? done op ty = none →
      (∀ n b, a.push op ty operands flags = (.ok n, b) → a.node? n = none ∧ b.size = a.size + 1 ∧
        ∃ q, b.node n = .ok q ∧ q.op = op ∧ q.ty = ty ∧ q.flags = flags) ∧
      (a.size < identLimit → a.pool.size < identLimit →
        (∀ k, op.arity? = some k → operands.length = k) → (∀ o ∈ operands, o.index < a.size) →
        operands.length ≤ 65535 → ∃ n b, a.push op ty operands flags = (.ok n, b))) ∧
    a.size = done.countP (fun r => r.op.kind ≠ .constant) +
      ((done.filter fun r => r.op.kind = .constant).map fun r => (r.op, r.ty)).toFinset.card := by
  intro a done
  have hreach : a.Reachable := Reachable.empty.performAll calls
  have hdone : a.Accounted done := accounted_empty.performAll calls
  refine ⟨fun m n p q hm hn => hreach.eq_of_literal hm hn, fun op ty r hop hr => ⟨?_, ?_⟩,
    fun op ty operands flags hfirst => ⟨fun n b hpush => ?_, fun hn hp harity hops hlen => ?_⟩,
    hdone.size⟩
  · obtain ⟨q, hq, hqr⟩ := hdone.node op ty r hop hr
    exact ⟨q, by rw [node, hq], hqr⟩
  · apply push_of_interned
    rw [hdone.interned op ty hop, hr]
    rfl
  · obtain ⟨hindex, hsize, span, hnode, -⟩ := new_of_push (hdone.interned?_eq_none hfirst) hpush
    refine ⟨node?_eq_none_iff.2 (Nat.le_of_eq hindex.symm), hsize, ?_⟩
    exact ⟨⟨op, ty, flags, span⟩, by rw [node, hnode], rfl, rfl, rfl⟩
  · exact push_succeeds hn hp harity hops hlen ty flags

-- The two zeros are different literals, as their bits differ, and so is a literal of another type. A second push
-- with another flag and a refused one add nothing.
example :
    (Arena.empty.performAll [.float 0, .float 9223372036854775808, .int 1,
      .push (.lit (.int 1)) .int [] .mayTrap, .push (.lit (.int 1)) .pointer [] .empty,
      .push (.lit (.int 2)) .int [⟨0⟩] .empty]).2.size = 4 := by
  decide +kernel

end Arena

end ValueNumbering
