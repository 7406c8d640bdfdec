import ValueNumbering.Proofs.Representation

/-!
# Nodes read back as they were pushed

A push can be refused for five reasons, two of which are that numbers have run out. While there are numbers
left for nodes and places in the pool, three remain (`Arena.push_fails_iff`): the operation takes another number
of operands, an operand does not exist, or there are more operands than a span can hold.

Otherwise a node that is no literal gets the next number and reads back as it was given, with its operands in
order. It does so for good, and so do all nodes that were there before: neither this push, refused or not, nor
any calls after it change a node (`Arena.extends_performAll`). `Arena.push_reads_back` puts this together.

What is computed from nodes lasts as well (`Arena.answers_last`). A hash stays what it is. Nodes that are equal
stay equal, as an arena only ever gets more types that may stand for each other; and while no types are declared,
nodes that differ stay different.
-/

namespace ValueNumbering.Arena

/-! ### Refused pushes -/

theorem arityFault?_eq_none_iff {op : Op} {operands : List NodeId} :
    arityFault? op operands = none ↔ ¬ ∃ k, op.arity? = some k ∧ operands.length ≠ k := by
  unfold arityFault?
  cases op.arity? with
  | none => simp
  | some k => simp

theorem all_index_lt_iff {a : Arena} {operands : List NodeId} :
    operands.all (·.index < a.size) ↔ ¬ ∃ o ∈ operands, a.node? o = none := by
  simp [node?_eq_none_iff]

variable {a b : Arena} {op : Op} {ty : Ty} {operands : List NodeId} {flags : Flags} {n : NodeId}

theorem allocate_ok_iff (h : operands.all (·.index < a.size)) :
    (∃ n, (a.allocate op ty operands flags h).1 = .ok n) ↔
      a.size < identLimit ∧
        (operands = [] ∨ a.pool.size < identLimit ∧ operands.length < Span.lengthLimit) := by
  unfold allocate
  by_cases hsize : identLimit ≤ a.size
  · simp [hsize, Nat.not_lt.2 hsize]
  · rw [if_neg hsize, and_iff_right (Nat.lt_of_not_le hsize)]
    split
    next hempty => simp [List.isEmpty_iff.1 hempty]
    next hempty =>
      rw [or_iff_right (mt List.isEmpty_iff.2 hempty)]
      split
      next hp => simp [Nat.not_lt.2 hp]
      next hp =>
        rw [and_iff_right (Nat.lt_of_not_le hp)]
        split
        next hl => simp [Nat.not_lt.2 hl]
        next hl => simp [Nat.lt_of_not_le hl]

/-- A push is served if its operands are as many as the operation takes and exist, and if the literal has a
node or there is room for a new one. -/
theorem push_ok_iff :
    (∃ n, (a.push op ty operands flags).1 = .ok n) ↔
      arityFault? op operands = none ∧ operands.all (·.index < a.size) ∧
        ((a.interned? op ty).isSome ∨ a.size < identLimit ∧
          (operands = [] ∨ a.pool.size < identLimit ∧ operands.length < Span.lengthLimit)) := by
  unfold push
  split
  next fault hfault => simp [hfault]
  next hfit =>
    rw [and_iff_right hfit]
    split
    next h =>
      rw [and_iff_right h]
      split
      next n hn => simp [hn]
      next hn => rw [allocate_ok_iff, hn, Option.isSome_none, or_iff_right Bool.false_ne_true]
    next h => simp [h]

theorem length_eq_zero_of_interned (hfit : arityFault? op operands = none)
    (h : a.interned? op ty = some n) : operands.length = 0 := by
  obtain ⟨l, rfl, -⟩ := interned?_eq_some h
  by_contra hne
  exact arityFault?_eq_none_iff.1 hfit ⟨0, rfl, hne⟩

theorem exists_error_iff {α : Type} {r : Except Fault α} :
    (∃ fault, r = .error fault) ↔ ¬ ∃ x, r = .ok x := by
  cases r <;> simp

/-- While nothing is exhausted, a push is refused for one of three reasons. -/
theorem push_fails_iff (hn : a.size < identLimit) (hp : a.pool.size < identLimit) :
    (∃ fault, (a.push op ty operands flags).1 = .error fault) ↔
      (∃ k, op.arity? = some k ∧ operands.length ≠ k) ∨ (∃ o ∈ operands, a.node? o = none) ∨
        65535 < operands.length := by
  rw [exists_error_iff, push_ok_iff]
  by_cases hfit : arityFault? op operands = none
  · rw [and_iff_right hfit, or_iff_right (arityFault?_eq_none_iff.1 hfit)]
    by_cases h : operands.all (·.index < a.size)
    · rw [and_iff_right h, or_iff_right (all_index_lt_iff.1 h)]
      constructor
      · intro hfull
        by_contra hlen
        exact hfull (.inr ⟨hn, .inr ⟨hp, by unfold Span.lengthLimit; omega⟩⟩)
      · rintro hlen (hknown | ⟨-, rfl | ⟨-, hl⟩⟩)
        · obtain ⟨m, hm⟩ := Option.isSome_iff_exists.1 hknown
          have hzero := length_eq_zero_of_interned hfit hm
          omega
        · simp at hlen
        · unfold Span.lengthLimit at hl
          omega
    · exact iff_of_true (fun hok => h hok.1) (.inl (not_not.1 (mt all_index_lt_iff.2 h)))
  · exact iff_of_true (fun hok => hfit hok.1) (.inl (not_not.1 (mt arityFault?_eq_none_iff.2 hfit)))

/-! ### Later calls -/

theorem index_of_push (hop : op.kind ≠ .constant) (h : a.push op ty operands flags = (.ok n, b)) :
    n.index = a.size :=
  (new_of_push (interned?_of_ne_constant hop) h).1

theorem extends_performAll (a : Arena) (calls : List Call) : a.Extends (a.performAll calls).2 :=
  performAll_keeps (fun b e h => h.trans (b.extends_edit e)) (.refl a) calls

theorem Extends.node_eq (h : a.Extends b) (hn : n.index < a.size) : b.node n = a.node n := by
  obtain ⟨q, hq⟩ := exists_node hn
  rw [node, node, h.node? hq, hq]

/-- While there are numbers left for nodes and places in the pool, a push fails exactly if the operation takes
another number of operands, an operand does not exist, or there are more than 65535 operands. A node that is
no literal gets the next number, and reads back as it was given after any further calls. Nor do older nodes
change, by this push or by any further calls. -/
theorem push_reads_back (a : Arena) (hn : a.size < identLimit) (hp : a.pool.size < identLimit)
    (op : Op) (ty : Ty) (operands : List NodeId) (flags : Flags) :
    let answer := (a.push op ty operands flags).1
    let b := (a.push op ty operands flags).2
    ((∃ fault, answer = .error fault) ↔
      (∃ k, op.arity? = some k ∧ operands.length ≠ k) ∨ (∃ o ∈ operands, a.node? o = none) ∨
        65535 < operands.length) ∧
    (op.kind ≠ .constant → ∀ n, answer = .ok n → n.index = a.size ∧ ∀ calls,
      (∃ q, (b.performAll calls).2.node n = .ok q ∧ q.op = op ∧ q.ty = ty ∧ q.flags = flags) ∧
        (b.performAll calls).2.operands n = operands) ∧
    ∀ m, m.index < a.size → ∀ calls, (b.performAll calls).2.node m = a.node m ∧
      (b.performAll calls).2.operands m = a.operands m := by
  intro answer b
  refine ⟨push_fails_iff hn hp, fun hop n hanswer => ?_, fun m hm calls => ?_⟩
  · have hpush : a.push op ty operands flags = (.ok n, b) := Prod.ext hanswer rfl
    obtain ⟨-, span, hnode, hops⟩ := node?_of_push hop hpush
    refine ⟨index_of_push hop hpush, fun calls => ?_⟩
    have hlater := b.extends_performAll calls
    refine ⟨⟨⟨op, ty, flags, span⟩, ?_, rfl, rfl, rfl⟩, ?_⟩
    · rw [node, hlater.node? hnode]
    · rw [hlater.operands_eq (index_lt_of_node hnode), hops]
  · have hlater := (a.extends_push op ty operands flags).trans (b.extends_performAll calls)
    exact ⟨hlater.node_eq hm, hlater.operands_eq hm⟩

/-- An address and a load from it. Before that, a load from an address that did not exist was refused. -/
def addressAndLoad : Arena :=
  let a := (Arena.empty.load ⟨5⟩ .int).2
  ((a.var ⟨1⟩ 0 .pointer).2.load ⟨0⟩ .int).2

/-- A call with the load, the address and the load as its arguments reads back after any further calls, and so
does the load. -/
theorem addressAndLoad_reads_back :
    let a := addressAndLoad
    let b := (a.push (.call ⟨2⟩) .bool [⟨1⟩, ⟨0⟩, ⟨1⟩] .sideEffects).2
    (a.size < identLimit ∧ a.pool.size < identLimit) ∧ ∀ calls,
      (∃ q, (b.performAll calls).2.node ⟨2⟩ = .ok q ∧ q.op = .call ⟨2⟩ ∧ q.ty = .bool ∧
        q.flags = .sideEffects) ∧
      (b.performAll calls).2.operands ⟨2⟩ = [⟨1⟩, ⟨0⟩, ⟨1⟩] ∧
      (b.performAll calls).2.operands ⟨1⟩ = [⟨0⟩] := by
  intro a b
  have hn : a.size < identLimit := by decide +kernel
  have hp : a.pool.size < identLimit := by decide +kernel
  have hanswer : (a.push (.call ⟨2⟩) .bool [⟨1⟩, ⟨0⟩, ⟨1⟩] .sideEffects).1 = .ok ⟨2⟩ := by
    decide +kernel
  obtain ⟨-, hnew, hold⟩ := push_reads_back a hn hp (.call ⟨2⟩) .bool [⟨1⟩, ⟨0⟩, ⟨1⟩] .sideEffects
  refine ⟨⟨hn, hp⟩, fun calls => ?_⟩
  obtain ⟨hcall, hargs⟩ := (hnew (by decide) ⟨2⟩ hanswer).2 calls
  refine ⟨hcall, hargs, ?_⟩
  rw [(hold ⟨1⟩ (by decide +kernel) calls).2]
  decide +kernel

/-! ### Hashes and comparisons -/

theorem aliases_perform {c : Call} (h : ∀ s t, c ≠ .declare s t) : (a.perform c).2.aliases = a.aliases := by
  cases c with
  | declare s t => exact absurd rfl (h s t)
  | _ => exact a.aliases_push _ _ _ _

theorem aliases_performAll {calls : List Call} (h : ∀ s t, Call.declare s t ∉ calls) :
    (a.performAll calls).2.aliases = a.aliases := by
  induction calls generalizing a with
  | nil => rfl
  | cons c rest ih =>
    have hc : ∀ s t, c ≠ .declare s t := fun s t e => h s t (by rw [e]; exact List.mem_cons_self)
    have hrest : ∀ s t, Call.declare s t ∉ rest := fun s t hd => h s t (List.mem_cons_of_mem c hd)
    exact (ih hrest).trans (aliases_perform hc)

/-- Hashes and comparisons of nodes that exist are not refused, and last through all further calls: the hash of a
node stays the same, nodes that are equal stay equal, and nodes that differ stay different if no types are
declared. -/
theorem answers_last (a : Arena) (p : Policy) {x y : NodeId} (hx : x.index < a.size)
    (hy : y.index < a.size) (calls : List Call) :
    let v := View.mk a p
    let w := View.mk (a.performAll calls).2 p
    (∃ hash, v.hashNode x = .ok hash ∧ w.hashNode x = .ok hash) ∧
    ∃ before after, v.equal x y = .ok before ∧ w.equal x y = .ok after ∧ (before → after) ∧
      ((∀ s t, Call.declare s t ∉ calls) → after = before) := by
  intro v w
  have hlater := a.extends_performAll calls
  have hx' : x.index < w.arena.size := hlater.index_lt hx
  have hy' : y.index < w.arena.size := hlater.index_lt hy
  refine ⟨⟨v.treeHash x, View.hashNode_of_lt hx, ?_⟩, v.sameTree x y, w.sameTree x y,
    View.equal_eq_sameTree hx hy, View.equal_eq_sameTree hx' hy', hlater.sameTree p, fun hd => ?_⟩
  · rw [View.hashNode_of_lt hx']
    exact congrArg Except.ok (hlater.treeHash_eq p hx)
  · exact hlater.sameTree_eq p (aliases_performAll hd) hx hy

/-- Three loads from one address, the third of another type. -/
def threeLoads : Arena :=
  let a := ((Arena.empty.var ⟨1⟩ 0 .pointer).2.load ⟨0⟩ .int).2
  ((a.load ⟨0⟩ .int).2.load ⟨0⟩ ⟨7⟩).2

/-- The third load keeps its hash, and the first two stay equal, whatever happens. The third stays different
until its type is declared to go with that of the others. -/
theorem threeLoads_answers_last :
    let later := fun calls => View.mk (threeLoads.performAll calls).2 .full
    (∃ hash, ∀ calls, (later calls).hashNode ⟨3⟩ = .ok hash) ∧
    (∀ calls, (later calls).equal ⟨1⟩ ⟨2⟩ = .ok true) ∧
    (∀ calls, (∀ s t, Call.declare s t ∉ calls) → (later calls).equal ⟨1⟩ ⟨3⟩ = .ok false) ∧
    (later [.declare .int ⟨7⟩]).equal ⟨1⟩ ⟨3⟩ = .ok true := by
  intro later
  have hsize : threeLoads.size = 4 := by decide +kernel
  have hsame : (View.mk threeLoads .full).equal ⟨1⟩ ⟨2⟩ = .ok true := by decide +kernel
  have hother : (View.mk threeLoads .full).equal ⟨1⟩ ⟨3⟩ = .ok false := by decide +kernel
  have hlast := fun x y hx hy => answers_last threeLoads .full (x := x) (y := y) hx hy
  refine ⟨⟨(View.mk threeLoads .full).treeHash ⟨3⟩, fun calls => ?_⟩, fun calls => ?_,
    fun calls hd => ?_, by decide +kernel⟩
  · obtain ⟨⟨hash, hbefore, hafter⟩, -⟩ := hlast ⟨3⟩ ⟨3⟩ (by rw [hsize]; decide) (by rw [hsize]; decide) calls
    rw [View.hashNode_of_lt (by rw [hsize]; decide)] at hbefore
    rw [hafter, hbefore]
  · obtain ⟨-, before, after, hbefore, hafter, hkept, -⟩ :=
      hlast ⟨1⟩ ⟨2⟩ (by rw [hsize]; decide) (by rw [hsize]; decide) calls
    obtain rfl := Except.ok.inj (hsame.symm.trans hbefore)
    rw [hafter, hkept rfl]
  · obtain ⟨-, before, after, hbefore, hafter, -, hfixed⟩ :=
      hlast ⟨1⟩ ⟨3⟩ (by rw [hsize]; decide) (by rw [hsize]; decide) calls
    obtain rfl := Except.ok.inj (hother.symm.trans hbefore)
    rw [hafter, hfixed hd]

end ValueNumbering.Arena
