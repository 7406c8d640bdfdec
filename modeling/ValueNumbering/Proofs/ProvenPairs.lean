import ValueNumbering.Proofs.TreeEquality

/-!
# Comparing with the pairs that are proven

A comparison hands on the pairs of nodes that it has proven equal, from one operand to the next and from
there to whatever is compared later. `View.compareIn known x y` is one such comparison: it starts from the
known pairs, and returns its verdict together with the pairs that are known then. `View.settle` works on a
list of obligations instead of calling itself, but it does what the recursion would do:

* `View.settle_append`: what was proven for the first obligations is at hand for the rest, and the rest is
  not looked at if one of the first fails;
* `View.compareIn_eq`: hence a comparison of two nodes is one of their operands in order
  (`View.compareAll`), after which the two nodes are put down as proven.

Pairs that a comparison has proven stay proven when it fails in the end, and they are relied on without
another look. This does no harm (`View.proven_pairs_exact`): from pairs that are equal, the verdict is that of
the plain recursion, which remembers nothing, and the pairs known then are equal again.
-/

namespace ValueNumbering.View

variable (v : View)

/-- Compares two nodes, where some pairs are known to be equal. Returns whether the nodes are equal, and
which pairs are known then. -/
def compareIn (known : ProvenPairs) (x y : NodeId) : Bool × ProvenPairs :=
  v.settle [.compare x y] known

/-- Compares pairs of nodes in order, each with what was proven for those before it, until two nodes
differ. -/
def compareAll (known : ProvenPairs) : List (NodeId × NodeId) → Bool × ProvenPairs
  | [] => (true, known)
  | p :: rest =>
    let r := v.compareIn known p.1 p.2
    if r.1 then compareAll r.2 rest else r

variable {v}

/-! ### The recursion behind the obligations -/

/-- The first obligations are seen to as if they were all, and then the others, if none has failed. -/
theorem settle_append (obs rest : List Obligation) (known : ProvenPairs) :
    v.settle (obs ++ rest) known =
      if (v.settle obs known).1 then v.settle rest (v.settle obs known).2
      else v.settle obs known := by
  fun_induction settle v obs known with
  | case1 known => rfl
  | case2 known x y obs h ih =>
    rw [List.cons_append, settle, if_pos h]
    exact ih
  | case3 known x y obs h ha ih =>
    rw [List.cons_append, settle, if_neg h, if_pos ha, ← List.append_assoc]
    exact ih
  | case4 known x y obs h ha =>
    rw [List.cons_append, settle, if_neg h, if_neg ha]
    rfl
  | case5 known x y obs ih =>
    rw [List.cons_append, settle]
    exact ih

theorem settle_compares (known : ProvenPairs) (ps : List (NodeId × NodeId)) :
    v.settle (ps.map fun p => .compare p.1 p.2) known = v.compareAll known ps := by
  induction ps generalizing known with
  | nil =>
    rw [List.map_nil, settle]
    rfl
  | cons p ps ih =>
    have hfirst := settle_append (v := v) [.compare p.1 p.2]
      (ps.map fun p => .compare p.1 p.2) known
    rw [List.singleton_append, ih] at hfirst
    exact hfirst

/-- Seeing to the obligations of two nodes that agree is to compare their operands, and to put the nodes
down if there are any. -/
theorem settle_obligations (known : ProvenPairs) (x y : NodeId) :
    v.settle (v.obligations x y) known =
      let r := v.compareAll known (v.operandPairs x y)
      (r.1, if r.1 && !(v.operandPairs x y).isEmpty then r.2.insert (x, y) else r.2) := by
  unfold obligations
  by_cases hempty : (v.operandPairs x y).isEmpty
  · rw [if_pos hempty, List.isEmpty_iff.1 hempty, settle]
    rfl
  · rw [if_neg hempty, settle_append, settle_compares]
    obtain ⟨verdict, proven⟩ := v.compareAll known (v.operandPairs x y)
    cases verdict with
    | false => rfl
    | true => simp [settle, hempty]

/-- A comparison is done at once if the nodes are the same or known to be equal, or if they do not agree.
Otherwise it is one of the operands, and the nodes are known to be equal from then on if these are. -/
theorem compareIn_eq (known : ProvenPairs) (x y : NodeId) :
    v.compareIn known x y =
      if x = y || known.contains (x, y) then (true, known)
      else if v.agree x y then
        let r := v.compareAll known (v.operandPairs x y)
        (r.1, if r.1 && !(v.operandPairs x y).isEmpty then r.2.insert (x, y) else r.2)
      else (false, known) := by
  rw [compareIn, settle, List.append_nil, settle_obligations, settle]

/-! ### Verdicts -/

/-- From pairs that are equal, a comparison has the verdict of the plain recursion and leaves pairs that
are equal. -/
theorem compareIn_sound {known : ProvenPairs} (h : v.Sound known) (x y : NodeId) :
    (v.compareIn known x y).1 = v.sameTree x y ∧ v.Sound (v.compareIn known x y).2 := by
  have hj : v.Justified [.compare x y] := fun _ => trivial
  obtain ⟨hverdict, hsound⟩ := settle_sound h hj
  refine ⟨?_, hsound⟩
  rw [compareIn, hverdict, List.all_cons, List.all_nil, Bool.and_true]
  rfl

theorem sameTree_iff_alike {x y : NodeId} :
    v.sameTree x y ↔ x = y ∨ ∃ p q, v.arena.node? x = some p ∧ v.arena.node? y = some q ∧
      v.Alike p q ∧ List.Forall₂ (fun o o' => v.sameTree o o') (v.arena.operands x)
        (v.arena.operands y) := by
  rw [sameTree_iff, agree_iff]
  refine or_congr_right ⟨?_, ?_⟩
  · rintro ⟨⟨p, q, hp, hq, hpq, -⟩, hops⟩
    exact ⟨p, q, hp, hq, hpq, hops⟩
  · rintro ⟨p, q, hp, hq, hpq, hops⟩
    exact ⟨⟨p, q, hp, hq, hpq, hops.length_eq⟩, hops⟩

/-- In every arena and under every policy, to remember pairs changes no verdict. The plain recursion calls
two nodes equal if they are the same, or if neither has side effects, they have the same operation and
types that may stand for each other, and their operands are equal one by one. A comparison of nodes that
exist returns just that. So does every comparison within it, which starts from what was proven before: if
those pairs are equal, its verdict is right, and the pairs known then are equal, too. -/
theorem proven_pairs_exact (v : View) :
    (∀ x y, v.sameTree x y ↔ x = y ∨ ∃ p q, v.arena.node? x = some p ∧
      v.arena.node? y = some q ∧ v.Alike p q ∧
      List.Forall₂ (fun o o' => v.sameTree o o') (v.arena.operands x) (v.arena.operands y)) ∧
    (∀ x y, x.index < v.arena.size → y.index < v.arena.size →
      v.equal x y = .ok (v.compareIn ∅ x y).1 ∧ v.equal x y = .ok (v.sameTree x y)) ∧
    ∀ known x y,
      (v.compareIn known x y =
        if x = y || known.contains (x, y) then (true, known)
        else if v.agree x y then
          let r := v.compareAll known (v.operandPairs x y)
          (r.1, if r.1 && !(v.operandPairs x y).isEmpty then r.2.insert (x, y) else r.2)
        else (false, known)) ∧
      (v.Sound known →
        (v.compareIn known x y).1 = v.sameTree x y ∧ v.Sound (v.compareIn known x y).2) := by
  refine ⟨fun x y => sameTree_iff_alike, fun x y hx hy => ?_, fun known x y => ?_⟩
  · have hplain := equal_eq_sameTree hx hy
    refine ⟨?_, hplain⟩
    rw [hplain, (compareIn_sound sound_empty_pairs x y).1]
  · exact ⟨compareIn_eq known x y, fun h => compareIn_sound h x y⟩

end ValueNumbering.View
