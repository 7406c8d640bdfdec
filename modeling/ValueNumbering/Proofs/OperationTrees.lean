import ValueNumbering.Proofs.HashAgreement
import ValueNumbering.Proofs.Representation
import ValueNumbering.Proofs.SideEffects

/-!
# Hashes see operations only

Unfolded along its operands, a node becomes a tree. `Arena.opAt` reads the operation at a position of
this tree, and `Arena.SameOps` says that two nodes, of one arena or of two, have the same operation at every
position. As the positions are the same then, nodes at one position also have equally many operands.

`View.hashes_eq_of_sameOps`: such nodes have the same hash, and unless they are statements, the same hashes
of keys. Nothing else about the two arenas counts: not the numbers of nodes, their types or flags, not the
interchangeable types, not the order in which nodes were pushed, nor which of them are shared. Where one
arena has one node, the other may have many, so the induction is on the trees: `Arena.sameOps_iff` takes
them apart, one level at a time and in both arenas at once.
-/

namespace ValueNumbering

namespace Arena

/-- The operation at a position below a node, if there is such a position. -/
def opAt (a : Arena) (n : NodeId) (path : List Nat) : Option Op :=
  (a.follow n path).bind fun m => (a.node? m).map (·.op)

/-- The trees below the two nodes have the same operations at the same positions. -/
def SameOps (a : Arena) (x : NodeId) (b : Arena) (y : NodeId) : Prop :=
  ∀ path, a.opAt x path = b.opAt y path

variable {a b : Arena} {x y : NodeId}

@[simp] theorem opAt_nil (a : Arena) (n : NodeId) : a.opAt n [] = (a.node? n).map (·.op) := rfl

theorem opAt_cons (a : Arena) (n : NodeId) (i : Nat) (path : List Nat) :
    a.opAt n (i :: path) = (a.operands n)[i]?.bind fun o => a.opAt o path := by
  unfold opAt
  rw [follow, Option.bind_assoc]

theorem isSome_opAt_singleton (a : Arena) (n : NodeId) (i : Nat) :
    (a.opAt n [i]).isSome ↔ i < (a.operands n).length := by
  rw [opAt_cons]
  constructor
  · intro h
    by_contra hi
    rw [List.getElem?_eq_none (by omega)] at h
    simp at h
  · intro hi
    obtain ⟨q, hq⟩ := exists_node (index_lt_size_of_mem_operands (List.getElem_mem hi))
    simp [List.getElem?_eq_getElem hi, hq]

theorem SameOps.length_eq (h : a.SameOps x b y) :
    (a.operands x).length = (b.operands y).length := by
  have hlt : ∀ i, i < (a.operands x).length ↔ i < (b.operands y).length := by
    intro i
    rw [← isSome_opAt_singleton, ← isSome_opAt_singleton, h [i]]
  have hx := hlt (a.operands x).length
  have hy := hlt (b.operands y).length
  omega

/-- Two trees have the same operations, if they have the same operation at the top and the trees below
it do. -/
theorem sameOps_iff :
    a.SameOps x b y ↔ (a.node? x).map (·.op) = (b.node? y).map (·.op) ∧
      List.Forall₂ (fun o o' => a.SameOps o b o') (a.operands x) (b.operands y) := by
  constructor
  · intro h
    refine ⟨h [], List.forall₂_iff_get.2 ⟨h.length_eq, fun i hi hj path => ?_⟩⟩
    have hpath := h (i :: path)
    rw [opAt_cons, opAt_cons, List.getElem?_eq_getElem hi, List.getElem?_eq_getElem hj] at hpath
    exact hpath
  · rintro ⟨hop, hops⟩ path
    cases path with
    | nil => exact hop
    | cons i path =>
      rw [opAt_cons, opAt_cons]
      by_cases hi : i < (a.operands x).length
      · have hj : i < (b.operands y).length := hops.length_eq ▸ hi
        rw [List.getElem?_eq_getElem hi, List.getElem?_eq_getElem hj]
        exact hops.get hi hj path
      · have hj : ¬ i < (b.operands y).length := hops.length_eq ▸ hi
        rw [List.getElem?_eq_none (by omega), List.getElem?_eq_none (by omega)]
        rfl

theorem SameOps.node (h : a.SameOps x b y) {q : Node} (hq : a.node? x = some q) :
    ∃ q', b.node? y = some q' ∧ q'.op = q.op := by
  have hop := (sameOps_iff.1 h).1
  rw [hq] at hop
  exact Option.map_eq_some_iff.1 hop.symm

/-- To show that trees have the same operations, it is enough to list pairs of nodes, if the nodes of each
pair have the same operation, and equally many operands that are paired in the list. -/
theorem sameOps_of_pairs {pairs : List (NodeId × NodeId)}
    (h : ∀ r ∈ pairs, (a.node? r.1).map (·.op) = (b.node? r.2).map (·.op) ∧
      (a.operands r.1).length = (b.operands r.2).length ∧
      ∀ s ∈ (a.operands r.1).zip (b.operands r.2), s ∈ pairs) :
    ∀ r ∈ pairs, a.SameOps r.1 b r.2 := by
  rintro ⟨x, y⟩ hr
  induction x using a.operand_induction generalizing y with
  | step x ih =>
    obtain ⟨hop, hlen, hops⟩ := h (x, y) hr
    apply sameOps_iff.2
    refine ⟨hop, List.forall₂_iff_zip.2 ⟨hlen, fun {o o'} ho => ?_⟩⟩
    exact ih o (List.of_mem_zip ho).1 o' (hops (o, o') ho)

end Arena

namespace View

variable {a b : Arena} {x y : NodeId}

theorem words_eq (v : View) (n : NodeId) :
    v.words n = ((v.arena.node? n).map (·.op)).elim [] fun op =>
      if v.policy.hashesOps then op.words else [] := by
  unfold words
  cases v.arena.node? n <;> rfl

theorem treeHash_eq_of_sameOps (p : Policy) (h : a.SameOps x b y) :
    (View.mk a p).treeHash x = (View.mk b p).treeHash y := by
  induction x using a.operand_induction generalizing y with
  | step x ih =>
    obtain ⟨hop, hops⟩ := Arena.sameOps_iff.1 h
    have hwords : (View.mk a p).words x = (View.mk b p).words y := by
      rw [words_eq, words_eq, hop]
    have hbelow : (a.operands x).map (View.mk a p).treeHash =
        (b.operands y).map (View.mk b p).treeHash := by
      rw [← List.forall₂_eq_eq_eq, List.forall₂_map_left_iff, List.forall₂_map_right_iff,
        List.forall₂_iff_zip]
      rw [List.forall₂_iff_zip] at hops
      exact ⟨hops.1, fun ho => ih _ (List.of_mem_zip ho).1 (hops.2 ho)⟩
    unfold treeHash at hbelow ⊢
    rw [Arena.fold_eq, Arena.fold_eq b, hbelow, combine, combine, hwords]

/-- Nodes with the same operations at all positions below them, in one arena or in two, have the same hash.
Unless they are statements, their keys have the same hash under every seed and all memory versions. -/
theorem hashes_eq_of_sameOps (p : Policy) {a b : Arena} {x y : NodeId} (hx : x.index < a.size)
    (h : a.SameOps x b y) :
    (∃ hash, (View.mk a p).hashNode x = .ok hash ∧ (View.mk b p).hashNode y = .ok hash) ∧
      ((∀ q, a.node? x = some q → q.op.kind ≠ .statement) →
        ∀ seed deps, ∃ hash, (View.mk a p).hashKey seed ⟨x, deps⟩ = .ok hash ∧
          (View.mk b p).hashKey seed ⟨y, deps⟩ = .ok hash) := by
  have hsame := treeHash_eq_of_sameOps p h
  obtain ⟨q, hq⟩ := Arena.exists_node hx
  obtain ⟨q', hq', hop⟩ := h.node hq
  refine ⟨⟨(View.mk a p).treeHash x, hashNode_of_lt hx, ?_⟩, fun hk seed deps => ?_⟩
  · rw [hsame]
    exact hashNode_of_lt (Arena.index_lt_of_node hq')
  · have hkind : q.op.kind ≠ .statement := hk q hq
    have hkind' : q'.op.kind ≠ .statement := hop ▸ hkind
    refine ⟨digestKey seed ((View.mk a p).treeHash x) deps, hashKey_of_expression hq hkind seed deps, ?_⟩
    rw [hsame]
    exact hashKey_of_expression hq' hkind' seed deps

/-- A call with a sum twice as its argument. The sum is of one variable. -/
def sharedSums : Arena :=
  let a := (Arena.empty.var ⟨1⟩ 0 .int).2
  ((a.binary .add ⟨0⟩ ⟨0⟩ .int).2.call ⟨2⟩ [⟨1⟩, ⟨1⟩] .int).2

/-- The same call with other numbers, types and flags. Of the two sums, one is of two variables. -/
def separateSums : Arena :=
  let a := ((Arena.empty.declare .int ⟨7⟩).label ⟨3⟩).2
  let b := ((a.var ⟨1⟩ 0 ⟨7⟩).2.var ⟨1⟩ 0 .int).2
  let c := ((b.push (.binary .add) .bool [⟨1⟩, ⟨2⟩] .mayTrap).2.binary .add ⟨2⟩ ⟨2⟩ ⟨7⟩).2
  (c.effectfulCall ⟨2⟩ [⟨4⟩, ⟨3⟩] .bool).2

/-- The two calls have one hash, and so have their keys. -/
theorem sums_hashes_eq :
    (∃ hash, (View.mk sharedSums .full).hashNode ⟨2⟩ = .ok hash ∧
        (View.mk separateSums .full).hashNode ⟨5⟩ = .ok hash) ∧
      ∀ seed deps, ∃ hash, (View.mk sharedSums .full).hashKey seed ⟨⟨2⟩, deps⟩ = .ok hash ∧
        (View.mk separateSums .full).hashKey seed ⟨⟨5⟩, deps⟩ = .ok hash := by
  have hpairs : ∀ r ∈ [(NodeId.mk 2, NodeId.mk 5), (⟨1⟩, ⟨4⟩), (⟨1⟩, ⟨3⟩), (⟨0⟩, ⟨1⟩), (⟨0⟩, ⟨2⟩)],
      sharedSums.SameOps r.1 separateSums r.2 :=
    Arena.sameOps_of_pairs (by decide +kernel)
  have hsums : sharedSums.SameOps ⟨2⟩ separateSums ⟨5⟩ := hpairs (⟨2⟩, ⟨5⟩) List.mem_cons_self
  have hkind : (sharedSums.node? ⟨2⟩).all (·.op.kind ≠ .statement) := by decide +kernel
  obtain ⟨hnode, hkeys⟩ := hashes_eq_of_sameOps .full (by decide +kernel) hsums
  refine ⟨hnode, hkeys fun q hq => ?_⟩
  rw [hq] at hkind
  simpa using hkind

end View

end ValueNumbering
