import ValueNumbering.Proofs.Growth
import ValueNumbering.Arena.Build

/-!
# Equal expressions have equal hashes

A table finds an entry only if it looks for it under the right hash, so a comparison that says
"equal" where hashes differ would be of no use. `View.hashes_eq_of_equal` rules this out: nodes
that are equal have the same hash, and so have their keys under every seed and all memory versions,
whatever the policy and whichever types are interchangeable.

The comparison and the hash are two recursions of their own. They meet in the tree below a node:
`View.treeHash_eq_of_sameTree` holds as a hash is a fold that treats nodes that agree alike. It reads
neither types, nor flags, nor the numbers of nodes, and those are all that equal trees may differ
in.

`View.hashKeyIn_eq` says what hashing a key does from a memory whose contents are right; tables
rely on it.
-/

namespace ValueNumbering.View

variable {v : View}

/-! ### What hashing a key returns -/

/-- The nodes that have no hash are those that do not exist, and statements. -/
theorem hashFault?_eq_none_iff {n : NodeId} :
    v.hashFault? n = none ↔ ∃ p, v.arena.node? n = some p ∧ p.op.kind ≠ .statement := by
  unfold hashFault?
  split
  next h => simp [h]
  next p h => simp [h]

/-- Hashing a key from a sound memory returns the digest of the tree, or refuses the key and leaves
the memory as it was. -/
theorem hashKeyIn_eq {memo : HashMemo} (h : memo.Sound v.arena v.combine) (seed : UInt64)
    (key : Key) :
    v.hashKeyIn memo seed key = match v.hashFault? key.node with
      | some fault => (.error fault, memo)
      | none => (.ok (digestKey seed (v.treeHash key.node) key.deps), v.remember key.node memo) := by
  cases hk : v.hashFault? key.node <;> simp only [hashKeyIn, hk, v.getD_remember h]

theorem hashKey_eq (seed : UInt64) (key : Key) :
    v.hashKey seed key = match v.hashFault? key.node with
      | some fault => .error fault
      | none => .ok (digestKey seed (v.treeHash key.node) key.deps) := by
  rw [hashKey, hashKeyIn_eq v.sound_empty]
  cases v.hashFault? key.node <;> rfl

theorem hashKey_of_expression {n : NodeId} {q : Node} (hq : v.arena.node? n = some q)
    (hk : q.op.kind ≠ .statement) (seed : UInt64) (deps : List MemVersion) :
    v.hashKey seed ⟨n, deps⟩ = .ok (digestKey seed (v.treeHash n) deps) := by
  rw [hashKey_eq, hashFault?_eq_none_iff.2 ⟨q, hq, hk⟩]

/-! ### Equal trees -/

theorem words_eq_of_op_eq {x y : NodeId} {p q : Node} (hp : v.arena.node? x = some p)
    (hq : v.arena.node? y = some q) (h : p.op = q.op) : v.words x = v.words y := by
  simp only [words, hp, hq, h]

theorem treeHash_eq_of_sameTree {x y : NodeId} (h : v.sameTree x y) :
    v.treeHash x = v.treeHash y := by
  apply fold_eq_of_sameTree _ h
  intro x y p q hp hq hpq
  funext below
  simp only [combine, words_eq_of_op_eq hp hq hpq.op_eq]

/-- Nodes that are equal have the same hash, and unless they are statements, so have their keys
under every seed and all memory versions. -/
theorem hashes_eq_of_equal (v : View) {x y : NodeId} (hx : x.index < v.arena.size)
    (hy : y.index < v.arena.size) (h : v.equal x y = .ok true) :
    (∃ hash, v.hashNode x = .ok hash ∧ v.hashNode y = .ok hash) ∧
      ((∀ p, v.arena.node? x = some p → p.op.kind ≠ .statement) →
        ∀ seed deps, ∃ hash, v.hashKey seed ⟨x, deps⟩ = .ok hash ∧
          v.hashKey seed ⟨y, deps⟩ = .ok hash) := by
  have hxy : v.sameTree x y := equal_eq_true_iff.1 h
  have hh : v.treeHash x = v.treeHash y := treeHash_eq_of_sameTree hxy
  obtain ⟨p, hp⟩ := Arena.exists_node hx
  obtain ⟨q, hq⟩ := Arena.exists_node hy
  refine ⟨⟨v.treeHash x, ?_, ?_⟩, fun hk seed deps => ?_⟩
  · simp [hashNode_eq, Arena.node, hp, Except.map]
  · simp [hashNode_eq, Arena.node, hq, Except.map, hh]
  · have hpk : p.op.kind ≠ .statement := hk p hp
    have hqk : q.op.kind ≠ .statement := op_eq_of_sameTree hp hq hxy ▸ hpk
    refine ⟨digestKey seed (v.treeHash x) deps, ?_, ?_⟩
    · rw [hashKey_eq, hashFault?_eq_none_iff.2 ⟨p, hp, hpk⟩]
    · rw [hashKey_eq, hashFault?_eq_none_iff.2 ⟨q, hq, hqk⟩, hh]

/-- Two loads from one address, of different types that may stand for each other. -/
def twinLoads : Arena :=
  let a := (Arena.empty.declare .int ⟨7⟩).var ⟨1⟩ 0 .pointer
  ((a.2.load ⟨0⟩ .int).2.load ⟨0⟩ ⟨7⟩).2

/-- The two loads have one hash, although neither their numbers nor their types are the same. -/
theorem twinLoads_hashes_eq :
    (∃ hash, (View.mk twinLoads .full).hashNode ⟨1⟩ = .ok hash ∧
        (View.mk twinLoads .full).hashNode ⟨2⟩ = .ok hash) ∧
      ∀ seed deps, ∃ hash, (View.mk twinLoads .full).hashKey seed ⟨⟨1⟩, deps⟩ = .ok hash ∧
        (View.mk twinLoads .full).hashKey seed ⟨⟨2⟩, deps⟩ = .ok hash := by
  have h := hashes_eq_of_equal ⟨twinLoads, .full⟩ (x := ⟨1⟩) (y := ⟨2⟩) (by decide +kernel)
    (by decide +kernel) (by decide +kernel)
  refine ⟨h.1, h.2 ?_⟩
  have hp : twinLoads.node? ⟨1⟩ = some ⟨.load, .int, .empty, ⟨0, 1⟩⟩ := by decide +kernel
  intro p hp'
  obtain rfl := Option.some.inj (hp.symm.trans hp')
  decide

end ValueNumbering.View
