import ValueNumbering.Proofs.HashAgreement
import ValueNumbering.Proofs.ProvenPairs
import ValueNumbering.Proofs.Representation

/-!
# Hashes and comparisons read only what exists

To hash a node or to compare two is to descend through operands, and each step of the way reads nodes from the
arena and operands from the pool. `View.hashNode` and `View.equal` check the nodes that they are given and no
others. This module says that no other check is missing (`View.faults_exactly`).

The plain recursions stand here once more with every read checked: `View.hashWithin`, `View.hashKeyWithin` and
`View.equalWithin` stop (`Halt`) at the first node that does not exist and at the first operand beyond the pool.
They also stop if they are nested more deeply than allowed. Each step leads to nodes with smaller numbers, so they
end if they may be nested as deeply as the number of the first node, and then they return what `View.hashNode`,
`View.hashKey` and `View.equal` return, with the same faults. They read the nodes in the order in which a
comparison is cut short: the same node, side effects of the first, side effects of the second, operations, types,
operands.
-/

namespace ValueNumbering

/-- Why a recursion over the graph stops without a result. -/
inductive Halt
  /-- What it asks for is refused. -/
  | fault (fault : Fault)
  /-- The operands of a node are not all in the pool. -/
  | beyondPool
  /-- It is nested too deeply. -/
  | tooDeep
deriving DecidableEq, Repr

namespace Arena

/-- Reads a node. -/
def readNode (a : Arena) (n : NodeId) : Except Halt Node := (a.node n).mapError .fault

/-- Reads the operands of a node. If there are none, nothing is read. -/
def readOperands (a : Arena) (q : Node) : Except Halt (List NodeId) :=
  if q.span.isEmpty then .ok []
  else if q.span.stop ≤ a.pool.size then .ok (q.span.slice a.pool)
  else .error .beyondPool

variable {a : Arena} {n : NodeId}

theorem readNode_of_node {q : Node} (hq : a.node? n = some q) : a.readNode n = .ok q := by
  rw [readNode, node, hq]
  rfl

theorem readNode_of_size_le (hn : a.size ≤ n.index) :
    a.readNode n = .error (.fault (.noSuchNode a.size n)) := by
  rw [readNode, node, node?_eq_none_iff.2 hn]
  rfl

theorem readOperands_of_node {q : Node} (hq : a.node? n = some q) :
    a.readOperands q = .ok (a.operands n) := by
  have hops : a.operands n = q.span.slice a.pool := by rw [operands, hq]
  obtain ⟨hi, rfl⟩ := Array.getElem?_eq_some_iff.1 hq
  have hstop := (a.ordered n.index hi).1
  rw [hops, readOperands]
  by_cases hempty : a.nodes[n.index].span.isEmpty
  · have hzero : a.nodes[n.index].span.length = 0 := of_decide_eq_true hempty
    have hlength := Span.length_slice hstop
    rw [hzero] at hlength
    rw [if_pos hempty, List.eq_nil_of_length_eq_zero hlength]
  · rw [if_neg hempty, if_pos hstop]

end Arena

namespace View

/-! ### Checked recursions -/

/-- The hash of a node, by plain recursion. -/
def hashWithin (v : View) : Nat → NodeId → Except Halt UInt64
  | 0, _ => .error .tooDeep
  | depth + 1, n => do
    let q ← v.arena.readNode n
    let operands ← v.arena.readOperands q
    let below ← operands.mapM (v.hashWithin depth)
    return v.combine n below

/-- The hash of a key, by plain recursion over its node. -/
def hashKeyWithin (v : View) (depth : Nat) (seed : UInt64) (key : Key) : Except Halt UInt64 := do
  let q ← v.arena.readNode key.node
  if q.op.kind = .statement then .error (.fault (.statementHashed key.node))
  else
    let hash ← v.hashWithin depth key.node
    return digestKey seed hash key.deps

/-- Compares pairs in order, each with what was proven for those before it, until one differs. -/
def compareWith (compare : ProvenPairs → NodeId → NodeId → Except Halt (Bool × ProvenPairs))
    (known : ProvenPairs) : List (NodeId × NodeId) → Except Halt (Bool × ProvenPairs)
  | [] => .ok (true, known)
  | p :: rest => do
    let r ← compare known p.1 p.2
    if r.1 then compareWith compare r.2 rest else .ok r

/-- Compares two nodes, by plain recursion from pairs that are known to be equal. -/
def equalWithin (v : View) : Nat → ProvenPairs → NodeId → NodeId → Except Halt (Bool × ProvenPairs)
  | 0, _, _, _ => .error .tooDeep
  | depth + 1, known, x, y =>
    if x = y || known.contains (x, y) then .ok (true, known)
    else do
      let p ← v.arena.readNode x
      if v.hasEffects p then .ok (false, known)
      else
        let q ← v.arena.readNode y
        if v.hasEffects q then .ok (false, known)
        else if p.op ≠ q.op then .ok (false, known)
        else if !v.interchangeable p.ty q.ty then .ok (false, known)
        else
          let xs ← v.arena.readOperands p
          let ys ← v.arena.readOperands q
          if xs.length ≠ ys.length then .ok (false, known)
          else
            let r ← compareWith (v.equalWithin depth) known (xs.zip ys)
            return (r.1, if r.1 && !xs.isEmpty then r.2.insert (x, y) else r.2)

variable {v : View} {depth : Nat} {n x y : NodeId}

/-! ### They end with a result -/

theorem mapM_eq_ok {α β : Type} {f : α → Except Halt β} {g : α → β} {xs : List α}
    (h : ∀ x ∈ xs, f x = .ok (g x)) : xs.mapM f = .ok (xs.map g) := by
  induction xs with
  | nil => rfl
  | cons x xs ih =>
    obtain ⟨hx, hxs⟩ := List.forall_mem_cons.1 h
    rw [List.mapM_cons, hx, ih hxs]
    rfl

theorem hashWithin_of_lt (hn : n.index < v.arena.size) (hdepth : n.index < depth) :
    v.hashWithin depth n = .ok (v.treeHash n) := by
  induction depth generalizing n with
  | zero => omega
  | succ depth ih =>
    -- operands have smaller numbers, so one level less is enough for them
    obtain ⟨q, hq⟩ := Arena.exists_node hn
    have hbelow : (v.arena.operands n).mapM (v.hashWithin depth) =
        .ok ((v.arena.operands n).map v.treeHash) := by
      apply mapM_eq_ok
      intro o ho
      have holder := Arena.index_lt_of_mem_operands ho
      exact ih (Arena.index_lt_size_of_mem_operands ho) (by omega)
    rw [hashWithin, Arena.readNode_of_node hq]
    simp only [bind, Except.bind, Arena.readOperands_of_node hq, hbelow]
    rw [treeHash, Arena.fold_eq]
    rfl

theorem compareWith_eq {compare : ProvenPairs → NodeId → NodeId → Except Halt (Bool × ProvenPairs)}
    {ps : List (NodeId × NodeId)}
    (h : ∀ p ∈ ps, ∀ known, compare known p.1 p.2 = .ok (v.compareIn known p.1 p.2))
    (known : ProvenPairs) : compareWith compare known ps = .ok (v.compareAll known ps) := by
  induction ps generalizing known with
  | nil => rfl
  | cons p ps ih =>
    obtain ⟨hp, hps⟩ := List.forall_mem_cons.1 h
    rw [compareWith, hp, compareAll]
    simp only [bind, Except.bind]
    split
    next => exact ih hps _
    next => rfl

theorem isEmpty_zip {xs ys : List NodeId} (h : xs.length = ys.length) :
    (xs.zip ys).isEmpty = xs.isEmpty := by
  cases xs with
  | nil => rfl
  | cons x xs =>
    cases ys with
    | nil => cases h
    | cons y ys => rfl

theorem equalWithin_of_lt (hx : x.index < v.arena.size) (hy : y.index < v.arena.size)
    (hdepth : x.index < depth) (known : ProvenPairs) :
    v.equalWithin depth known x y = .ok (v.compareIn known x y) := by
  induction depth generalizing x y known with
  | zero => omega
  | succ depth ih =>
    obtain ⟨p, hp⟩ := Arena.exists_node hx
    obtain ⟨q, hq⟩ := Arena.exists_node hy
    have hpairs : compareWith (v.equalWithin depth) known (v.operandPairs x y) =
        .ok (v.compareAll known (v.operandPairs x y)) := by
      apply compareWith_eq
      intro o ho known
      obtain ⟨hox, hoy⟩ := List.of_mem_zip ho
      have holder := Arena.index_lt_of_mem_operands hox
      exact ih (Arena.index_lt_size_of_mem_operands hox) (Arena.index_lt_size_of_mem_operands hoy)
        (by omega) known
    have hagree : v.agree x y = (!v.hasEffects p && !v.hasEffects q && p.op = q.op &&
        v.interchangeable p.ty q.ty && (v.arena.operands x).length = (v.arena.operands y).length) := by
      simp only [agree, hp, hq]
    rw [compareIn_eq, equalWithin, hagree]
    split
    next => rfl
    next =>
      simp only [bind, Except.bind, Arena.readNode_of_node hp, Arena.readNode_of_node hq,
        Arena.readOperands_of_node hp, Arena.readOperands_of_node hq]
      -- the checks in their order; nodes that fail one do not agree
      split
      next hpe => simp [hpe]
      next hpe =>
        split
        next hqe => simp [hqe]
        next hqe =>
          split
          next hop => simp [hop]
          next hop =>
            split
            next hty => simp_all
            next hty =>
              split
              next hlen => simp [hlen]
              next hlen =>
                have hempty := isEmpty_zip (not_not.1 hlen)
                rw [if_pos (by simp_all), ← hempty]
                have hzip : (v.arena.operands x).zip (v.arena.operands y) = v.operandPairs x y := rfl
                rw [hzip, hpairs]
                rfl

/-! ### They end as the hash and the comparison do -/

/-- A hash reads its node first. -/
theorem hashWithin_eq (hdepth : n.index < depth) :
    v.hashWithin depth n = (v.hashNode n).mapError .fault := by
  by_cases hn : n.index < v.arena.size
  · rw [hashWithin_of_lt hn hdepth, hashNode_of_lt hn]
    rfl
  · have hn := Nat.le_of_not_lt hn
    obtain ⟨depth, rfl⟩ := Nat.exists_eq_add_one_of_ne_zero (Nat.ne_of_gt (Nat.zero_lt_of_lt hdepth))
    rw [hashWithin, Arena.readNode_of_size_le hn, hashNode_eq, Arena.node, Arena.node?_eq_none_iff.2 hn]
    rfl

/-- So does the hash of a key, and refuses statements before it goes on. -/
theorem hashKeyWithin_eq {key : Key} (hdepth : key.node.index < depth) (seed : UInt64) :
    v.hashKeyWithin depth seed key = (v.hashKey seed key).mapError .fault := by
  rw [hashKeyWithin, hashKey_eq, hashFault?]
  by_cases hn : key.node.index < v.arena.size
  · obtain ⟨q, hq⟩ := Arena.exists_node hn
    rw [Arena.readNode_of_node hq, hq]
    simp only [bind, Except.bind, hashWithin_of_lt hn hdepth]
    split
    next => rfl
    next => rfl
  · have hn := Nat.le_of_not_lt hn
    rw [Arena.readNode_of_size_le hn, Arena.node?_eq_none_iff.2 hn]
    rfl

/-- A comparison reads its first node first, and the second only if the first has no side effects. -/
theorem equalWithin_eq (hdepth : x.index < depth) :
    (v.equalWithin depth ∅ x y).map Prod.fst = (v.equal x y).mapError .fault := by
  obtain ⟨depth, rfl⟩ := Nat.exists_eq_add_one_of_ne_zero (Nat.ne_of_gt (Nat.zero_lt_of_lt hdepth))
  by_cases hxy : x = y
  · simp [equalWithin, equal, hxy, Except.map, Except.mapError]
  · have hstart : ¬ (x = y || (∅ : ProvenPairs).contains (x, y)) = true := by simp [hxy]
    by_cases hx : x.index < v.arena.size
    · obtain ⟨p, hp⟩ := Arena.exists_node hx
      by_cases hy : y.index < v.arena.size
      · rw [equalWithin_of_lt hx hy hdepth, equal_eq_sameTree hx hy,
          ← (compareIn_sound sound_empty_pairs x y).1]
        rfl
      · have hy := Nat.le_of_not_lt hy
        rw [equalWithin, if_neg hstart, Arena.readNode_of_node hp, equal, if_neg hxy]
        simp only [bind, Except.bind, Arena.readNode_of_size_le hy, Arena.node, hp,
          Arena.node?_eq_none_iff.2 hy]
        split
        next => rfl
        next => rfl
    · have hx := Nat.le_of_not_lt hx
      rw [equalWithin, if_neg hstart, Arena.readNode_of_size_le hx, equal, if_neg hxy, Arena.node,
        Arena.node?_eq_none_iff.2 hx]
      rfl

/-! ### When they fail -/

theorem hashNode_fails_iff :
    (∃ fault, v.hashNode n = .error fault) ↔ v.arena.size ≤ n.index := by
  rw [hashNode_eq, Arena.node, ← Arena.node?_eq_none_iff]
  cases v.arena.node? n with
  | none => simp [Except.map]
  | some q => simp [Except.map]

theorem hashKey_fails_iff {seed : UInt64} {key : Key} :
    (∃ fault, v.hashKey seed key = .error fault) ↔
      v.arena.size ≤ key.node.index ∨ ∃ q, v.arena.node? key.node = some q ∧ q.op.kind = .statement := by
  rw [hashKey_eq, hashFault?, ← Arena.node?_eq_none_iff]
  cases v.arena.node? key.node with
  | none => simp
  | some q => by_cases hk : q.op.kind = .statement <;> simp [hk]

theorem equal_fails_iff :
    (∃ fault, v.equal x y = .error fault) ↔
      x ≠ y ∧ (v.arena.size ≤ x.index ∨
        v.arena.size ≤ y.index ∧ ¬ ∃ p, v.arena.node? x = some p ∧ v.hasEffects p) := by
  unfold equal Arena.node
  split
  next hxy => simp [hxy]
  next hxy =>
    rw [and_iff_right hxy, ← Arena.node?_eq_none_iff, ← Arena.node?_eq_none_iff]
    cases hp : v.arena.node? x with
    | none => simp
    | some p =>
      by_cases he : v.hasEffects p
      · simp [he]
      · cases hq : v.arena.node? y with
        | none => simp [he]
        | some q => simp [he]

/-- In every arena and under every policy: a hash fails exactly if its node does not exist, the hash of a key
also if its node is a statement, and a comparison exactly if its nodes are different and the first does not
exist, or the second does not and the first has no side effects. There is no other failure: the recursions that
check every read, nested no more deeply than the number of the first node, end with the same results and the
same faults. -/
theorem faults_exactly (v : View) (x y : NodeId) :
    ((∃ fault, v.hashNode x = .error fault) ↔ v.arena.size ≤ x.index) ∧
    (∀ seed deps, (∃ fault, v.hashKey seed ⟨x, deps⟩ = .error fault) ↔
      v.arena.size ≤ x.index ∨ ∃ p, v.arena.node? x = some p ∧ p.op.kind = .statement) ∧
    ((∃ fault, v.equal x y = .error fault) ↔
      x ≠ y ∧ (v.arena.size ≤ x.index ∨
        v.arena.size ≤ y.index ∧ ¬ ∃ p, v.arena.node? x = some p ∧ v.hasEffects p)) ∧
    ∀ depth, x.index < depth →
      v.hashWithin depth x = (v.hashNode x).mapError .fault ∧
      (∀ seed deps,
        v.hashKeyWithin depth seed ⟨x, deps⟩ = (v.hashKey seed ⟨x, deps⟩).mapError .fault) ∧
      (v.equalWithin depth ∅ x y).map Prod.fst = (v.equal x y).mapError .fault := by
  refine ⟨hashNode_fails_iff, fun seed deps => hashKey_fails_iff, equal_fails_iff, fun depth h => ?_⟩
  exact ⟨hashWithin_eq h, fun seed deps => hashKeyWithin_eq h seed, equalWithin_eq h⟩

end View

end ValueNumbering
