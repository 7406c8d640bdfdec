import ValueNumbering.Arena.Fold
import ValueNumbering.Digest
import ValueNumbering.Key
import ValueNumbering.View

/-!
# Hashes of expressions

The hash of a node depends on its operation and on the hashes of its operands, and so on the tree
of operations below it and on nothing else. `View.treeHash` is the definition; `View.hashNode`
computes it with each node visited once (`View.hashNode_eq`).

The hash of a key also reads a seed and the memory versions that the expression depends on.
Statements have no such hash. The results for nodes can be remembered from one call to the next in
a `HashMemo`.
-/

namespace ValueNumbering

/-- The hashes of nodes that are remembered. -/
abbrev HashMemo := Arena.Memo UInt64

namespace View

variable (v : View)

/-! ### Nodes -/

/-- The words of a node's operation that its hash reads. -/
def words (n : NodeId) : List UInt64 :=
  match v.arena.node? n with
  | some node => if v.policy.hashesOps then node.op.words else []
  | none => []

/-- The hash of a node with operands of the given hashes. -/
def combine (n : NodeId) (below : List UInt64) : UInt64 :=
  Digest.ofWords (v.words n ++ UInt64.ofNat below.length :: below)

/-- The hash of the tree below a node. -/
def treeHash (n : NodeId) : UInt64 := v.arena.fold v.combine n

/-- Remembers the hash of a node and of all nodes below it. -/
def remember (n : NodeId) (memo : HashMemo) : HashMemo := v.arena.fill v.combine n memo

/-- The hash of a node. -/
def hashNode (n : NodeId) : Except Fault UInt64 :=
  match v.arena.node n with
  | .error fault => .error fault
  | .ok _ => .ok ((v.remember n ∅).getD n 0)

/-! ### Keys -/

/-- The hash of a key, made from a seed, the hash of the expression and the memory versions. -/
def digestKey (seed hash : UInt64) (deps : List MemVersion) : UInt64 :=
  Digest.ofWords (seed :: hash :: deps.map (·.raw.toUInt64))

/-- The fault of a node that is not an expression with a value. -/
def hashFault? (n : NodeId) : Option Fault :=
  match v.arena.node? n with
  | none => some (.noSuchNode v.arena.size n)
  | some node => if node.op.kind = .statement then some (.statementHashed n) else none

/-- The hash of a key, with the hashes of nodes taken from a memory and added to it. A refused
request leaves the memory as it was. -/
def hashKeyIn (memo : HashMemo) (seed : UInt64) (key : Key) : Except Fault UInt64 × HashMemo :=
  match v.hashFault? key.node with
  | some fault => (.error fault, memo)
  | none =>
    let memo := v.remember key.node memo
    (.ok (digestKey seed (memo.getD key.node 0) key.deps), memo)

/-- The hash of a key. -/
def hashKey (seed : UInt64) (key : Key) : Except Fault UInt64 := (v.hashKeyIn ∅ seed key).1

/-- The hash of several expressions under the same memory versions: the hash of each is the seed
of the next. -/
def hashKeys (deps : List MemVersion) (seed : UInt64) (ns : List NodeId) : Except Fault UInt64 :=
  ns.foldlM (fun seed n => v.hashKey seed ⟨n, deps⟩) seed

/-! ### The hash is that of the tree -/

theorem remember_sound {memo : HashMemo} (h : memo.Sound v.arena v.combine) (n : NodeId) :
    Arena.Memo.Sound v.arena v.combine (v.remember n memo) :=
  Arena.fill_sound h n

theorem getD_remember {memo : HashMemo} (h : memo.Sound v.arena v.combine) (n : NodeId) :
    (v.remember n memo).getD n 0 = v.treeHash n := by
  rw [Std.TreeMap.getD_eq_getD_getElem?, remember, Arena.getElem?_fill h]
  rfl

theorem sound_empty : Arena.Memo.Sound v.arena v.combine ∅ := by
  intro n b h
  simp at h

theorem hashNode_eq (n : NodeId) :
    v.hashNode n = (v.arena.node n).map fun _ => v.treeHash n := by
  unfold hashNode
  rw [v.getD_remember v.sound_empty]
  cases v.arena.node n <;> rfl

end View

end ValueNumbering
