import Mathlib.Data.Finset.Card
import ValueNumbering.Proofs.HashAgreement
import ValueNumbering.Proofs.Representation

/-!
# What a memory of hashes holds

A `Hasher` is an arena together with remembered hashes. It makes changes to the arena and hashes keys,
in any order and whether they are refused or not, and it starts with nothing remembered.
`Hasher.memory_exact` says that remembering cannot be told from outside, and what is remembered at each
point:

* every request is answered as by one who remembers nothing (`unremembered`), be it by a walk of its own
  for each request or by plain recursion over the operands (`View.plainHash`);
* the nodes remembered are those that were hashed and all that they are computed from, directly or not
  (`Arena.Below`), each with its hash in the arena as it is now;
* their number is the size of the memory.

A walk stops at nodes that are remembered. That it misses nothing below them is because a memory is closed
(`Arena.Memo.Closed`): it has the operands of each of its nodes, also halfway through a walk, as a node is
remembered after its operands. A walk therefore adds just what is below its node (`Arena.mem_fill_iff`). A
change of the arena adds nothing below old nodes (`Arena.Extends.below_iff`).
-/

namespace ValueNumbering

namespace Arena

/-! ### What is below a node -/

/-- The node is one of the given ones, or one of these is computed from it, directly or not. -/
def Below (a : Arena) (nodes : List NodeId) (m : NodeId) : Prop :=
  ∃ n ∈ nodes, Relation.ReflTransGen a.Feeds m n

theorem below_append {a : Arena} {nodes more : List NodeId} {m : NodeId} :
    a.Below (nodes ++ more) m ↔ a.Below nodes m ∨ a.Below more m := by
  simp only [Below, List.mem_append, or_and_right, exists_or]

theorem below_singleton {a : Arena} {m n : NodeId} :
    a.Below [n] m ↔ Relation.ReflTransGen a.Feeds m n := by
  simp [Below]

theorem below_self {a : Arena} {nodes : List NodeId} {n : NodeId} (hn : n ∈ nodes) :
    a.Below nodes n :=
  ⟨n, hn, .refl⟩

theorem Below.operand {a : Arena} {nodes : List NodeId} {m o : NodeId} (h : a.Below nodes m)
    (ho : o ∈ a.operands m) : a.Below nodes o := by
  obtain ⟨n, hn, hmn⟩ := h
  exact ⟨n, hn, hmn.head ho⟩

theorem index_le_of_feeds {a : Arena} {m n : NodeId} (h : Relation.ReflTransGen a.Feeds m n) :
    m.index ≤ n.index := by
  rcases Relation.reflTransGen_iff_eq_or_transGen.1 h with rfl | h
  · exact Nat.le_refl _
  · exact Nat.le_of_lt (index_lt_of_transGen h)

/-- A path of operands stays one, wherever the nodes up to its end have the same operands. -/
theorem feeds_congr {a b : Arena} {m n : NodeId}
    (hops : ∀ k : NodeId, k.index ≤ n.index → b.operands k = a.operands k)
    (h : Relation.ReflTransGen a.Feeds m n) : Relation.ReflTransGen b.Feeds m n := by
  induction h using Relation.ReflTransGen.head_induction_on with
  | refl => exact .refl
  | @head o k ho hk ih =>
    have hko : o ∈ b.operands k := hops k (index_le_of_feeds hk) ▸ ho
    exact ih.head hko

theorem Extends.below_iff {a b : Arena} (h : a.Extends b) {nodes : List NodeId}
    (hnodes : ∀ n ∈ nodes, n.index < a.size) (m : NodeId) : b.Below nodes m ↔ a.Below nodes m := by
  refine exists_congr fun n => and_congr_right fun hn => ?_
  have hops : ∀ k : NodeId, k.index ≤ n.index → b.operands k = a.operands k := by
    intro k hk
    have hlt := hnodes n hn
    exact h.operands_eq (by omega)
  exact ⟨feeds_congr fun k hk => (hops k hk).symm, feeds_congr hops⟩

/-! ### Walks -/

variable {β : Type} {a : Arena} {f : NodeId → List β → β} {memo : Memo β}

/-- The operands of remembered nodes are remembered. -/
def Memo.Closed (a : Arena) (memo : Memo β) : Prop := ∀ n ∈ memo, ∀ o ∈ a.operands n, o ∈ memo

theorem Memo.Closed.insert (h : memo.Closed a) {n : NodeId} (hn : ∀ o ∈ a.operands n, o ∈ memo)
    (b : β) : Memo.Closed a (memo.insert n b) := by
  intro k hk o ho
  apply Std.TreeMap.mem_insert.2
  right
  rcases Std.TreeMap.mem_insert.1 hk with e | hk
  · obtain rfl := Std.LawfulEqCmp.eq_of_compare e
    exact hn o ho
  · exact h k hk o ho

theorem Memo.Closed.fill (h : memo.Closed a) (n : NodeId) : Memo.Closed a (a.fill f n memo) :=
  work_keeps (fun _ _ hm hops => hm.insert hops _) h (ready_visit a _ n)

theorem Memo.Closed.mem_of_feeds (h : memo.Closed a) {m n : NodeId} (hn : n ∈ memo)
    (hmn : Relation.ReflTransGen a.Feeds m n) : m ∈ memo := by
  induction hmn using Relation.ReflTransGen.head_induction_on with
  | refl => exact hn
  | head ho _ ih => exact h _ ih _ ho

/-- A walk from a node adds what is below it, and nothing else. -/
theorem mem_fill_iff (h : memo.Closed a) {m n : NodeId} :
    m ∈ a.fill f n memo ↔ m ∈ memo ∨ Relation.ReflTransGen a.Feeds m n := by
  constructor
  · intro hm
    refine of_mem_work (P := fun m => m ∈ memo ∨ Relation.ReflTransGen a.Feeds m n) ?_ ?_ ?_ m hm
    · rintro k (hk | hk) o ho
      · exact .inl (h k hk o ho)
      · exact .inr (hk.head ho)
    · intro t ht
      rw [List.mem_singleton.1 ht]
      exact .inr .refl
    · intro k hk
      exact .inl hk
  · rintro (hm | hm)
    · exact (a.mem_work f [.visit n] memo).1 m hm
    · exact (h.fill n).mem_of_feeds (a.mem_fill_self f n memo) hm

end Arena

/-! ### Hashing keys -/

/-- A change of an arena, or a request for the hash of a key. -/
inductive HashRequest
  | edit (e : Edit)
  | hash (seed : UInt64) (key : Key)
deriving DecidableEq, Repr

/-- A request with the answer to it. -/
inductive HashExchange
  | edited (e : Edit) (result : Except Fault (Option NodeId))
  | hashed (seed : UInt64) (key : Key) (result : Except Fault UInt64)
deriving DecidableEq

/-- The node that was hashed, if one was. -/
def HashExchange.node? : HashExchange → Option NodeId
  | .hashed _ key (.ok _) => some key.node
  | _ => none

/-- The nodes that were hashed. -/
def hashedNodes (said : List HashExchange) : List NodeId := said.filterMap HashExchange.node?

/-- The hash of a key by plain recursion over the operands. -/
def View.plainHash (v : View) (seed : UInt64) (key : Key) : Except Fault UInt64 :=
  (v.hashFault? key.node).elim (.ok (digestKey seed (v.treeHash key.node) key.deps)) .error

theorem View.plainHash_eq : plainHash = hashKey := by
  funext v seed key
  rw [plainHash, hashKey_eq]
  cases v.hashFault? key.node <;> rfl

/-- What is said if nothing is remembered, where keys are hashed by the given function. -/
def unremembered (hash : View → UInt64 → Key → Except Fault UInt64) (p : Policy) (a : Arena) :
    List HashRequest → List HashExchange
  | [] => []
  | .edit e :: rest => .edited e (a.edit e).1 :: unremembered hash p (a.edit e).2 rest
  | .hash seed key :: rest =>
    .hashed seed key (hash ⟨a, p⟩ seed key) :: unremembered hash p a rest

/-- An arena and the hashes that are remembered of its nodes. -/
structure Hasher where
  arena : Arena
  memo : HashMemo

namespace Hasher

/-- Nothing is remembered. -/
def start (a : Arena) : Hasher := ⟨a, ∅⟩

/-- The arena as a policy sees it. -/
def view (w : Hasher) (p : Policy) : View := ⟨w.arena, p⟩

/-- Serves a request. -/
def serve (w : Hasher) (p : Policy) : HashRequest → HashExchange × Hasher
  | .edit e => (.edited e (w.arena.edit e).1, { w with arena := (w.arena.edit e).2 })
  | .hash seed key =>
    let (result, memo) := (w.view p).hashKeyIn w.memo seed key
    (.hashed seed key result, { w with memo })

/-- Serves requests in order, and returns what is said. -/
def run (w : Hasher) (p : Policy) : List HashRequest → List HashExchange × Hasher
  | [] => ([], w)
  | r :: rest =>
    let (said, last) := (w.serve p r).2.run p rest
    ((w.serve p r).1 :: said, last)

/-- What is remembered is right, and it is about the nodes below the given ones. -/
structure Remembers (w : Hasher) (p : Policy) (nodes : List NodeId) : Prop where
  trusts : (w.view p).Trusts w.memo
  mem_iff : ∀ m, m ∈ w.memo ↔ w.arena.Below nodes m

variable {w : Hasher} {p : Policy} {nodes : List NodeId}

theorem remembers_start (a : Arena) (p : Policy) : (start a).Remembers p [] := by
  refine ⟨View.trusts_empty _, fun m => iff_of_false Std.TreeMap.not_mem_emptyc ?_⟩
  rintro ⟨n, hn, -⟩
  exact List.not_mem_nil hn

theorem Remembers.closed (h : w.Remembers p nodes) : w.memo.Closed w.arena := by
  intro n hn o ho
  rw [h.mem_iff] at hn ⊢
  exact hn.operand ho

theorem Remembers.index_lt (h : w.Remembers p nodes) {n : NodeId} (hn : n ∈ nodes) :
    n.index < w.arena.size :=
  h.trusts.index_lt n ((h.mem_iff n).2 (Arena.below_self hn))

theorem Remembers.edit (h : w.Remembers p nodes) (e : Edit) :
    Remembers ⟨(w.arena.edit e).2, w.memo⟩ p nodes := by
  have hgrown := w.arena.extends_edit e
  refine ⟨h.trusts.extend hgrown, fun m => ?_⟩
  rw [h.mem_iff]
  exact (hgrown.below_iff (fun n hn => h.index_lt hn) m).symm

theorem Remembers.hash (h : w.Remembers p nodes) {n : NodeId} (hn : n.index < w.arena.size) :
    Remembers ⟨w.arena, (w.view p).remember n w.memo⟩ p (nodes ++ [n]) := by
  refine ⟨h.trusts.remember hn, fun m => ?_⟩
  rw [Arena.below_append, Arena.below_singleton, ← h.mem_iff]
  exact Arena.mem_fill_iff h.closed

theorem Remembers.hashKeyIn_eq (h : w.Remembers p nodes) (seed : UInt64) (key : Key) :
    ((w.view p).hashKeyIn w.memo seed key).1 = (w.view p).hashKey seed key := by
  rw [View.hashKey_eq, View.hashKeyIn_eq h.trusts.sound]
  cases (w.view p).hashFault? key.node <;> rfl

/-- A request is answered as if nothing were remembered, and its node, if it was hashed, is remembered
with all that is below it. -/
theorem Remembers.serve (h : w.Remembers p nodes) (r : HashRequest) :
    (∀ rest, unremembered View.hashKey p w.arena (r :: rest) =
      (w.serve p r).1 :: unremembered View.hashKey p (w.serve p r).2.arena rest) ∧
    (w.serve p r).2.Remembers p (nodes ++ (w.serve p r).1.node?.toList) := by
  cases r with
  | edit e =>
    refine ⟨fun rest => rfl, ?_⟩
    simp only [Hasher.serve, HashExchange.node?, Option.toList_none, List.append_nil]
    exact h.edit e
  | hash seed key =>
    refine ⟨fun rest => ?_, ?_⟩
    · simp only [unremembered, Hasher.serve, h.hashKeyIn_eq]
      rfl
    · have hmemo := View.hashKeyIn_eq h.trusts.sound seed key
      cases hk : (w.view p).hashFault? key.node with
      | some fault =>
        simp only [hk] at hmemo
        simp only [Hasher.serve, hmemo, HashExchange.node?, Option.toList_none, List.append_nil]
        exact h
      | none =>
        obtain ⟨q, hq, -⟩ := View.hashFault?_eq_none_iff.1 hk
        simp only [hk] at hmemo
        simp only [Hasher.serve, hmemo, HashExchange.node?, Option.toList_some]
        exact h.hash (Arena.index_lt_of_node hq)

theorem Remembers.run (h : w.Remembers p nodes) (requests : List HashRequest) :
    (w.run p requests).1 = unremembered View.hashKey p w.arena requests ∧
      (w.run p requests).2.Remembers p (nodes ++ hashedNodes (w.run p requests).1) := by
  induction requests generalizing w nodes with
  | nil => exact ⟨rfl, by simpa [Hasher.run, hashedNodes] using h⟩
  | cons r rest ih =>
    obtain ⟨hplain, hnext⟩ := h.serve r
    obtain ⟨hsaid, hlast⟩ := ih hnext
    have hnodes : hashedNodes (w.run p (r :: rest)).1 =
        (w.serve p r).1.node?.toList ++ hashedNodes ((w.serve p r).2.run p rest).1 := by
      simp only [Hasher.run, hashedNodes, List.filterMap_cons]
      cases (w.serve p r).1.node? <;> rfl
    refine ⟨?_, ?_⟩
    · rw [hplain, ← hsaid]
      rfl
    · rw [hnodes, ← List.append_assoc]
      exact hlast

/-- The memory holds the hashes of the nodes below the given ones. -/
theorem Remembers.getElem?_iff (h : w.Remembers p nodes) {m : NodeId} {hash : UInt64} :
    w.memo[m]? = some hash ↔ w.arena.Below nodes m ∧ (w.view p).hashNode m = .ok hash := by
  rw [← h.mem_iff]
  constructor
  · intro hm
    have hmem : m ∈ w.memo := Std.TreeMap.mem_iff_isSome_getElem?.2 (by rw [hm]; rfl)
    refine ⟨hmem, ?_⟩
    rw [View.hashNode_of_lt (h.trusts.index_lt m hmem), h.trusts.sound m hash hm]
    rfl
  · rintro ⟨hmem, hm⟩
    rw [View.hashNode_of_lt (h.trusts.index_lt m hmem)] at hm
    rw [h.trusts.sound.getElem?_eq hmem, ← Except.ok.inj hm]
    rfl

/-- However an arena is changed and its keys are hashed, starting with nothing remembered: all is answered
as if nothing were remembered, and as by plain recursion. Then the memory holds exactly the nodes below those
that were hashed, each with its hash in the arena of that time, which is that of plain recursion, and its
size is their number. As this holds after all requests of any list, it holds at every point. -/
theorem memory_exact (p : Policy) (a : Arena) (requests : List HashRequest) :
    let said := ((start a).run p requests).1
    let w := ((start a).run p requests).2
    said = unremembered View.hashKey p a requests ∧
    said = unremembered View.plainHash p a requests ∧
    (∀ m hash, w.memo[m]? = some hash ↔
      w.arena.Below (hashedNodes said) m ∧ (w.view p).hashNode m = .ok hash) ∧
    (∀ m, w.arena.Below (hashedNodes said) m →
      (w.view p).hashNode m = .ok ((w.view p).treeHash m)) ∧
    ∃ nodes : Finset NodeId, (∀ m, m ∈ nodes ↔ w.arena.Below (hashedNodes said) m) ∧
      w.memo.size = nodes.card := by
  intro said w
  obtain ⟨hsaid, hw⟩ := (remembers_start a p).run requests
  refine ⟨hsaid, ?_, fun m hash => hw.getElem?_iff, fun m hm => ?_, w.memo.keys.toFinset,
    fun m => ?_, ?_⟩
  · rw [View.plainHash_eq]
    exact hsaid
  · exact View.hashNode_of_lt (hw.trusts.index_lt m ((hw.mem_iff m).2 hm))
  · rw [List.mem_toFinset, Std.TreeMap.mem_keys]
    exact hw.mem_iff m
  · rw [List.toFinset_card_of_nodup w.memo.nodup_keys, Std.TreeMap.length_keys]

end Hasher

end ValueNumbering
