import Mathlib.Algebra.GroupWithZero.Nat
import ValueNumbering.Proofs.DistinctKeys
import ValueNumbering.Proofs.TableRefinement

/-!
# Where the entries of a table stand

A table groups its entries by hash, keeps the hash with each entry, and counts its entries by hand.
`Table.Layout` says that the three fit together: the count is right, an entry stands in the bucket of the
hash that it has, and this hash is the one that its key has in the arena as it is now, be it computed with
nothing remembered or by plain recursion over the operands.

The hash of an entry may come from memory, and from a time when the arena was smaller. An insertion may
put an entry with another node, and with a hash of its own, in the place of an old one. Neither matters
(`Table.layout_after_calls`): a table that keeps the entries of a ledger has this layout
(`Table.Holds.layout`), and every call leaves a table that keeps a ledger (`Table.holds_after`).
-/

namespace ValueNumbering

/-- A call of an operation of a table, or a change of its arena. -/
inductive TableCall
  /-- A change of the arena, a search or an insertion. -/
  | store (request : StoreRequest)
  /-- The hash of a key, which the table may remember. -/
  | hashKey (key : Key)
deriving DecidableEq, Repr

namespace Table

/-- The arena and the table after a call, whether it was refused or not. -/
def after (p : Policy) (a : Arena) (t : Table) : TableCall → Arena × Table
  | .store request => (Table.store.serve p a t request).2
  | .hashKey key => (a, (t.hashKey ⟨a, p⟩ key).2)

/-- The arena and the table after calls. -/
def afterAll (p : Policy) (a : Arena) (t : Table) : List TableCall → Arena × Table
  | [] => (a, t)
  | c :: rest => afterAll p (after p a t c).1 (after p a t c).2 rest

/-- The parts of a table fit together, and its hashes are those of its keys. -/
structure Layout (t : Table) (v : View) : Prop where
  /-- The size is the number of entries over all buckets. -/
  size_eq : t.size = (t.buckets.toList.map (·.2.length)).sum
  /-- Entries stand in the bucket of their hash. -/
  hash_eq : ∀ (hash : UInt64) es, t.buckets[hash]? = some es → ∀ e ∈ es, e.hash = hash
  /-- The hash of an entry is that of its key, computed anew. -/
  hashKey_eq : ∀ (hash : UInt64) es, t.buckets[hash]? = some es → ∀ e ∈ es,
    v.hashKey 0 e.key = .ok e.hash
  /-- It is the digest of the tree below the node. -/
  digest_eq : ∀ (hash : UInt64) es, t.buckets[hash]? = some es → ∀ e ∈ es,
    e.hash = View.digestKey 0 (v.treeHash e.key.node) e.key.deps

/-! ### Tables that keep a ledger -/

section Holds

variable {t : Table} {v : View} {l : Ledger}

theorem bucket_of_getElem? {hash : UInt64} {es : List Entry} (h : t.buckets[hash]? = some es) :
    t.bucket hash = es :=
  bucket_of_mem (b := (hash, es)) (Std.TreeMap.mem_toList_iff_getElem?_eq_some.2 h)

theorem Holds.size_eq_sum (h : t.Holds v l) :
    t.size = (t.buckets.toList.map (·.2.length)).sum := by
  calc t.size
      = (l.map v.entry).length := by rw [h.size_eq, List.length_map]
    _ = t.entries.length := h.entries_perm.length_eq.symm
    _ = (t.buckets.toList.map (·.2.length)).sum := by
      rw [Table.entries, List.length_flatten, List.map_map]
      rfl

theorem Holds.digest_of_mem_bucket (h : t.Holds v l) {hash : UInt64} {e : Entry}
    (he : e ∈ t.bucket hash) : e.hash = View.digestKey 0 (v.treeHash e.key.node) e.key.deps := by
  rw [h.bucket_eq, List.mem_map] at he
  obtain ⟨f, -, rfl⟩ := he
  rfl

theorem Holds.hashKey_of_mem_bucket (h : t.Holds v l) {hash : UInt64} {e : Entry}
    (he : e ∈ t.bucket hash) : v.hashKey 0 e.key = .ok e.hash := by
  have hdigest := h.digest_of_mem_bucket he
  rw [h.bucket_eq, List.mem_map] at he
  obtain ⟨f, hf, rfl⟩ := he
  have hk : v.hashFault? f.1.node = none := h.hashable f (List.mem_of_mem_filter hf)
  rw [View.hashKey_eq, hdigest]
  simp only [View.entry, hk]

theorem Holds.layout (h : t.Holds v l) : t.Layout v := by
  refine ⟨h.size_eq_sum, fun hash es hes e he => ?_, fun hash es hes e he => ?_,
    fun hash es hes e he => ?_⟩
  all_goals rw [← bucket_of_getElem? hes] at he
  · exact h.hash_of_mem_bucket he
  · exact h.hashKey_of_mem_bucket he
  · exact h.digest_of_mem_bucket he

end Holds

/-! ### Calls -/

variable {p : Policy} {a : Arena} {t : Table}

theorem holds_after {l : Ledger} (h : t.Holds ⟨a, p⟩ l) (c : TableCall) :
    ∃ l', (after p a t c).2.Holds ⟨(after p a t c).1, p⟩ l' := by
  cases c with
  | store request =>
    obtain ⟨reply, b, t', l', ht, -, h'⟩ := (table_simulates_ledger p).serve_eq h request
    rw [after, ht]
    exact ⟨l', h'⟩
  | hashKey key =>
    cases hk : (View.mk a p).hashFault? key.node with
    | some fault =>
      rw [after, h.hashKey_fault hk]
      exact ⟨l, h⟩
    | none =>
      obtain ⟨t', ht, h'⟩ := h.hashKey_eq hk
      rw [after, ht]
      exact ⟨l, h'⟩

theorem holds_afterAll {l : Ledger} (h : t.Holds ⟨a, p⟩ l) (calls : List TableCall) :
    ∃ l', (afterAll p a t calls).2.Holds ⟨(afterAll p a t calls).1, p⟩ l' := by
  induction calls generalizing a t l with
  | nil => exact ⟨l, h⟩
  | cons c rest ih =>
    obtain ⟨l', h'⟩ := holds_after h c
    exact ih h'

/-- After every sequence of insertions, searches and hashes, some of which may have been refused, with
nodes pushed and types declared in between, and whether hashes are remembered or not: the size is the
number of entries over all buckets, every entry stands in the bucket of its hash, and this hash is that
of its key, computed anew in the arena as it is then, which is that of plain recursion. -/
theorem layout_after_calls (p : Policy) (a : Arena) (settings : Settings)
    (calls : List TableCall) :
    let b := (afterAll p a (.empty settings) calls).1
    let t := (afterAll p a (.empty settings) calls).2
    t.size = (t.buckets.toList.map (·.2.length)).sum ∧
      ∀ (hash : UInt64) es, t.buckets[hash]? = some es → ∀ e ∈ es,
        e.hash = hash ∧ (View.mk b p).hashKey 0 e.key = .ok e.hash ∧
          e.hash = View.digestKey 0 ((View.mk b p).treeHash e.key.node) e.key.deps := by
  intro b t
  obtain ⟨l, h⟩ := holds_afterAll (holds_empty settings ⟨a, p⟩) calls
  have hlayout : t.Layout ⟨b, p⟩ := h.layout
  refine ⟨hlayout.size_eq, fun hash es hes e he => ⟨?_, ?_, ?_⟩⟩
  · exact hlayout.hash_eq hash es hes e he
  · exact hlayout.hashKey_eq hash es hes e he
  · exact hlayout.digest_eq hash es hes e he

end Table

end ValueNumbering
