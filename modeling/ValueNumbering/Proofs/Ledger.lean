import ValueNumbering.Proofs.HashAgreement
import ValueNumbering.Table

/-!
# Tables as ledgers

A ledger is one flat list of keys and values in the order of insertion. It knows no hashes: a key
is found by going through the list from the front, and the first entry with an equal key counts.

`Table.Holds t v l` says that the table `t` keeps the entries of the ledger `l` for the view `v`:
each bucket has the entries of the ledger with its hash, in their order. Whatever holds of the
ledger's operations then holds of the table's:

* `Holds.find_eq` and `Holds.insert_eq`: the answers are those of `Ledger.find` and
  `Ledger.entry?`, and the table goes on to hold the ledger that `Ledger.put` leads to;
* `Holds.find_fault` and `Holds.insert_fault`: keys without a hash are refused, and nothing changes;
* `Holds.extend`: a table that holds a ledger still does when the arena has grown.

That a bucket hides no match is where equal hashes of equal keys come in
(`View.keyHash_eq_of_sameKey`). Nothing here needs the equality of keys to be transitive.
-/

namespace ValueNumbering

/-! ### Equal keys -/

namespace View

variable (v : View)

/-- Whether the comparison of two keys says that they are equal. -/
def sameKey (k l : Key) : Bool :=
  match v.equalKeys k l with
  | .ok same => same
  | .error _ => false

/-- The hash under which a table keeps a key. -/
def keyHash (key : Key) : UInt64 := digestKey 0 (v.treeHash key.node) key.deps

variable {v}

theorem sameKey_iff {k l : Key} : v.sameKey k l ↔ k.deps = l.deps ∧ v.sameTree k.node l.node := by
  unfold sameKey equalKeys
  by_cases hd : k.deps = l.deps
  · rw [if_pos (beq_iff_eq.2 hd), ← equal_eq_true_iff]
    cases v.equal k.node l.node <;> simp [hd]
  · rw [if_neg (by simpa using hd)]
    simp [hd]

@[simp] theorem sameKey_self (k : Key) : v.sameKey k k := sameKey_iff.2 ⟨rfl, sameTree_self k.node⟩

theorem sameKey_comm (k l : Key) : v.sameKey k l = v.sameKey l k := by
  rw [Bool.eq_iff_iff, sameKey_iff, sameKey_iff, sameTree_comm, eq_comm]

theorem sameKey_trans (ht : v.TransitiveTypes) {k l m : Key} (h : v.sameKey k l)
    (h' : v.sameKey l m) : v.sameKey k m := by
  rw [sameKey_iff] at *
  exact ⟨h.1.trans h'.1, sameTree_trans ht h.2 h'.2⟩

theorem equalKeys_eq {k l : Key} (hk : k.node.index < v.arena.size)
    (hl : l.node.index < v.arena.size) : v.equalKeys k l = .ok (v.sameKey k l) := by
  have h := equal_eq_sameTree (v := v) hk hl
  unfold sameKey equalKeys
  split <;> simp [h]

theorem keyHash_eq_of_sameKey {k l : Key} (h : v.sameKey k l) : v.keyHash k = v.keyHash l := by
  obtain ⟨hd, ht⟩ := sameKey_iff.1 h
  rw [keyHash, keyHash, hd, treeHash_eq_of_sameTree ht]

theorem index_lt_of_hashFault? {n : NodeId} (h : v.hashFault? n = none) :
    n.index < v.arena.size := by
  obtain ⟨p, hp, _⟩ := hashFault?_eq_none_iff.1 h
  exact Arena.index_lt_of_node hp

end View

/-! ### Overwriting the first match -/

/-- Puts an element in the place of the first one with a property, or at the end if there is none. -/
def upsert {α : Type} (p : α → Bool) (x : α) : List α → List α
  | [] => [x]
  | a :: l => if p a then x :: l else a :: upsert p x l

section upsert

variable {α β : Type} {p q : α → Bool} {x : α} {l : List α}

theorem upsert_eq : upsert p x l = match l.findIdx? p with
    | some i => l.set i x
    | none => l ++ [x] := by
  induction l with
  | nil => rfl
  | cons a l ih =>
    rw [upsert, List.findIdx?_cons]
    cases hp : p a with
    | true => rfl
    | false =>
      rw [ih]
      cases l.findIdx? p <;> rfl

theorem map_upsert {f : α → β} {p : β → Bool} :
    (upsert (p ∘ f) x l).map f = upsert p (f x) (l.map f) := by
  induction l with
  | nil => rfl
  | cons a l ih =>
    simp only [upsert, List.map_cons, Function.comp_apply, ← ih]
    split <;> rfl

/-- A filter that keeps all matches and the new element sees the change happen. -/
theorem filter_upsert_of_pos (hpq : ∀ a ∈ l, p a → q a) (hx : q x) :
    (upsert p x l).filter q = upsert p x (l.filter q) := by
  induction l with
  | nil => simp [upsert, hx]
  | cons a l ih =>
    obtain ⟨ha, hl⟩ := List.forall_mem_cons.1 hpq
    by_cases hp : p a
    · simp [upsert, hp, ha hp, hx]
    · by_cases hq : q a <;> simp [upsert, hp, hq, ih hl]

/-- A filter that drops all matches and the new element sees no change. -/
theorem filter_upsert_of_neg (hpq : ∀ a ∈ l, p a → ¬ q a) (hx : ¬ q x) :
    (upsert p x l).filter q = l.filter q := by
  induction l with
  | nil => simp [upsert, hx]
  | cons a l ih =>
    obtain ⟨ha, hl⟩ := List.forall_mem_cons.1 hpq
    by_cases hp : p a
    · simp [upsert, hp, ha hp, hx]
    · by_cases hq : q a <;> simp [upsert, hp, hq, ih hl]

theorem mem_upsert {y : α} (h : y ∈ upsert p x l) : y = x ∨ y ∈ l := by
  induction l with
  | nil => simpa [upsert] using h
  | cons a l ih =>
    rw [upsert] at h
    split at h
    · rcases List.mem_cons.1 h with rfl | h
      · exact .inl rfl
      · exact .inr (List.mem_cons_of_mem a h)
    · rcases List.mem_cons.1 h with rfl | h
      · exact .inr List.mem_cons_self
      · exact (ih h).imp_right (List.mem_cons_of_mem a)

theorem length_upsert :
    (upsert p x l).length = if (l.find? p).isSome then l.length else l.length + 1 := by
  induction l with
  | nil => rfl
  | cons a l ih =>
    rw [upsert, List.find?_cons]
    cases hp : p a with
    | true => simp
    | false =>
      simp only [Bool.false_eq_true, if_false, List.length_cons, ih]
      split <;> rfl

theorem upsert_of_find?_eq_none (h : l.find? p = none) : upsert p x l = l ++ [x] := by
  rw [upsert_eq, List.findIdx?_eq_none_iff.2 (by simpa using h)]

end upsert

/-! ### Ledgers -/

/-- Keys and their values in the order of insertion. -/
abbrev Ledger := List (Key × Value)

namespace Ledger

/-- The first entry with a key equal to the given one. -/
def entry? (l : Ledger) (v : View) (key : Key) : Option (Key × Value) :=
  l.find? fun e => v.sameKey e.1 key

/-- The value of a key. -/
def find (l : Ledger) (v : View) (key : Key) : Option Value := (l.entry? v key).map (·.2)

/-- Gives a key a value: overwrites the first entry with an equal key, or adds one at the end. -/
def put (l : Ledger) (v : View) (key : Key) (value : Value) : Ledger :=
  upsert (fun e => v.sameKey e.1 key) (key, value) l

variable {l : Ledger} {v : View} {key : Key} {value : Value}

theorem mem_of_entry? {e : Key × Value} (h : l.entry? v key = some e) : e ∈ l :=
  List.mem_of_find?_eq_some h

theorem sameKey_of_entry? {e : Key × Value} (h : l.entry? v key = some e) : v.sameKey e.1 key := by
  have := List.find?_some h
  exact this

theorem length_put :
    (l.put v key value).length = if (l.entry? v key).isSome then l.length else l.length + 1 :=
  length_upsert

theorem put_of_entry?_eq_none (h : l.entry? v key = none) :
    l.put v key value = l ++ [(key, value)] :=
  upsert_of_find?_eq_none h

end Ledger

/-- The entry of a table for a key and its value. -/
def View.entry (v : View) (e : Key × Value) : Entry := ⟨e.1, e.2, v.keyHash e.1⟩

namespace Table

/-- The table keeps the entries of a ledger. -/
structure Holds (t : Table) (v : View) (l : Ledger) : Prop where
  /-- A bucket has the entries with its hash, in the order of the ledger. -/
  bucket_eq : ∀ hash, t.bucket hash = (l.filter fun e => v.keyHash e.1 = hash).map v.entry
  size_eq : t.size = l.length
  /-- All keys can be hashed. -/
  hashable : ∀ e ∈ l, v.hashFault? e.1.node = none
  /-- What is remembered is right. -/
  trusts : ∀ memo, t.memo = some memo → v.Trusts memo

theorem holds_empty (settings : Settings) (v : View) : (Table.empty settings).Holds v [] := by
  refine ⟨fun hash => ?_, rfl, by simp, fun memo h => ?_⟩
  · simp [bucket, empty]
  · simp only [empty] at h
    split at h
    · cases h
      exact v.trusts_empty
    · simp at h

variable {t : Table} {v : View} {l : Ledger} {key : Key}

theorem Holds.hash_of_mem_bucket (h : t.Holds v l) {hash : UInt64} {e : Entry}
    (he : e ∈ t.bucket hash) : e.hash = hash := by
  rw [h.bucket_eq, List.mem_map] at he
  obtain ⟨f, hf, rfl⟩ := he
  have hhash := List.of_mem_filter hf
  exact of_decide_eq_true hhash

/-! ### Hashing -/

theorem Holds.hashKey_eq (h : t.Holds v l) (hk : v.hashFault? key.node = none) :
    ∃ t', t.hashKey v key = (.ok (v.keyHash key), t') ∧ t'.Holds v l := by
  unfold hashKey
  split
  next memo hm =>
    have hm := h.trusts memo hm
    rw [View.hashKeyIn_eq hm.sound, hk]
    refine ⟨_, rfl, h.bucket_eq, h.size_eq, h.hashable, ?_⟩
    rintro _ ⟨⟩
    exact hm.remember (View.index_lt_of_hashFault? hk)
  next =>
    rw [View.hashKey_eq, hk]
    exact ⟨t, rfl, h⟩

theorem Holds.hashKey_fault (h : t.Holds v l) {fault : Fault}
    (hk : v.hashFault? key.node = some fault) : t.hashKey v key = (.error fault, t) := by
  unfold hashKey
  split
  next memo hm =>
    rw [View.hashKeyIn_eq (h.trusts memo hm).sound, hk]
    simp only [← hm]
  next => rw [View.hashKey_eq, hk]

/-! ### Looking through a bucket -/

/-- In a list of keys of existing nodes, the search for a key finds the first equal one. -/
theorem position?_eq {es : List Entry} (hes : ∀ e ∈ es, e.key.node.index < v.arena.size)
    (hk : key.node.index < v.arena.size) :
    position? v key es = .ok (es.findIdx? fun e => v.sameKey e.key key) := by
  induction es with
  | nil => rfl
  | cons e es ih =>
    obtain ⟨he, hes⟩ := List.forall_mem_cons.1 hes
    rw [position?, View.equalKeys_eq he hk, List.findIdx?_cons]
    cases v.sameKey e.key key with
    | true => rfl
    | false => simp [ih hes]

theorem Holds.position?_eq (h : t.Holds v l) (hk : v.hashFault? key.node = none)
    (hash : UInt64) :
    position? v key (t.bucket hash) =
      .ok ((t.bucket hash).findIdx? fun e => v.sameKey e.key key) := by
  refine Table.position?_eq (fun e he => ?_) (View.index_lt_of_hashFault? hk)
  rw [h.bucket_eq, List.mem_map] at he
  obtain ⟨e, he, rfl⟩ := he
  exact View.index_lt_of_hashFault? (h.hashable e (List.mem_of_mem_filter he))

/-- The bucket of a key's hash has the first equal entry of the whole ledger. -/
theorem Holds.find?_bucket (h : t.Holds v l) (key : Key) :
    (t.bucket (v.keyHash key)).find? (fun e => v.sameKey e.key key) =
      (l.entry? v key).map v.entry := by
  rw [h.bucket_eq, List.find?_map, List.find?_filter, Ledger.entry?]
  congr 2
  funext e
  -- an entry with an equal key passes the filter
  by_cases hs : v.sameKey e.1 key
  · simp [View.entry, hs, View.keyHash_eq_of_sameKey hs]
  · simp [View.entry, hs]

/-! ### Finding -/

theorem Holds.find_eq (h : t.Holds v l) (hk : v.hashFault? key.node = none) :
    ∃ t', t.find v key = (.ok (l.find v key), t') ∧ t'.Holds v l := by
  obtain ⟨t', ht, h'⟩ := h.hashKey_eq hk
  refine ⟨t', ?_, h'⟩
  have hb : ((t'.bucket (v.keyHash key)).find? fun e => v.sameKey e.key key).map (·.value) =
      l.find v key := by
    rw [h'.find?_bucket key, Option.map_map]
    rfl
  rw [List.find?_eq_bind_findIdx?_getElem?, Option.map_bind] at hb
  simp only [find, ht, h'.position?_eq hk]
  rw [← hb]
  rfl

theorem Holds.find_fault (h : t.Holds v l) {fault : Fault}
    (hk : v.hashFault? key.node = some fault) : t.find v key = (.error fault, t) := by
  simp only [find, h.hashKey_fault hk]

/-! ### Inserting -/

theorem bucket_insert (t : Table) (hash : UInt64) (es : List Entry) (size : Nat) (key : UInt64) :
    Table.bucket { t with buckets := t.buckets.insert hash es, size } key =
      if hash = key then es else t.bucket key := by
  simp only [bucket, Std.TreeMap.getD_insert, Std.compare_eq_iff_eq]

theorem Holds.upsert_bucket (h : t.Holds v l) (value : Value) :
    upsert (fun e => v.sameKey e.key key) (v.entry (key, value)) (t.bucket (v.keyHash key)) =
      ((l.put v key value).filter fun e => v.keyHash e.1 = v.keyHash key).map v.entry := by
  have hq : ∀ e ∈ l, v.sameKey e.1 key → decide (v.keyHash e.1 = v.keyHash key) := by
    intro e _ hs
    simpa using View.keyHash_eq_of_sameKey hs
  rw [Ledger.put, filter_upsert_of_pos hq (by simp), h.bucket_eq]
  exact map_upsert.symm

/-- A table with the right bucket for a key's hash, and all others unchanged, holds the ledger in
which the key has its value. -/
theorem Holds.put (h : t.Holds v l) (hk : v.hashFault? key.node = none) (value : Value)
    {es : List Entry} {size : Nat}
    (hes : es = upsert (fun e => v.sameKey e.key key) (v.entry (key, value))
      (t.bucket (v.keyHash key)))
    (hsize : size = (l.put v key value).length) :
    Holds { t with buckets := t.buckets.insert (v.keyHash key) es, size } v
      (l.put v key value) := by
  refine ⟨fun hash => ?_, hsize, fun e he => ?_, h.trusts⟩
  · rw [bucket_insert]
    split
    next heq => rw [← heq, hes, h.upsert_bucket]
    next hne =>
      have hq : ∀ e ∈ l, v.sameKey e.1 key → ¬ decide (v.keyHash e.1 = hash) := by
        intro e _ hs
        simpa [View.keyHash_eq_of_sameKey hs] using hne
      rw [h.bucket_eq, Ledger.put, filter_upsert_of_neg hq (by simpa using hne)]
  · rcases mem_upsert he with rfl | he
    · exact hk
    · exact h.hashable e he

theorem Holds.insert_eq (h : t.Holds v l) (hk : v.hashFault? key.node = none) (value : Value) :
    ∃ t', t.insert v key value = (.ok ((l.entry? v key).map v.entry), t') ∧
      t'.Holds v (l.put v key value) := by
  obtain ⟨t', ht, h'⟩ := h.hashKey_eq hk
  have hb := h'.find?_bucket key
  have hu := upsert_eq (p := fun e => v.sameKey e.key key) (x := v.entry (key, value))
    (l := t'.bucket (v.keyHash key))
  rw [List.find?_eq_bind_findIdx?_getElem?] at hb
  simp only [insert, ht, h'.position?_eq hk]
  cases hi : (t'.bucket (v.keyHash key)).findIdx? fun e => v.sameKey e.key key with
  | some i =>
    rw [hi] at hb hu
    have hsome : (l.entry? v key).isSome := by
      obtain ⟨hlt, _⟩ := List.findIdx?_eq_some_iff_getElem.1 hi
      rw [← Option.isSome_map (f := v.entry), ← hb]
      simp [hlt]
    refine ⟨_, by rw [← hb]; rfl, ?_⟩
    refine h'.put hk value hu.symm ?_
    rw [Ledger.length_put, if_pos hsome, h'.size_eq]
  | none =>
    rw [hi] at hb hu
    have hnone : l.entry? v key = none := by simpa using hb.symm
    refine ⟨_, by rw [hnone]; rfl, ?_⟩
    refine h'.put hk value hu.symm ?_
    rw [Ledger.length_put, hnone, h'.size_eq]
    rfl

theorem Holds.insert_fault (h : t.Holds v l) {fault : Fault}
    (hk : v.hashFault? key.node = some fault) (value : Value) :
    t.insert v key value = (.error fault, t) := by
  simp only [insert, h.hashKey_fault hk]

/-! ### Growing -/

theorem hashFault?_extend {a b : Arena} {p : Policy} (h : a.Extends b) {n : NodeId}
    (hn : (View.mk a p).hashFault? n = none) : (View.mk b p).hashFault? n = none := by
  rw [View.hashFault?_eq_none_iff] at *
  obtain ⟨q, hq, hk⟩ := hn
  exact ⟨q, h.node? hq, hk⟩

theorem sameKey_extend {a b : Arena} {p : Policy} (h : a.Extends b) {k l : Key}
    (hs : (View.mk a p).sameKey k l) : (View.mk b p).sameKey k l := by
  rw [View.sameKey_iff] at hs ⊢
  exact ⟨hs.1, h.sameTree p hs.2⟩

/-- While no types are declared, different keys stay different, too. -/
theorem sameKey_eq {a b : Arena} {p : Policy} (h : a.Extends b) (hab : b.aliases = a.aliases)
    {k l : Key} (hk : k.node.index < a.size) (hl : l.node.index < a.size) :
    (View.mk b p).sameKey k l = (View.mk a p).sameKey k l := by
  rw [Bool.eq_iff_iff, View.sameKey_iff, View.sameKey_iff, h.sameTree_eq p hab hk hl]

theorem keyHash_extend {a b : Arena} {p : Policy} (h : a.Extends b) {key : Key}
    (hk : (View.mk a p).hashFault? key.node = none) :
    (View.mk b p).keyHash key = (View.mk a p).keyHash key := by
  rw [View.keyHash, View.keyHash, h.treeHash_eq p (View.index_lt_of_hashFault? hk)]

/-- What a table holds, it still holds when the arena has grown. -/
theorem Holds.extend {a b : Arena} {p : Policy} (hab : a.Extends b) (h : t.Holds ⟨a, p⟩ l) :
    t.Holds ⟨b, p⟩ l := by
  have hkey : ∀ e ∈ l, (View.mk b p).keyHash e.1 = (View.mk a p).keyHash e.1 :=
    fun e he => keyHash_extend hab (h.hashable e he)
  refine ⟨fun hash => ?_, h.size_eq, fun e he => hashFault?_extend hab (h.hashable e he),
    fun memo hm => (h.trusts memo hm).extend hab⟩
  have hfilter : (l.filter fun e => (View.mk b p).keyHash e.1 = hash) =
      l.filter fun e => (View.mk a p).keyHash e.1 = hash :=
    List.filter_congr fun e he => by rw [hkey e he]
  rw [h.bucket_eq, hfilter]
  refine List.map_congr_left fun e he => ?_
  rw [View.entry, View.entry, hkey e (List.mem_of_mem_filter he)]

end Table

end ValueNumbering
