import ValueNumbering.Proofs.DistinctKeys

/-!
# A table is a finite map

Where types are transitive, equality of keys is an equivalence, and a table is a finite map from its
classes to values. `Table.finite_map` has the laws: an inserted value is found under every equal key
and under no other, where all stays as it was; insertion returns what was there; the size counts the
new keys; and no two entries have equal keys.

They hold for every table that can be made (`Table.Made`): by insertions and searches, refused or not,
while nodes are pushed and no types are declared.

The laws are those of the ledger that the table holds. Overwriting the first match changes the answer
for the keys that match it and for no others (`Ledger.find_put_of_sameKey`, `Ledger.find_put_of_not`).
Without transitivity, the entry that goes may be the first match of a key that the new one does not
equal.
-/

namespace ValueNumbering

/-! ### Ledgers -/

theorem find?_upsert_of_pos {α : Type} {p : α → Bool} {x : α} {l : List α} (hx : p x) :
    (upsert p x l).find? p = some x := by
  induction l with
  | nil => simp [upsert, hx]
  | cons a l ih =>
    by_cases ha : p a
    · simp [upsert, ha, hx]
    · simp [upsert, ha, ih]

/-- A search that no match and not the new element passes sees no change. -/
theorem find?_upsert_of_neg {α : Type} {p q : α → Bool} {x : α} {l : List α}
    (hpq : ∀ a ∈ l, p a → ¬ q a) (hx : ¬ q x) : (upsert p x l).find? q = l.find? q := by
  rw [← List.head?_filter, filter_upsert_of_neg hpq hx, List.head?_filter]

namespace Ledger

variable {l : Ledger} {v : View} {k k' : Key}

theorem find_put_of_sameKey (ht : v.TransitiveTypes) (h : v.sameKey k k') (value : Value) :
    (l.put v k value).find v k' = some value := by
  have hcongr : ∀ e : Key × Value, v.sameKey e.1 k' = v.sameKey e.1 k := by
    intro e
    rw [Bool.eq_iff_iff]
    constructor
    · intro he
      rw [View.sameKey_comm] at h
      exact View.sameKey_trans ht he h
    · intro he
      exact View.sameKey_trans ht he h
  have hself : v.sameKey k k := View.sameKey_self k
  simp only [find, entry?, hcongr]
  rw [put, find?_upsert_of_pos (p := fun e : Key × Value => v.sameKey e.1 k) hself]
  rfl

theorem find_put_of_not (ht : v.TransitiveTypes) (h : ¬ v.sameKey k k') (value : Value) :
    (l.put v k value).find v k' = l.find v k' := by
  have hother : ∀ e ∈ l, v.sameKey e.1 k → ¬ v.sameKey e.1 k' := by
    intro e _ he he'
    rw [View.sameKey_comm] at he
    exact h (View.sameKey_trans ht he he')
  rw [find, entry?, put, find?_upsert_of_neg hother h]
  rfl

end Ledger

/-! ### Tables -/

namespace Table

/-- The tables that insertions and searches make from an empty one, while nodes are pushed and no types
are declared, with the arena at the end. -/
inductive Made (p : Policy) : Arena → Table → Prop
  | empty (a : Arena) (settings : Settings) : Made p a (.empty settings)
  | insert {a : Arena} {t : Table} (h : Made p a t) (key : Key) (value : Value) :
      Made p a (t.insert ⟨a, p⟩ key value).2
  | find {a : Arena} {t : Table} (h : Made p a t) (key : Key) : Made p a (t.find ⟨a, p⟩ key).2
  | push {a : Arena} {t : Table} (h : Made p a t) (op : Op) (ty : Ty) (operands : List NodeId)
      (flags : Flags) : Made p (a.push op ty operands flags).2 t

variable {p : Policy} {a : Arena} {t : Table}

theorem Made.holds (h : Made p a t) (ht : (View.mk a p).TransitiveTypes) :
    ∃ l, t.Holds ⟨a, p⟩ l ∧ l.Distinct ⟨a, p⟩ := by
  induction h with
  | empty a settings => exact ⟨[], holds_empty settings _, List.Pairwise.nil⟩
  | @insert a t h key value ih =>
    obtain ⟨l, hl, hd⟩ := ih ht
    cases hk : (View.mk a p).hashFault? key.node with
    | some fault =>
      rw [hl.insert_fault hk]
      exact ⟨l, hl, hd⟩
    | none =>
      obtain ⟨t', ht', hl'⟩ := hl.insert_eq hk value
      rw [ht']
      exact ⟨_, hl', (hd.put_iff value).2 (hd.countP_le_one ht key)⟩
  | @find a t h key ih =>
    obtain ⟨l, hl, hd⟩ := ih ht
    cases hk : (View.mk a p).hashFault? key.node with
    | some fault =>
      rw [hl.find_fault hk]
      exact ⟨l, hl, hd⟩
    | none =>
      obtain ⟨t', ht', hl'⟩ := hl.find_eq hk
      rw [ht']
      exact ⟨l, hl', hd⟩
  | @push a t h op ty operands flags ih =>
    have halias := a.aliases_push op ty operands flags
    have hgrown := a.extends_push op ty operands flags
    obtain ⟨l, hl, hd⟩ := ih (ht.congr halias.symm)
    exact ⟨l, hl.extend hgrown, hd.extend hl hgrown halias⟩

/-- The laws of a finite map. A value that is inserted under `k` is found under `k'` if the two keys
are equal, and otherwise what was found before is found again. The insertion returns the entry with an
equal key, whose value is what was found under `k`, or none if nothing was; then, and only then, the
size grows by one. No two entries have equal keys. -/
theorem finite_map (h : Made p a t) (ht : (View.mk a p).TransitiveTypes) (k k' : Key)
    (hk : ∃ q, a.node? k.node = some q ∧ q.op.kind ≠ .statement)
    (hk' : ∃ q, a.node? k'.node = some q ∧ q.op.kind ≠ .statement) (value : Value) :
    let v : View := ⟨a, p⟩
    ∃ found found' old, (t.find v k).1 = .ok found ∧ (t.find v k').1 = .ok found' ∧
      (t.insert v k value).1 = .ok old ∧
      ((t.insert v k value).2.find v k').1 =
        .ok (if v.equalKeys k k' = .ok true then some value else found') ∧
      old.map (·.value) = found ∧
      (∀ e, old = some e → e ∈ t.entries ∧ v.equalKeys e.key k = .ok true) ∧
      (t.insert v k value).2.size = t.size + (if old = none then 1 else 0) ∧
      v.DistinctKeys t.entries := by
  intro v
  obtain ⟨l, hl, hd⟩ := h.holds ht
  have hkf : v.hashFault? k.node = none := View.hashFault?_eq_none_iff.2 hk
  have hkf' : v.hashFault? k'.node = none := View.hashFault?_eq_none_iff.2 hk'
  obtain ⟨_, hfind, -⟩ := hl.find_eq hkf
  obtain ⟨_, hfind', -⟩ := hl.find_eq hkf'
  obtain ⟨t', hins, hl'⟩ := hl.insert_eq hkf value
  obtain ⟨_, hafter, -⟩ := hl'.find_eq hkf'
  have hequal : v.equalKeys k k' = .ok (v.sameKey k k') :=
    View.equalKeys_eq (View.index_lt_of_hashFault? hkf) (View.index_lt_of_hashFault? hkf')
  refine ⟨l.find v k, l.find v k', (l.entry? v k).map v.entry, ?_, ?_, ?_, ?_, ?_, ?_, ?_, ?_⟩
  · rw [hfind]
  · rw [hfind']
  · rw [hins]
  · rw [hins, hafter, hequal]
    by_cases hs : v.sameKey k k'
    · rw [Ledger.find_put_of_sameKey ht hs, if_pos (by rw [hs])]
    · rw [Ledger.find_put_of_not ht hs, if_neg (by simpa using hs)]
  · rw [Option.map_map]
    rfl
  · intro e he
    obtain ⟨f, hf, rfl⟩ := Option.map_eq_some_iff.1 he
    have hmem : f ∈ l := Ledger.mem_of_entry? hf
    refine ⟨hl.entries_perm.mem_iff.2 (List.mem_map_of_mem hmem), ?_⟩
    have hlt := View.index_lt_of_hashFault? (hl.hashable f hmem)
    show v.equalKeys f.1 k = .ok true
    rw [View.equalKeys_eq hlt (View.index_lt_of_hashFault? hkf), Ledger.sameKey_of_entry? hf]
  · rw [hins, hl'.size_eq, Ledger.length_put, hl.size_eq]
    cases l.entry? v k <;> simp
  · exact hl.distinctKeys_iff.2 hd

/-- A table with one entry, for the first of two equal loads. -/
def firstLoad : Table :=
  ((Table.empty .standard).insert ⟨View.twinLoads, .full⟩ ⟨⟨1⟩, []⟩ (.handle ⟨0⟩)).2

/-- A value inserted under the second load is found under the first, unless it was inserted with other
memory versions. -/
theorem firstLoad_finite_map :
    let v : View := ⟨View.twinLoads, .full⟩
    (firstLoad.find v ⟨⟨1⟩, []⟩).1 = .ok (some (.handle ⟨0⟩)) ∧
      ((firstLoad.insert v ⟨⟨2⟩, []⟩ (.handle ⟨1⟩)).2.find v ⟨⟨1⟩, []⟩).1 =
        .ok (some (.handle ⟨1⟩)) ∧
      ((firstLoad.insert v ⟨⟨2⟩, [⟨1⟩]⟩ (.handle ⟨1⟩)).2.find v ⟨⟨1⟩, []⟩).1 =
        .ok (some (.handle ⟨0⟩)) ∧
      v.DistinctKeys firstLoad.entries := by
  intro v
  have hmade : Made .full View.twinLoads firstLoad := .insert (.empty _ .standard) _ _
  have ht : v.TransitiveTypes := View.transitiveTypes_of_one_pair (s := .int) (t := ⟨7⟩) rfl
  have hsecond : ∃ q, View.twinLoads.node? ⟨2⟩ = some q ∧ q.op.kind ≠ .statement :=
    ⟨⟨.load, ⟨7⟩, .empty, ⟨1, 1⟩⟩, by decide +kernel, by decide⟩
  have hfirst : ∃ q, View.twinLoads.node? ⟨1⟩ = some q ∧ q.op.kind ≠ .statement :=
    ⟨⟨.load, .int, .empty, ⟨0, 1⟩⟩, by decide +kernel, by decide⟩
  obtain ⟨found, found', old, -, -, -, hafter, -, -, -, hdistinct⟩ :=
    finite_map hmade ht ⟨⟨2⟩, []⟩ ⟨⟨1⟩, []⟩ hsecond hfirst (.handle ⟨1⟩)
  have hequal : v.equalKeys ⟨⟨2⟩, []⟩ ⟨⟨1⟩, []⟩ = .ok true := by decide +kernel
  rw [if_pos hequal] at hafter
  obtain ⟨-, kept, -, -, hbefore, -, hframe, -, -, -, -⟩ :=
    finite_map hmade ht ⟨⟨2⟩, [⟨1⟩]⟩ ⟨⟨1⟩, []⟩ hsecond hfirst (.handle ⟨1⟩)
  have hother : v.equalKeys ⟨⟨2⟩, [⟨1⟩]⟩ ⟨⟨1⟩, []⟩ ≠ .ok true := by decide +kernel
  have hfound : (firstLoad.find v ⟨⟨1⟩, []⟩).1 = .ok (some (.handle ⟨0⟩)) := by decide +kernel
  rw [if_neg hother, ← hbefore, hfound] at hframe
  exact ⟨hfound, hafter, hframe, hdistinct⟩

end Table

end ValueNumbering
