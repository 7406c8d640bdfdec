import Mathlib.Data.List.Infix
import ValueNumbering.Proofs.Runs

/-!
# Tables with distinct keys

A table is meant to have at most one entry for each key. Numbering keeps it so, as it enters a key only
if no entry has an equal one. Defining a value by hand replaces the first entry with an equal key. If
types are not transitive there may be a second such entry, and it stays: `Pass.chained` is the
smallest such run, and `Pass.chained_keys_clash` says that two entries have equal keys after it.

`Pass.keys_distinct_iff` says exactly when this happens. While no types are declared, the keys are
distinct all through a run if and only if no key that is given a value by hand equals the keys of two
entries. If types are transitive, this is so in every run.

Entries stand in the order of their hashes. `Table.Holds.entries_perm` brings them back to the order
of insertion, and `Table.Holds.distinctKeys_iff` to the ledger that the table holds.
-/

namespace ValueNumbering

/-! ### The entries of a table -/

namespace Table

variable {t : Table} {v : View} {l : Ledger}

theorem bucket_of_mem {b : UInt64 × List Entry} (h : b ∈ t.buckets.toList) :
    t.bucket b.1 = b.2 := by
  rw [bucket, Std.TreeMap.getD_eq_getD_getElem?, Std.TreeMap.mem_toList_iff_getElem?_eq_some.1 h]
  rfl

theorem filter_entries (h : ∀ hash, ∀ e ∈ t.bucket hash, e.hash = hash) (hash : UInt64) :
    t.entries.filter (fun e => e.hash = hash) = t.bucket hash := by
  have hown : ∀ b ∈ t.buckets.toList, ∀ e ∈ b.2, e.hash = b.1 := by
    intro b hb e he
    rw [← bucket_of_mem hb] at he
    exact h b.1 e he
  -- buckets of other hashes contribute nothing
  have hnil : ∀ bs : List (UInt64 × List Entry), (∀ b ∈ bs, b ∈ t.buckets.toList ∧ b.1 ≠ hash) →
      ((bs.map (·.2)).flatten).filter (fun e => e.hash = hash) = [] := by
    intro bs hbs
    rw [List.filter_eq_nil_iff]
    intro e he
    obtain ⟨es, hes, hmem⟩ := List.mem_flatten.1 he
    obtain ⟨b, hb, rfl⟩ := List.mem_map.1 hes
    rw [hown b (hbs b hb).1 e hmem]
    simpa using (hbs b hb).2
  cases hsome : t.buckets[hash]? with
  | none =>
    have hbucket : t.bucket hash = [] := by
      rw [bucket, Std.TreeMap.getD_eq_getD_getElem?, hsome]
      rfl
    rw [entries, hbucket]
    refine hnil _ fun b hb => ⟨hb, ?_⟩
    rintro rfl
    rw [Std.TreeMap.mem_toList_iff_getElem?_eq_some.1 hb] at hsome
    simp at hsome
  | some es =>
    have hmem : (hash, es) ∈ t.buckets.toList :=
      Std.TreeMap.mem_toList_iff_getElem?_eq_some.2 hsome
    have hdistinct := Std.TreeMap.distinct_keys_toList (t := t.buckets)
    obtain ⟨before, after, hsplit⟩ := List.append_of_mem hmem
    rw [hsplit, List.pairwise_append, List.pairwise_cons] at hdistinct
    obtain ⟨-, ⟨hafter, -⟩, hbefore⟩ := hdistinct
    have hb := hnil before fun b hb => by
      refine ⟨hsplit ▸ List.mem_append_left _ hb, fun heq => ?_⟩
      exact hbefore b hb (hash, es) List.mem_cons_self (by simp [heq])
    have ha := hnil after fun b hb => by
      refine ⟨hsplit ▸ List.mem_append_right _ (List.mem_cons_of_mem _ hb), fun heq => ?_⟩
      exact hafter b hb (by simp [heq])
    have hes : es.filter (fun e => e.hash = hash) = es := by
      rw [List.filter_eq_self]
      intro e he
      simpa using hown (hash, es) hmem e he
    rw [entries, hsplit, bucket_of_mem (b := (hash, es)) hmem]
    simp only [List.map_append, List.map_cons, List.flatten_append, List.flatten_cons,
      List.filter_append, hb, ha, hes, List.nil_append, List.append_nil]

/-- The entries of a table are those of its ledger, in another order. -/
theorem Holds.entries_perm (h : t.Holds v l) : t.entries.Perm (l.map v.entry) := by
  rw [List.perm_iff_count]
  intro e
  calc t.entries.count e
      = (t.entries.filter fun f => f.hash = e.hash).count e := (List.count_filter (by simp)).symm
    _ = (t.bucket e.hash).count e := by
      rw [filter_entries fun hash f hf => h.hash_of_mem_bucket hf]
    _ = ((l.map v.entry).filter fun f => f.hash = e.hash).count e := by
      rw [h.bucket_eq, List.filter_map]
      rfl
    _ = (l.map v.entry).count e := List.count_filter (by simp)

end Table

/-! ### Distinct keys -/

/-- No two of the entries have equal keys. -/
def View.DistinctKeys (v : View) (es : List Entry) : Prop :=
  es.Pairwise fun e f => v.equalKeys e.key f.key = .ok false

/-- No two entries of the ledger have equal keys. -/
def Ledger.Distinct (l : Ledger) (v : View) : Prop :=
  l.Pairwise fun e f => v.sameKey e.1 f.1 = false

theorem Table.Holds.distinctKeys_iff {t : Table} {v : View} {l : Ledger} (h : t.Holds v l) :
    v.DistinctKeys t.entries ↔ l.Distinct v := by
  have hperm := h.entries_perm
  have hlt : ∀ e ∈ t.entries, e.key.node.index < v.arena.size := by
    intro e he
    obtain ⟨f, hf, rfl⟩ := List.mem_map.1 (hperm.mem_iff.1 he)
    exact View.index_lt_of_hashFault? (h.hashable f hf)
  have hcompare : v.DistinctKeys t.entries ↔
      t.entries.Pairwise fun e f => v.sameKey e.key f.key = false := by
    refine List.Pairwise.iff_of_mem fun {e f} he hf => ?_
    rw [View.equalKeys_eq (hlt e he) (hlt f hf), Except.ok.injEq]
  have hsymm : ∀ {e f : Entry}, v.sameKey e.key f.key = false →
      v.sameKey f.key e.key = false := by
    intro e f hef
    rw [View.sameKey_comm, hef]
  rw [hcompare, hperm.pairwise_iff hsymm, List.pairwise_map]
  rfl

theorem Table.Holds.countP_entries {t : Table} {v : View} {l : Ledger} (h : t.Holds v l)
    (key : Key) :
    t.entries.countP (fun e => v.sameKey e.key key) = l.countP fun e => v.sameKey e.1 key := by
  rw [h.entries_perm.countP_eq, List.countP_map]
  rfl

section upsert

variable {α : Type} {r : α → α → Bool} {p : α → Bool} {x : α} {l : List α}

/-- Overwriting the first match leaves different elements exactly if there is no second one. -/
theorem pairwise_upsert_iff (hr : ∀ a b, r a b = r b a) (hp : ∀ a, p a = r a x)
    (h : l.Pairwise fun a b => r a b = false) :
    ((upsert p x l).Pairwise fun a b => r a b = false) ↔ l.countP p ≤ 1 := by
  induction l with
  | nil => simp [upsert]
  | cons a l ih =>
    obtain ⟨ha, hl⟩ := List.pairwise_cons.1 h
    rw [upsert]
    by_cases hpa : p a
    · -- the new element stands before the others, which must not match it
      rw [if_pos hpa, List.pairwise_cons, List.countP_cons_of_pos hpa]
      have hzero : l.countP p = 0 ↔ ∀ b ∈ l, r x b = false := by
        simp only [List.countP_eq_zero, hp, hr _ x, Bool.not_eq_true]
      rw [← hzero]
      constructor
      · intro hnone
        omega
      · intro hone
        exact ⟨by omega, hl⟩
    · rw [if_neg hpa, List.pairwise_cons, List.countP_cons_of_neg hpa, ih hl]
      refine and_iff_right fun b hb => ?_
      rcases mem_upsert hb with rfl | hb
      · simpa [hp] using hpa
      · exact ha b hb

theorem countP_le_one (hp : ∀ a b, p a → p b → r a b) (h : l.Pairwise fun a b => r a b = false) :
    l.countP p ≤ 1 := by
  induction l with
  | nil => simp
  | cons a l ih =>
    obtain ⟨ha, hl⟩ := List.pairwise_cons.1 h
    by_cases hpa : p a
    · have hzero : l.countP p = 0 := by
        rw [List.countP_eq_zero]
        intro b hb hpb
        have hab := hp a b hpa hpb
        rw [ha b hb] at hab
        simp at hab
      rw [List.countP_cons_of_pos hpa, hzero]
    · rw [List.countP_cons_of_neg hpa]
      exact ih hl

end upsert

namespace Ledger.Distinct

variable {l : Ledger} {v : View} {key : Key}

/-- Giving a key a value keeps the keys distinct exactly if the key equals at most one of them. -/
theorem put_iff (h : l.Distinct v) (value : Value) :
    (l.put v key value).Distinct v ↔ l.countP (fun e => v.sameKey e.1 key) ≤ 1 := by
  have hr : ∀ e f : Key × Value, v.sameKey e.1 f.1 = v.sameKey f.1 e.1 :=
    fun e f => View.sameKey_comm e.1 f.1
  exact pairwise_upsert_iff hr (fun _ => rfl) h

theorem countP_le_one (h : l.Distinct v) (ht : v.TransitiveTypes) (key : Key) :
    l.countP (fun e => v.sameKey e.1 key) ≤ 1 := by
  have hp : ∀ e f : Key × Value, v.sameKey e.1 key → v.sameKey f.1 key → v.sameKey e.1 f.1 := by
    intro e f he hf
    rw [View.sameKey_comm] at hf
    exact View.sameKey_trans ht he hf
  exact ValueNumbering.countP_le_one hp h

theorem append (h : l.Distinct v) (he : l.entry? v key = none) (value : Value) :
    Distinct (l ++ [(key, value)]) v := by
  refine List.pairwise_append.2 ⟨h, List.pairwise_singleton _ _, fun e hmem f hf => ?_⟩
  obtain rfl := List.mem_singleton.1 hf
  simpa using List.find?_eq_none.1 he e hmem

theorem extend {a b : Arena} {p : Policy} {t : Table} (h : l.Distinct ⟨a, p⟩)
    (ht : t.Holds ⟨a, p⟩ l) (hab : a.Extends b) (halias : b.aliases = a.aliases) :
    l.Distinct ⟨b, p⟩ := by
  have hlt : ∀ e ∈ l, e.1.node.index < a.size :=
    fun e he => View.index_lt_of_hashFault? (ht.hashable e he)
  refine List.Pairwise.imp_of_mem (fun {e f} he hf hef => ?_) h
  rw [Table.sameKey_eq hab halias (hlt e he) (hlt f hf), hef]

end Ledger.Distinct

/-! ### Runs -/

namespace Pass

variable {w : Pass} {p : Policy} {l : Ledger}

/-- No two entries of the session's table have equal keys. -/
def DistinctKeys (w : Pass) (p : Policy) : Prop :=
  (w.view p).DistinctKeys w.session.table.entries

/-- The number of entries with a key equal to the given one. -/
def equalCount (w : Pass) (p : Policy) (key : Key) : Nat :=
  w.session.table.entries.countP fun e => (w.view p).sameKey e.key key

/-- A request that declares no types keeps the keys distinct, unless it gives a value by hand to a
key that equals the keys of two entries. -/
theorem distinctKeys_after_iff (h : w.session.Tracks (w.view p) l) (hw : w.DistinctKeys p)
    {r : Request} (hr : ∀ s t, r ≠ .edit (.declare s t)) :
    (w.after p r).DistinctKeys p ↔ ∀ key value, r = .define key value →
      (w.exchange p r).answer = .done (.ok ()) → w.equalCount p key ≤ 1 := by
  have hl : l.Distinct (w.view p) := h.holds.distinctKeys_iff.1 hw
  obtain ⟨l', he, h'⟩ := tracks_after h r
  rw [DistinctKeys, h'.holds.distinctKeys_iff]
  cases he with
  | nothing _ hfail =>
    refine iff_of_true ?_ fun key value hdef hok => absurd hok (hfail key value hdef)
    exact hl.extend h.holds (w.extends_after p r) (w.aliases_after p hr)
  | numbered key hk hnone =>
    refine iff_of_true ?_ fun _ _ hdef => by simp at hdef
    exact hl.append hnone _
  | defined key value hk hok =>
    have hput : (l.put (w.view p) key value).Distinct (w.view p) ↔
        l.countP (fun e => (w.view p).sameKey e.1 key) ≤ 1 := hl.put_iff value
    rw [← h.holds.countP_entries] at hput
    refine hput.trans ⟨?_, fun hone => hone key value rfl hok⟩
    rintro hone _ _ ⟨⟩ -
    exact hone

theorem equalCount_le_one (h : w.session.Tracks (w.view p) l) (hw : w.DistinctKeys p)
    (ht : (w.view p).TransitiveTypes) (key : Key) : w.equalCount p key ≤ 1 := by
  have hl : l.Distinct (w.view p) := h.holds.distinctKeys_iff.1 hw
  rw [equalCount, h.holds.countP_entries]
  exact hl.countP_le_one ht key

/-- What holds at first and is kept by each request of a run holds all through the run. -/
theorem prefix_induction {P : List Request → Prop} {requests : List Request} (first : P [])
    (step : ∀ before r, before ++ [r] <+: requests → P before → P (before ++ [r])) :
    ∀ before, before <+: requests → P before := by
  intro before
  induction before using List.reverseRecOn with
  | nil => exact fun _ => first
  | append_singleton before r ih =>
    intro hpre
    exact step before r hpre (ih ((List.prefix_append before [r]).trans hpre))

/-- While no types are declared, the entries have distinct keys all through a run, exactly if each
key that is given a value by hand equals the key of at most one entry then. If types are transitive,
this is so in every run. -/
theorem keys_distinct_iff (a : Arena) (settings : Settings) (p : Policy) (requests : List Request)
    (hr : ∀ s t, .edit (.declare s t) ∉ requests) :
    let last := fun before => ((start a settings).run p before).2
    ((∀ before, before <+: requests → (last before).DistinctKeys p) ↔
      ∀ before key value, before ++ [.define key value] <+: requests →
        ((last before).exchange p (.define key value)).answer = .done (.ok ()) →
        (last before).equalCount p key ≤ 1) ∧
    ((View.mk a p).TransitiveTypes →
      ∀ before, before <+: requests → (last before).DistinctKeys p) := by
  intro last
  have hfixed : ∀ before r, before ++ [r] <+: requests → ∀ s t, r ≠ .edit (.declare s t) := by
    rintro before r hpre s t rfl
    exact hr s t (hpre.subset (by simp))
  have hfirst : (last []).DistinctKeys p := List.Pairwise.nil
  have hconcat : ∀ before r, last (before ++ [r]) = (last before).after p r :=
    (start a settings).run_concat p
  have hstep : ∀ before r, before ++ [r] <+: requests → (last before).DistinctKeys p →
      ((last (before ++ [r])).DistinctKeys p ↔ ∀ key value, r = .define key value →
        ((last before).exchange p r).answer = .done (.ok ()) →
        (last before).equalCount p key ≤ 1) := by
    intro before r hpre hd
    obtain ⟨l, h⟩ := run_tracks a settings p before
    rw [hconcat]
    exact distinctKeys_after_iff h hd (hfixed before r hpre)
  refine ⟨⟨fun hall before key value hpre hok => ?_, fun hdef => ?_⟩, fun ht => ?_⟩
  · have hbefore := hall before ((List.prefix_append before _).trans hpre)
    exact (hstep before _ hpre hbefore).1 (hall _ hpre) key value rfl hok
  · refine prefix_induction hfirst fun before r hpre hd => (hstep before r hpre hd).2 ?_
    rintro key value rfl hok
    exact hdef before key value hpre hok
  · -- that the types stay the same is carried along
    have hboth : ∀ before, before <+: requests →
        (last before).DistinctKeys p ∧ (last before).arena.aliases = a.aliases := by
      refine prefix_induction ⟨hfirst, rfl⟩ fun before r hpre hd => ⟨?_, ?_⟩
      · obtain ⟨l, h⟩ := run_tracks a settings p before
        exact (hstep before r hpre hd.1).2 fun key _ _ _ =>
          equalCount_le_one h hd.1 (ht.congr hd.2) key
      · rw [hconcat, aliases_after _ p (hfixed before r hpre), hd.2]
    exact fun before hpre => (hboth before hpre).1

/-- Three loads from one address. The type of the last may stand for those of the other two, but these
may not stand for each other. -/
def chainedLoads : Arena :=
  let a := ((Arena.empty.declare ⟨20⟩ ⟨21⟩).declare ⟨21⟩ ⟨22⟩).var ⟨1⟩ 0 .pointer
  (((a.2.load ⟨0⟩ ⟨20⟩).2.load ⟨0⟩ ⟨22⟩).2.load ⟨0⟩ ⟨21⟩).2

/-- The last load is given the value of the first, while the second has none yet. -/
def unchained : List Request :=
  [.number ⟨⟨1⟩, []⟩, .define ⟨⟨3⟩, []⟩ (.handle ⟨0⟩)]

/-- Without the second load the keys stay distinct, although types are not transitive. -/
theorem unchained_keys_distinct :
    (∀ s t, .edit (.declare s t) ∉ unchained) ∧
      ∀ before, before <+: unchained →
        ((start chainedLoads .standard).run .full before).2.DistinctKeys .full := by
  have hr : ∀ s t, .edit (.declare s t) ∉ unchained := by simp [unchained]
  refine ⟨hr, (keys_distinct_iff chainedLoads .standard .full unchained hr).1.2 ?_⟩
  rintro before key value ⟨rest, heq⟩ -
  match before with
  | [] => simp [unchained] at heq
  | [r] =>
    simp only [unchained, List.cons_append, List.nil_append, List.cons.injEq,
      Request.define.injEq] at heq
    obtain ⟨rfl, ⟨rfl, -⟩, -⟩ := heq
    decide +kernel
  | _ :: _ :: _ => simp [unchained] at heq

/-- The first two loads get values of their own, and the last is given that of the first. -/
def chained : List Request :=
  [.number ⟨⟨1⟩, []⟩, .number ⟨⟨2⟩, []⟩, .define ⟨⟨3⟩, []⟩ (.handle ⟨0⟩)]

/-- The last load replaces the first, and the entry of the second, which it equals, too, stays. -/
theorem chained_keys_clash :
    ¬ ((start chainedLoads .standard).run .full chained).2.DistinctKeys .full := by
  unfold DistinctKeys View.DistinctKeys
  decide +kernel

end Pass

end ValueNumbering
