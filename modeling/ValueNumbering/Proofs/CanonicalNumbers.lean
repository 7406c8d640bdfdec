import Mathlib.Data.List.Nodup
import ValueNumbering.Proofs.Runs

/-!
# Numbering is canonical

Where interchangeable types are transitive and none are declared any more, equality of keys is an
equivalence, and numbering gives each class of equal keys one handle. `Pass.numbers_canonical` says
so for every run that only pushes nodes and numbers keys without a fault:

* two keys got the same value exactly if they are equal;
* the handle of a key is the number of classes that were first asked for before its own;
* the number of values at the end is the number of classes that were asked for.

Constants are left out, as they are their own values.

`Canonical` is the invariant. It speaks about the keys and values so far, the ledger and the number of
values, and is kept by an answer from the ledger (`Canonical.known`) and by a new value
(`Canonical.created`). As the arena grows, the keys so far are compared in ever larger arenas; the
invariant is carried for all of those at once.
-/

namespace ValueNumbering

/-! ### Counting classes -/

namespace View

/-- The number of classes of equal keys in a list. -/
def classCount (v : View) (keys : List Key) : Nat := (keys.eraseDupsBy v.sameKey).length

variable {v : View}

theorem classCount_cons (k : Key) (keys : List Key) :
    v.classCount (k :: keys) = v.classCount (keys.filter fun l => v.sameKey l k = false) + 1 := by
  simp only [classCount, List.eraseDupsBy_cons, List.length_cons]

theorem classCount_append_new {keys : List Key} {key : Key}
    (h : ∀ k ∈ keys, ¬ v.sameKey k key) :
    v.classCount (keys ++ [key]) = v.classCount keys + 1 := by
  induction hn : keys.length using Nat.strongRecOn generalizing keys with
  | ind n ih =>
    cases keys with
    | nil => rfl
    | cons k keys =>
      obtain ⟨hk, hkeys⟩ := List.forall_mem_cons.1 h
      have hkey : v.sameKey key k = false := by
        rw [sameKey_comm]
        simpa using hk
      have hlen := List.length_filter_le (fun l => decide (v.sameKey l k = false)) keys
      rw [List.cons_append, classCount_cons, classCount_cons, List.filter_append]
      simp only [List.filter_cons, hkey, decide_true, if_true, List.filter_nil]
      rw [ih _ (by simp only [List.length_cons] at hn; omega) ?_ rfl]
      intro l hl
      exact hkeys l (List.mem_of_mem_filter hl)

theorem classCount_append_known (ht : v.TransitiveTypes) {keys : List Key} {key : Key}
    (h : ∃ k ∈ keys, v.sameKey k key) : v.classCount (keys ++ [key]) = v.classCount keys := by
  induction hn : keys.length using Nat.strongRecOn generalizing keys with
  | ind n ih =>
    cases keys with
    | nil => simp at h
    | cons k keys =>
      have hlen := List.length_filter_le (fun l => decide (v.sameKey l k = false)) keys
      rw [List.cons_append, classCount_cons, classCount_cons, List.filter_append]
      by_cases hk : v.sameKey key k
      · simp [hk]
      · -- the equal key is not in the class of `k` either, so it survives the filter
        obtain ⟨l, hl, hs⟩ := h
        have hlk : v.sameKey l k = false := by
          rw [← Bool.not_eq_true]
          intro hlk
          rw [sameKey_comm] at hs
          exact hk (sameKey_trans ht hs hlk)
        have hmem : l ∈ keys := by
          rcases List.mem_cons.1 hl with rfl | hl
          · rw [sameKey_self] at hlk
            simp at hlk
          · exact hl
        simp only [List.filter_cons, hk, decide_true, if_true, List.filter_nil]
        rw [ih _ (by simp only [List.length_cons] at hn; omega) ?_ rfl]
        exact ⟨l, List.mem_filter.2 ⟨hmem, by simpa using hlk⟩, hs⟩

/-- The keys before the first one that equals the given key. -/
def before (v : View) (key : Key) (keys : List Key) : List Key :=
  keys.takeWhile fun k => !v.sameKey k key

theorem before_append_of_mem {key : Key} {keys more : List Key}
    (h : ∃ k ∈ keys, v.sameKey k key) : v.before key (keys ++ more) = v.before key keys := by
  induction keys with
  | nil => simp at h
  | cons k keys ih =>
    simp only [before, List.cons_append, List.takeWhile_cons] at ih ⊢
    cases hk : v.sameKey k key with
    | true => rfl
    | false =>
      obtain ⟨l, hl, hs⟩ := h
      rcases List.mem_cons.1 hl with rfl | hl
      · rw [hk] at hs
        simp at hs
      · simp [ih ⟨l, hl, hs⟩]

theorem before_append_self {key : Key} {keys : List Key} (h : ∀ k ∈ keys, ¬ v.sameKey k key) :
    v.before key (keys ++ [key]) = keys := by
  rw [before, List.takeWhile_append_of_pos (by simpa using h)]
  simp

theorem before_eq_of_sameKey (ht : v.TransitiveTypes) {k l : Key} (h : v.sameKey k l)
    (keys : List Key) : v.before k keys = v.before l keys := by
  have hkl : ∀ m, v.sameKey m k = v.sameKey m l := by
    intro m
    rw [Bool.eq_iff_iff]
    constructor
    · intro hm
      exact sameKey_trans ht hm h
    · intro hm
      rw [sameKey_comm] at h
      exact sameKey_trans ht hm h
  simp only [before, hkl]

end View

/-! ### The invariant -/

/-- What numbering has achieved once the keys of `pairs` got their values, in this order: the ledger
has an entry for each class of keys, and handles count the classes in the order of their first
keys. -/
structure Canonical (v : View) (pairs : List (Key × Value)) (l : Ledger) (count : Nat) : Prop where
  subset : l ⊆ pairs
  covered : ∀ e ∈ pairs, ∃ f ∈ l, f.2 = e.2 ∧ v.sameKey f.1 e.1
  index_eq : ∀ e ∈ pairs, ∃ id, e.2 = .handle id ∧
    id.index = v.classCount (v.before e.1 (pairs.map (·.1)))
  count_eq : count = v.classCount (pairs.map (·.1))

namespace Canonical

variable {v : View} {pairs : List (Key × Value)} {l : Ledger} {count : Nat} {key : Key}

theorem nil (v : View) : Canonical v [] [] 0 :=
  ⟨by simp, by simp, by simp, rfl⟩

theorem before_eq (more : List Key) {e : Key × Value} (he : e ∈ pairs) :
    v.before e.1 (pairs.map (·.1) ++ more) = v.before e.1 (pairs.map (·.1)) :=
  View.before_append_of_mem ⟨e.1, List.mem_map_of_mem he, View.sameKey_self e.1⟩

theorem known (ht : v.TransitiveTypes) (h : Canonical v pairs l count) {e : Key × Value}
    (he : e ∈ l) (hs : v.sameKey e.1 key) : Canonical v (pairs ++ [(key, e.2)]) l count := by
  have hmem : e ∈ pairs := h.subset he
  have hkey : ∃ k ∈ pairs.map (·.1), v.sameKey k key := ⟨e.1, List.mem_map_of_mem hmem, hs⟩
  refine ⟨fun f hf => List.mem_append_left _ (h.subset hf), fun f hf => ?_, fun f hf => ?_, ?_⟩
  · rcases List.mem_append.1 hf with hf | hf
    · exact h.covered f hf
    · obtain rfl := List.mem_singleton.1 hf
      exact ⟨e, he, rfl, hs⟩
  · rw [List.map_append]
    rcases List.mem_append.1 hf with hf | hf
    · rw [before_eq _ hf]
      exact h.index_eq f hf
    · obtain rfl := List.mem_singleton.1 hf
      rw [View.before_append_of_mem hkey, ← View.before_eq_of_sameKey ht hs]
      exact h.index_eq e hmem
  · rw [List.map_append, List.map_singleton, View.classCount_append_known ht hkey]
    exact h.count_eq

theorem created (ht : v.TransitiveTypes) (h : Canonical v pairs l count)
    (hn : ∀ e ∈ l, ¬ v.sameKey e.1 key) (hid : count < identLimit) :
    Canonical v (pairs ++ [(key, .handle (.ofIndex count))])
      (l ++ [(key, .handle (.ofIndex count))]) (count + 1) := by
  -- every key so far equals that of an entry, so none of them equals the new one
  have hnew : ∀ k ∈ pairs.map (·.1), ¬ v.sameKey k key := by
    intro k hk hs
    obtain ⟨f, hf, rfl⟩ := List.mem_map.1 hk
    obtain ⟨e, he, -, hef⟩ := h.covered f hf
    exact hn e he (View.sameKey_trans ht hef hs)
  refine ⟨?_, fun f hf => ?_, fun f hf => ?_, ?_⟩
  · intro f hf
    rcases List.mem_append.1 hf with hf | hf
    · exact List.mem_append_left _ (h.subset hf)
    · exact List.mem_append_right _ hf
  · rcases List.mem_append.1 hf with hf | hf
    · obtain ⟨e, he, hv, hs⟩ := h.covered f hf
      exact ⟨e, List.mem_append_left _ he, hv, hs⟩
    · exact ⟨f, List.mem_append_right _ hf, rfl, View.sameKey_self f.1⟩
  · rw [List.map_append]
    rcases List.mem_append.1 hf with hf | hf
    · rw [before_eq _ hf]
      exact h.index_eq f hf
    · obtain rfl := List.mem_singleton.1 hf
      refine ⟨_, rfl, ?_⟩
      rw [List.map_singleton, View.before_append_self hnew, Handle.index_ofIndex hid]
      exact h.count_eq
  · rw [List.map_append, List.map_singleton, View.classCount_append_new hnew, h.count_eq]

theorem value_eq_iff (ht : v.TransitiveTypes) (h : Canonical v pairs l count)
    (hl : (l.map (·.2)).Nodup) {e f : Key × Value} (he : e ∈ pairs) (hf : f ∈ pairs) :
    e.2 = f.2 ↔ v.sameKey e.1 f.1 := by
  constructor
  · intro hv
    obtain ⟨e', he', hev, hes⟩ := h.covered e he
    obtain ⟨f', hf', hfv, hfs⟩ := h.covered f hf
    have heq : e' = f' :=
      List.inj_on_of_nodup_map hl he' hf' (hev.trans (hv.trans hfv.symm))
    subst heq
    rw [View.sameKey_comm] at hes
    exact View.sameKey_trans ht hes hfs
  · intro hs
    obtain ⟨i, hi, hie⟩ := h.index_eq e he
    obtain ⟨j, hj, hjf⟩ := h.index_eq f hf
    rw [View.before_eq_of_sameKey ht hs, ← hjf] at hie
    rw [hi, hj, Handle.index_inj.1 hie]

end Canonical

/-! ### Runs -/

/-- The key that was numbered and the value that it got. -/
def Exchange.numbered? : Exchange → Option (Key × Value)
  | ⟨.number key, .value (.ok value), _⟩ => some (key, value)
  | _ => none

/-- The keys that were numbered, apart from constants, with the values that they got. -/
def View.numberings (v : View) (said : List Exchange) : List (Key × Value) :=
  (said.filterMap Exchange.numbered?).filter fun e => !v.isConstant e.1.node

theorem View.numberings_append (v : View) (past : List Exchange) (x : Exchange) :
    v.numberings (past ++ [x]) = v.numberings past ++ v.numberings [x] := by
  simp only [numberings, List.filterMap_append, List.filter_append]

theorem View.numberings_number (v : View) (key : Key) (value : Value) (events : List Event) :
    v.numberings [⟨.number key, .value (.ok value), events⟩] =
      if v.isConstant key.node then [] else [(key, value)] := by
  cases h : v.isConstant key.node <;> simp [numberings, Exchange.numbered?, h]

namespace Pass

variable {w : Pass} {p : Policy} {l : Ledger} {past : List Exchange}

/-- In every arena to which the present one may grow without new interchangeable types, the
numbering so far is canonical. -/
def Settled (w : Pass) (p : Policy) (past : List Exchange) (l : Ledger) : Prop :=
  ∀ b, w.arena.Extends b → b.aliases = w.arena.aliases →
    Canonical ⟨b, p⟩ ((View.mk b p).numberings past) l w.session.allocated

theorem Settled.push (h : w.Settled p past l) (op : Op) (ty : Ty) (operands : List NodeId)
    (flags : Flags) :
    (w.after p (.edit (.push op ty operands flags))).Settled p
      (past ++ [w.exchange p (.edit (.push op ty operands flags))]) l := by
  intro b hb hab
  have hgrown := w.arena.extends_push op ty operands flags
  have halias := w.arena.aliases_push op ty operands flags
  have hnone : (View.mk b p).numberings [w.exchange p (.edit (.push op ty operands flags))] = [] :=
    rfl
  rw [View.numberings_append, hnone, List.append_nil]
  exact h b (hgrown.trans hb) (hab.trans halias)

/-- A key that differs from the keys of all entries does so in later arenas, too. -/
theorem Enumerates.not_sameKey (h : w.Enumerates p l) {key : Key}
    (hk : (w.view p).hashFault? key.node = none) (he : l.entry? (w.view p) key = none)
    {b : Arena} (hb : w.arena.Extends b) (hab : b.aliases = w.arena.aliases) :
    ∀ e ∈ l, ¬ (View.mk b p).sameKey e.1 key := by
  intro e hmem hs
  have hel : e.1.node.index < w.arena.size :=
    View.index_lt_of_hashFault? (h.tracks.holds.hashable e hmem)
  have hkl : key.node.index < w.arena.size := View.index_lt_of_hashFault? hk
  rw [Table.sameKey_eq hb hab hel hkl] at hs
  exact List.find?_eq_none.1 he e hmem hs

theorem Settled.number (h : w.Settled p past l) (hw : w.Enumerates p l)
    (ht : (w.view p).TransitiveTypes) (key : Key)
    (hok : ∀ fault, (w.exchange p (.number key)).answer ≠ .value (.error fault)) :
    ∃ l', (w.after p (.number key)).Enumerates p l' ∧
      (w.after p (.number key)).Settled p (past ++ [w.exchange p (.number key)]) l' := by
  have hn := hw.tracks.number key
  simp only [after, exchange, serve] at hok ⊢
  generalize w.session.number (w.view p) key = o at hn hok ⊢
  cases hn with
  | refused hk => exact absurd rfl (hok _)
  | unbindable hq ho hid ht => exact absurd rfl (hok _)
  | exhausted hk he hid ht => exact absurd rfl (hok _)
  | constant hq hc =>
    refine ⟨l, hw, fun b hb hab => ?_⟩
    have hconst := (View.isConstant_iff (v := ⟨b, p⟩) (hb.node? hq)).2 hc
    rw [View.numberings_append, View.numberings_number, if_pos hconst, List.append_nil]
    exact h b hb hab
  | @known q e t hq hb hk he ht' =>
    refine ⟨l, hw.congr rfl ht' (Nat.le_refl _), fun b hgrown hab => ?_⟩
    have hconst := mt (View.isConstant_iff (v := ⟨b, p⟩) (hgrown.node? hq)).1
      (NodeKind.binding_eq_recorded_iff.1 hb).1
    have hs : (View.mk b p).sameKey e.1 key :=
      Table.sameKey_extend hgrown (Ledger.sameKey_of_entry? he)
    rw [View.numberings_append, View.numberings_number, if_neg hconst]
    exact (h b hgrown hab).known (ht.congr hab) (Ledger.mem_of_entry? he) hs
  | @created q t hq hb hk he hid ht' =>
    have hcount : (w.session.classes.push ⟨q.ty, [key.node]⟩).size = w.session.allocated + 1 :=
      Array.size_push _
    refine ⟨l ++ [(key, w.session.next)],
      hw.append_next hq (NodeKind.binding_eq_recorded_iff.1 hb).2 hid ht' hcount,
      fun b hgrown hab => ?_⟩
    have hconst := mt (View.isConstant_iff (v := ⟨b, p⟩) (hgrown.node? hq)).1
      (NodeKind.binding_eq_recorded_iff.1 hb).1
    have hnot := hw.not_sameKey hk he hgrown hab
    rw [View.numberings_append, View.numberings_number, if_neg hconst]
    show Canonical _ _ _ (w.session.classes.push _).size
    rw [hcount]
    exact (h b hgrown hab).created (ht.congr hab) hnot hid

/-- A request that pushes a node or numbers a key. -/
inductive Plain : Request → Prop
  | push (op : Op) (ty : Ty) (operands : List NodeId) (flags : Flags) :
      Plain (.edit (.push op ty operands flags))
  | number (key : Key) : Plain (.number key)

/-- A run of pushes and numberings without faults is settled at its end. -/
theorem run_settled (a : Arena) (settings : Settings) (p : Policy) {requests : List Request}
    (ht : (View.mk a p).TransitiveTypes) (hr : ∀ r ∈ requests, Plain r)
    (hok : ∀ x ∈ ((start a settings).run p requests).1, ∀ fault,
      x.answer ≠ .value (.error fault)) :
    (((start a settings).run p requests).2).arena.aliases = a.aliases ∧
      ∃ l, ((start a settings).run p requests).2.Enumerates p l ∧
        ((start a settings).run p requests).2.Settled p
          ((start a settings).run p requests).1 l := by
  -- faults are excluded for what was said so far, as the induction goes from the front
  refine run_induction (P := fun past w => (∀ x ∈ past, ∀ fault, x.answer ≠ .value (.error fault)) →
    w.arena.aliases = a.aliases ∧ ∃ l, w.Enumerates p l ∧ w.Settled p past l) ?_ ?_ hok
  · intro _
    exact ⟨rfl, [], enumerates_start a settings p, fun b _ _ => Canonical.nil _⟩
  · intro past w r hmem ih hpast
    obtain ⟨hbefore, hnow⟩ := List.forall_mem_append.1 hpast
    obtain ⟨halias, l, hw, hs⟩ := ih hbefore
    cases hr r hmem with
    | push op ty operands flags =>
      have hgrown := w.arena.extends_push op ty operands flags
      have hpush := w.arena.aliases_push op ty operands flags
      exact ⟨hpush.trans halias, l, hw.extend hgrown, hs.push op ty operands flags⟩
    | number key =>
      exact ⟨halias, hs.number hw (ht.congr halias) key (hnow _ (List.mem_singleton_self _))⟩

/-- In a run of pushes and numberings without faults, the keys of nodes that are not constants get the
same value exactly if they are equal. A key gets the handle whose number is that of the classes asked
for before its own, and there are as many values as classes. -/
theorem numbers_canonical (a : Arena) (settings : Settings) (p : Policy) (requests : List Request)
    (ht : (View.mk a p).TransitiveTypes) (hr : ∀ r ∈ requests, Plain r)
    (hok : ∀ x ∈ ((start a settings).run p requests).1, ∀ fault,
      x.answer ≠ .value (.error fault)) :
    let last := ((start a settings).run p requests).2
    let v := last.view p
    let numbered := v.numberings ((start a settings).run p requests).1
    let keys := numbered.map (·.1)
    (∀ e ∈ numbered, ∀ f ∈ numbered,
      e.2 = f.2 ↔ e.1.deps = f.1.deps ∧ v.equal e.1.node f.1.node = .ok true) ∧
    (∀ e ∈ numbered, ∃ id, e.2 = .handle id ∧ id.index = v.classCount (v.before e.1 keys)) ∧
    last.session.allocated = v.classCount keys := by
  intro last v numbered keys
  obtain ⟨halias, l, hw, hs⟩ := run_settled a settings p ht hr hok
  have hv : v.TransitiveTypes := ht.congr halias
  have h : Canonical v numbered l last.session.allocated := hs last.arena (.refl _) rfl
  refine ⟨fun e he f hf => ?_, h.index_eq, h.count_eq⟩
  rw [h.value_eq_iff hv hw.distinct he hf, View.sameKey_iff, View.equal_eq_true_iff]

/-- A load and, pushed after it was numbered, its twin of another type. A constant is numbered in
between, and the load again at a later version of the memory. -/
def interleaved : List Request :=
  [.edit (.push (.var ⟨1⟩ 0) .pointer [] .empty), .edit (.push .load .int [⟨0⟩] .empty),
    .edit (.push (.lit (.int 5)) .int [] .empty), .number ⟨⟨1⟩, [⟨3⟩]⟩, .number ⟨⟨2⟩, [⟨3⟩]⟩,
    .number ⟨⟨1⟩, [⟨4⟩]⟩, .edit (.push .load ⟨7⟩ [⟨0⟩] .empty), .number ⟨⟨3⟩, [⟨3⟩]⟩]

/-- The types of the two loads are interchangeable, and no others. -/
def loadTypes : Arena := Arena.empty.declare .int ⟨7⟩

theorem loadTypes_transitive (p : Policy) : (View.mk loadTypes p).TransitiveTypes :=
  View.transitiveTypes_of_one_pair (s := .int) (t := ⟨7⟩) rfl

theorem interleaved_canonical :
    let last := ((start loadTypes .standard).run .full interleaved).2
    let v := last.view .full
    v.numberings ((start loadTypes .standard).run .full interleaved).1 =
        [(⟨⟨1⟩, [⟨3⟩]⟩, .handle ⟨0⟩), (⟨⟨1⟩, [⟨4⟩]⟩, .handle ⟨1⟩), (⟨⟨3⟩, [⟨3⟩]⟩, .handle ⟨0⟩)] ∧
      v.equal ⟨1⟩ ⟨3⟩ = .ok true ∧
      last.session.allocated = v.classCount [⟨⟨1⟩, [⟨3⟩]⟩, ⟨⟨1⟩, [⟨4⟩]⟩, ⟨⟨3⟩, [⟨3⟩]⟩] := by
  intro last v
  have hnum : v.numberings ((start loadTypes .standard).run .full interleaved).1 =
      [(⟨⟨1⟩, [⟨3⟩]⟩, .handle ⟨0⟩), (⟨⟨1⟩, [⟨4⟩]⟩, .handle ⟨1⟩),
        (⟨⟨3⟩, [⟨3⟩]⟩, .handle ⟨0⟩)] := by
    decide +kernel
  have hr : ∀ r ∈ interleaved, Plain r := by
    intro r hr
    simp only [interleaved, List.mem_cons, List.not_mem_nil, or_false] at hr
    rcases hr with rfl | rfl | rfl | rfl | rfl | rfl | rfl | rfl
    all_goals constructor
  have hok : ∀ x ∈ ((start loadTypes .standard).run .full interleaved).1, ∀ fault,
      x.answer ≠ .value (.error fault) := by
    have hall : ((start loadTypes .standard).run .full interleaved).1.all fun x =>
        match x.answer with
        | .value (.error _) => false
        | _ => true := by
      decide +kernel
    intro x hx fault hf
    have hx' := List.all_eq_true.1 hall x hx
    simp [hf] at hx'
  obtain ⟨hsame, -, hcount⟩ := numbers_canonical loadTypes .standard .full interleaved
    (loadTypes_transitive .full) hr hok
  rw [hnum] at hcount
  have hfirst : (⟨⟨1⟩, [⟨3⟩]⟩, .handle ⟨0⟩) ∈
      v.numberings ((start loadTypes .standard).run .full interleaved).1 := by simp [hnum]
  have hlate : (⟨⟨3⟩, [⟨3⟩]⟩, .handle ⟨0⟩) ∈
      v.numberings ((start loadTypes .standard).run .full interleaved).1 := by simp [hnum]
  exact ⟨hnum, ((hsame _ hfirst _ hlate).1 rfl).2, hcount⟩

end Pass

end ValueNumbering
