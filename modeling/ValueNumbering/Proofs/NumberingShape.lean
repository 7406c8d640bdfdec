import ValueNumbering.Proofs.CanonicalNumbers
import ValueNumbering.Proofs.Stores

/-!
# What numbering alone builds

A run that only pushes nodes and numbers keys, without a fault, leaves a session of a simple shape
(`Pass.Shape`), whether types are transitive or not. Its entries and its values correspond one to one:
the entry of a value was made for the one node that is its member, and whose type it has. Nothing was
ever replaced, and no two keys are equal. Each key that was numbered, unless it is that of a constant,
got the value of an entry with an equal key; so the memory versions and the hash are the same, and the
types may stand for each other. `Pass.numbering_shape` says so.

The invariant is `Pass.Aligned`: the entry at position `i` of the ledger has the handle with number `i`,
and the class with number `i` has the type of the entry's node and that node as its only member. A key
that is known changes neither list, and a new one makes both longer by one (`Pass.Aligned.created`).
-/

namespace ValueNumbering

namespace Pass

variable {w : Pass} {p : Policy} {l : Ledger} {key : Key}

/-! ### The invariant -/

/-- Entries and values stand side by side, each in the order in which they were made. -/
structure Aligned (w : Pass) (p : Policy) (l : Ledger) : Prop where
  tracks : w.session.Tracks (w.view p) l
  distinct : l.Distinct (w.view p)
  allocated_eq : w.session.allocated = l.length
  length_le : l.length ≤ identLimit
  entry_eq : ∀ (i : Nat) e, l[i]? = some e → e.2 = .handle (.ofIndex i) ∧
    ∃ q, w.arena.node? e.1.node = some q ∧ w.session.classes[i]? = some ⟨q.ty, [e.1.node]⟩

theorem aligned_start (a : Arena) (settings : Settings) (p : Policy) :
    (start a settings).Aligned p [] :=
  ⟨Session.tracks_start settings _, List.Pairwise.nil, rfl, Nat.zero_le _, by simp⟩

theorem Aligned.extend {b : Arena} (h : w.Aligned p l) (hab : w.arena.Extends b)
    (halias : b.aliases = w.arena.aliases) : Aligned { w with arena := b } p l := by
  refine ⟨h.tracks.extend hab, h.distinct.extend h.tracks.holds hab halias, h.allocated_eq,
    h.length_le, fun i e he => ?_⟩
  obtain ⟨hv, q, hq, hc⟩ := h.entry_eq i e he
  exact ⟨hv, q, hab.node? hq, hc⟩

theorem Aligned.congr {s : Session} (h : w.Aligned p l) (ht : s.table.Holds (w.view p) l)
    (hc : s.classes = w.session.classes) : Aligned { w with session := s } p l := by
  have hcount : s.allocated = w.session.allocated := by rw [Session.allocated, hc, Session.allocated]
  refine ⟨h.tracks.congr ht (Nat.le_of_eq hcount.symm), h.distinct, hcount.trans h.allocated_eq,
    h.length_le, fun i e he => ?_⟩
  rw [hc]
  exact h.entry_eq i e he

/-- A new entry comes with a new value, whose number is its position. -/
theorem Aligned.created {q : Node} {s : Session} (h : w.Aligned p l)
    (hq : w.arena.node? key.node = some q) (ho : q.op.kind ≠ .other)
    (he : l.entry? (w.view p) key = none) (hid : w.session.allocated < identLimit)
    (ht : s.table.Holds (w.view p) (l ++ [(key, w.session.next)]))
    (hc : s.classes = w.session.classes.push ⟨q.ty, [key.node]⟩) :
    Aligned { w with session := s } p (l ++ [(key, w.session.next)]) := by
  have hcount : s.allocated = w.session.allocated + 1 := by
    rw [Session.allocated, hc, Array.size_push, Session.allocated]
  have hlen := h.allocated_eq
  refine ⟨h.tracks.append_next hq ho hid ht hcount, h.distinct.append he _, ?_, ?_,
    fun i e hi => ?_⟩
  · show s.allocated = _
    rw [List.length_append, List.length_singleton]
    omega
  · rw [List.length_append, List.length_singleton]
    omega
  · rw [List.getElem?_append] at hi
    split at hi
    next hlt =>
      obtain ⟨hv, q', hq', hc'⟩ := h.entry_eq i e hi
      refine ⟨hv, q', hq', ?_⟩
      have hne : i ≠ w.session.classes.size := by
        have hsize : w.session.classes.size = l.length := hlen
        omega
      rw [hc, Array.getElem?_push, if_neg hne, hc']
    next hge =>
      -- the only other position is the last one
      have hi' : i = l.length ∧ (key, w.session.next) = e := by
        rw [List.getElem?_singleton] at hi
        split at hi
        next hz => exact ⟨by omega, Option.some.inj hi⟩
        next => simp at hi
      obtain ⟨rfl, rfl⟩ := hi'
      have hsize : l.length = w.session.classes.size := hlen.symm
      refine ⟨?_, q, hq, ?_⟩
      · rw [Session.next, hlen]
      · rw [hc, Array.getElem?_push, if_pos hsize]

/-! ### Entries and values -/

theorem Aligned.class_of_mem (h : w.Aligned p l) {e : Key × Value} (he : e ∈ l) :
    ∃ id q, e.2 = .handle id ∧ id.index < w.session.allocated ∧
      w.arena.node? e.1.node = some q ∧ w.session.classOf id = .ok ⟨q.ty, [e.1.node]⟩ := by
  obtain ⟨i, hi⟩ := List.mem_iff_getElem?.1 he
  obtain ⟨hv, q, hq, hc⟩ := h.entry_eq i e hi
  have hlt : i < l.length := (List.getElem?_eq_some_iff.1 hi).1
  have hindex : (Handle.ofIndex i).index = i :=
    Handle.index_ofIndex (Nat.lt_of_lt_of_le hlt h.length_le)
  refine ⟨.ofIndex i, q, hv, ?_, hq, ?_⟩
  · rw [hindex, h.allocated_eq]
    exact hlt
  · rw [Session.classOf_eq_ok_iff, hindex]
    exact hc

theorem Aligned.exists_entry (h : w.Aligned p l) {id : Handle}
    (hid : id.index < w.session.allocated) : ∃ e ∈ l, e.2 = .handle id := by
  rw [h.allocated_eq] at hid
  have hindex : (Handle.ofIndex id.index).index = id.index :=
    Handle.index_ofIndex (Nat.lt_of_lt_of_le hid h.length_le)
  refine ⟨l[id.index], List.getElem_mem hid, ?_⟩
  rw [(h.entry_eq id.index _ (List.getElem?_eq_getElem hid)).1, Handle.index_inj.1 hindex]

theorem Aligned.values_nodup (h : w.Aligned p l) : (l.map (·.2)).Nodup := by
  have hvalue : ∀ i < l.length, (l.map (·.2))[i]? = some (.handle (.ofIndex i)) := by
    intro i hi
    rw [List.getElem?_map, List.getElem?_eq_getElem hi, Option.map_some,
      (h.entry_eq i _ (List.getElem?_eq_getElem hi)).1]
  rw [List.nodup_iff_getElem?_ne_getElem?]
  intro i j hij hj heq
  rw [List.length_map] at hj
  have hle := h.length_le
  rw [hvalue i (by omega), hvalue j hj, Option.some.injEq, Value.handle.injEq,
    ← Handle.index_inj, Handle.index_ofIndex (by omega), Handle.index_ofIndex (by omega)] at heq
  omega

/-! ### Answers -/

/-- If a key was numbered in the exchange, it is that of a constant, or got the value of an entry with
an equal key. Nothing was replaced. -/
structure Explained (v : View) (l : Ledger) (x : Exchange) : Prop where
  answer : ∀ key, x.request = .number key → v.isConstant key.node ∨
    ∃ e ∈ l, x.answer = .value (.ok e.2) ∧ v.sameKey e.1 key
  not_replaced : ∀ n old new, .replaced n old new ∉ x.events

theorem Explained.extend {a b : Arena} {l' : Ledger} {x : Exchange} (h : Explained ⟨a, p⟩ l x)
    (hab : a.Extends b) (hl : l ⊆ l') : Explained ⟨b, p⟩ l' x := by
  refine ⟨fun key hr => ?_, h.not_replaced⟩
  rcases h.answer key hr with hc | ⟨e, he, hv, hs⟩
  · obtain ⟨q, hq, hkind⟩ := View.exists_of_isConstant hc
    exact .inl ((View.isConstant_iff (v := ⟨b, p⟩) (hab.node? hq)).2 hkind)
  · exact .inr ⟨e, hl he, hv, Table.sameKey_extend hab hs⟩

theorem Aligned.number (h : w.Aligned p l) (key : Key)
    (hok : ∀ fault, (w.exchange p (.number key)).answer ≠ .value (.error fault)) :
    ∃ l', (w.after p (.number key)).Aligned p l' ∧ l ⊆ l' ∧
      Explained (w.view p) l' (w.exchange p (.number key)) := by
  have hn := h.tracks.number key
  simp only [after, exchange, serve] at hok ⊢
  generalize w.session.number (w.view p) key = o at hn hok ⊢
  cases hn with
  | refused hk => exact absurd rfl (hok _)
  | unbindable hq ho hid ht => exact absurd rfl (hok _)
  | exhausted hk he hid ht => exact absurd rfl (hok _)
  | constant hq hc =>
    refine ⟨l, h, List.Subset.refl l, fun k hr => .inl ?_, by simp⟩
    obtain rfl : key = k := Request.number.inj hr
    exact (View.isConstant_iff hq).2 hc
  | @known q e t hq hb hk he ht =>
    refine ⟨l, h.congr ht rfl, List.Subset.refl l, fun k hr => .inr ?_, by simp⟩
    obtain rfl : key = k := Request.number.inj hr
    exact ⟨e, Ledger.mem_of_entry? he, rfl, Ledger.sameKey_of_entry? he⟩
  | @created q t hq hb hk he hid ht =>
    have ho := (NodeKind.binding_eq_recorded_iff.1 hb).2
    refine ⟨_, h.created hq ho he hid ht rfl, List.subset_append_left l _, fun k hr => .inr ?_,
      by simp⟩
    obtain rfl : key = k := Request.number.inj hr
    exact ⟨(key, w.session.next), by simp, rfl, View.sameKey_self key⟩

theorem Aligned.push (h : w.Aligned p l) (op : Op) (ty : Ty) (operands : List NodeId)
    (flags : Flags) :
    (w.after p (.edit (.push op ty operands flags))).Aligned p l ∧
      Explained (w.view p) l (w.exchange p (.edit (.push op ty operands flags))) := by
  have hgrown := w.arena.extends_push op ty operands flags
  have halias := w.arena.aliases_push op ty operands flags
  exact ⟨h.extend hgrown halias, by simp [exchange], by simp [exchange, serve]⟩

/-- A run of pushes and numberings without faults keeps entries and values aligned, and they explain
all that was said. -/
theorem run_aligned (a : Arena) (settings : Settings) (p : Policy) {requests : List Request}
    (hr : ∀ r ∈ requests, Plain r)
    (hok : ∀ x ∈ ((start a settings).run p requests).1, ∀ fault,
      x.answer ≠ .value (.error fault)) :
    ∃ l, ((start a settings).run p requests).2.Aligned p l ∧
      ∀ x ∈ ((start a settings).run p requests).1,
        Explained (((start a settings).run p requests).2.view p) l x := by
  -- faults are excluded for what was said so far, as the induction goes from the front
  refine run_induction (P := fun past w => (∀ x ∈ past, ∀ fault, x.answer ≠ .value (.error fault)) →
    ∃ l, w.Aligned p l ∧ ∀ x ∈ past, Explained (w.view p) l x) ?_ ?_ hok
  · intro _
    exact ⟨[], aligned_start a settings p, by simp⟩
  · intro past w r hmem ih hpast
    obtain ⟨hbefore, hnow⟩ := List.forall_mem_append.1 hpast
    obtain ⟨l, h, hsaid⟩ := ih hbefore
    have hstep : ∃ l', (w.after p r).Aligned p l' ∧ l ⊆ l' ∧
        Explained (w.view p) l' (w.exchange p r) := by
      cases hr r hmem with
      | push op ty operands flags =>
        obtain ⟨h', hx⟩ := h.push op ty operands flags
        exact ⟨l, h', List.Subset.refl l, hx⟩
      | number key => exact h.number key (hnow _ (List.mem_singleton_self _))
    obtain ⟨l', h', hl, hx⟩ := hstep
    have hgrown := w.extends_after p r
    refine ⟨l', h', fun x hmem => ?_⟩
    rcases List.mem_append.1 hmem with hold | hnew
    · exact (hsaid x hold).extend hgrown hl
    · rw [List.mem_singleton.1 hnew]
      exact hx.extend hgrown (List.Subset.refl l')

/-! ### The shape -/

/-- What a session looks like that has only numbered keys, and how it answered. -/
structure Shape (w : Pass) (p : Policy) (said : List Exchange) : Prop where
  not_replaced : ∀ x ∈ said, ∀ n old new, .replaced n old new ∉ x.events
  size_eq : w.session.table.size = w.session.allocated
  /-- No two entries have the same value. -/
  values_nodup : (w.session.table.entries.map (·.value)).Nodup
  /-- The values of the entries are the allocated handles. -/
  mem_values_iff : ∀ value, value ∈ w.session.table.entries.map (·.value) ↔
    ∃ id, value = .handle id ∧ id.index < w.session.allocated
  /-- The node of an entry is the only member of its value, and gave it its type. -/
  entry_class : ∀ e ∈ w.session.table.entries, ∀ id, e.value = .handle id →
    ∃ q, w.arena.node? e.key.node = some q ∧ w.session.members id = .ok [e.key.node] ∧
      w.session.typeOf w.arena (.handle id) = .ok q.ty
  distinctKeys : w.DistinctKeys p
  /-- A key that was numbered, other than that of a constant, got the value of an entry with an equal
  key, and so with the same memory versions, the same hash, and a type that may stand for its own. -/
  answered : ∀ x ∈ said, ∀ key, x.request = .number key → ¬ (w.view p).isConstant key.node →
    ∃ e ∈ w.session.table.entries, ∃ id ty q, x.answer = .value (.ok (.handle id)) ∧
      e.value = .handle id ∧ e.key.deps = key.deps ∧
      (w.view p).equal e.key.node key.node = .ok true ∧
      w.session.typeOf w.arena (.handle id) = .ok ty ∧ w.arena.node? key.node = some q ∧
      (w.view p).interchangeable ty q.ty ∧ (w.view p).hashKey 0 key = .ok e.hash

theorem Aligned.entry_class (h : w.Aligned p l) {e : Key × Value} (he : e ∈ l) {id : Handle}
    (hv : e.2 = .handle id) :
    ∃ q, w.arena.node? e.1.node = some q ∧ w.session.members id = .ok [e.1.node] ∧
      w.session.typeOf w.arena (.handle id) = .ok q.ty := by
  obtain ⟨id', q, hv', -, hq, hc⟩ := h.class_of_mem he
  obtain rfl : id = id' := Value.handle.inj (hv.symm.trans hv')
  refine ⟨q, hq, ?_, ?_⟩
  · simp only [Session.members, hc, Except.map]
  · simp only [Session.typeOf, hc, Except.map]

theorem Aligned.answers (h : w.Aligned p l) {e : Key × Value} (he : e ∈ l)
    (hs : (w.view p).sameKey e.1 key) :
    ∃ id ty q, e.2 = .handle id ∧ e.1.deps = key.deps ∧
      (w.view p).equal e.1.node key.node = .ok true ∧
      w.session.typeOf w.arena (.handle id) = .ok ty ∧ w.arena.node? key.node = some q ∧
      (w.view p).interchangeable ty q.ty ∧
      (w.view p).hashKey 0 key = .ok ((w.view p).keyHash e.1) := by
  obtain ⟨id, -, hv, -⟩ := h.class_of_mem he
  obtain ⟨m, hm, -, hty⟩ := h.entry_class he hv
  obtain ⟨hd, htree⟩ := View.sameKey_iff.1 hs
  obtain ⟨q, hq, hop, htypes⟩ := View.exists_of_sameTree hm htree
  obtain ⟨m', hm', hstmt⟩ := View.hashFault?_eq_none_iff.1 (h.tracks.holds.hashable e he)
  obtain rfl : m = m' := Option.some.inj (hm.symm.trans hm')
  refine ⟨id, m.ty, q, hv, hd, View.equal_eq_true_iff.2 htree, hty, hq, htypes, ?_⟩
  rw [View.hashKey_eq, View.hashFault?_eq_none_iff.2 ⟨q, hq, hop ▸ hstmt⟩,
    View.keyHash_eq_of_sameKey hs]
  rfl

/-- Pushing nodes and numbering keys, without a fault, builds a session of the shape that `Shape`
describes. -/
theorem numbering_shape (a : Arena) (settings : Settings) (p : Policy) (requests : List Request)
    (hr : ∀ r ∈ requests, Plain r)
    (hok : ∀ x ∈ ((start a settings).run p requests).1, ∀ fault,
      x.answer ≠ .value (.error fault)) :
    ((start a settings).run p requests).2.Shape p ((start a settings).run p requests).1 := by
  obtain ⟨l, h, hsaid⟩ := run_aligned a settings p hr hok
  generalize (start a settings).run p requests = o at h hsaid ⊢
  obtain ⟨said, w⟩ := o
  have hperm := h.tracks.holds.entries_perm
  have hvalues : (w.session.table.entries.map (·.value)).Perm (l.map (·.2)) := by
    have hmap := hperm.map (·.value)
    rwa [List.map_map] at hmap
  refine ⟨fun x hx => (hsaid x hx).not_replaced, ?_, hvalues.nodup_iff.2 h.values_nodup,
    fun value => ?_, fun e he id hv => ?_, h.tracks.holds.distinctKeys_iff.2 h.distinct,
    fun x hx key hkey hconst => ?_⟩
  · rw [h.tracks.holds.size_eq, h.allocated_eq]
  · rw [hvalues.mem_iff]
    constructor
    · intro hmem
      obtain ⟨e, he, rfl⟩ := List.mem_map.1 hmem
      obtain ⟨id, -, hv, hid, -⟩ := h.class_of_mem he
      exact ⟨id, hv, hid⟩
    · rintro ⟨id, rfl, hid⟩
      obtain ⟨e, he, hv⟩ := h.exists_entry hid
      exact List.mem_map.2 ⟨e, he, hv⟩
  · obtain ⟨f, hf, rfl⟩ := List.mem_map.1 (hperm.mem_iff.1 he)
    exact h.entry_class hf hv
  · rcases (hsaid x hx).answer key hkey with hc | ⟨e, he, hanswer, hs⟩
    · exact absurd hc hconst
    · obtain ⟨id, ty, q, hv, hrest⟩ := h.answers he hs
      refine ⟨(w.view p).entry e, hperm.mem_iff.2 (List.mem_map_of_mem he), id, ty, q, ?_, hv,
        hrest⟩
      rw [hanswer, hv]

/-- Three loads whose types are not transitive are numbered, and a fourth that is pushed in between, at
two versions of the memory. -/
def numberedLoads : List Request :=
  [.number ⟨⟨1⟩, []⟩, .number ⟨⟨3⟩, []⟩, .edit (.push .load ⟨22⟩ [⟨0⟩] .empty), .number ⟨⟨2⟩, []⟩,
    .number ⟨⟨4⟩, [⟨5⟩]⟩, .number ⟨⟨4⟩, []⟩]

/-- The third load got the value of the first, and the fourth that of the second, which equals the
third, too. -/
theorem numberedLoads_shape :
    (∀ r ∈ numberedLoads, Plain r) ∧
      ((start chainedLoads .standard).run .full numberedLoads).1.map (·.answer) =
        [.value (.ok (.handle ⟨0⟩)), .value (.ok (.handle ⟨0⟩)), .edited (.ok (some ⟨4⟩)),
          .value (.ok (.handle ⟨1⟩)), .value (.ok (.handle ⟨2⟩)), .value (.ok (.handle ⟨1⟩))] ∧
      ((start chainedLoads .standard).run .full numberedLoads).2.Shape .full
        ((start chainedLoads .standard).run .full numberedLoads).1 := by
  have hr : ∀ r ∈ numberedLoads, Plain r := by
    intro r hr
    simp only [numberedLoads, List.mem_cons, List.not_mem_nil, or_false] at hr
    rcases hr with rfl | rfl | rfl | rfl | rfl | rfl
    all_goals constructor
  have hanswers : ((start chainedLoads .standard).run .full numberedLoads).1.map (·.answer) =
      [.value (.ok (.handle ⟨0⟩)), .value (.ok (.handle ⟨0⟩)), .edited (.ok (some ⟨4⟩)),
        .value (.ok (.handle ⟨1⟩)), .value (.ok (.handle ⟨2⟩)), .value (.ok (.handle ⟨1⟩))] := by
    decide +kernel
  refine ⟨hr, hanswers, numbering_shape chainedLoads .standard .full numberedLoads hr ?_⟩
  intro x hx fault hf
  have hmem := List.mem_map_of_mem (f := (·.answer)) hx
  rw [hanswers, hf] at hmem
  simp at hmem

end Pass

end ValueNumbering
