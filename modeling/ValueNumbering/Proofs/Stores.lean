import ValueNumbering.Proofs.DistinctKeys

/-!
# Stores that stay in step

A session keeps four stores: the entries of its table, the values recorded for nodes, the allocated
values, and the members of each of them. `Session.InStep` says how they fit together. It is an
invariant of every run (`Pass.stores_in_step`), whatever is requested and whatever fails: handles that
are held anywhere were allocated, the node of an entry is a member of its value and has a value
recorded, constants stand for themselves, and the members of a value are different nodes that can have
one. A new value gets the next number, and what was allocated before keeps its type and its members
(`Session.Grows`).

A request changes the stores in one or two of four ways, which the constructors of `Session.Changes`
list: the table is searched, a value is recorded, a value is allocated, a key is given a value.
`Pass.changes_after` says that there is nothing else, also when a request ends in a fault. Each property
of sessions that all four ways keep is then kept by all requests.
-/

namespace ValueNumbering

/-! ### Members -/

namespace ValueClass

variable (c : ValueClass) (n : NodeId)

@[simp] theorem ty_join : (c.join n).ty = c.ty := by
  unfold join
  split <;> rfl

theorem mem_join_iff {m : NodeId} : m ∈ (c.join n).members ↔ m ∈ c.members ∨ m = n := by
  unfold join
  split
  next h =>
    rw [List.contains_iff_mem] at h
    constructor
    · exact .inl
    · rintro (hm | rfl)
      · exact hm
      · exact h
  next => simp

theorem members_join : c.members <+: (c.join n).members := by
  unfold join
  split
  next => exact List.prefix_rfl
  next => exact List.prefix_append _ _

theorem nodup_join (h : c.members.Nodup) : (c.join n).members.Nodup := by
  unfold join
  split
  next => exact h
  next hn =>
    rw [List.contains_iff_mem] at hn
    refine List.nodup_append.2 ⟨h, by simp, ?_⟩
    intro x hx y hy
    rw [List.mem_singleton] at hy
    rintro rfl
    exact hn (hy ▸ hx)

end ValueClass

namespace Session

variable {s s' s'' : Session} {v : View} {l l' : Ledger} {key : Key} {value : Value} {n : NodeId}

theorem classOf_eq_ok_iff {id : Handle} {c : ValueClass} :
    s.classOf id = .ok c ↔ s.classes[id.index]? = some c := by
  unfold classOf
  cases s.classes[id.index]? <;> simp

@[simp] theorem classOf_write (s : Session) (binding : Binding) (n : NodeId) (value : Value) (id : Handle) :
    (s.write binding n value).classOf id = s.classOf id := by
  unfold write
  split <;> rfl

theorem classOf_join (s : Session) (n : NodeId) (value : Value) (id : Handle) :
    (s.join n value).classOf id =
      (s.classOf id).map fun c => if value = .handle id then c.join n else c := by
  cases value with
  | const m =>
    show s.classOf id = _
    cases s.classOf id <;> simp [Except.map]
  | handle id' =>
    simp only [classOf, join, Array.getElem?_modify, Value.handle.injEq]
    by_cases h : id' = id
    · rw [if_pos (by rw [h])]
      cases s.classes[id.index]? <;> simp [Except.map, h]
    · rw [if_neg (fun hi => h (Handle.index_inj.1 hi))]
      cases s.classes[id.index]? <;> simp [Except.map, h]

theorem mem_classOf_join {id : Handle} (hid : s.Knows (.handle id)) (n : NodeId) :
    ∃ c, (s.join n (.handle id)).classOf id = .ok c ∧ n ∈ c.members := by
  obtain ⟨c, hc⟩ := classOf_of_lt hid
  refine ⟨c.join n, ?_, (c.mem_join_iff n).2 (.inr rfl)⟩
  rw [classOf_join, hc]
  simp [Except.map]

theorem classOf_push (s : Session) (c : ValueClass) (id : Handle) :
    classOf { s with classes := s.classes.push c } id =
      if id.index = s.allocated then .ok c else s.classOf id := by
  have hpush : (s.classes.push c)[id.index]? =
      if id.index = s.allocated then some c else s.classes[id.index]? := Array.getElem?_push
  simp only [classOf, hpush]
  by_cases h : id.index = s.allocated
  · simp only [if_pos h]
  · simp only [if_neg h]

/-! ### The ways to change a session -/

/-- How a session and the ledger that it keeps can change. -/
inductive Changes (v : View) : Session → Ledger → Session → Ledger → Prop
  /-- The table is searched, which changes only what it remembers. -/
  | searched {s : Session} {l : Ledger} {t : Table} (ht : t.Holds v l) :
      Changes v s l { s with table := t } l
  /-- A value is recorded for a node that can carry it. -/
  | recorded {s : Session} {l : Ledger} {n : NodeId} {value : Value} {binding : Binding}
      (hb : s.bindingFor v.arena n value = .ok binding) :
      Changes v s l (s.write binding n value) l
  /-- A value is allocated. -/
  | allocated {s : Session} {l : Ledger} (ty : Ty) (hid : s.allocated < identLimit) :
      Changes v s l { s with classes := s.classes.push ⟨ty, []⟩ } l
  /-- A key is given a value that its node can carry. -/
  | defined {s : Session} {l : Ledger} {key : Key} {value : Value} {binding : Binding} {t : Table}
      (hb : s.bindingFor v.arena key.node value = .ok binding)
      (hk : v.hashFault? key.node = none) (ht : t.Holds v (l.put v key value)) :
      Changes v s l (({ s with table := t }.write binding key.node value).join key.node value)
        (l.put v key value)
  | trans {s s' s'' : Session} {l l' l'' : Ledger} (h : Changes v s l s' l')
      (h' : Changes v s' l' s'' l'') : Changes v s l s'' l''

theorem Changes.refl (h : s.table.Holds v l) : Changes v s l s l := .searched h

/-- A key that no entry equals is given a new value: one is allocated and then defined. -/
theorem changes_created {q : Node} {t : Table} (hq : v.arena.node? key.node = some q)
    (hb : q.op.kind.binding = .recorded) (hk : v.hashFault? key.node = none)
    (he : l.entry? v key = none) (hid : s.allocated < identLimit)
    (ht : t.Holds v (l ++ [(key, s.next)])) :
    Changes v s l
      { s with
        table := t
        bound := s.bound.insert key.node s.next
        classes := s.classes.push ⟨q.ty, [key.node]⟩ }
      (l ++ [(key, s.next)]) := by
  have hknows : Knows { s with classes := s.classes.push ⟨q.ty, []⟩ } s.next :=
    knows_next hid (Array.size_push _)
  have hput : l.put v key s.next = l ++ [(key, s.next)] := Ledger.put_of_entry?_eq_none he
  rw [← hput] at ht ⊢
  have hdef := Changes.defined (bindingFor_of_recorded (v := v) hq hb hknows) hk ht
  have hstate : (write { s with table := t, classes := s.classes.push ⟨q.ty, []⟩ } .recorded
      key.node s.next).join key.node s.next =
      { s with
        table := t
        bound := s.bound.insert key.node s.next
        classes := s.classes.push ⟨q.ty, [key.node]⟩ } := by
    simp only [write, join, next, if_true, classes_join s q.ty key.node hid]
  rw [hstate] at hdef
  exact (Changes.allocated q.ty hid).trans hdef

theorem Tracks.changes_number {o : Outcome Value} (h : s.Tracks v l) (ho : s.Numbers v l key o) :
    ∃ l', Changes v s l o.session l' := by
  cases ho with
  | refused hk => exact ⟨l, .refl h.holds⟩
  | constant hq hc => exact ⟨l, .refl h.holds⟩
  | @known q e t hq hb hk he ht =>
    have hknows : Knows { s with table := t } e.2 := h.knows e (Ledger.mem_of_entry? he)
    exact ⟨l, (Changes.searched ht).trans (.recorded (bindingFor_of_recorded hq hb hknows))⟩
  | created hq hb hk he hid ht => exact ⟨_, changes_created hq hb hk he hid ht⟩
  | @unbindable q t hq ho hid ht => exact ⟨l, (Changes.searched ht).trans (.allocated q.ty hid)⟩
  | exhausted hk he hid ht => exact ⟨l, .searched ht⟩

theorem Tracks.changes_define {o : Outcome Unit} (h : s.Tracks v l)
    (ho : s.Defines v l key value o) : ∃ l', Changes v s l o.session l' := by
  cases ho with
  | unbound hb => exact ⟨l, .refl h.holds⟩
  | refused hk => exact ⟨l, .refl h.holds⟩
  | done hb hk ht => exact ⟨_, .defined hb hk ht⟩

theorem Changes.tracks (h : Changes v s l s' l') (hs : s.Tracks v l) : s'.Tracks v l' := by
  induction h with
  | searched ht => exact hs.congr ht (Nat.le_refl _)
  | @recorded s l n value binding hb =>
    exact hs.congr (by simpa using hs.holds) (by simp)
  | allocated ty hid => exact hs.congr hs.holds (by simp)
  | defined hb hk ht => exact hs.put hb (by simpa using ht) (by simp)
  | trans _ _ ih ih' => exact ih' (ih hs)

/-! ### Growth -/

/-- Every value of the first session is one of the second, of the same type, and has the same members
with new ones behind them. -/
def Grows (s s' : Session) : Prop :=
  ∀ id c, s.classOf id = .ok c →
    ∃ c', s'.classOf id = .ok c' ∧ c'.ty = c.ty ∧ c.members <+: c'.members

theorem Grows.refl (s : Session) : s.Grows s := fun _ c h => ⟨c, h, rfl, List.prefix_rfl⟩

theorem Grows.trans (h : s.Grows s') (h' : s'.Grows s'') : s.Grows s'' := by
  intro id c hc
  obtain ⟨c', hc', hty, hmem⟩ := h id c hc
  obtain ⟨c'', hc'', hty', hmem'⟩ := h' id c' hc'
  exact ⟨c'', hc'', hty'.trans hty, hmem.trans hmem'⟩

theorem grows_write (s : Session) (binding : Binding) (n : NodeId) (value : Value) :
    s.Grows (s.write binding n value) := by
  intro id c hc
  exact ⟨c, by simpa using hc, rfl, List.prefix_rfl⟩

theorem grows_join (s : Session) (n : NodeId) (value : Value) : s.Grows (s.join n value) := by
  intro id c hc
  rw [classOf_join, hc]
  by_cases h : value = .handle id
  · exact ⟨c.join n, by simp [Except.map, h], by simp, c.members_join n⟩
  · exact ⟨c, by simp [Except.map, h], rfl, List.prefix_rfl⟩

theorem grows_push (s : Session) (c : ValueClass) :
    s.Grows { s with classes := s.classes.push c } := by
  intro id c' hc'
  have hlt := lt_of_classOf hc'
  refine ⟨c', ?_, rfl, List.prefix_rfl⟩
  rw [classOf_push, if_neg (by omega), hc']

theorem Changes.grows (h : Changes v s l s' l') : s.Grows s' := by
  induction h with
  | @searched s l t ht => exact Grows.refl s
  | @recorded s l n value binding hb => exact s.grows_write binding n value
  | @allocated s l ty hid => exact s.grows_push ⟨ty, []⟩
  | @defined s l key value binding t hb hk ht =>
    have hw : s.Grows ({ s with table := t }.write binding key.node value) :=
      grows_write { s with table := t } binding key.node value
    exact hw.trans (grows_join _ key.node value)
  | trans _ _ ih ih' => exact ih.trans ih'

/-! ### The invariant -/

/-- The node can be a member of a value: it is neither a constant nor a statement nor a label. -/
def Joins (a : Arena) (n : NodeId) : Prop :=
  ∃ q, a.node? n = some q ∧ q.op.kind ≠ .constant ∧ q.op.kind ≠ .statement ∧ q.op.kind ≠ .other

/-- The stores of a session fit together, where its table has the given keys and values. -/
structure InStep (s : Session) (a : Arena) (l : Ledger) : Prop where
  /-- Handles in entries were allocated. -/
  entry_knows : ∀ e ∈ l, s.Knows e.2
  /-- Handles that are recorded for nodes were allocated. -/
  bound_knows : ∀ (n : NodeId) value, s.bound[n]? = some value → s.Knows value
  members_nodup : ∀ id c, s.classOf id = .ok c → c.members.Nodup
  members_join : ∀ id c, s.classOf id = .ok c → ∀ n ∈ c.members, Joins a n
  /-- The node of an entry is a member of its value. -/
  entry_member : ∀ e ∈ l, ∀ id, e.2 = .handle id →
    ∃ c, s.classOf id = .ok c ∧ e.1.node ∈ c.members
  /-- The node of an entry has a value recorded, or is a constant and the value itself. -/
  entry_bound : ∀ e ∈ l, ∃ q, a.node? e.1.node = some q ∧
    if q.op.kind = .constant then e.2 = .const e.1.node else e.1.node ∈ s.bound

variable {a b : Arena}

theorem inStep_start (settings : Settings) (a : Arena) : (start settings).InStep a [] := by
  have hclass : ∀ id c, (start settings).classOf id ≠ .ok c := by
    intro id c hc
    have hlt := lt_of_classOf hc
    simp [start, allocated] at hlt
  refine ⟨by simp, fun n value h => ?_, fun id c hc => absurd hc (hclass id c),
    fun id c hc => absurd hc (hclass id c), by simp, by simp⟩
  simp [start] at h

/-- The order of the entries does not matter. -/
theorem InStep.subset (h : s.InStep a l) (hl : l' ⊆ l) : s.InStep a l' :=
  ⟨fun e he => h.entry_knows e (hl he), h.bound_knows, h.members_nodup, h.members_join,
    fun e he => h.entry_member e (hl he), fun e he => h.entry_bound e (hl he)⟩

theorem InStep.extend (h : s.InStep a l) (hab : a.Extends b) : s.InStep b l := by
  refine ⟨h.entry_knows, h.bound_knows, h.members_nodup, fun id c hc n hn => ?_, h.entry_member,
    fun e he => ?_⟩
  · obtain ⟨q, hq, hkind⟩ := h.members_join id c hc n hn
    exact ⟨q, hab.node? hq, hkind⟩
  · obtain ⟨q, hq, hkind⟩ := h.entry_bound e he
    exact ⟨q, hab.node? hq, hkind⟩

theorem InStep.searched (h : s.InStep a l) (t : Table) : InStep { s with table := t } a l :=
  ⟨h.entry_knows, h.bound_knows, h.members_nodup, h.members_join, h.entry_member, h.entry_bound⟩

theorem InStep.write (h : s.InStep a l) (hv : s.Knows value) (binding : Binding) (n : NodeId) :
    (s.write binding n value).InStep a l := by
  have hcount : s.allocated ≤ (s.write binding n value).allocated := by simp
  refine ⟨fun e he => (h.entry_knows e he).mono hcount, fun m x hx => Knows.mono ?_ hcount,
    fun id c hc => ?_, fun id c hc => ?_, fun e he id hid => ?_, fun e he => ?_⟩
  · rcases eq_or_bound_of_write hx with rfl | hold
    · exact hv
    · exact h.bound_knows m x hold
  · exact h.members_nodup id c (by simpa using hc)
  · exact h.members_join id c (by simpa using hc)
  · simpa using h.entry_member e he id hid
  · obtain ⟨q, hq, hkind⟩ := h.entry_bound e he
    refine ⟨q, hq, ?_⟩
    split at hkind
    next hc => rwa [if_pos hc]
    next hc =>
      rw [if_neg hc, bound_write]
      split
      next => exact Std.TreeMap.mem_insert.2 (.inr hkind)
      next => exact hkind

theorem InStep.allocated (h : s.InStep a l) (ty : Ty) :
    InStep { s with classes := s.classes.push ⟨ty, []⟩ } a l := by
  have hmono : ∀ x, s.Knows x → Knows { s with classes := s.classes.push ⟨ty, []⟩ } x := by
    intro x hx
    exact hx.mono (by simp)
  -- the new value has no members, and the others are as they were
  have hclass : ∀ id c, classOf { s with classes := s.classes.push ⟨ty, []⟩ } id = .ok c →
      c.members = [] ∨ s.classOf id = .ok c := by
    intro id c hc
    rw [classOf_push] at hc
    split at hc
    next => exact .inl (by rw [← Except.ok.inj hc])
    next => exact .inr hc
  refine ⟨fun e he => hmono _ (h.entry_knows e he), fun m x hx => hmono x (h.bound_knows m x hx),
    fun id c hc => ?_, fun id c hc m hm => ?_, fun e he id hid => ?_, h.entry_bound⟩
  · rcases hclass id c hc with hnil | hold
    · simp [hnil]
    · exact h.members_nodup id c hold
  · rcases hclass id c hc with hnil | hold
    · simp [hnil] at hm
    · exact h.members_join id c hold m hm
  · obtain ⟨c, hc, hm⟩ := h.entry_member e he id hid
    obtain ⟨c', hc', -, hmem⟩ := s.grows_push ⟨ty, []⟩ id c hc
    exact ⟨c', hc', hmem.subset hm⟩

theorem InStep.join (h : s.InStep a l) (n : NodeId) (value : Value)
    (hn : ∀ id, value = .handle id → Joins a n) : (s.join n value).InStep a l := by
  -- a class is as before, or the node has joined it
  have hclass : ∀ id c, (s.join n value).classOf id = .ok c →
      ∃ c₀, s.classOf id = .ok c₀ ∧ (c = c₀ ∨ value = .handle id ∧ c = c₀.join n) := by
    intro id c hc
    rw [classOf_join] at hc
    cases hs : s.classOf id with
    | error fault => simp [hs, Except.map] at hc
    | ok c₀ =>
      rw [hs, Except.map, Except.ok.injEq] at hc
      refine ⟨c₀, rfl, ?_⟩
      split at hc
      next hv => exact .inr ⟨hv, hc.symm⟩
      next => exact .inl hc.symm
  have hcount : s.allocated ≤ (s.join n value).allocated := by simp
  refine ⟨fun e he => (h.entry_knows e he).mono hcount, fun m x hx => Knows.mono ?_ hcount,
    fun id c hc => ?_, fun id c hc m hm => ?_, fun e he id hid => ?_, fun e he => ?_⟩
  · exact h.bound_knows m x (by simpa using hx)
  · obtain ⟨c₀, hc₀, rfl | ⟨-, rfl⟩⟩ := hclass id c hc
    · exact h.members_nodup id c hc₀
    · exact c₀.nodup_join n (h.members_nodup id c₀ hc₀)
  · obtain ⟨c₀, hc₀, rfl | ⟨hv, rfl⟩⟩ := hclass id c hc
    · exact h.members_join id c hc₀ m hm
    · rcases (c₀.mem_join_iff n).1 hm with hm | rfl
      · exact h.members_join id c₀ hc₀ m hm
      · exact hn id hv
  · obtain ⟨c, hc, hm⟩ := h.entry_member e he id hid
    obtain ⟨c', hc', -, hmem⟩ := s.grows_join n value id c hc
    exact ⟨c', hc', hmem.subset hm⟩
  · simpa using h.entry_bound e he

theorem InStep.put {e : Key × Value} (h : s.InStep a l) (he : s.InStep a [e]) :
    s.InStep a (l.put v e.1 e.2) := by
  have hmem : ∀ f ∈ l.put v e.1 e.2, f = e ∨ f ∈ l := fun f hf => mem_upsert hf
  have hself : e ∈ [e] := List.mem_singleton_self e
  refine ⟨fun f hf => ?_, h.bound_knows, h.members_nodup, h.members_join, fun f hf => ?_,
    fun f hf => ?_⟩
  · rcases hmem f hf with rfl | hf
    · exact he.entry_knows f hself
    · exact h.entry_knows f hf
  · rcases hmem f hf with rfl | hf
    · exact he.entry_member f hself
    · exact h.entry_member f hf
  · rcases hmem f hf with rfl | hf
    · exact he.entry_bound f hself
    · exact h.entry_bound f hf

theorem eq_binding_of_bindingFor {q : Node} {binding : Binding}
    (hb : s.bindingFor v.arena n value = .ok binding) (hq : v.arena.node? n = some q) :
    binding = q.op.kind.binding := by
  simp only [bindingFor, Arena.node, hq] at hb
  split at hb
  next => simp at hb
  next =>
    split at hb
    next => simp at hb
    next =>
      cases value with
      | const m => exact (Except.ok.inj hb).symm
      | handle id =>
        cases hc : s.classOf id with
        | error fault => simp [hc, Except.map] at hb
        | ok c =>
          simp only [hc, Except.map, Except.ok.injEq] at hb
          exact hb.symm

theorem joins_of_bindingFor {binding : Binding} {id : Handle}
    (hb : s.bindingFor v.arena n (.handle id) = .ok binding) (hk : v.hashFault? n = none) :
    Joins v.arena n := by
  obtain ⟨q, hq, hstmt⟩ := View.hashFault?_eq_none_iff.1 hk
  refine ⟨q, hq, fun hc => ?_, hstmt, kind_ne_other_of_bindingFor hb hq⟩
  have hv := eq_const_of_bindingFor hb hq hc
  simp at hv

theorem InStep.defined {binding : Binding} (h : s.InStep v.arena l)
    (hb : s.bindingFor v.arena key.node value = .ok binding) (hk : v.hashFault? key.node = none)
    (t : Table) :
    (({ s with table := t }.write binding key.node value).join key.node value).InStep v.arena
      (l.put v key value) := by
  have hv : Knows { s with table := t } value := knows_of_bindingFor hb
  have hjoined := ((h.searched t).write hv binding key.node).join key.node value
    fun id hid => joins_of_bindingFor (hid ▸ hb) hk
  refine hjoined.put (e := (key, value)) ⟨fun e he => ?_, hjoined.bound_knows,
    hjoined.members_nodup, hjoined.members_join, fun e he id hid => ?_, fun e he => ?_⟩
  all_goals obtain rfl := List.mem_singleton.1 he
  · exact hv.mono (by simp)
  · obtain rfl : value = .handle id := hid
    exact mem_classOf_join (hv.mono (by simp)) key.node
  · obtain ⟨q, hq, -⟩ := View.hashFault?_eq_none_iff.1 hk
    refine ⟨q, hq, ?_⟩
    by_cases hc : q.op.kind = .constant
    · rw [if_pos hc]
      exact eq_const_of_bindingFor hb hq hc
    · have hrec : binding = .recorded := by
        rw [eq_binding_of_bindingFor hb hq, NodeKind.binding_eq_recorded_iff]
        exact ⟨hc, kind_ne_other_of_bindingFor hb hq⟩
      rw [if_neg hc, bound_join, bound_write, if_pos hrec]
      exact Std.TreeMap.mem_insert.2 (.inl (Std.ReflOrd.compare_self))

theorem Changes.inStep (h : Changes v s l s' l') (hs : s.InStep v.arena l) :
    s'.InStep v.arena l' := by
  induction h with
  | @searched s l t ht => exact hs.searched t
  | @recorded s l n value binding hb => exact hs.write (knows_of_bindingFor hb) binding n
  | allocated ty hid => exact hs.allocated ty
  | @defined s l key value binding t hb hk ht => exact hs.defined hb hk t
  | trans _ _ ih ih' => exact ih' (ih hs)

end Session

/-! ### Runs -/

/-- The keys and values of a table. -/
def Table.pairs (t : Table) : Ledger := t.entries.map fun e => (e.key, e.value)

theorem Table.Holds.pairs_perm {t : Table} {v : View} {l : Ledger} (h : t.Holds v l) :
    t.pairs.Perm l := by
  have hperm := h.entries_perm.map fun e : Entry => (e.key, e.value)
  rwa [List.map_map, show (fun e : Entry => (e.key, e.value)) ∘ v.entry = id from rfl,
    List.map_id] at hperm

/-- A value was allocated in the exchange, by itself or for a node. -/
def Exchange.Allocates (x : Exchange) (id : Handle) : Prop :=
  (∃ ty, x.request = .allocate ty ∧ x.answer = .handle (.ok id)) ∨
    ∃ n, .created (.handle id) n ∈ x.events

namespace Pass

variable {w : Pass} {p : Policy} {l : Ledger}

open Session (Changes)

/-- Whatever is requested, the session changes only in the ways that `Session.Changes` lists. -/
theorem changes_after (h : w.session.Tracks (w.view p) l) (r : Request) :
    ∃ l', Changes (w.view p) w.session l (w.after p r).session l' := by
  have hs := serves h r
  simp only [after]
  generalize w.serve p r = o at hs ⊢
  cases hs with
  | numbered key ho => exact h.changes_number ho
  | defined key value ho => exact h.changes_define ho
  | asked _ ht => exact ⟨l, .searched ht⟩
  | recorded n value hb => exact ⟨l, .recorded hb⟩
  | allocated ty hid => exact ⟨l, .allocated ty hid⟩
  | _ => exact ⟨l, .refl h.holds⟩

/-- The entries of the session are those of a ledger with which its other stores are in step. -/
def Kept (w : Pass) (p : Policy) : Prop :=
  ∃ l, w.session.Tracks (w.view p) l ∧ w.session.InStep w.arena l

theorem kept_start (a : Arena) (settings : Settings) (p : Policy) : (start a settings).Kept p :=
  ⟨[], Session.tracks_start settings _, Session.inStep_start settings a⟩

theorem Kept.after (h : w.Kept p) (r : Request) : (w.after p r).Kept p := by
  obtain ⟨l, ht, hs⟩ := h
  obtain ⟨l', hc⟩ := changes_after ht r
  have hgrown := w.extends_after p r
  exact ⟨l', (hc.tracks ht).extend hgrown, (hc.inStep hs).extend hgrown⟩

theorem Kept.grows (h : w.Kept p) (r : Request) : w.session.Grows (w.after p r).session := by
  obtain ⟨l, ht, -⟩ := h
  obtain ⟨l', hc⟩ := changes_after ht r
  exact hc.grows

theorem Kept.run_grows (h : w.Kept p) (requests : List Request) :
    w.session.Grows (w.run p requests).2.session := by
  have hrun : (w.run p requests).2.Kept p ∧ w.session.Grows (w.run p requests).2.session := by
    refine run_induction (P := fun _ w' => w'.Kept p ∧ w.session.Grows w'.session)
      ⟨h, .refl _⟩ ?_
    rintro past w' r - ⟨hk, hg⟩
    exact ⟨hk.after r, hg.trans (hk.grows r)⟩
  exact hrun.2

theorem run_kept (a : Arena) (settings : Settings) (p : Policy) (requests : List Request) :
    ((start a settings).run p requests).2.Kept p :=
  run_induction (P := fun _ w => w.Kept p) (kept_start a settings p) fun _ _ r _ h => h.after r

theorem index_of_allocates (h : w.session.Tracks (w.view p) l) {r : Request} {id : Handle}
    (hx : (w.exchange p r).Allocates id) :
    id.index = w.session.allocated ∧
      (w.after p r).session.allocated = w.session.allocated + 1 := by
  have hs := serves h r
  simp only [exchange, after] at hx ⊢
  generalize w.serve p r = o at hs hx ⊢
  -- it is allocated on request, or created for the node of a key
  have hnext : w.session.allocated < identLimit → id = .ofIndex w.session.allocated →
      id.index = w.session.allocated := by
    rintro hid rfl
    exact Handle.index_ofIndex hid
  cases hs with
  | numbered key ho =>
    cases ho with
    | created hq hb hk he hid ht =>
      simp only [Exchange.Allocates, Session.next] at hx
      exact ⟨hnext hid (by simpa using hx), Array.size_push _⟩
    | unbindable hq ho hid ht =>
      simp only [Exchange.Allocates, Session.next] at hx
      exact ⟨hnext hid (by simpa using hx), Array.size_push _⟩
    | _ => simp [Exchange.Allocates] at hx
  | defined key value ho =>
    cases ho with
    | done hb hk ht =>
      generalize (l.entry? (w.view p) key).map (w.view p).entry = old at hx
      cases old <;> simp [Exchange.Allocates, Session.replacedEvents] at hx
    | _ => simp [Exchange.Allocates] at hx
  | allocated ty hid =>
    simp only [Exchange.Allocates] at hx
    exact ⟨hnext hid (by simpa [eq_comm] using hx), Array.size_push _⟩
  | @asked r answer t hr ht =>
    cases r <;> simp [Exchange.Allocates, Request.asks] at hx hr
  | _ => simp [Exchange.Allocates, Session.closeEvent] at hx

/-- At every point of every run, the stores of the session are in step, the next value to be allocated
gets the number of values so far, and no request will ever change the type of a value or its members,
other than by adding new ones behind them. -/
theorem stores_in_step (a : Arena) (settings : Settings) (p : Policy) (requests : List Request) :
    let w := ((start a settings).run p requests).2
    w.session.InStep w.arena w.session.table.pairs ∧
      (∀ r id, (w.exchange p r).Allocates id → id.index = w.session.allocated ∧
        (w.after p r).session.allocated = w.session.allocated + 1) ∧
      ∀ later, w.session.Grows (w.run p later).2.session := by
  intro w
  have hw : w.Kept p := run_kept a settings p requests
  obtain ⟨l, ht, hs⟩ := hw
  refine ⟨hs.subset ht.holds.pairs_perm.subset, fun r id hx => index_of_allocates ht hx, ?_⟩
  exact Kept.run_grows ⟨l, ht, hs⟩

end Pass

end ValueNumbering
