import ValueNumbering.Proofs.Runs

/-!
# Known values

A ledger gives values to keys: constants are their own values, and any other key has the value of
the first entry with an equal key (`Ledger.value?`). Entries at the end of the ledger change no value
that is known (`Ledger.value?_mono`), whether equality of keys is transitive or not.

Numbering a key that can have a value returns the value that it has, or enters it at the end
(`Pass.tracks_number_valued`). A run that numbers such keys therefore answers by the ledger at its
end, also for the keys that it numbered first, and allocates at most one value for each key that had
none at its start (`Pass.run_numbers`). If all of them had values, it allocates none
(`Pass.run_known`).
-/

namespace ValueNumbering

/-- Whether a node with this operation produces a value: all do but statements and labels. -/
def Op.producesValue (op : Op) : Bool := op.kind ≠ .statement ∧ op.kind ≠ .other

/-- The node exists and produces a value. -/
def View.Valued (v : View) (n : NodeId) : Prop :=
  ∃ q, v.arena.node? n = some q ∧ q.op.producesValue

theorem View.Valued.hashFault? {v : View} {n : NodeId} (h : v.Valued n) : v.hashFault? n = none := by
  obtain ⟨q, hq, hval⟩ := h
  have hkind : q.op.kind ≠ .statement ∧ q.op.kind ≠ .other := by
    simpa [Op.producesValue] using hval
  exact hashFault?_eq_none_iff.2 ⟨q, hq, hkind.1⟩

theorem View.Valued.of_recorded {v : View} {n : NodeId} {q : Node}
    (hq : v.arena.node? n = some q) (hb : q.op.kind.binding = .recorded)
    (hk : v.hashFault? n = none) : v.Valued n := by
  obtain ⟨q', hq', hstmt⟩ := hashFault?_eq_none_iff.1 hk
  obtain rfl := Option.some.inj (hq.symm.trans hq')
  have hother := (NodeKind.binding_eq_recorded_iff.1 hb).2
  exact ⟨q, hq, by simp [Op.producesValue, hstmt, hother]⟩

namespace Ledger

/-- The value of a key, if it is known: a constant is its own value. -/
def value? (l : Ledger) (v : View) (key : Key) : Option Value :=
  if v.isConstant key.node then some (.const key.node) else l.find v key

variable {l l' : Ledger} {v : View} {key : Key} {value : Value}

theorem value?_of_constant (h : v.isConstant key.node) : l.value? v key = some (.const key.node) :=
  if_pos h

theorem value?_eq_find (h : ¬ v.isConstant key.node) : l.value? v key = l.find v key := if_neg h

theorem value?_mono (h : l <+: l') (hv : l.value? v key = some value) :
    l'.value? v key = some value := by
  by_cases hc : v.isConstant key.node
  · rw [value?_of_constant hc] at hv ⊢
    exact hv
  · rw [value?_eq_find hc, find, Option.map_eq_some_iff] at hv ⊢
    obtain ⟨e, he, rfl⟩ := hv
    exact ⟨e, h.find?_eq_some he, rfl⟩

theorem map_value?_mono (h : l <+: l') {keys : List Key} {values : List Value}
    (hv : keys.map (l.value? v) = values.map some) : keys.map (l'.value? v) = values.map some := by
  rw [← List.forall₂_eq_eq_eq, List.forall₂_map_left_iff, List.forall₂_map_right_iff] at hv ⊢
  exact hv.imp fun _ _ hx => value?_mono h hx

/-- The number of keys without a value. -/
def unknown (l : Ledger) (v : View) (keys : List Key) : Nat :=
  keys.countP fun key => (l.value? v key).isNone

theorem unknown_cons (l : Ledger) (v : View) (key : Key) (keys : List Key) :
    l.unknown v (key :: keys) = l.unknown v keys + if (l.value? v key).isNone then 1 else 0 :=
  List.countP_cons

theorem unknown_anti (h : l <+: l') (keys : List Key) :
    l'.unknown v keys ≤ l.unknown v keys := by
  refine List.countP_mono_left fun key _ hn => ?_
  rw [Option.isNone_iff_eq_none] at hn ⊢
  cases hv : l.value? v key with
  | none => rfl
  | some value =>
    rw [value?_mono h hv] at hn
    simp at hn

theorem unknown_eq_zero {keys : List Key} {values : List Value}
    (h : keys.map (l.value? v) = values.map some) : l.unknown v keys = 0 := by
  have hcount : l.unknown v keys = (keys.map (l.value? v)).countP Option.isNone := by
    rw [List.countP_map]
    rfl
  rw [hcount, h, List.countP_eq_zero]
  simp

end Ledger

namespace Pass

variable {w : Pass} {p : Policy} {l : Ledger} {key : Key}

/-- How numbering a key ends that can have a value: the value, the entries then, and the number of
values allocated. -/
inductive Answered (w : Pass) (p : Policy) (l : Ledger) (key : Key) : Value → Ledger → Nat → Prop
  | known {value : Value} (hv : l.value? (w.view p) key = some value) :
      Answered w p l key value l w.session.allocated
  | new (hc : ¬ (w.view p).isConstant key.node) (hv : l.value? (w.view p) key = none) :
      Answered w p l key w.session.next (l ++ [(key, w.session.next)]) (w.session.allocated + 1)

theorem Answered.grown {value : Value} {l' : Ledger} {count : Nat}
    (h : w.Answered p l key value l' count) : l <+: l' := by
  cases h with
  | known hv => exact List.prefix_rfl
  | new hc hv => exact List.prefix_append _ _

theorem Answered.value? {value : Value} {l' : Ledger} {count : Nat}
    (h : w.Answered p l key value l' count) : l'.value? (w.view p) key = some value := by
  cases h with
  | known hv => exact hv
  | new hc hv =>
    rw [Ledger.value?_eq_find hc, Ledger.find, Option.map_eq_none_iff, Ledger.entry?] at hv
    rw [Ledger.value?_eq_find hc, Ledger.find, Ledger.entry?, List.find?_append, hv]
    simp

/-- Numbering a key returns the value that it has, or enters it under a new one. Otherwise the entries
stay as they are, and either the key cannot have a value, or it has none and no handle is left. -/
theorem tracks_number_answered (h : w.session.Tracks (w.view p) l) (key : Key) :
    (∃ value l', (w.view p).Valued key.node ∧
      w.Answered p l key value l' (w.after p (.number key)).session.allocated ∧
      (w.after p (.number key)).session.Tracks (w.view p) l' ∧
      (w.exchange p (.number key)).answer = .value (.ok value)) ∨
    ((¬ (w.view p).Valued key.node ∨
        l.value? (w.view p) key = none ∧ identLimit ≤ w.session.allocated) ∧
      (w.after p (.number key)).session.Tracks (w.view p) l ∧
      ∃ fault, (w.exchange p (.number key)).answer = .value (.error fault)) := by
  by_cases hconst : (w.view p).isConstant key.node
  · obtain ⟨q, hq, hc⟩ := View.exists_of_isConstant hconst
    have hval : (w.view p).Valued key.node := ⟨q, hq, by simp [Op.producesValue, hc]⟩
    simp only [after, exchange, serve, Session.number_constant hq hc]
    exact .inl ⟨_, l, hval, .known (Ledger.value?_of_constant hconst), h, rfl⟩
  · have hfind : l.value? (w.view p) key = (l.entry? (w.view p) key).map (·.2) :=
      Ledger.value?_eq_find hconst
    have hn := h.number key
    simp only [after, exchange, serve]
    generalize w.session.number (w.view p) key = o at hn ⊢
    cases hn with
    | @refused fault hk =>
      refine .inr ⟨.inl fun hval => ?_, h, fault, rfl⟩
      rw [hval.hashFault?] at hk
      simp at hk
    | constant hq hc => exact absurd ((View.isConstant_iff hq).2 hc) hconst
    | known hq hb hk he ht =>
      rw [he] at hfind
      exact .inl ⟨_, l, .of_recorded hq hb hk, .known hfind, h.congr ht (Nat.le_refl _), rfl⟩
    | @created q t hq hb hk he hid ht =>
      rw [he] at hfind
      have hcount : (w.session.classes.push ⟨q.ty, [key.node]⟩).size = w.session.allocated + 1 :=
        Array.size_push _
      have hother := (NodeKind.binding_eq_recorded_iff.1 hb).2
      refine .inl ⟨_, _, .of_recorded hq hb hk, ?_, h.append_next hq hother hid ht hcount, rfl⟩
      simp only [Session.allocated, hcount]
      exact .new hconst hfind
    | unbindable hq ho hid ht =>
      refine .inr ⟨.inl ?_, h.congr ht (by simp), _, rfl⟩
      rintro ⟨q', hq', hval⟩
      obtain rfl := Option.some.inj (hq.symm.trans hq')
      simp [Op.producesValue, ho] at hval
    | exhausted hk he hid ht =>
      rw [he] at hfind
      exact .inr ⟨.inr ⟨hfind, hid⟩, h.congr ht (Nat.le_refl _), _, rfl⟩

theorem tracks_number_valued (h : w.session.Tracks (w.view p) l)
    (hk : (w.view p).Valued key.node)
    (hid : l.value? (w.view p) key = none → w.session.allocated < identLimit) :
    ∃ value l', w.Answered p l key value l' (w.after p (.number key)).session.allocated ∧
      (w.after p (.number key)).session.Tracks (w.view p) l' ∧
      (w.exchange p (.number key)).answer = .value (.ok value) := by
  rcases tracks_number_answered h key with ⟨value, l', -, ha, ht, hanswer⟩ | ⟨hno, -, -⟩
  · exact ⟨value, l', ha, ht, hanswer⟩
  · rcases hno with hno | ⟨hv, hlimit⟩
    · exact absurd hk hno
    · exact absurd (hid hv) (Nat.not_lt_of_le hlimit)

/-- What a run leads to that numbers the given keys: the ledger at its end has the values with which
it answered, and only keys without a value at its start got new ones. -/
structure Numbered (w : Pass) (p : Policy) (l : Ledger) (keys : List Key) (l' : Ledger)
    (values : List Value) : Prop where
  grown : l <+: l'
  arena_eq : (w.run p (keys.map .number)).2.arena = w.arena
  tracks : (w.run p (keys.map .number)).2.session.Tracks (w.view p) l'
  answers_eq : (w.run p (keys.map .number)).1.map (·.answer) = values.map fun x => .value (.ok x)
  values_eq : keys.map (l'.value? (w.view p)) = values.map some
  le_allocated : w.session.allocated ≤ (w.run p (keys.map .number)).2.session.allocated
  allocated_le : (w.run p (keys.map .number)).2.session.allocated ≤
    w.session.allocated + l.unknown (w.view p) keys

theorem Numbered.nil (h : w.session.Tracks (w.view p) l) : w.Numbered p l [] l [] :=
  ⟨List.prefix_rfl, rfl, h, rfl, rfl, Nat.le_refl _, Nat.le_add_right _ _⟩

theorem Answered.allocated {value : Value} {l' : Ledger} {count : Nat}
    (h : w.Answered p l key value l' count) :
    count = w.session.allocated + if (l.value? (w.view p) key).isNone then 1 else 0 := by
  cases h with
  | known hv => simp [hv]
  | new hc hv => simp [hv]

theorem Numbered.cons {keys : List Key} {l₁ l' : Ledger} {value : Value} {values : List Value}
    (ha : w.Answered p l key value l₁ (w.after p (.number key)).session.allocated)
    (hanswer : (w.exchange p (.number key)).answer = .value (.ok value))
    (h : (w.after p (.number key)).Numbered p l₁ keys l' values) :
    w.Numbered p l (key :: keys) l' (value :: values) := by
  have hcount := ha.allocated
  have hview : (w.after p (.number key)).view p = w.view p := rfl
  have hanti := Ledger.unknown_anti (v := w.view p) ha.grown keys
  have hbefore := h.le_allocated
  have hafter := h.allocated_le
  rw [hview] at hafter
  refine ⟨ha.grown.trans h.grown, h.arena_eq, h.tracks, ?_, ?_, ?_, ?_⟩
  · simp only [List.map_cons, run, hanswer, h.answers_eq]
  · simp only [List.map_cons, Ledger.value?_mono h.grown ha.value?]
    rw [← hview, h.values_eq]
  · simp only [List.map_cons, run]
    omega
  · simp only [List.map_cons, run, Ledger.unknown_cons]
    omega

/-- A run may number any keys that can have values, as long as enough values are left for those that
have none. -/
theorem run_numbers (h : w.session.Tracks (w.view p) l) {keys : List Key}
    (hk : ∀ key ∈ keys, (w.view p).Valued key.node)
    (hid : w.session.allocated + l.unknown (w.view p) keys ≤ identLimit) :
    ∃ l' values, w.Numbered p l keys l' values := by
  induction keys generalizing w l with
  | nil => exact ⟨l, [], .nil h⟩
  | cons key rest ih =>
    obtain ⟨hkey, hrest⟩ := List.forall_mem_cons.1 hk
    rw [Ledger.unknown_cons] at hid
    have hleft : l.value? (w.view p) key = none → w.session.allocated < identLimit := by
      intro hv
      simp only [hv, Option.isNone_none, if_true] at hid
      omega
    obtain ⟨value, l₁, ha, ht, hanswer⟩ := tracks_number_valued h hkey hleft
    have hview : (w.after p (.number key)).view p = w.view p := rfl
    have hanti := Ledger.unknown_anti (v := w.view p) ha.grown rest
    have hcount := ha.allocated
    obtain ⟨l', values, hn⟩ := ih ht hrest (by rw [hview]; omega)
    exact ⟨l', value :: values, .cons ha hanswer hn⟩

theorem run_known (h : w.session.Tracks (w.view p) l) {keys : List Key} {values : List Value}
    (hk : ∀ key ∈ keys, (w.view p).Valued key.node) (hid : w.session.allocated ≤ identLimit)
    (hv : keys.map (l.value? (w.view p)) = values.map some) :
    (w.run p (keys.map .number)).1.map (·.answer) = values.map (fun x => .value (.ok x)) ∧
      (w.run p (keys.map .number)).2.session.allocated = w.session.allocated := by
  have hzero := Ledger.unknown_eq_zero hv
  obtain ⟨l', values', hn⟩ := run_numbers h hk (by rwa [hzero])
  have hvalues : values' = values := by
    have heq := hn.values_eq.symm.trans (Ledger.map_value?_mono hn.grown hv)
    exact List.map_injective_iff.2 (fun _ _ => Option.some.inj) heq
  have hallocated := hn.allocated_le
  rw [hzero] at hallocated
  exact ⟨hvalues ▸ hn.answers_eq, Nat.le_antisymm hallocated hn.le_allocated⟩

end Pass

end ValueNumbering
