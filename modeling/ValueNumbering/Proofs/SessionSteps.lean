import ValueNumbering.Proofs.Ledger
import ValueNumbering.Session

/-!
# What the operations of a session do

A session keeps its keys in a table, so by `Table.Holds` in a ledger. `Session.Tracks s v l` adds
what a session sees to before it enters a key: no node of kind `other` has an entry, and every
handle in an entry was allocated.

From such a state `Session.number` can do six things, which the constructors of `Session.Numbers`
spell out with the session and the events that each leads to: refuse a key without a hash, return a
constant, return the value of the first equal entry, enter the key under a new value, and fail after
the table was searched in vain, because the node cannot have a value or no handle is left.
`Session.Tracks.number` says that there is nothing else. `Session.Defines` and `Session.Tracks.define`
do the same for `Session.define`.
-/

namespace ValueNumbering

theorem NodeKind.binding_eq_recorded_iff {k : NodeKind} :
    k.binding = .recorded ↔ k ≠ .constant ∧ k ≠ .other := by
  cases k <;> simp [binding]

def View.isConstant (v : View) (n : NodeId) : Bool :=
  match v.arena.node? n with
  | some q => q.op.kind = .constant
  | none => false

theorem View.isConstant_iff {v : View} {n : NodeId} {q : Node} (hq : v.arena.node? n = some q) :
    v.isConstant n ↔ q.op.kind = .constant := by
  simp [isConstant, hq]

theorem View.exists_of_isConstant {v : View} {n : NodeId} (h : v.isConstant n) :
    ∃ q, v.arena.node? n = some q ∧ q.op.kind = .constant := by
  cases hq : v.arena.node? n with
  | none => simp [isConstant, hq] at h
  | some q => exact ⟨q, rfl, (isConstant_iff hq).1 h⟩

namespace Session

variable {s : Session} {v : View} {l : Ledger} {key : Key} {q : Node}

/-- The session has allocated the value, if it is not a constant. -/
def Knows (s : Session) : Value → Prop
  | .const _ => True
  | .handle id => id.index < s.allocated

theorem Knows.mono {s' : Session} {value : Value} (h : s.Knows value)
    (hc : s.allocated ≤ s'.allocated) : s'.Knows value := by
  cases value with
  | const n => trivial
  | handle id => exact Nat.lt_of_lt_of_le h hc

/-- The session keeps the entries of a ledger, and each of them could be entered. -/
structure Tracks (s : Session) (v : View) (l : Ledger) : Prop where
  holds : s.table.Holds v l
  kind_ne_other : ∀ e ∈ l, ∀ q, v.arena.node? e.1.node = some q → q.op.kind ≠ .other
  knows : ∀ e ∈ l, s.Knows e.2

theorem tracks_start (settings : Settings) (v : View) : (start settings).Tracks v [] :=
  ⟨Table.holds_empty settings v, by simp, by simp⟩

/-- Tracking depends on the table and on the number of values only. -/
theorem Tracks.congr {s' : Session} (h : s.Tracks v l) (ht : s'.table.Holds v l)
    (hc : s.allocated ≤ s'.allocated) : s'.Tracks v l :=
  ⟨ht, h.kind_ne_other, fun e he => (h.knows e he).mono hc⟩

theorem Tracks.extend {a b : Arena} {p : Policy} (hab : a.Extends b) (h : s.Tracks ⟨a, p⟩ l) :
    s.Tracks ⟨b, p⟩ l := by
  refine ⟨h.holds.extend hab, fun e he q hq => ?_, h.knows⟩
  have hlt : e.1.node.index < a.size := View.index_lt_of_hashFault? (h.holds.hashable e he)
  have hq' : a.node? e.1.node = some q := by rw [← hab.node?_eq hlt]; exact hq
  exact h.kind_ne_other e he q hq'

/-- The value that the session would allocate next. -/
def next (s : Session) : Value := .handle (.ofIndex s.allocated)

theorem knows_next {s' : Session} (hid : s.allocated < identLimit)
    (hc : s'.allocated = s.allocated + 1) : s'.Knows s.next := by
  show (Handle.ofIndex s.allocated).index < s'.allocated
  rw [Handle.index_ofIndex hid]
  omega

/-- A node with a key that equals one of an entry can have a value, as it has the same operation. -/
theorem Tracks.kind_ne_other_of_entry? {e : Key × Value} (h : s.Tracks v l)
    (he : l.entry? v key = some e) (hq : v.arena.node? key.node = some q) :
    q.op.kind ≠ .other := by
  have hmem : e ∈ l := Ledger.mem_of_entry? he
  have hsame : v.sameKey e.1 key := Ledger.sameKey_of_entry? he
  obtain ⟨q', hq', -⟩ := View.hashFault?_eq_none_iff.1 (h.holds.hashable e hmem)
  have hop : q'.op = q.op := View.op_eq_of_sameTree hq' hq (View.sameKey_iff.1 hsame).2
  exact hop ▸ h.kind_ne_other e hmem q' hq'

theorem Tracks.append_next {s' : Session} (h : s.Tracks v l)
    (hq : v.arena.node? key.node = some q) (ho : q.op.kind ≠ .other)
    (hid : s.allocated < identLimit) (ht : s'.table.Holds v (l ++ [(key, s.next)]))
    (hc : s'.allocated = s.allocated + 1) : s'.Tracks v (l ++ [(key, s.next)]) := by
  refine ⟨ht, fun e he q' hq' => ?_, fun e he => ?_⟩
  · rcases List.mem_append.1 he with he | he
    · exact h.kind_ne_other e he q' hq'
    · obtain rfl := List.mem_singleton.1 he
      obtain rfl : q = q' := Option.some.inj (hq.symm.trans hq')
      exact ho
  · rcases List.mem_append.1 he with he | he
    · exact (h.knows e he).mono (by omega)
    · obtain rfl := List.mem_singleton.1 he
      exact knows_next hid hc

/-! ### Binding -/

theorem classOf_of_lt {id : Handle} (h : id.index < s.allocated) :
    ∃ c, s.classOf id = .ok c := by
  have hsome : s.classes[id.index]?.isSome := by simpa [allocated] using h
  obtain ⟨c, hc⟩ := Option.isSome_iff_exists.1 hsome
  exact ⟨c, by simp only [classOf, hc]⟩

theorem lt_of_classOf {id : Handle} {c : ValueClass} (h : s.classOf id = .ok c) :
    id.index < s.allocated := by
  unfold classOf at h
  split at h
  next hc => exact (Array.getElem?_eq_some_iff.1 hc).1
  next => simp at h

theorem bindingFor_of_recorded {value : Value} (hq : v.arena.node? key.node = some q)
    (hb : q.op.kind.binding = .recorded) (hv : s.Knows value) :
    s.bindingFor v.arena key.node value = .ok .recorded := by
  simp only [bindingFor, Arena.node, hq, hb]
  cases value with
  | const n => simp
  | handle id =>
    obtain ⟨c, hc⟩ := classOf_of_lt hv
    simp [hc, Except.map]

theorem bindingFor_of_other {value : Value} (hq : v.arena.node? key.node = some q)
    (hk : q.op.kind = .other) :
    s.bindingFor v.arena key.node value = .error (.notBindable key.node .other) := by
  simp [bindingFor, Arena.node, hq, hk, NodeKind.binding]

theorem bindingFor_of_constant (hq : v.arena.node? key.node = some q) (hc : q.op.kind = .constant) :
    s.bindingFor v.arena key.node (.const key.node) = .ok .ownValue := by
  simp [bindingFor, Arena.node, hq, hc, NodeKind.binding]

theorem record_of_recorded {value : Value} (hq : v.arena.node? key.node = some q)
    (hb : q.op.kind.binding = .recorded) (hv : s.Knows value) :
    s.record v.arena key.node value =
      .ok { s with bound := s.bound.insert key.node value } := by
  simp [record, bindingFor_of_recorded hq hb hv, write]

theorem kind_ne_other_of_bindingFor {n : NodeId} {value : Value} {binding : Binding}
    (hb : s.bindingFor v.arena n value = .ok binding) (hq : v.arena.node? n = some q) :
    q.op.kind ≠ .other := by
  intro ho
  simp [bindingFor, Arena.node, hq, ho, NodeKind.binding] at hb

theorem eq_const_of_bindingFor {n : NodeId} {value : Value} {binding : Binding}
    (hb : s.bindingFor v.arena n value = .ok binding) (hq : v.arena.node? n = some q)
    (hc : q.op.kind = .constant) : value = .const n := by
  by_contra hne
  simp [bindingFor, Arena.node, hq, hc, NodeKind.binding, hne] at hb

theorem knows_of_bindingFor {n : NodeId} {value : Value} {binding : Binding}
    (hb : s.bindingFor v.arena n value = .ok binding) : s.Knows value := by
  cases value with
  | const c => trivial
  | handle id =>
    cases hc : s.classOf id with
    | ok c => exact lt_of_classOf hc
    | error fault =>
      simp only [bindingFor, hc, Except.map] at hb
      split at hb
      · simp at hb
      · repeat' split at hb
        all_goals simp at hb

/-! ### Looking up -/

theorem find_eq (h : s.table.Holds v l) (hk : v.hashFault? key.node = none) :
    ∃ t, s.find v key = (.ok (l.find v key), { s with table := t }) ∧ t.Holds v l := by
  obtain ⟨t, ht, h'⟩ := h.find_eq hk
  refine ⟨t, ?_, h'⟩
  simp only [find, ht]

theorem find_fault (h : s.table.Holds v l) {fault : Fault}
    (hk : v.hashFault? key.node = some fault) : s.find v key = (.error fault, s) := by
  simp only [find, h.find_fault hk]

theorem find_holds (h : s.table.Holds v l) (key : Key) :
    ∃ t, (s.find v key).2 = { s with table := t } ∧ t.Holds v l := by
  cases hk : v.hashFault? key.node with
  | some fault => exact ⟨s.table, by rw [find_fault h hk], h⟩
  | none =>
    obtain ⟨t, ht, h'⟩ := find_eq h hk
    exact ⟨t, by rw [ht], h'⟩

theorem hashKey_holds (h : s.table.Holds v l) (key : Key) :
    ∃ t, (s.hashKey v key).2 = { s with table := t } ∧ t.Holds v l := by
  cases hk : v.hashFault? key.node with
  | some fault => exact ⟨s.table, by simp only [hashKey, h.hashKey_fault hk], h⟩
  | none =>
    obtain ⟨t, ht, h'⟩ := h.hashKey_eq hk
    exact ⟨t, by simp only [hashKey, ht], h'⟩

theorem valueOf_constant (hq : v.arena.node? key.node = some q) (hc : q.op.kind = .constant) :
    s.valueOf v key = (.ok (some (.const key.node)), s) := by
  simp only [valueOf, Arena.node, hq, hc, if_true]

theorem valueOf_eq_find (hq : v.arena.node? key.node = some q) (hc : q.op.kind ≠ .constant) :
    s.valueOf v key = s.find v key := by
  simp only [valueOf, Arena.node, hq, if_neg hc]

theorem valueOf_fault (h : s.table.Holds v l) {fault : Fault}
    (hk : v.hashFault? key.node = some fault) : s.valueOf v key = (.error fault, s) := by
  cases hq : v.arena.node? key.node with
  | none =>
    simp only [View.hashFault?, hq, Option.some.injEq] at hk
    simp only [valueOf, Arena.node, hq, hk]
  | some q =>
    have hc : q.op.kind ≠ .constant := by
      intro hc
      simp [View.hashFault?, hq, hc] at hk
    rw [valueOf_eq_find hq hc, find_fault h hk]

theorem valueOf_holds (h : s.table.Holds v l) (key : Key) :
    ∃ t, (s.valueOf v key).2 = { s with table := t } ∧ t.Holds v l := by
  unfold valueOf
  split
  next => exact ⟨s.table, rfl, h⟩
  next =>
    split
    next => exact ⟨s.table, rfl, h⟩
    next => exact find_holds h key

/-! ### Allocating and recording -/

@[simp] theorem allocated_mk (s : Session) (settings : Settings) (table : Table)
    (bound : Std.TreeMap NodeId Value) :
    allocated ⟨settings, table, bound, s.classes⟩ = s.allocated := rfl

@[simp] theorem allocated_push (s : Session) (settings : Settings) (table : Table)
    (bound : Std.TreeMap NodeId Value) (c : ValueClass) :
    allocated ⟨settings, table, bound, s.classes.push c⟩ = s.allocated + 1 :=
  Array.size_push c

theorem allocate_eq_ok {ty : Ty} {id : Handle} {s' : Session}
    (h : s.allocate ty = .ok (id, s')) :
    s.allocated < identLimit ∧ id = .ofIndex s.allocated ∧
      s' = { s with classes := s.classes.push ⟨ty, []⟩ } := by
  unfold allocate at h
  split at h
  next hid =>
    cases h
    exact ⟨hid, rfl, rfl⟩
  next => simp at h

theorem record_eq_ok {a : Arena} {n : NodeId} {value : Value} {s' : Session}
    (h : s.record a n value = .ok s') :
    ∃ binding, s.bindingFor a n value = .ok binding ∧ s' = s.write binding n value := by
  unfold record at h
  split at h
  next => simp at h
  next binding hb =>
    cases h
    exact ⟨binding, hb, rfl⟩

@[simp] theorem table_write (s : Session) (binding : Binding) (n : NodeId) (value : Value) :
    (s.write binding n value).table = s.table := by
  unfold write
  split <;> rfl

theorem bound_write (s : Session) (binding : Binding) (n : NodeId) (value : Value) :
    (s.write binding n value).bound =
      if binding = .recorded then s.bound.insert n value else s.bound := by
  unfold write
  split <;> rfl

theorem eq_or_bound_of_insert {m n : NodeId} {value x : Value}
    (h : (s.bound.insert n value)[m]? = some x) : x = value ∨ s.bound[m]? = some x := by
  rw [Std.TreeMap.getElem?_insert] at h
  split at h
  next => exact .inl (Option.some.inj h).symm
  next => exact .inr h

theorem eq_or_bound_of_write {binding : Binding} {m n : NodeId} {value x : Value}
    (h : (s.write binding n value).bound[m]? = some x) : x = value ∨ s.bound[m]? = some x := by
  rw [bound_write] at h
  split at h
  next => exact eq_or_bound_of_insert h
  next => exact .inr h

@[simp] theorem allocated_write (s : Session) (binding : Binding) (n : NodeId) (value : Value) :
    (s.write binding n value).allocated = s.allocated := by
  unfold write
  split <;> rfl

@[simp] theorem table_join (s : Session) (n : NodeId) (value : Value) :
    (s.join n value).table = s.table := by
  cases value <;> rfl

@[simp] theorem bound_join (s : Session) (n : NodeId) (value : Value) :
    (s.join n value).bound = s.bound := by
  cases value <;> rfl

@[simp] theorem allocated_join (s : Session) (n : NodeId) (value : Value) :
    (s.join n value).allocated = s.allocated := by
  cases value with
  | const c => rfl
  | handle id => simp [join, allocated]

/-! ### Numbering -/

/-- The ways in which numbering a key can end, from a session that keeps the entries of a ledger. -/
inductive Numbers (s : Session) (v : View) (l : Ledger) (key : Key) : Outcome Value → Prop
  /-- The key has no hash. -/
  | refused {fault : Fault} (hk : v.hashFault? key.node = some fault) :
      Numbers s v l key ⟨.error fault, s, []⟩
  /-- The node is a constant. -/
  | constant {q : Node} (hq : v.arena.node? key.node = some q) (hc : q.op.kind = .constant) :
      Numbers s v l key ⟨.ok (.const key.node), s, []⟩
  /-- An equal key has a value. -/
  | known {q : Node} {e : Key × Value} {t : Table} (hq : v.arena.node? key.node = some q)
      (hb : q.op.kind.binding = .recorded) (hk : v.hashFault? key.node = none)
      (he : l.entry? v key = some e) (ht : t.Holds v l) :
      Numbers s v l key
        ⟨.ok e.2, { s with table := t, bound := s.bound.insert key.node e.2 }, []⟩
  /-- No equal key has a value, and this one gets a new one. -/
  | created {q : Node} {t : Table} (hq : v.arena.node? key.node = some q)
      (hb : q.op.kind.binding = .recorded) (hk : v.hashFault? key.node = none)
      (he : l.entry? v key = none) (hid : s.allocated < identLimit)
      (ht : t.Holds v (l ++ [(key, s.next)])) :
      Numbers s v l key
        ⟨.ok s.next,
          { s with
            table := t
            bound := s.bound.insert key.node s.next
            classes := s.classes.push ⟨q.ty, [key.node]⟩ },
          [.created s.next key.node]⟩
  /-- The node cannot have a value, but one was allocated. -/
  | unbindable {q : Node} {t : Table} (hq : v.arena.node? key.node = some q)
      (ho : q.op.kind = .other) (hid : s.allocated < identLimit) (ht : t.Holds v l) :
      Numbers s v l key
        ⟨.error (.notBindable key.node .other),
          { s with table := t, classes := s.classes.push ⟨q.ty, []⟩ },
          [.created s.next key.node]⟩
  /-- No handle is left. -/
  | exhausted {t : Table} (hk : v.hashFault? key.node = none) (he : l.entry? v key = none)
      (hid : identLimit ≤ s.allocated) (ht : t.Holds v l) :
      Numbers s v l key ⟨.error .handlesExhausted, { s with table := t }, []⟩

theorem classes_join (s : Session) (ty : Ty) (n : NodeId) (hid : s.allocated < identLimit) :
    (s.classes.push ⟨ty, []⟩).modify (Handle.ofIndex s.allocated).index (·.join n) =
      s.classes.push ⟨ty, [n]⟩ := by
  rw [Handle.index_ofIndex hid]
  apply Array.ext_getElem?
  intro i
  simp only [Array.getElem?_modify, Array.getElem?_push, allocated]
  split
  next h =>
    subst h
    simp [ValueClass.join]
  next h =>
    rw [if_neg (Ne.symm h), if_neg (Ne.symm h)]

theorem defineNew_created (h : s.table.Holds v l) (hq : v.arena.node? key.node = some q)
    (hb : q.op.kind.binding = .recorded) (hk : v.hashFault? key.node = none)
    (he : l.entry? v key = none) (hid : s.allocated < identLimit) :
    ∃ t, t.Holds v (l ++ [(key, s.next)]) ∧ s.defineNew v key q.ty =
      ⟨.ok s.next,
        { s with
          table := t
          bound := s.bound.insert key.node s.next
          classes := s.classes.push ⟨q.ty, [key.node]⟩ },
        [.created s.next key.node]⟩ := by
  obtain ⟨t, ht, h'⟩ := h.insert_eq hk s.next
  rw [Ledger.put_of_entry?_eq_none he] at h'
  refine ⟨t, h', ?_⟩
  have hknows : Knows { s with classes := s.classes.push ⟨q.ty, []⟩ } s.next :=
    knows_next hid (Array.size_push _)
  have hbind := bindingFor_of_recorded (v := v) hq hb hknows
  simp only [next] at ht hbind ⊢
  simp only [defineNew, allocate, if_pos hid, define, hbind, ht, he, Option.map_none, write, join,
    replacedEvents, if_true, classes_join s q.ty key.node hid]

theorem defineNew_unbindable (hq : v.arena.node? key.node = some q) (ho : q.op.kind = .other)
    (hid : s.allocated < identLimit) :
    s.defineNew v key q.ty =
      ⟨.error (.notBindable key.node .other),
        { s with classes := s.classes.push ⟨q.ty, []⟩ },
        [.created s.next key.node]⟩ := by
  simp only [defineNew, allocate, if_pos hid, define, bindingFor_of_other hq ho, next]

theorem defineNew_exhausted (key : Key) (ty : Ty) (hid : identLimit ≤ s.allocated) :
    s.defineNew v key ty = ⟨.error .handlesExhausted, s, []⟩ := by
  simp only [defineNew, allocate, if_neg (Nat.not_lt_of_le hid)]

theorem number_constant (hq : v.arena.node? key.node = some q) (hc : q.op.kind = .constant) :
    s.number v key = ⟨.ok (.const key.node), s, []⟩ := by
  have hbind : s.record v.arena key.node (.const key.node) = .ok s := by
    simp [record, bindingFor_of_constant hq hc, write]
  simp only [number, valueOf_constant hq hc, hbind]

/-- Numbering a key ends in one of the ways that `Numbers` lists. -/
theorem Tracks.number (h : s.Tracks v l) (key : Key) :
    s.Numbers v l key (s.number v key) := by
  cases hk : v.hashFault? key.node with
  | some fault =>
    simp only [Session.number, valueOf_fault h.holds hk]
    exact .refused hk
  | none =>
    obtain ⟨q, hq, _⟩ := View.hashFault?_eq_none_iff.1 hk
    by_cases hc : q.op.kind = .constant
    · rw [number_constant hq hc]
      exact .constant hq hc
    · obtain ⟨t, hfind, ht⟩ := find_eq h.holds hk
      simp only [Session.number, valueOf_eq_find hq hc, hfind, Ledger.find]
      cases he : l.entry? v key with
      | some e =>
        have hb := NodeKind.binding_eq_recorded_iff.2 ⟨hc, h.kind_ne_other_of_entry? he hq⟩
        have hknows : Knows { s with table := t } e.2 := h.knows e (Ledger.mem_of_entry? he)
        simp only [Option.map_some, record_of_recorded hq hb hknows]
        exact .known hq hb hk he ht
      | none =>
        simp only [Option.map_none, Arena.node, hq]
        by_cases hid : s.allocated < identLimit
        · by_cases ho : q.op.kind = .other
          · have hdef := defineNew_unbindable (s := { s with table := t }) hq ho hid
            rw [hdef]
            exact .unbindable hq ho hid ht
          · have hb := NodeKind.binding_eq_recorded_iff.2 ⟨hc, ho⟩
            obtain ⟨t', ht', hdef⟩ := defineNew_created (s := { s with table := t }) ht hq hb hk
              he hid
            rw [hdef]
            exact .created hq hb hk he hid ht'
        · have hdef := defineNew_exhausted (s := { s with table := t }) (v := v) key q.ty
            (Nat.le_of_not_lt hid)
          rw [hdef]
          exact .exhausted hk he (Nat.le_of_not_lt hid) ht

/-! ### Defining -/

/-- The ways in which defining the value of a key can end, from a session that keeps the entries of a
ledger. -/
inductive Defines (s : Session) (v : View) (l : Ledger) (key : Key) (value : Value) :
    Outcome Unit → Prop
  /-- The node cannot carry the value. -/
  | unbound {fault : Fault} (hb : s.bindingFor v.arena key.node value = .error fault) :
      Defines s v l key value ⟨.error fault, s, []⟩
  /-- The key has no hash. -/
  | refused {fault : Fault} (hk : v.hashFault? key.node = some fault) :
      Defines s v l key value ⟨.error fault, s, []⟩
  /-- The key has the value now. -/
  | done {binding : Binding} {t : Table} (hb : s.bindingFor v.arena key.node value = .ok binding)
      (hk : v.hashFault? key.node = none) (ht : t.Holds v (l.put v key value)) :
      Defines s v l key value
        ⟨.ok (), ({ s with table := t }.write binding key.node value).join key.node value,
          replacedEvents key.node value ((l.entry? v key).map v.entry)⟩

/-- Defining the value of a key ends in one of the ways that `Defines` lists. -/
theorem Tracks.define (h : s.Tracks v l) (key : Key) (value : Value) :
    s.Defines v l key value (s.define v key value) := by
  unfold Session.define
  cases hb : s.bindingFor v.arena key.node value with
  | error fault => exact .unbound hb
  | ok binding =>
    cases hk : v.hashFault? key.node with
    | some fault =>
      simp only [h.holds.insert_fault hk]
      exact .refused hk
    | none =>
      obtain ⟨t, ht, h'⟩ := h.holds.insert_eq hk value
      simp only [ht]
      exact .done hb hk h'

theorem bindingFor_of_define {value : Value} (h : (s.define v key value).result = .ok ()) :
    ∃ binding, s.bindingFor v.arena key.node value = .ok binding := by
  unfold Session.define at h
  split at h
  next => simp at h
  next binding hb => exact ⟨binding, hb⟩

theorem Tracks.put {s' : Session} {value : Value} {binding : Binding} (h : s.Tracks v l)
    (hb : s.bindingFor v.arena key.node value = .ok binding)
    (ht : s'.table.Holds v (l.put v key value)) (hc : s'.allocated = s.allocated) :
    s'.Tracks v (l.put v key value) := by
  refine ⟨ht, fun e he q hq => ?_, fun e he => ?_⟩
  · rcases mem_upsert he with rfl | he
    · exact kind_ne_other_of_bindingFor hb hq
    · exact h.kind_ne_other e he q hq
  · rcases mem_upsert he with rfl | he
    · exact (knows_of_bindingFor hb).mono (Nat.le_of_eq hc.symm)
    · exact (h.knows e he).mono (Nat.le_of_eq hc.symm)

end Session

end ValueNumbering
