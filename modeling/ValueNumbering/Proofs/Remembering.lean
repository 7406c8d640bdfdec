import ValueNumbering.Proofs.Runs

/-!
# Remembered hashes change nothing

The settings of a session decide whether its table remembers the hashes of nodes. Asking a question
then changes what is remembered, and a request that ends in a fault may do so, too. Still no answer
and no event depends on it: `Pass.said_eq_of_settings` says that two sessions with any settings whatever
say the same in every run.

Both sessions are compared with a third one that remembers nothing. `Table.bare`, `Session.bare` and
`Pass.bare` drop what is remembered, together with the settings. As long as it is right
(`Table.Trusted`), an operation can be done before or after dropping it, with the same answer, the
same events and the same bare state: this is one equation for each operation, and
`Pass.Trusted.serve` for every request. The number of remembered hashes and the settings themselves
are all that a bare state lacks.
-/

namespace ValueNumbering

/-! ### Tables -/

namespace Table

/-- The table without what it remembers. -/
def bare (t : Table) : Table := { t with memo := none }

/-- What the table remembers is right. -/
def Trusted (t : Table) (v : View) : Prop := ∀ memo, t.memo = some memo → v.Trusts memo

theorem trusted_empty (settings : Settings) (v : View) : (empty settings).Trusted v :=
  (holds_empty settings v).trusts

variable {t : Table} {v : View}

theorem Trusted.extend {a b : Arena} {p : Policy} (hab : a.Extends b) (h : t.Trusted ⟨a, p⟩) :
    t.Trusted ⟨b, p⟩ :=
  fun memo hm => (h memo hm).extend hab

@[simp] theorem bucket_bare (t : Table) (hash : UInt64) : t.bare.bucket hash = t.bucket hash := rfl

/-- The hash of a key does not depend on what is remembered, and computing it changes nothing else. -/
theorem Trusted.hashKey_eq (h : t.Trusted v) (key : Key) :
    ∃ t', t.hashKey v key = (v.hashKey 0 key, t') ∧ t'.bare = t.bare ∧ t'.Trusted v := by
  unfold hashKey
  split
  next memo hm =>
    have hmemo := h memo hm
    rw [View.hashKeyIn_eq hmemo.sound, View.hashKey_eq]
    cases hk : v.hashFault? key.node with
    | some fault =>
      refine ⟨_, rfl, rfl, ?_⟩
      rintro _ ⟨⟩
      exact hmemo
    | none =>
      refine ⟨_, rfl, rfl, ?_⟩
      rintro _ ⟨⟩
      exact hmemo.remember (View.index_lt_of_hashFault? hk)
  next => exact ⟨t, rfl, rfl, h⟩

theorem bare_hashKey (t : Table) (v : View) (key : Key) :
    t.bare.hashKey v key = (v.hashKey 0 key, t.bare) := rfl

theorem Trusted.hashKey (h : t.Trusted v) (key : Key) :
    t.bare.hashKey v key = ((t.hashKey v key).1, (t.hashKey v key).2.bare) ∧
      (t.hashKey v key).2.Trusted v := by
  obtain ⟨t', heq, hb, h'⟩ := h.hashKey_eq key
  rw [bare_hashKey, heq, hb]
  exact ⟨rfl, h'⟩

theorem Trusted.find (h : t.Trusted v) (key : Key) :
    t.bare.find v key = ((t.find v key).1, (t.find v key).2.bare) ∧
      (t.find v key).2.Trusted v := by
  obtain ⟨t', heq, hb, h'⟩ := h.hashKey_eq key
  simp only [Table.find, bare_hashKey, heq, ← hb]
  cases v.hashKey 0 key with
  | error fault => exact ⟨rfl, h'⟩
  | ok hash =>
    simp only [bucket_bare]
    cases position? v key (t'.bucket hash) with
    | error fault => exact ⟨rfl, h'⟩
    | ok found => exact ⟨rfl, h'⟩

theorem Trusted.insert (h : t.Trusted v) (key : Key) (value : Value) :
    t.bare.insert v key value = ((t.insert v key value).1, (t.insert v key value).2.bare) ∧
      (t.insert v key value).2.Trusted v := by
  obtain ⟨t', heq, hb, h'⟩ := h.hashKey_eq key
  simp only [Table.insert, bare_hashKey, heq, ← hb]
  cases v.hashKey 0 key with
  | error fault => exact ⟨rfl, h'⟩
  | ok hash =>
    simp only [bucket_bare]
    cases position? v key (t'.bucket hash) with
    | error fault => exact ⟨rfl, h'⟩
    | ok found =>
      cases found with
      | some i => exact ⟨rfl, h'⟩
      | none => exact ⟨rfl, h'⟩

end Table

/-! ### Sessions -/

/-- The session without what its table remembers, under the settings that go with it. -/
def Session.bare (s : Session) : Session :=
  { s with settings := .forgetful, table := s.table.bare }

/-- The outcome with the session bare. -/
def Outcome.bare {α : Type} (o : Outcome α) : Outcome α := { o with session := o.session.bare }

namespace Session

variable {s : Session} {v : View}

theorem bare_hashKey (h : s.table.Trusted v) (key : Key) :
    s.bare.hashKey v key = ((s.hashKey v key).1, (s.hashKey v key).2.bare) ∧
      (s.hashKey v key).2.table.Trusted v := by
  obtain ⟨heq, h'⟩ := h.hashKey key
  refine ⟨?_, h'⟩
  simp only [Session.hashKey, bare, heq]

theorem bare_find (h : s.table.Trusted v) (key : Key) :
    s.bare.find v key = ((s.find v key).1, (s.find v key).2.bare) ∧
      (s.find v key).2.table.Trusted v := by
  obtain ⟨heq, h'⟩ := h.find key
  refine ⟨?_, h'⟩
  simp only [Session.find, bare, heq]

theorem bare_valueOf (h : s.table.Trusted v) (key : Key) :
    s.bare.valueOf v key = ((s.valueOf v key).1, (s.valueOf v key).2.bare) ∧
      (s.valueOf v key).2.table.Trusted v := by
  unfold valueOf
  cases v.arena.node key.node with
  | error fault => exact ⟨rfl, h⟩
  | ok node =>
    dsimp only
    split
    next => exact ⟨rfl, h⟩
    next => exact bare_find h key

@[simp] theorem bindingFor_bare (s : Session) (a : Arena) (n : NodeId) (value : Value) :
    s.bare.bindingFor a n value = s.bindingFor a n value := rfl

theorem bare_write (s : Session) (binding : Binding) (n : NodeId) (value : Value) :
    s.bare.write binding n value = (s.write binding n value).bare := by
  unfold write
  split <;> rfl

theorem bare_join (s : Session) (n : NodeId) (value : Value) :
    s.bare.join n value = (s.join n value).bare := by
  cases value <;> rfl

theorem bare_record (s : Session) (a : Arena) (n : NodeId) (value : Value) :
    s.bare.record a n value = (s.record a n value).map bare := by
  simp only [record, bindingFor_bare]
  cases s.bindingFor a n value with
  | error fault => rfl
  | ok binding => exact congrArg Except.ok (s.bare_write binding n value)

theorem bare_define (h : s.table.Trusted v) (key : Key) (value : Value) :
    s.bare.define v key value = (s.define v key value).bare ∧
      (s.define v key value).session.table.Trusted v := by
  obtain ⟨heq, h'⟩ := h.insert key value
  have hins : s.bare.table.insert v key value = _ := heq
  simp only [define, bindingFor_bare, hins]
  cases s.bindingFor v.arena key.node value with
  | error fault => exact ⟨rfl, h⟩
  | ok binding =>
    dsimp only
    generalize s.table.insert v key value = o at h' ⊢
    obtain ⟨result, table⟩ := o
    cases result with
    | error fault => exact ⟨rfl, h'⟩
    | ok old =>
      have hw := bare_write { s with table } binding key.node value
      have hj := bare_join (write { s with table } binding key.node value) key.node value
      refine ⟨?_, ?_⟩
      · simp only [Outcome.bare, ← hj, ← hw]
        rfl
      · simpa using h'

theorem bare_allocate (s : Session) (ty : Ty) :
    s.bare.allocate ty = (s.allocate ty).map fun r => (r.1, r.2.bare) := by
  show (if s.allocated < identLimit then _ else _) = (if s.allocated < identLimit then _ else _ :
    Except Fault (Handle × Session)).map _
  split <;> rfl

theorem bare_defineNew (h : s.table.Trusted v) (key : Key) (ty : Ty) :
    s.bare.defineNew v key ty = (s.defineNew v key ty).bare ∧
      (s.defineNew v key ty).session.table.Trusted v := by
  simp only [defineNew, bare_allocate]
  cases ha : s.allocate ty with
  | error fault => exact ⟨rfl, h⟩
  | ok r =>
    obtain ⟨id, s'⟩ := r
    obtain ⟨-, -, hs⟩ := allocate_eq_ok ha
    have hs' : s'.table.Trusted v := by
      rw [hs]
      exact h
    obtain ⟨heq, h'⟩ := bare_define hs' key (.handle id)
    simp only [Except.map, heq]
    generalize s'.define v key (.handle id) = o at h' ⊢
    obtain ⟨result, session, events⟩ := o
    cases result with
    | error fault => exact ⟨rfl, h'⟩
    | ok _ => exact ⟨rfl, h'⟩

theorem bare_number (h : s.table.Trusted v) (key : Key) :
    s.bare.number v key = (s.number v key).bare ∧
      (s.number v key).session.table.Trusted v := by
  obtain ⟨heq, h'⟩ := bare_valueOf h key
  simp only [number, heq]
  generalize s.valueOf v key = o at h' ⊢
  obtain ⟨result, s'⟩ := o
  cases result with
  | error fault => exact ⟨rfl, h'⟩
  | ok found =>
    cases found with
    | some value =>
      simp only [bare_record]
      cases hr : s'.record v.arena key.node value with
      | error fault => exact ⟨rfl, h'⟩
      | ok s'' =>
        refine ⟨rfl, ?_⟩
        obtain ⟨binding, -, rfl⟩ := record_eq_ok hr
        simpa using h'
    | none =>
      dsimp only
      cases v.arena.node key.node with
      | error fault => exact ⟨rfl, h'⟩
      | ok node => exact bare_defineNew h' key node.ty

end Session

/-! ### Runs -/

namespace Pass

/-- The pass without what the table of its session remembers. -/
def bare (w : Pass) : Pass := { w with session := w.session.bare }

/-- What the table of the session remembers is right for the arena. -/
def Trusted (w : Pass) (p : Policy) : Prop := w.session.table.Trusted (w.view p)

variable {w : Pass} {p : Policy}

@[simp] theorem view_bare (w : Pass) (p : Policy) : w.bare.view p = w.view p := rfl

@[simp] theorem arena_bare (w : Pass) : w.bare.arena = w.arena := rfl

@[simp] theorem session_bare (w : Pass) : w.bare.session = w.session.bare := rfl

/-- Serving a request and dropping what is remembered can be done in either order. -/
theorem Trusted.serve (h : w.Trusted p) (r : Request) :
    w.bare.serve p r = ((w.serve p r).1, (w.serve p r).2.1, (w.after p r).bare) ∧
      (w.after p r).Trusted p := by
  cases r with
  | edit e => exact ⟨rfl, h.extend (w.arena.extends_edit e)⟩
  | number key =>
    obtain ⟨heq, h'⟩ := Session.bare_number h key
    refine ⟨?_, h'⟩
    simp only [Pass.serve, view_bare, session_bare, heq]
    rfl
  | valueOf key =>
    obtain ⟨heq, h'⟩ := Session.bare_valueOf h key
    refine ⟨?_, h'⟩
    simp only [Pass.serve, view_bare, session_bare, heq]
    rfl
  | define key value =>
    obtain ⟨heq, h'⟩ := Session.bare_define h key value
    refine ⟨?_, h'⟩
    simp only [Pass.serve, view_bare, session_bare, heq]
    rfl
  | find key =>
    obtain ⟨heq, h'⟩ := Session.bare_find h key
    refine ⟨?_, h'⟩
    simp only [Pass.serve, view_bare, session_bare, heq]
    rfl
  | hashKey key =>
    obtain ⟨heq, h'⟩ := Session.bare_hashKey h key
    refine ⟨?_, h'⟩
    simp only [Pass.serve, view_bare, session_bare, heq]
    rfl
  | record n value =>
    have hbare := w.session.bare_record w.arena n value
    simp only [Pass.serve, after, session_bare, arena_bare, hbare]
    cases hr : w.session.record w.arena n value with
    | error fault => exact ⟨rfl, h⟩
    | ok s =>
      obtain ⟨binding, -, rfl⟩ := Session.record_eq_ok hr
      refine ⟨rfl, ?_⟩
      simpa [Trusted, view] using h
  | allocate ty =>
    simp only [Pass.serve, after, session_bare, Session.bare_allocate]
    cases ha : w.session.allocate ty with
    | error fault => exact ⟨rfl, h⟩
    | ok r =>
      obtain ⟨id, s⟩ := r
      obtain ⟨-, -, rfl⟩ := Session.allocate_eq_ok ha
      exact ⟨rfl, h⟩
  | _ => exact ⟨rfl, h⟩

theorem Trusted.run_eq (h : w.Trusted p) (requests : List Request) :
    w.bare.run p requests = ((w.run p requests).1, (w.run p requests).2.bare) := by
  induction requests generalizing w with
  | nil => rfl
  | cons r rest ih =>
    obtain ⟨heq, h'⟩ := h.serve r
    have hnow : w.bare.exchange p r = w.exchange p r := by
      simp only [exchange, heq]
    have hnext : w.bare.after p r = (w.after p r).bare := by
      rw [after, heq]
    simp only [run, hnow, hnext, ih h']

/-- Whatever the settings of two sessions are, a run gets the same answers and leads to the same
events in both. At its end the two differ at most in what they remember and in the settings. -/
theorem said_eq_of_settings (a : Arena) (p : Policy) (settings settings' : Settings)
    (requests : List Request) :
    ((start a settings).run p requests).1 = ((start a settings').run p requests).1 ∧
      ((start a settings).run p requests).2.bare =
        ((start a settings').run p requests).2.bare := by
  have hrun : ∀ s, (start a .forgetful).run p requests =
      (((start a s).run p requests).1, ((start a s).run p requests).2.bare) := by
    intro s
    have hs : (start a s).Trusted p := Table.trusted_empty s _
    exact hs.run_eq requests
  exact Prod.mk.inj ((hrun settings).symm.trans (hrun settings'))

end Pass

end ValueNumbering
