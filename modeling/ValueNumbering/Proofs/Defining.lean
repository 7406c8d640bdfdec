import ValueNumbering.Proofs.RecordedValues

/-!
# Definitions are made as a whole or not at all

To give a key a value by hand is to change four stores: the table, what it remembers, the values recorded
for nodes and the members of the value. Some of the reasons not to do it come up only on the way, such as
a key that turns out to have no hash. `Session.Refuses` lists them all, in terms of the node and the value
alone. If there is one of them, the definition ends in a fault and the session is the one before, down to
what its table remembers. If there is none, it succeeds, and whatever can be asked about the key and its
node is answered with the value (`Pass.define_all_or_nothing`).

A definition makes its checks once, before the first store is changed. Made again at each store, they could
not fail (`Session.defineStepwise_eq`), and a value that a key has been numbered with could be recorded once
more without a change (`Session.Tracks.record_number`).
-/

namespace ValueNumbering

namespace Session

variable {s : Session} {v : View} {l : Ledger} {key : Key} {value : Value}

/-- The reasons for which a key is not given a value. -/
inductive Refuses (s : Session) (a : Arena) (key : Key) (value : Value) : Prop
  /-- There is no such node. -/
  | missing (h : a.node? key.node = none)
  /-- The node is of a kind that has no values. -/
  | valueless {q : Node} (hq : a.node? key.node = some q) (ho : q.op.kind = .other)
  /-- The node is a statement. -/
  | statement {q : Node} (hq : a.node? key.node = some q) (hs : q.op.kind = .statement)
  /-- The node is a constant, and the value is not the constant itself. -/
  | rebound {q : Node} (hq : a.node? key.node = some q) (hc : q.op.kind = .constant)
      (hv : value ≠ .const key.node)
  /-- The value is a handle that was not allocated. -/
  | unknown {id : Handle} (hv : value = .handle id) (hid : s.allocated ≤ id.index)

/-- There is no reason to refuse a definition if and only if the node can carry the value and the key has a
hash. -/
theorem not_refuses_iff : ¬ s.Refuses v.arena key value ↔
    (∃ binding, s.bindingFor v.arena key.node value = .ok binding) ∧
      v.hashFault? key.node = none := by
  constructor
  · intro h
    cases hq : v.arena.node? key.node with
    | none => exact absurd (.missing hq) h
    | some q =>
      have hknows : s.Knows value := by
        cases value with
        | const n => trivial
        | handle id => exact Nat.lt_of_not_le fun hid => h (.unknown rfl hid)
      refine ⟨⟨q.op.kind.binding, bindingFor_eq_ok_iff.2 ⟨q, hq, rfl, ?_, ?_, hknows⟩⟩, ?_⟩
      · exact fun ho => h (.valueless hq ho)
      · exact fun hc => by_contra fun hv => h (.rebound hq hc hv)
      · exact View.hashFault?_eq_none_iff.2 ⟨q, hq, fun hs => h (.statement hq hs)⟩
  · rintro ⟨⟨binding, hb⟩, hk⟩ hr
    obtain ⟨q, hq, -, hother, hconst, hknows⟩ := bindingFor_eq_ok_iff.1 hb
    obtain ⟨q', hq', hstmt⟩ := View.hashFault?_eq_none_iff.1 hk
    have hsame : ∀ {q'}, v.arena.node? key.node = some q' → q = q' :=
      fun h => Option.some.inj (hq.symm.trans h)
    obtain rfl := hsame hq'
    cases hr with
    | missing h => simp [hq] at h
    | valueless h ho => exact hother (hsame h ▸ ho)
    | statement h hs => exact hstmt (hsame h ▸ hs)
    | rebound h hc hv => exact hv (hconst (hsame h ▸ hc))
    | unknown hv hid =>
      subst hv
      exact Nat.not_lt_of_le hid hknows

theorem Tracks.define_of_refuses (h : s.Tracks v l) (hr : s.Refuses v.arena key value) :
    ∃ fault, s.define v key value = ⟨.error fault, s, []⟩ := by
  have hd := h.define key value
  generalize s.define v key value = o at hd ⊢
  cases hd with
  | @unbound fault hb => exact ⟨fault, rfl⟩
  | @refused fault hk => exact ⟨fault, rfl⟩
  | @done binding t hb hk ht => exact absurd hr (not_refuses_iff.2 ⟨⟨binding, hb⟩, hk⟩)

theorem Tracks.define_of_not_refuses (h : s.Tracks v l) (hr : ¬ s.Refuses v.arena key value) :
    ∃ binding t, s.bindingFor v.arena key.node value = .ok binding ∧
      (s.define v key value).result = .ok () ∧
      (s.define v key value).session =
        ({ s with table := t }.write binding key.node value).join key.node value := by
  obtain ⟨⟨binding, hb⟩, hk⟩ := not_refuses_iff.1 hr
  have hd := h.define key value
  generalize s.define v key value = o at hd ⊢
  cases hd with
  | unbound hb' => simp [hb] at hb'
  | refused hk' => simp [hk] at hk'
  | @done binding t hb hk ht => exact ⟨binding, t, hb, rfl, rfl⟩

@[simp] theorem recorded_join (s : Session) (a : Arena) (m n : NodeId) (value : Value) :
    (s.join m value).recorded a n = s.recorded a n := by
  simp only [recorded, bound_join]

theorem recorded_write {n : NodeId} {binding : Binding}
    (hb : s.bindingFor v.arena n value = .ok binding) :
    (s.write binding n value).recorded v.arena n = .ok (some value) := by
  obtain ⟨q, hq, rfl, hother, hconst, -⟩ := bindingFor_eq_ok_iff.1 hb
  by_cases hc : q.op.kind = .constant
  · obtain rfl := hconst hc
    simp only [recorded, Arena.node, hq, hc, NodeKind.binding]
  · have hrec := NodeKind.binding_eq_recorded_iff.2 ⟨hc, hother⟩
    simp only [recorded, Arena.node, hq, hrec, bound_write, if_true,
      Std.TreeMap.getElem?_insert_self]

/-! ### Checks that are made again -/

/-- Puts a node among those that produce a value, which is looked up first. -/
def lookupJoin (s : Session) (n : NodeId) : Value → Except Fault Session
  | .const c => .ok (s.join n (.const c))
  | .handle id => (s.classOf id).map fun _ => s.join n (.handle id)

/-- Gives a key a value step by step. Each step makes its own checks. -/
def defineStepwise (s : Session) (v : View) (key : Key) (value : Value) : Outcome Unit :=
  match s.bindingFor v.arena key.node value with
  | .error fault => ⟨.error fault, s, []⟩
  | .ok _ =>
    match s.table.insert v key value with
    | (.error fault, table) => ⟨.error fault, { s with table }, []⟩
    | (.ok old, table) =>
      match { s with table }.record v.arena key.node value with
      | .error fault => ⟨.error fault, { s with table }, replacedEvents key.node value old⟩
      | .ok s =>
        match s.lookupJoin key.node value with
        | .error fault => ⟨.error fault, s, replacedEvents key.node value old⟩
        | .ok s => ⟨.ok (), s, replacedEvents key.node value old⟩

theorem lookupJoin_of_knows (h : s.Knows value) (n : NodeId) :
    s.lookupJoin n value = .ok (s.join n value) := by
  cases value with
  | const c => rfl
  | handle id =>
    obtain ⟨c, hc⟩ := classOf_of_lt h
    simp only [lookupJoin, hc, Except.map]

/-- The first check is enough: those that are made again do not fail. -/
theorem defineStepwise_eq (s : Session) (v : View) (key : Key) (value : Value) :
    s.defineStepwise v key value = s.define v key value := by
  unfold defineStepwise define
  cases hb : s.bindingFor v.arena key.node value with
  | error fault => rfl
  | ok binding =>
    rcases s.table.insert v key value with ⟨result, t⟩
    cases result with
    | error fault => rfl
    | ok old =>
      have hrecord : record { s with table := t } v.arena key.node value =
          .ok (write { s with table := t } binding key.node value) := by
        have hb' : bindingFor { s with table := t } v.arena key.node value = .ok binding := hb
        rw [record, hb']
      have hknows : Knows (write { s with table := t } binding key.node value) value :=
        (knows_of_bindingFor hb).mono (by simp)
      simp only [hrecord, lookupJoin_of_knows hknows]

theorem equiv_insert_of_getElem? {bound : Std.TreeMap NodeId Value} {n : NodeId}
    (hn : bound[n]? = some value) : (bound.insert n value).Equiv bound := by
  apply Std.TreeMap.Equiv.of_forall_constGet?_eq
  intro m
  show (bound.insert n value)[m]? = bound[m]?
  rw [Std.TreeMap.getElem?_insert]
  split
  next h =>
    obtain rfl := Std.LawfulEqCmp.eq_of_compare h
    exact hn.symm
  next => rfl

theorem record_again {a : Arena} {n : NodeId} {binding : Binding}
    (hb : s.bindingFor a n value = .ok binding)
    (hn : binding = .recorded → s.bound[n]? = some value) :
    ∃ bound, s.record a n value = .ok { s with bound } ∧ bound.Equiv s.bound := by
  simp only [record, hb, write]
  split
  next h => exact ⟨_, rfl, equiv_insert_of_getElem? (hn h)⟩
  next => exact ⟨_, rfl, .rfl⟩

/-- A value that was returned for a key may be recorded for its node once more. The check does not fail, and
the node has the value already. -/
theorem Tracks.record_number (h : s.Tracks v l) (hok : (s.number v key).result = .ok value) :
    let t := (s.number v key).session
    ∃ bound, t.record v.arena key.node value = .ok { t with bound } ∧ bound.Equiv t.bound := by
  have hnumber := h.number key
  generalize s.number v key = o at hnumber hok
  cases hnumber with
  | refused => simp at hok
  | unbindable => simp at hok
  | exhausted => simp at hok
  | constant hq hc =>
    obtain rfl := Except.ok.inj hok
    exact record_again (bindingFor_of_constant hq hc) (by simp)
  | @known q e t hq hb hk he ht =>
    obtain rfl := Except.ok.inj hok
    have hknows := h.knows e (Ledger.mem_of_entry? he)
    exact record_again (bindingFor_of_recorded hq hb hknows) fun _ => Std.TreeMap.getElem?_insert_self
  | @created q t hq hb hk he hid ht =>
    obtain rfl := Except.ok.inj hok
    refine record_again (bindingFor_of_recorded hq hb ?_) fun _ => Std.TreeMap.getElem?_insert_self
    exact knows_next hid (Array.size_push _)

end Session

namespace Pass

variable {w : Pass} {p : Policy} {l : Ledger} {key : Key} {value : Value}

theorem define_fails_iff (h : w.session.Tracks (w.view p) l) :
    (∃ fault, (w.exchange p (.define key value)).answer = .done (.error fault)) ↔
      w.session.Refuses w.arena key value := by
  simp only [exchange, serve]
  constructor
  · rintro ⟨fault, hfault⟩
    by_contra hr
    obtain ⟨binding, t, -, hok, -⟩ := h.define_of_not_refuses hr
    simp [hok] at hfault
  · intro hr
    obtain ⟨fault, hd⟩ := h.define_of_refuses hr
    exact ⟨fault, by rw [hd]⟩

theorem define_failed (h : w.session.Tracks (w.view p) l)
    (hr : w.session.Refuses w.arena key value) :
    w.after p (.define key value) = w ∧ (w.exchange p (.define key value)).events = [] := by
  obtain ⟨fault, hd⟩ := h.define_of_refuses hr
  simp only [after, exchange, serve, hd, and_self]

theorem recorded_define (h : w.session.Tracks (w.view p) l)
    (hr : ¬ w.session.Refuses w.arena key value) :
    ((w.after p (.define key value)).exchange p (.recorded key.node)).answer =
      .value? (.ok (some value)) := by
  obtain ⟨binding, t, hb, -, hs⟩ := h.define_of_not_refuses hr
  have hb' : Session.bindingFor { w.session with table := t } (w.view p).arena key.node value =
      .ok binding := hb
  have hrec := Session.recorded_write hb'
  simp only [exchange, after, serve, hs, Session.recorded_join]
  exact congrArg Answer.value? hrec

theorem mem_members_define (h : w.session.Tracks (w.view p) l) {id : Handle}
    (hr : ¬ w.session.Refuses w.arena key (.handle id)) :
    ∃ nodes, ((w.after p (.define key (.handle id))).exchange p (.members id)).answer =
      .members (.ok nodes) ∧ key.node ∈ nodes := by
  obtain ⟨binding, t, hb, -, hs⟩ := h.define_of_not_refuses hr
  have hknows : ({ w.session with table := t }.write binding key.node (.handle id)).Knows
      (.handle id) := (Session.knows_of_bindingFor hb).mono (by simp)
  obtain ⟨c, hc, hmem⟩ := Session.mem_classOf_join hknows key.node
  refine ⟨c.members, ?_, hmem⟩
  simp only [exchange, after, serve, hs, Session.members, hc, Except.map]

/-- At every point of every run, a definition ends in a fault if and only if its node does not exist, is of
a kind without values, is a statement or is a constant that is to get another value, or the value is a
handle that was not allocated. Then nothing has changed at all. Otherwise the key has the value, it is the
recorded one of the node, and the node is a member of it, if it is a handle. -/
theorem define_all_or_nothing (a : Arena) (settings : Settings) (p : Policy)
    (requests : List Request) (key : Key) (value : Value) :
    let w := ((start a settings).run p requests).2
    let x := w.exchange p (.define key value)
    let w' := w.after p (.define key value)
    ((∃ fault, x.answer = .done (.error fault)) ↔ w.session.Refuses w.arena key value) ∧
    (w.session.Refuses w.arena key value → w' = w ∧ x.events = []) ∧
    (¬ w.session.Refuses w.arena key value → x.answer = .done (.ok ()) ∧
      (w'.exchange p (.valueOf key)).answer = .value? (.ok (some value)) ∧
      (w'.exchange p (.recorded key.node)).answer = .value? (.ok (some value)) ∧
      ∀ id, value = .handle id →
        ∃ nodes, (w'.exchange p (.members id)).answer = .members (.ok nodes) ∧
          key.node ∈ nodes) := by
  intro w x w'
  obtain ⟨l, ht⟩ := run_tracks a settings p requests
  refine ⟨define_fails_iff ht, define_failed ht, fun hr => ?_⟩
  obtain ⟨_, _, -, hok, -⟩ := ht.define_of_not_refuses hr
  have hanswer : x.answer = .done (.ok ()) := congrArg Answer.done hok
  obtain ⟨l', ht', hlead⟩ := leads_define ht hanswer
  refine ⟨hanswer, hlead.fixes.valueOf ht', recorded_define ht hr, ?_⟩
  rintro id rfl
  exact mem_members_define ht hr

end Pass

end ValueNumbering
