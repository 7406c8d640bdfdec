import ValueNumbering.Proofs.Defining

/-!
# Values that can be used

A value that a session returns is there to be used: it should have a type, and if it is not a handle it
should be a constant of the arena. What a session returns is a constant that was asked about or something
that it stores (`Pass.stored_of_returns`), so this is a matter of what comes into the stores.

Handles are checked on every way in, and are always usable. Constants are not checked: by a definition or
a record, any node at all may be handed in as the constant value of a node which is not a constant itself.
A session stores no other constants than those that were handed in (`Pass.stored_const_after`), and gives
them back when asked (`Pass.returns_of_handsIn`). So the values that are returned in a run are usable
exactly if each constant that was handed in was one (`Pass.returned_usable_iff`). In the shortest run of
another kind, it is not even a node (`Pass.returned_unusable`).
-/

namespace ValueNumbering

namespace Exchange

/-- A value was returned: for a key that was numbered or asked about, or as the one recorded for a node. -/
def Returns (x : Exchange) (value : Value) : Prop :=
  (∃ key, x.Gives key value) ∨
    ∃ n, x.request = .recorded n ∧ x.answer = .value? (.ok (some value))

/-- A value was handed in by hand, and accepted: for a key or for a node. -/
def HandsIn (x : Exchange) (value : Value) : Prop :=
  ((∃ key, x.request = .define key value) ∨ ∃ n, x.request = .record n value) ∧
    x.answer = .done (.ok ())

theorem Returns.not_handsIn {x : Exchange} {value value' : Value} (h : x.Returns value) :
    ¬ x.HandsIn value' := by
  rintro ⟨hin, -⟩
  rcases h with ⟨key, hg⟩ | ⟨n, hr, -⟩
  · rcases hg.request_answer with ⟨hr, -⟩ | ⟨hr, -⟩ <;> simp [hr] at hin
  · simp [hr] at hin

end Exchange

namespace Session

variable {s : Session} {v : View} {l : Ledger} {n : NodeId} {value : Value}

/-- The value of an entry, or one that is recorded for a node. -/
def Stored (s : Session) (value : Value) : Prop :=
  (∃ e ∈ s.table.entries, e.value = value) ∨ ∃ n : NodeId, s.bound[n]? = some value

theorem not_stored_start (settings : Settings) (value : Value) :
    ¬ (start settings).Stored value := by
  rintro (⟨e, he, -⟩ | ⟨n, hn⟩)
  · simp [start, Table.entries, Table.empty] at he
  · simp [start] at hn

theorem exists_entry_iff (h : s.table.Holds v l) :
    (∃ e ∈ s.table.entries, e.value = value) ↔ ∃ e ∈ l, e.2 = value := by
  have hperm := h.pairs_perm.map (·.2)
  have hmem : value ∈ s.table.pairs.map (·.2) ↔ value ∈ l.map (·.2) := hperm.mem_iff
  simpa [Table.pairs] using hmem

theorem InStep.knows_of_stored {a : Arena} (hs : s.InStep a l) (h : s.table.Holds v l)
    (hv : s.Stored value) : s.Knows value := by
  rcases hv with hentry | ⟨n, hn⟩
  · obtain ⟨e, he, rfl⟩ := (exists_entry_iff h).1 hentry
    exact hs.entry_knows e he
  · exact hs.bound_knows n value hn

theorem typeOf_of_knows (hk : s.Knows value) (hc : ∀ c, value = .const c → v.isConstant c) :
    ∃ ty, s.typeOf v.arena value = .ok ty := by
  cases value with
  | const c =>
    obtain ⟨q, hq, -⟩ := View.exists_of_isConstant (hc c rfl)
    exact ⟨q.ty, by simp only [typeOf, Arena.node, hq, Except.map]⟩
  | handle id =>
    obtain ⟨c, hclass⟩ := classOf_of_lt hk
    exact ⟨c.ty, by simp only [typeOf, hclass, Except.map]⟩

end Session

namespace Pass

variable {w : Pass} {p : Policy} {l l' : Ledger} {r : Request} {value : Value} {c : NodeId}

/-! ### What comes into the stores -/

theorem isConstant_after (w : Pass) (p : Policy) (r : Request) (h : (w.view p).isConstant c) :
    ((w.after p r).view p).isConstant c := by
  obtain ⟨q, hq, hkind⟩ := View.exists_of_isConstant h
  exact (View.isConstant_iff ((w.extends_after p r).node? hq)).2 hkind

theorem Enters.mem_const (he : w.Enters p l r l') {e : Key × Value} (hmem : e ∈ l')
    (hc : e.2 = .const c) : e ∈ l ∨ (w.exchange p r).HandsIn (.const c) := by
  cases he with
  | nothing r hr => exact .inl hmem
  | numbered key hk hnone =>
    rcases List.mem_append.1 hmem with hold | hnew
    · exact .inl hold
    · -- the new entry has a handle
      obtain rfl := List.mem_singleton.1 hnew
      simp [Session.next] at hc
  | defined key value hk hok =>
    rcases mem_upsert hmem with rfl | hold
    · exact .inr ⟨.inl ⟨key, by rw [← hc]; rfl⟩, hok⟩
    · exact .inl hold

theorem bound_const_after (h : w.session.Tracks (w.view p) l) {n : NodeId}
    (hn : (w.after p r).session.bound[n]? = some (.const c)) :
    w.session.Stored (.const c) ∨ (w.exchange p r).HandsIn (.const c) := by
  have hs := serves h r
  simp only [exchange, after] at hn ⊢
  generalize w.serve p r = o at hs hn ⊢
  cases hs with
  | numbered key ho =>
    cases ho with
    | @known q e t hq hb hk he ht =>
      rcases Session.eq_or_bound_of_insert hn with hnew | hold
      · -- the value stands in the entry that was found
        have hentry := (Session.exists_entry_iff h.holds).2 ⟨e, Ledger.mem_of_entry? he, rfl⟩
        exact .inl (.inl (hnew ▸ hentry))
      · exact .inl (.inr ⟨n, hold⟩)
    | created hq hb hk he hid ht =>
      rcases Session.eq_or_bound_of_insert hn with hnew | hold
      · simp [Session.next] at hnew
      · exact .inl (.inr ⟨n, hold⟩)
    | _ => exact .inl (.inr ⟨n, hn⟩)
  | defined key value ho =>
    cases ho with
    | done hb hk ht =>
      rw [Session.bound_join] at hn
      rcases Session.eq_or_bound_of_write hn with rfl | hold
      · exact .inr ⟨.inl ⟨key, rfl⟩, rfl⟩
      · exact .inl (.inr ⟨n, hold⟩)
    | _ => exact .inl (.inr ⟨n, hn⟩)
  | recorded m value hb =>
    rcases Session.eq_or_bound_of_write hn with rfl | hold
    · exact .inr ⟨.inr ⟨m, rfl⟩, rfl⟩
    · exact .inl (.inr ⟨n, hold⟩)
  | _ => exact .inl (.inr ⟨n, hn⟩)

theorem stored_const_after (h : w.session.Tracks (w.view p) l)
    (hc : (w.after p r).session.Stored (.const c)) :
    w.session.Stored (.const c) ∨ (w.exchange p r).HandsIn (.const c) := by
  rcases hc with hentry | ⟨n, hn⟩
  · obtain ⟨l', he, h'⟩ := tracks_after h r
    obtain ⟨e, hmem, hval⟩ := (Session.exists_entry_iff h'.holds).1 hentry
    rcases he.mem_const hmem hval with hold | hnew
    · exact .inl (.inl ((Session.exists_entry_iff h.holds).2 ⟨e, hold, hval⟩))
    · exact .inr hnew
  · exact bound_const_after h hn

/-- The constants that are stored are constants of the arena. -/
def StoresConstants (w : Pass) (p : Policy) : Prop :=
  ∀ c, w.session.Stored (.const c) → (w.view p).isConstant c

theorem StoresConstants.after (hw : w.StoresConstants p) (h : w.session.Tracks (w.view p) l)
    (hin : ∀ c, (w.exchange p r).HandsIn (.const c) → (w.view p).isConstant c) :
    (w.after p r).StoresConstants p := by
  intro c hc
  refine w.isConstant_after p r ?_
  rcases stored_const_after h hc with hold | hnew
  · exact hw c hold
  · exact hin c hnew

/-! ### What is returned -/

theorem stored_of_gives {key : Key} (h : w.session.Tracks (w.view p) l)
    (hg : (w.exchange p r).Gives key value) :
    (w.after p r).session.Stored value ∨ ∃ c, value = .const c ∧ (w.view p).isConstant c := by
  rcases hg.request_answer with ⟨hr, hv⟩ | ⟨hr, -⟩
  · obtain rfl : r = .number key := hr
    have hn := h.number key
    simp only [exchange, after, serve] at hv ⊢
    generalize w.session.number (w.view p) key = o at hn hv ⊢
    cases hn with
    | constant hq hc =>
      obtain rfl : Value.const key.node = value := by simpa using hv
      exact .inr ⟨key.node, rfl, (View.isConstant_iff hq).2 hc⟩
    | @known q e t hq hb hk he ht =>
      obtain rfl : e.2 = value := by simpa using hv
      exact .inl (.inr ⟨key.node, Std.TreeMap.getElem?_insert_self⟩)
    | created hq hb hk he hid ht =>
      obtain rfl : w.session.next = value := by simpa using hv
      exact .inl (.inr ⟨key.node, Std.TreeMap.getElem?_insert_self⟩)
    | _ => simp at hv
  · obtain rfl : r = .valueOf key := hr
    have hfixed := (fixes_valueOf h hg).value?_eq
    by_cases hc : (w.view p).isConstant key.node
    · rw [Ledger.value?_of_constant hc] at hfixed
      exact .inr ⟨key.node, (Option.some.inj hfixed).symm, hc⟩
    · rw [Ledger.value?_eq_find hc, Ledger.find, Option.map_eq_some_iff] at hfixed
      obtain ⟨e, he, rfl⟩ := hfixed
      obtain ⟨-, ht, -⟩ := holds_after h (r := .valueOf key) rfl
      exact .inl (.inl ((Session.exists_entry_iff ht).2 ⟨e, Ledger.mem_of_entry? he, rfl⟩))

/-- A value that is returned is stored, or is a constant. -/
theorem stored_of_returns (h : w.session.Tracks (w.view p) l)
    (hx : (w.exchange p r).Returns value) :
    (w.after p r).session.Stored value ∨ ∃ c, value = .const c ∧ (w.view p).isConstant c := by
  rcases hx with ⟨key, hg⟩ | ⟨n, hr, hv⟩
  · exact stored_of_gives h hg
  · obtain rfl : r = .recorded n := hr
    simp only [exchange, serve, Answer.value?.injEq, Session.recorded] at hv
    cases hq : w.arena.node? n with
    | none => simp [Arena.node, hq] at hv
    | some q =>
      simp only [Arena.node, hq] at hv
      split at hv
      next hb =>
        obtain rfl : Value.const n = value := by simpa using hv
        refine .inr ⟨n, rfl, (View.isConstant_iff hq).2 ?_⟩
        cases hkind : q.op.kind <;> simp [hkind, NodeKind.binding] at hb ⊢
      next => exact .inl (.inr ⟨n, Except.ok.inj hv⟩)
      next => simp at hv

/-- What was handed in is what the session returns next, if asked for it. -/
theorem returns_of_handsIn (h : w.session.Tracks (w.view p) l)
    (hx : (w.exchange p r).HandsIn value) :
    (w.after p r).arena = w.arena ∧
      ∃ n, ((w.after p r).exchange p (.recorded n)).Returns value := by
  obtain ⟨⟨key, hr⟩ | ⟨n, hr⟩, hok⟩ := hx
  · obtain rfl : r = .define key value := hr
    have hnot : ¬ w.session.Refuses w.arena key value := by
      rw [← define_fails_iff h]
      rintro ⟨fault, hfault⟩
      simp [hok] at hfault
    exact ⟨rfl, key.node, .inr ⟨key.node, rfl, recorded_define h hnot⟩⟩
  · obtain rfl : r = .record n value := hr
    have hs := serves h (.record n value)
    simp only [exchange, after] at hok ⊢
    generalize w.serve p (.record n value) = o at hs hok ⊢
    cases hs with
    | asked ha ht => simp [Request.asks] at ha
    | recorded n value hb =>
      exact ⟨rfl, n, .inr ⟨n, rfl, congrArg Answer.value? (Session.recorded_write hb)⟩⟩
    | unrecorded n value fault => simp at hok

/-! ### Runs -/

/-- The value has a type, and is a constant of the arena if it is not a handle. -/
structure Usable (w : Pass) (p : Policy) (value : Value) : Prop where
  typed : ∃ ty, (w.exchange p (.typeOf value)).answer = .ty (.ok ty)
  constant : ∀ c, value = .const c → (w.view p).isConstant c

/-- Whatever value is returned, it can be used then. -/
def ReturnsUsable (w : Pass) (p : Policy) : Prop :=
  ∀ r value, (w.exchange p r).Returns value → (w.after p r).Usable p value

theorem Kept.usable (h : w.Kept p) (hx : (w.exchange p r).Returns value)
    (hc : ∀ c, value = .const c → ((w.after p r).view p).isConstant c) :
    (w.after p r).Usable p value := by
  obtain ⟨l', ht', hs'⟩ := h.after r
  obtain ⟨l, ht, -⟩ := h
  have hknows : (w.after p r).session.Knows value := by
    rcases stored_of_returns ht hx with hstored | ⟨c, rfl, -⟩
    · exact hs'.knows_of_stored ht'.holds hstored
    · trivial
  obtain ⟨ty, hty⟩ := Session.typeOf_of_knows hknows hc
  exact ⟨⟨ty, congrArg Answer.ty hty⟩, hc⟩

/-- If the constants that are stored are constants of the arena, whatever is returned can be used. -/
theorem Kept.returnsUsable (h : w.Kept p) (hw : w.StoresConstants p) : w.ReturnsUsable p := by
  intro r value hx
  refine h.usable hx ?_
  rintro c rfl
  obtain ⟨l, ht, -⟩ := h
  rcases stored_of_returns ht hx with hstored | ⟨c', hc', hconst⟩
  · exact hw.after ht (fun _ hin => absurd hin hx.not_handsIn) c hstored
  · exact w.isConstant_after p r (Value.const.inj hc' ▸ hconst)

/-- All through a run the values that are returned can be used, exactly if each constant that is handed in
by hand is a constant of the arena then. Handles that are returned can be used in every run. -/
theorem returned_usable_iff (a : Arena) (settings : Settings) (p : Policy)
    (requests : List Request) :
    let last := fun before => ((start a settings).run p before).2
    ((∀ before, before <+: requests → (last before).ReturnsUsable p) ↔
      ∀ before r c, before ++ [r] <+: requests →
        ((last before).exchange p r).HandsIn (.const c) → ((last before).view p).isConstant c) ∧
    ∀ r id, ((last requests).exchange p r).Returns (.handle id) →
      ((last requests).after p r).Usable p (.handle id) := by
  intro last
  have hkept : ∀ before, (last before).Kept p := run_kept a settings p
  have hconcat : ∀ before r, last (before ++ [r]) = (last before).after p r :=
    (start a settings).run_concat p
  refine ⟨⟨fun hall before r c hpre hx => ?_, fun hin => ?_⟩, fun r id hx => ?_⟩
  · obtain ⟨l, ht, -⟩ := hkept before
    obtain ⟨harena, n, hreturns⟩ := returns_of_handsIn ht hx
    rw [← hconcat] at harena hreturns
    have hconst : ((last (before ++ [r])).view p).isConstant c :=
      (hall _ hpre (.recorded n) (.const c) hreturns).constant c rfl
    rwa [view, harena] at hconst
  · have hstores : ∀ before, before <+: requests → (last before).StoresConstants p := by
      refine prefix_induction ?_ fun before r hpre hw => ?_
      · exact fun c hc => absurd hc (Session.not_stored_start settings _)
      · obtain ⟨l, ht, -⟩ := hkept before
        rw [hconcat]
        exact hw.after ht fun c => hin before r c hpre
    exact fun before hpre => (hkept before).returnsUsable (hstores before hpre)
  · exact (hkept requests).usable hx (by simp)

/-- A variable is said to have a constant as its value that is not there. -/
def missingConstant : List Request := [.record ⟨0⟩ (.const ⟨99⟩)]

/-- The session accepts the constant, and returns it as the value of the variable. It has no type. -/
theorem returned_unusable :
    ¬ ((start (Arena.empty.var ⟨1⟩ 0 .int).2 .standard).run .full
      missingConstant).2.ReturnsUsable .full := by
  intro h
  obtain ⟨ty, hty⟩ := (h (.recorded ⟨0⟩) (.const ⟨99⟩) (.inr ⟨⟨0⟩, rfl, by decide +kernel⟩)).typed
  cases hty

end Pass

end ValueNumbering
