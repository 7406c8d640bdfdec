import ValueNumbering.Proofs.Runs

/-!
# Reports account for the state

The number of entries of a table is kept by hand, and reports are made in the middle of requests that
may still fail. All the same the numbers can be read off what was said in a run
(`Pass.reports_account`): there are as many entries as keys were entered, less the reports of replaced
ones, and as many values as were asked for, together with the reports of created ones. The summary at
the close has just these numbers. A value that was created for a node that cannot carry it is counted,
too: its report was made before the request failed.

`Session.Account` is such a balance between two states. It holds over each request
(`Pass.account_after`), and balances add up (`Session.Account.trans`).
-/

namespace ValueNumbering

/-! ### Counting what was said -/

namespace Event

/-- Whether the event reports a value that was created for a node. -/
def isCreated : Event → Bool
  | created _ _ => true
  | _ => false

/-- Whether the event reports an entry that was replaced. -/
def isReplaced : Event → Bool
  | replaced _ _ _ => true
  | _ => false

end Event

namespace Exchange

/-- Whether a key was entered: it was defined by hand, or it was numbered and got a new value. A request
that ends in a fault enters none. -/
def isAddition (x : Exchange) : Bool :=
  match x.request, x.answer with
  | .define _ _, .done (.ok ()) => true
  | .number _, .value (.ok _) => x.events.any Event.isCreated
  | _, _ => false

/-- Whether a value was allocated on request. -/
def isAllocation (x : Exchange) : Bool :=
  match x.request, x.answer with
  | .allocate _, .handle (.ok _) => true
  | _, _ => false

theorem not_addition_of_asks {r : Request} (hr : r.asks) (answer : Answer) (events : List Event) :
    isAddition ⟨r, answer, events⟩ = false ∧ isAllocation ⟨r, answer, events⟩ = false := by
  cases r with
  | number key => simp [Request.asks] at hr
  | define key value => simp [Request.asks] at hr
  | allocate ty => simp [Request.asks] at hr
  | _ => exact ⟨rfl, rfl⟩

end Exchange

/-- The number of keys that were entered. -/
def additions (said : List Exchange) : Nat := said.countP Exchange.isAddition

/-- The number of values that were allocated on request. -/
def allocations (said : List Exchange) : Nat := said.countP Exchange.isAllocation

/-- The number of reports of replaced entries. -/
def replacements (said : List Exchange) : Nat :=
  (said.flatMap (·.events)).countP Event.isReplaced

/-- The number of reports of created values. -/
def creations (said : List Exchange) : Nat := (said.flatMap (·.events)).countP Event.isCreated

namespace Session

/-- What was said accounts for the difference between two states. -/
structure Account (said : List Exchange) (s s' : Session) : Prop where
  entries : s'.table.size + replacements said = s.table.size + additions said
  values : s'.allocated = s.allocated + allocations said + creations said

namespace Account

variable {s s' s'' : Session} {said later : List Exchange}

theorem nil (s : Session) : Account [] s s := ⟨rfl, rfl⟩

theorem trans (h : Account said s s') (h' : Account later s' s'') :
    Account (said ++ later) s s'' := by
  have he := h.entries
  have he' := h'.entries
  have hv := h.values
  have hv' := h'.values
  constructor
  · simp only [replacements, additions, List.flatMap_append, List.countP_append] at *
    omega
  · simp only [allocations, creations, List.flatMap_append, List.countP_append] at *
    omega

/-- A request without reports that neither enters a key nor allocates a value leaves both numbers. -/
theorem quiet {r : Request} {answer : Answer} (ht : s'.table.size = s.table.size)
    (hc : s'.allocated = s.allocated) (hadd : Exchange.isAddition ⟨r, answer, []⟩ = false)
    (halloc : Exchange.isAllocation ⟨r, answer, []⟩ = false) : Account [⟨r, answer, []⟩] s s' := by
  constructor
  · simp [replacements, additions, hadd, ht]
  · simp [allocations, creations, halloc, hc]

end Account

end Session

/-! ### One request -/

namespace Pass

variable {w : Pass} {p : Policy} {l : Ledger}

open Session (Account)

theorem account_number {key : Key} {o : Outcome Value} (h : w.session.table.Holds (w.view p) l)
    (ho : w.session.Numbers (w.view p) l key o) :
    Account [⟨.number key, .value o.result, o.events⟩] w.session o.session := by
  have hsize := h.size_eq
  cases ho with
  | refused hk => exact .quiet rfl rfl rfl rfl
  | constant hq hc => exact .quiet rfl rfl rfl rfl
  | known hq hb hk he ht => exact .quiet (ht.size_eq.trans hsize.symm) rfl rfl rfl
  | created hq hb hk he hid ht =>
    have ht := ht.size_eq
    rw [List.length_append, List.length_singleton] at ht
    constructor
    · simp [replacements, additions, Exchange.isAddition, Event.isReplaced, Event.isCreated, ht,
        hsize]
    · simp [allocations, creations, Exchange.isAllocation, Event.isCreated]
  | unbindable hq ho hid ht =>
    have ht := ht.size_eq
    constructor
    · simp [replacements, additions, Exchange.isAddition, Event.isReplaced, ht, hsize]
    · simp [allocations, creations, Exchange.isAllocation, Event.isCreated]
  | exhausted hk he hid ht => exact .quiet (ht.size_eq.trans hsize.symm) rfl rfl rfl

theorem account_define {key : Key} {value : Value} {o : Outcome Unit}
    (h : w.session.table.Holds (w.view p) l) (ho : w.session.Defines (w.view p) l key value o) :
    Account [⟨.define key value, .done o.result, o.events⟩] w.session o.session := by
  have hsize := h.size_eq
  cases ho with
  | unbound hb => exact .quiet rfl rfl rfl rfl
  | refused hk => exact .quiet rfl rfl rfl rfl
  | done hb hk ht =>
    have ht := ht.size_eq
    rw [Ledger.length_put] at ht
    constructor
    · -- the first equal entry is replaced and reported, or the table grows
      cases he : l.entry? (w.view p) key with
      | some e =>
        simp [replacements, additions, Exchange.isAddition, Session.replacedEvents,
          Event.isReplaced, ht, he, hsize]
      | none =>
        simp [replacements, additions, Exchange.isAddition, Session.replacedEvents, ht, he, hsize]
    · cases (l.entry? (w.view p) key).map (w.view p).entry <;>
        simp [allocations, creations, Exchange.isAllocation, Session.replacedEvents,
          Event.isCreated]

/-- What is said when a request is served accounts for what it does to both numbers. -/
theorem account_after (h : w.session.Tracks (w.view p) l) (r : Request) :
    Account [w.exchange p r] w.session (w.after p r).session := by
  have hs := serves h r
  simp only [exchange, after]
  generalize w.serve p r = o at hs ⊢
  cases hs with
  | numbered key ho => exact account_number h.holds ho
  | defined key value ho => exact account_define h.holds ho
  | asked hr ht =>
    obtain ⟨hadd, halloc⟩ := Exchange.not_addition_of_asks hr _ []
    exact .quiet (ht.size_eq.trans h.holds.size_eq.symm) rfl hadd halloc
  | recorded n value hb =>
    exact .quiet (by simp) (by simp) rfl rfl
  | allocated ty hid =>
    constructor
    · simp [replacements, additions, Exchange.isAddition]
    · simp [allocations, creations, Exchange.isAllocation]
  | closed => exact ⟨rfl, rfl⟩
  | _ => exact .quiet rfl rfl rfl rfl

theorem isAddition_number_iff (h : w.session.Tracks (w.view p) l) (key : Key) :
    (w.exchange p (.number key)).isAddition ↔
      (w.exchange p (.valueOf key)).answer = .value? (.ok none) ∧
        ∃ value, (w.exchange p (.number key)).answer = .value (.ok value) := by
  have hn := h.number key
  simp only [exchange, serve]
  generalize w.session.number (w.view p) key = o at hn ⊢
  cases hn with
  | refused hk => simp [Exchange.isAddition]
  | unbindable hq ho hid ht => simp [Exchange.isAddition]
  | exhausted hk he hid ht => simp [Exchange.isAddition]
  | constant hq hc => simp [Exchange.isAddition, Session.valueOf_constant hq hc]
  | known hq hb hk he ht =>
    obtain ⟨t', hfind, -⟩ := Session.find_eq h.holds hk
    have hc := (NodeKind.binding_eq_recorded_iff.1 hb).1
    simp [Exchange.isAddition, Session.valueOf_eq_find hq hc, hfind, Ledger.find, he]
  | created hq hb hk he hid ht =>
    obtain ⟨t', hfind, -⟩ := Session.find_eq h.holds hk
    have hc := (NodeKind.binding_eq_recorded_iff.1 hb).1
    simp [Exchange.isAddition, Event.isCreated, Session.valueOf_eq_find hq hc, hfind, Ledger.find,
      he]

/-! ### Runs -/

theorem run_account (a : Arena) (settings : Settings) (p : Policy) (requests : List Request) :
    Account ((start a settings).run p requests).1 (.start settings)
      ((start a settings).run p requests).2.session := by
  refine tracked_induction (P := fun past w => Account past (.start settings) w.session)
    (.nil _) ?_
  intro past w l r _ h haccount
  exact haccount.trans (account_after h r)

/-- At every point of every run, whatever types were declared and whatever failed: the number of entries
is that of the keys entered less the reports of replaced entries, the number of values is that of the
values asked for and of the reports of created ones, and the summary has these two numbers. Here a key
is entered if it is defined by hand, or if it is numbered when it has no value, in both cases without a
fault. -/
theorem reports_account (a : Arena) (settings : Settings) (p : Policy) (requests : List Request) :
    let said := ((start a settings).run p requests).1
    let w := ((start a settings).run p requests).2
    (replacements said ≤ additions said ∧
      w.session.table.size = additions said - replacements said) ∧
    w.session.allocated = allocations said + creations said ∧
    (∃ counts, (w.exchange p .summary).answer = .summary counts ∧
      (w.exchange p .summary).events = [.closed counts] ∧
      counts.entries = additions said - replacements said ∧
      counts.values = allocations said + creations said) ∧
    ∀ key, (w.exchange p (.number key)).isAddition ↔
      (w.exchange p (.valueOf key)).answer = .value? (.ok none) ∧
        ∃ value, (w.exchange p (.number key)).answer = .value (.ok value) := by
  intro said w
  have haccount : Account said (.start settings) w.session := run_account a settings p requests
  obtain ⟨l, h⟩ := run_tracks a settings p requests
  have hentries : w.session.table.size + replacements said = 0 + additions said := haccount.entries
  have hvalues : w.session.allocated = 0 + allocations said + creations said := haccount.values
  have hsize : w.session.table.size = additions said - replacements said := by omega
  rw [Nat.zero_add] at hvalues
  refine ⟨⟨by omega, hsize⟩, hvalues, ⟨w.session.summary, rfl, rfl, hsize, hvalues⟩, ?_⟩
  exact isAddition_number_iff h

end Pass

end ValueNumbering
