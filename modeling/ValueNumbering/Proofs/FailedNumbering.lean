import ValueNumbering.Proofs.StableAnswers

/-!
# Numbering that fails

To number a key is to search the table, to allocate a value, to report it, to define the key and to
record the value, and each of these steps has reasons of its own to fail. In the end they come down to the
node of the key (`Unnumbered`): it does not exist, it is a statement, or it is of a kind without values.
Apart from that, handles may have run out (`Pass.Exhausted`). This takes as many requests as there are
handles (`Pass.allocated_le_length`), and as many allocations bring it about: then the key of a node with
which nothing is wrong is not numbered either (`Pass.allocations_prevent_numbering`).

How far numbering gets depends on the reason (`Pass.number_fails_exactly`):

* a node that does not exist and a statement are refused at once, and nothing has changed;
* a node of a kind without values is looked for in vain, as no entry can have an equal key
  (`Session.Tracks.entry?_of_other`). So a value is allocated before the node is found out, and this value
  is left behind, without members;
* a constant never fails, and numbering it changes nothing.
-/

namespace ValueNumbering

/-- The nodes whose keys are not numbered. -/
inductive Unnumbered (a : Arena) (n : NodeId) : Prop
  /-- There is no such node. -/
  | missing (h : a.node? n = none)
  /-- The node is a statement. -/
  | statement {q : Node} (hq : a.node? n = some q) (hs : q.op.kind = .statement)
  /-- The node is of a kind without values. -/
  | valueless {q : Node} (hq : a.node? n = some q) (ho : q.op.kind = .other)

theorem unnumbered_iff_not_valued {v : View} {n : NodeId} :
    Unnumbered v.arena n ↔ ¬ v.Valued n := by
  constructor
  · rintro h ⟨q, hq, hval⟩
    have hkind : q.op.kind ≠ .statement ∧ q.op.kind ≠ .other := by
      simpa [Op.producesValue] using hval
    have hsame : ∀ {q'}, v.arena.node? n = some q' → q = q' :=
      fun h => Option.some.inj (hq.symm.trans h)
    cases h with
    | missing h => simp [hq] at h
    | statement h hs => exact hkind.1 (hsame h ▸ hs)
    | valueless h ho => exact hkind.2 (hsame h ▸ ho)
  · intro h
    cases hq : v.arena.node? n with
    | none => exact .missing hq
    | some q =>
      by_cases hs : q.op.kind = .statement
      · exact .statement hq hs
      · by_cases ho : q.op.kind = .other
        · exact .valueless hq ho
        · exact absurd ⟨q, hq, by simp [Op.producesValue, hs, ho]⟩ h

/-! ### What a search leaves behind -/

namespace Table

/-- The same table, with something else remembered. -/
def remembering (t : Table) (memo : Option HashMemo) : Table := { t with memo }

theorem hashKey_keeps (t : Table) (v : View) (key : Key) :
    ∃ memo, (t.hashKey v key).2 = t.remembering memo := by
  unfold hashKey
  split
  next => exact ⟨_, rfl⟩
  next => exact ⟨t.memo, rfl⟩

theorem find_keeps (t : Table) (v : View) (key : Key) :
    ∃ memo, (t.find v key).2 = t.remembering memo := by
  obtain ⟨memo, hmemo⟩ := t.hashKey_keeps v key
  refine ⟨memo, ?_⟩
  unfold find
  split
  next ht => rw [← hmemo, ht]
  next ht =>
    rw [ht] at hmemo
    split <;> exact hmemo

end Table

namespace Session

variable {s : Session} {v : View} {l : Ledger} {key : Key} {q : Node}

/-- The same session, with something else remembered. -/
def remembering (s : Session) (memo : Option HashMemo) : Session :=
  { s with table := s.table.remembering memo }

theorem find_keeps (s : Session) (v : View) (key : Key) :
    ∃ memo, (s.find v key).2 = s.remembering memo := by
  obtain ⟨memo, hmemo⟩ := s.table.find_keeps v key
  exact ⟨memo, by simp only [find, hmemo, remembering]⟩

/-- A key that equals none of the entries is looked for in vain, and only what is remembered has changed
then. -/
theorem find_unknown (h : s.table.Holds v l) (hk : v.hashFault? key.node = none)
    (he : l.entry? v key = none) :
    ∃ memo, s.find v key = (.ok none, s.remembering memo) := by
  obtain ⟨t, hfind, -⟩ := find_eq h hk
  obtain ⟨memo, hmemo⟩ := s.find_keeps v key
  have hnone : (s.find v key).1 = .ok none := by
    rw [hfind, Ledger.find, he, Option.map_none]
  exact ⟨memo, Prod.ext hnone hmemo⟩

/-- Numbering a key that was looked for in vain is to define it anew. -/
theorem number_unknown {memo : Option HashMemo} (hq : v.arena.node? key.node = some q)
    (hc : q.op.kind ≠ .constant) (hfind : s.find v key = (.ok none, s.remembering memo)) :
    s.number v key = (s.remembering memo).defineNew v key q.ty := by
  simp only [number, valueOf_eq_find hq hc, hfind, Arena.node, hq]

/-! ### Numbering a node of a kind without values -/

/-- No key of such a node is equal to that of an entry: equal nodes have the same operation, and none of
this kind was ever entered. -/
theorem Tracks.entry?_of_other (h : s.Tracks v l) (hq : v.arena.node? key.node = some q)
    (ho : q.op.kind = .other) : l.entry? v key = none := by
  cases he : l.entry? v key with
  | none => rfl
  | some e => exact absurd ho (h.kind_ne_other_of_entry? he hq)

theorem Tracks.find_other (h : s.Tracks v l) (hq : v.arena.node? key.node = some q)
    (ho : q.op.kind = .other) :
    ∃ memo, s.find v key = (.ok none, s.remembering memo) := by
  have hk : v.hashFault? key.node = none :=
    View.hashFault?_eq_none_iff.2 ⟨q, hq, by simp [ho]⟩
  exact find_unknown h.holds hk (h.entry?_of_other hq ho)

theorem Tracks.number_other (h : s.Tracks v l) (hq : v.arena.node? key.node = some q)
    (ho : q.op.kind = .other) (hid : s.allocated < identLimit) :
    ∃ memo, s.number v key =
      ⟨.error (.notBindable key.node .other),
        { s.remembering memo with classes := s.classes.push ⟨q.ty, []⟩ },
        [.created s.next key.node]⟩ := by
  obtain ⟨memo, hfind⟩ := h.find_other hq ho
  refine ⟨memo, ?_⟩
  -- the kind is looked at only when the new value is to be bound
  rw [number_unknown hq (by simp [ho]) hfind]
  exact defineNew_unbindable (s := s.remembering memo) hq ho hid

theorem number_exhausted (h : s.table.Holds v l) (hid : identLimit ≤ s.allocated)
    (hnone : (s.valueOf v key).1 = .ok none) :
    ∃ memo, s.number v key = ⟨.error .handlesExhausted, s.remembering memo, []⟩ := by
  cases hk : v.hashFault? key.node with
  | some fault => simp [valueOf_fault h hk] at hnone
  | none =>
    obtain ⟨q, hq, -⟩ := View.hashFault?_eq_none_iff.1 hk
    by_cases hc : q.op.kind = .constant
    · simp [valueOf_constant hq hc] at hnone
    · obtain ⟨memo, hmemo⟩ := s.find_keeps v key
      refine ⟨memo, ?_⟩
      rw [valueOf_eq_find hq hc] at hnone
      have hfind : s.find v key = (.ok none, s.remembering memo) := Prod.ext hnone hmemo
      rw [number_unknown hq hc hfind]
      exact defineNew_exhausted (s := s.remembering memo) key q.ty hid

end Session

/-! ### Handles that are left -/

namespace Pass

variable {w : Pass} {p : Policy} {l : Ledger} {key : Key}

/-- The key has no value, and there is no handle left for one. -/
def Exhausted (w : Pass) (p : Policy) (key : Key) : Prop :=
  identLimit ≤ w.session.allocated ∧
    (w.exchange p (.valueOf key)).answer = .value? (.ok none)

theorem Exhausted.valueOf (h : w.Exhausted p key) :
    (w.session.valueOf (w.view p) key).1 = .ok none :=
  Answer.value?.inj h.2

theorem allocated_after_le (h : w.session.Tracks (w.view p) l) (r : Request) :
    (w.after p r).session.allocated ≤ w.session.allocated + 1 := by
  have hs := serves h r
  simp only [after]
  generalize w.serve p r = o at hs ⊢
  cases hs with
  | numbered key ho => cases ho <;> simp
  | defined key value ho =>
    cases ho with
    | done hb hk ht => simp
    | _ => exact Nat.le_succ _
  | recorded n value hb => simp
  | allocated ty hid => simp
  | _ => exact Nat.le_succ _

theorem length_run (w : Pass) (p : Policy) (requests : List Request) :
    (w.run p requests).1.length = requests.length := by
  induction requests generalizing w with
  | nil => rfl
  | cons r rest ih => simp only [run, List.length_cons, ih]

theorem allocated_le_length (a : Arena) (settings : Settings) (p : Policy)
    (requests : List Request) :
    ((start a settings).run p requests).2.session.allocated ≤ requests.length := by
  rw [← length_run (start a settings) p requests]
  refine tracked_induction (P := fun past w => w.session.allocated ≤ past.length)
    (Nat.le_refl 0) ?_
  intro past w l r _ h hle
  have hstep := allocated_after_le h r
  rw [List.length_append, List.length_singleton]
  omega

/-! ### When numbering fails -/

theorem not_valued_or_exhausted_of_fails (h : w.session.Tracks (w.view p) l) {fault : Fault}
    (hf : (w.exchange p (.number key)).answer = .value (.error fault)) :
    ¬ (w.view p).Valued key.node ∨ w.Exhausted p key := by
  by_cases hval : (w.view p).Valued key.node
  · rcases tracks_number_answered h key with ⟨value, l', -, -, -, hok⟩ | ⟨hno | hlimit, -, -⟩
    · simp [hok] at hf
    · exact .inl hno
    · obtain ⟨t, hvalue, -⟩ := Session.valueOf_eq h.holds hval.hashFault?
      refine .inr ⟨hlimit.2, ?_⟩
      simp only [exchange, serve, hvalue, hlimit.1]
  · exact .inl hval

theorem number_refused (h : w.session.Tracks (w.view p) l) {fault : Fault}
    (hk : (w.view p).hashFault? key.node = some fault) :
    (w.exchange p (.number key)).answer = .value (.error fault) ∧
      w.after p (.number key) = w ∧ (w.exchange p (.number key)).events = [] := by
  have hn : w.session.number (w.view p) key = ⟨.error fault, w.session, []⟩ := by
    simp only [Session.number, Session.valueOf_fault h.holds hk]
  simp only [exchange, after, serve, hn, and_self]

theorem number_fails_of_exhausted (h : w.session.Tracks (w.view p) l) (he : w.Exhausted p key) :
    (w.exchange p (.number key)).answer = .value (.error .handlesExhausted) ∧
      (w.exchange p (.number key)).events = [] ∧
      ∃ memo, w.after p (.number key) = { w with session := w.session.remembering memo } := by
  obtain ⟨memo, hn⟩ := Session.number_exhausted h.holds he.1 he.valueOf
  simp only [exchange, after, serve, hn, true_and]
  exact ⟨memo, rfl⟩

/-- A node of a kind without values has none, so the key of it is out of handles if all are. -/
theorem lt_of_not_exhausted (h : w.session.Tracks (w.view p) l) {q : Node}
    (hq : w.arena.node? key.node = some q) (ho : q.op.kind = .other)
    (hne : ¬ w.Exhausted p key) : w.session.allocated < identLimit := by
  obtain ⟨memo, hfind⟩ := h.find_other hq ho
  have hnone : w.session.valueOf (w.view p) key =
      (.ok none, w.session.remembering memo) := by
    rw [Session.valueOf_eq_find hq (by simp [ho]), hfind]
  by_contra hid
  refine hne ⟨Nat.le_of_not_lt hid, ?_⟩
  simp only [exchange, serve, hnone]

theorem number_leaks (h : w.session.Tracks (w.view p) l) {q : Node}
    (hq : w.arena.node? key.node = some q) (ho : q.op.kind = .other)
    (hid : w.session.allocated < identLimit) :
    (w.exchange p (.number key)).answer = .value (.error (.notBindable key.node .other)) ∧
      (w.exchange p (.number key)).events = [.created w.session.next key.node] ∧
      ∃ memo, w.after p (.number key) =
        { w with session := { w.session.remembering memo with
          classes := w.session.classes.push ⟨q.ty, []⟩ } } := by
  obtain ⟨memo, hn⟩ := h.number_other hq ho hid
  simp only [exchange, after, serve, hn, true_and]
  exact ⟨memo, rfl⟩

theorem number_fails_iff (h : w.session.Tracks (w.view p) l) :
    (∃ fault, (w.exchange p (.number key)).answer = .value (.error fault)) ↔
      Unnumbered w.arena key.node ∨ w.Exhausted p key := by
  constructor
  · rintro ⟨fault, hf⟩
    exact (not_valued_or_exhausted_of_fails h hf).imp_left unnumbered_iff_not_valued.2
  · rintro (hno | hex)
    · rcases tracks_number_answered h key with ⟨value, l', hval, -⟩ | ⟨-, -, hf⟩
      · exact absurd hval (unnumbered_iff_not_valued.1 hno)
      · exact hf
    · exact ⟨_, (number_fails_of_exhausted h hex).1⟩

/-- At every point of every run, numbering a key fails if and only if its node does not exist, is a
statement or is of a kind without values, or if the key has no value and all handles are gone; the last
takes as many requests as there are handles, and then only what is remembered changes. If the node does
not exist or is a statement, nothing has changed at all. If it is of a kind without values, exactly one
value was allocated, of the type of the node and without members, and of all else only what is remembered
can have changed. A constant is its own value, and numbering it changes nothing. -/
theorem number_fails_exactly (a : Arena) (settings : Settings) (p : Policy)
    (requests : List Request) (key : Key) :
    let w := ((start a settings).run p requests).2
    let x := w.exchange p (.number key)
    let w' := w.after p (.number key)
    ((∃ fault, x.answer = .value (.error fault)) ↔
      Unnumbered w.arena key.node ∨ w.Exhausted p key) ∧
    (w.Exhausted p key → identLimit ≤ requests.length ∧
      x.answer = .value (.error .handlesExhausted) ∧ x.events = [] ∧
      ∃ memo, w' = { w with session := w.session.remembering memo }) ∧
    (w.arena.node? key.node = none →
      x.answer = .value (.error (.noSuchNode w.arena.size key.node)) ∧ w' = w ∧ x.events = []) ∧
    ∀ q, w.arena.node? key.node = some q →
      (q.op.kind = .statement →
        x.answer = .value (.error (.statementHashed key.node)) ∧ w' = w ∧ x.events = []) ∧
      (q.op.kind = .other → ¬ w.Exhausted p key →
        x.answer = .value (.error (.notBindable key.node .other)) ∧
        x.events = [.created (.handle (.ofIndex w.session.allocated)) key.node] ∧
        ∃ memo, w' =
          { w with session := { w.session.remembering memo with
            classes := w.session.classes.push ⟨q.ty, []⟩ } }) ∧
      (q.op.kind = .constant →
        x.answer = .value (.ok (.const key.node)) ∧ w' = w ∧ x.events = []) := by
  intro w x w'
  obtain ⟨l, h⟩ := run_tracks a settings p requests
  refine ⟨number_fails_iff h, fun hex => ?_, fun hq => ?_, fun q hq => ⟨?_, ?_, ?_⟩⟩
  · have hle := allocated_le_length a settings p requests
    exact ⟨Nat.le_trans hex.1 hle, number_fails_of_exhausted h hex⟩
  · have hk : (w.view p).hashFault? key.node = some (.noSuchNode w.arena.size key.node) := by
      simp only [View.hashFault?, view, hq]
    exact number_refused h hk
  · intro hs
    have hk : (w.view p).hashFault? key.node = some (.statementHashed key.node) := by
      simp only [View.hashFault?, view, hq, hs, if_true]
    exact number_refused h hk
  · intro ho hne
    exact number_leaks h hq ho (lt_of_not_exhausted h hq ho hne)
  · intro hc
    have hn : w.session.number (w.view p) key = ⟨.ok (.const key.node), w.session, []⟩ :=
      Session.number_constant hq hc
    simp only [x, w', exchange, after, serve, hn, and_self]

/-! ### A run without handles -/

/-- Allocations take one handle each while there are some, and leave all else as it was. -/
theorem run_allocations (w : Pass) (p : Policy) (ty : Ty) {n : Nat}
    (hn : w.session.allocated + n ≤ identLimit) :
    let w' := (w.run p (List.replicate n (.allocate ty))).2
    w'.arena = w.arena ∧ w'.session.table = w.session.table ∧
      w'.session.allocated = w.session.allocated + n := by
  induction n generalizing w with
  | zero => exact ⟨rfl, rfl, rfl⟩
  | succ n ih =>
    have hid : w.session.allocated < identLimit := by omega
    have hafter : w.after p (.allocate ty) =
        { w with session := { w.session with classes := w.session.classes.push ⟨ty, []⟩ } } := by
      simp only [after, serve, Session.allocate, if_pos hid]
    have hcount : (w.after p (.allocate ty)).session.allocated = w.session.allocated + 1 := by
      simp [hafter]
    obtain ⟨harena, htable, hall⟩ := ih (w.after p (.allocate ty)) (by omega)
    rw [List.replicate_succ]
    refine ⟨?_, ?_, ?_⟩
    · exact harena.trans (by rw [hafter])
    · exact htable.trans (by rw [hafter])
    · refine hall.trans ?_
      omega

theorem number_fails_after_allocations (a : Arena) (settings : Settings) (p : Policy) (ty : Ty)
    (key : Key) {q : Node} (hq : a.node? key.node = some q) (hc : q.op.kind ≠ .constant)
    (hs : q.op.kind ≠ .statement) {n : Nat} (hn : n = identLimit) :
    let w := ((start a settings).run p (List.replicate n (.allocate ty))).2
    w.arena = a ∧ (w.exchange p (.number key)).answer = .value (.error .handlesExhausted) := by
  intro w
  have hstart : (start a settings).session.allocated = 0 := rfl
  obtain ⟨harena, htable, hcount⟩ := run_allocations (start a settings) p ty (n := n) (by omega)
  have hall : w.session.allocated = identLimit := by
    rw [← hn, ← Nat.zero_add n, ← hstart]
    exact hcount
  obtain ⟨l, h⟩ := run_tracks a settings p (List.replicate n (.allocate ty))
  have hview : w.view p = ⟨a, p⟩ := congrArg (View.mk · p) harena
  have hempty : w.session.table.Holds (w.view p) [] := by
    rw [htable]
    exact Table.holds_empty settings _
  have hqw : (w.view p).arena.node? key.node = some q := by rwa [hview]
  obtain ⟨t, hfind, -⟩ := Session.find_eq hempty (View.hashFault?_eq_none_iff.2 ⟨q, hqw, hs⟩)
  have hvalue : w.session.valueOf (w.view p) key = (.ok none, { w.session with table := t }) := by
    rw [Session.valueOf_eq_find hqw hc, hfind]
    rfl
  have hex : w.Exhausted p key := by
    refine ⟨Nat.le_of_eq hall.symm, ?_⟩
    simp only [exchange, serve, hvalue]
  exact ⟨harena, (number_fails_of_exhausted h hex).1⟩

/-- One variable. -/
def lonelyVariable : Arena := (Arena.empty.var ⟨1⟩ 0 .int).2

/-- There is nothing wrong with the variable, but its key is not numbered once all handles were allocated
by hand. -/
theorem allocations_prevent_numbering :
    let w := ((start lonelyVariable .standard).run .full
      (List.replicate identLimit (.allocate .int))).2
    ¬ ((∃ fault, (w.exchange .full (.number ⟨⟨0⟩, []⟩)).answer = .value (.error fault)) ↔
      Unnumbered w.arena ⟨0⟩) := by
  intro w hiff
  let q : Node := ⟨.var ⟨1⟩ 0, .int, .empty, .empty⟩
  have hq : lonelyVariable.node? ⟨0⟩ = some q := rfl
  obtain ⟨harena, hfails⟩ := number_fails_after_allocations lonelyVariable .standard .full .int
    ⟨⟨0⟩, []⟩ hq (by decide) (by decide) rfl
  have hnode : Unnumbered lonelyVariable ⟨0⟩ := harena ▸ hiff.1 ⟨_, hfails⟩
  have hvalued : (View.mk lonelyVariable .full).Valued ⟨0⟩ := ⟨q, hq, by decide⟩
  exact unnumbered_iff_not_valued.1 hnode hvalued

end Pass

end ValueNumbering
