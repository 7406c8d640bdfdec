import ValueNumbering.Proofs.SessionSteps

/-!
# Runs of a session

A `Pass` is an arena with the session that numbers its nodes. It serves requests one after another:
changes of the arena, and everything that can be asked of a session. A request that ends in a fault
is served like any other; the pass goes on from the state in which the fault left it.

`Pass.run` serves a list of requests and returns what was said (`Exchange`) and the pass at the end.
Facts about whole runs come by `Pass.run_induction`, from what one request does to a state together
with all that was said before. The constructors of `Pass.Serves` spell out how a request can end, and
`Pass.serves` says that there is nothing else; `Pass.tracked_induction` provides what it needs at each
point of a run.

`Pass.Enumerates w p l` is the invariant of runs that define no values by hand: the session keeps the
entries of the ledger `l`, and the values of these entries are different handles. Such a run only
ever adds entries at the end (`Pass.Enumerates.serve`), and every handle that it hands out for a key
is the value of an entry with an equal key.
-/

namespace ValueNumbering

/-- A request to a session, or a change of its arena. -/
inductive Request
  | edit (e : Edit)
  | number (key : Key)
  | valueOf (key : Key)
  | define (key : Key) (value : Value)
  | record (node : NodeId) (value : Value)
  | recorded (node : NodeId)
  | allocate (ty : Ty)
  | typeOf (value : Value)
  | members (id : Handle)
  | find (key : Key)
  | hashKey (key : Key)
  | entries
  | summary
deriving DecidableEq, Repr

/-- Whether a request can change the arena or the entries of a session. -/
def Request.mayEnter : Request → Bool
  | .edit _ | .number _ | .define _ _ => true
  | _ => false

/-- Whether a request only asks something, and leaves no report. -/
def Request.asks : Request → Bool
  | .valueOf _ | .recorded _ | .typeOf _ | .members _ | .find _ | .hashKey _ | .entries => true
  | _ => false

inductive Answer
  | edited (result : Except Fault (Option NodeId))
  | value (result : Except Fault Value)
  | value? (result : Except Fault (Option Value))
  | done (result : Except Fault Unit)
  | handle (result : Except Fault Handle)
  | ty (result : Except Fault Ty)
  | members (result : Except Fault (List NodeId))
  | hash (result : Except Fault UInt64)
  | entries (all : List Entry)
  | summary (counts : Summary)
deriving DecidableEq

/-- A request, the answer to it, and the events in between. -/
structure Exchange where
  request : Request
  answer : Answer
  events : List Event
deriving DecidableEq

/-- The exchange gives a key a value: someone asked for its value, or to have it numbered. -/
inductive Exchange.Gives : Exchange → Key → Value → Prop
  | number (key : Key) (value : Value) (events : List Event) :
      Gives ⟨.number key, .value (.ok value), events⟩ key value
  | valueOf (key : Key) (value : Value) (events : List Event) :
      Gives ⟨.valueOf key, .value? (.ok (some value)), events⟩ key value

/-- An arena and the session that numbers its nodes. -/
structure Pass where
  arena : Arena
  session : Session

namespace Pass

/-- A pass over an arena with a new session. -/
def start (a : Arena) (settings : Settings) : Pass := ⟨a, .start settings⟩

/-- The arena as a policy sees it. -/
def view (w : Pass) (p : Policy) : View := ⟨w.arena, p⟩

/-- Serves a request. -/
def serve (w : Pass) (p : Policy) : Request → Answer × List Event × Pass
  | .edit e => (.edited (w.arena.edit e).1, [], { w with arena := (w.arena.edit e).2 })
  | .number key =>
    let o := w.session.number (w.view p) key
    (.value o.result, o.events, { w with session := o.session })
  | .valueOf key =>
    let (result, session) := w.session.valueOf (w.view p) key
    (.value? result, [], { w with session })
  | .define key value =>
    let o := w.session.define (w.view p) key value
    (.done o.result, o.events, { w with session := o.session })
  | .record n value =>
    match w.session.record w.arena n value with
    | .ok session => (.done (.ok ()), [], { w with session })
    | .error fault => (.done (.error fault), [], w)
  | .recorded n => (.value? (w.session.recorded w.arena n), [], w)
  | .allocate ty =>
    match w.session.allocate ty with
    | .ok (id, session) => (.handle (.ok id), [], { w with session })
    | .error fault => (.handle (.error fault), [], w)
  | .typeOf value => (.ty (w.session.typeOf w.arena value), [], w)
  | .members id => (.members (w.session.members id), [], w)
  | .find key =>
    let (result, session) := w.session.find (w.view p) key
    (.value? result, [], { w with session })
  | .hashKey key =>
    let (result, session) := w.session.hashKey (w.view p) key
    (.hash result, [], { w with session })
  | .entries => (.entries w.session.table.entries, [], w)
  | .summary => (.summary w.session.summary, [w.session.closeEvent], w)

/-- What is said when a request is served. -/
def exchange (w : Pass) (p : Policy) (r : Request) : Exchange :=
  ⟨r, (w.serve p r).1, (w.serve p r).2.1⟩

/-- The pass after a request. -/
def after (w : Pass) (p : Policy) (r : Request) : Pass := (w.serve p r).2.2

/-- Serves requests in order. -/
def run (w : Pass) (p : Policy) : List Request → List Exchange × Pass
  | [] => ([], w)
  | r :: rest =>
    let (said, last) := (w.after p r).run p rest
    (w.exchange p r :: said, last)

theorem run_append (w : Pass) (p : Policy) (before after : List Request) :
    w.run p (before ++ after) =
      ((w.run p before).1 ++ ((w.run p before).2.run p after).1,
        ((w.run p before).2.run p after).2) := by
  induction before generalizing w with
  | nil => rfl
  | cons r rest ih => simp only [List.cons_append, run, ih]

/-- What holds at first, and after a request if it held before, holds at the end of a run. -/
theorem run_induction {p : Policy} {P : List Exchange → Pass → Prop} {w : Pass}
    {requests : List Request} (first : P [] w)
    (step : ∀ past w, ∀ r ∈ requests, P past w → P (past ++ [w.exchange p r]) (w.after p r)) :
    P (w.run p requests).1 (w.run p requests).2 := by
  -- what was said before is carried along, and ends up in front
  have hrun : ∀ past w, P past w → P (past ++ (w.run p requests).1) (w.run p requests).2 := by
    clear first
    induction requests with
    | nil =>
      intro past w h
      simpa [run] using h
    | cons r rest ih =>
      intro past w h
      obtain ⟨hr, hrest⟩ := List.forall_mem_cons.1 (fun r' hr' past w => step past w r' hr')
      have hlater := ih (fun past w r' hr' => hrest r' hr' past w) _ _ (hr past w h)
      simpa [run, List.append_assoc] using hlater
  simpa using hrun [] w first

theorem run_concat (w : Pass) (p : Policy) (before : List Request) (r : Request) :
    (w.run p (before ++ [r])).2 = (w.run p before).2.after p r := by
  rw [run_append]
  rfl

/-! ### Growth -/

theorem extends_after (w : Pass) (p : Policy) (r : Request) :
    w.arena.Extends (w.after p r).arena := by
  cases r with
  | edit e => exact w.arena.extends_edit e
  | record n value =>
    simp only [after, serve]
    split <;> exact .refl _
  | allocate ty =>
    simp only [after, serve]
    split <;> exact .refl _
  | _ => exact .refl _

theorem aliases_after (w : Pass) (p : Policy) {r : Request}
    (hr : ∀ s t, r ≠ .edit (.declare s t)) : (w.after p r).arena.aliases = w.arena.aliases := by
  cases r with
  | edit e =>
    cases e with
    | push op ty operands flags => exact w.arena.aliases_push op ty operands flags
    | declare s t => exact absurd rfl (hr s t)
  | record n value =>
    simp only [after, serve]
    split <;> rfl
  | allocate ty =>
    simp only [after, serve]
    split <;> rfl
  | _ => rfl

theorem sameKey_after (w : Pass) (p : Policy) (r : Request) {k l : Key}
    (h : (w.view p).sameKey k l) : ((w.after p r).view p).sameKey k l :=
  Table.sameKey_extend (w.extends_after p r) h

/-! ### The ways in which a request can end -/

/-- What serving a request can lead to, from a session that keeps the entries of a ledger. -/
inductive Serves (w : Pass) (p : Policy) (l : Ledger) :
    Request → Answer × List Event × Pass → Prop
  | edited (e : Edit) :
      Serves w p l (.edit e)
        (.edited (w.arena.edit e).1, [], { w with arena := (w.arena.edit e).2 })
  | numbered (key : Key) {o : Outcome Value} (ho : w.session.Numbers (w.view p) l key o) :
      Serves w p l (.number key) (.value o.result, o.events, { w with session := o.session })
  | defined (key : Key) (value : Value) {o : Outcome Unit}
      (ho : w.session.Defines (w.view p) l key value o) :
      Serves w p l (.define key value) (.done o.result, o.events, { w with session := o.session })
  /-- Something was asked. At most what the table remembers has changed. -/
  | asked {r : Request} {answer : Answer} {t : Table} (hr : r.asks) (ht : t.Holds (w.view p) l) :
      Serves w p l r (answer, [], { w with session := { w.session with table := t } })
  | recorded (n : NodeId) (value : Value) {binding : Binding}
      (hb : w.session.bindingFor (w.view p).arena n value = .ok binding) :
      Serves w p l (.record n value)
        (.done (.ok ()), [], { w with session := w.session.write binding n value })
  /-- The node cannot carry the value. -/
  | unrecorded (n : NodeId) (value : Value) (fault : Fault) :
      Serves w p l (.record n value) (.done (.error fault), [], w)
  | allocated (ty : Ty) (hid : w.session.allocated < identLimit) :
      Serves w p l (.allocate ty)
        (.handle (.ok (.ofIndex w.session.allocated)), [],
          { w with session := { w.session with classes := w.session.classes.push ⟨ty, []⟩ } })
  /-- No handle is left. -/
  | unallocated (ty : Ty) (fault : Fault) :
      Serves w p l (.allocate ty) (.handle (.error fault), [], w)
  | closed : Serves w p l .summary (.summary w.session.summary, [w.session.closeEvent], w)

/-- Serving a request ends in one of the ways that `Serves` lists. -/
theorem serves {w : Pass} {p : Policy} {l : Ledger} (h : w.session.Tracks (w.view p) l)
    (r : Request) : w.Serves p l r (w.serve p r) := by
  cases r with
  | edit e => exact .edited e
  | number key => exact .numbered key (h.number key)
  | define key value => exact .defined key value (h.define key value)
  | valueOf key =>
    obtain ⟨t, ht, h'⟩ := Session.valueOf_holds h.holds key
    simp only [serve, ht]
    exact .asked rfl h'
  | find key =>
    obtain ⟨t, ht, h'⟩ := Session.find_holds h.holds key
    simp only [serve, ht]
    exact .asked rfl h'
  | hashKey key =>
    obtain ⟨t, ht, h'⟩ := Session.hashKey_holds h.holds key
    simp only [serve, ht]
    exact .asked rfl h'
  | record n value =>
    rw [serve]
    cases hr : w.session.record w.arena n value with
    | error fault => exact .unrecorded n value fault
    | ok s =>
      obtain ⟨binding, hb, rfl⟩ := Session.record_eq_ok hr
      exact .recorded n value hb
  | allocate ty =>
    rw [serve]
    cases ha : w.session.allocate ty with
    | error fault => exact .unallocated ty fault
    | ok r =>
      obtain ⟨id, s⟩ := r
      obtain ⟨hid, rfl, rfl⟩ := Session.allocate_eq_ok ha
      exact .allocated ty hid
  | summary => exact .closed
  | recorded n => exact .asked rfl h.holds
  | typeOf value => exact .asked rfl h.holds
  | members id => exact .asked rfl h.holds
  | entries => exact .asked rfl h.holds

/-! ### The ledger of a run -/

/-- What a request does to the ledger that the session keeps: it leaves it as it is, numbers a key
that equals none of the others, or gives a key a value by hand. -/
inductive Enters (w : Pass) (p : Policy) (l : Ledger) : Request → Ledger → Prop
  | nothing (r : Request)
      (hr : ∀ key value, r = .define key value → (w.exchange p r).answer ≠ .done (.ok ())) :
      Enters w p l r l
  | numbered (key : Key) (hk : (w.view p).hashFault? key.node = none)
      (he : l.entry? (w.view p) key = none) :
      Enters w p l (.number key) (l ++ [(key, w.session.next)])
  | defined (key : Key) (value : Value) (hk : (w.view p).hashFault? key.node = none)
      (hok : (w.exchange p (.define key value)).answer = .done (.ok ())) :
      Enters w p l (.define key value) (l.put (w.view p) key value)

/-- Requests that only ask, record a value for a node or allocate one change no entry. -/
theorem holds_after {w : Pass} {p : Policy} {l : Ledger} (h : w.session.Tracks (w.view p) l)
    {r : Request} (hr : r.mayEnter = false) :
    (w.after p r).arena = w.arena ∧ (w.after p r).session.table.Holds (w.view p) l ∧
      w.session.allocated ≤ (w.after p r).session.allocated := by
  have hs := serves h r
  simp only [after]
  generalize w.serve p r = o at hs ⊢
  cases hs with
  | edited e => simp [Request.mayEnter] at hr
  | numbered key ho => simp [Request.mayEnter] at hr
  | defined key value ho => simp [Request.mayEnter] at hr
  | asked _ ht => exact ⟨rfl, ht, Nat.le_refl _⟩
  | recorded n value hb => exact ⟨rfl, by simpa using h.holds, by simp⟩
  | allocated ty hid => exact ⟨rfl, h.holds, by simp⟩
  | _ => exact ⟨rfl, h.holds, Nat.le_refl _⟩

theorem Enters.of_ne_define {w : Pass} {p : Policy} {l : Ledger} {r : Request}
    (hr : ∀ key value, r ≠ .define key value) : w.Enters p l r l :=
  .nothing r fun key value h => absurd h (hr key value)

theorem tracks_number {w : Pass} {p : Policy} {l : Ledger} (h : w.session.Tracks (w.view p) l)
    (key : Key) :
    ∃ l', w.Enters p l (.number key) l' ∧
      (w.after p (.number key)).session.Tracks (w.view p) l' := by
  have hsame : w.Enters p l (.number key) l := .of_ne_define (by simp)
  have hn := h.number key
  simp only [after, serve]
  generalize w.session.number (w.view p) key = o at hn ⊢
  cases hn with
  | refused hk => exact ⟨l, hsame, h⟩
  | constant hq hc => exact ⟨l, hsame, h⟩
  | known hq hb hk he ht => exact ⟨l, hsame, h.congr ht (Nat.le_refl _)⟩
  | created hq hb hk he hid ht =>
    have ho := (NodeKind.binding_eq_recorded_iff.1 hb).2
    exact ⟨_, .numbered key hk he, h.append_next hq ho hid ht (Array.size_push _)⟩
  | unbindable hq ho hid ht => exact ⟨l, hsame, h.congr ht (by simp)⟩
  | exhausted hk he hid ht => exact ⟨l, hsame, h.congr ht (Nat.le_refl _)⟩

theorem tracks_define {w : Pass} {p : Policy} {l : Ledger} (h : w.session.Tracks (w.view p) l)
    (key : Key) (value : Value) :
    ∃ l', w.Enters p l (.define key value) l' ∧
      (w.after p (.define key value)).session.Tracks (w.view p) l' := by
  have hanswer : (w.exchange p (.define key value)).answer =
      .done (w.session.define (w.view p) key value).result := rfl
  have hafter : (w.after p (.define key value)).session =
      (w.session.define (w.view p) key value).session := rfl
  have hd := h.define key value
  rw [hafter]
  generalize w.session.define (w.view p) key value = o at hd hanswer ⊢
  cases hd with
  | unbound hb => exact ⟨l, .nothing _ (by simp [hanswer]), h⟩
  | refused hk => exact ⟨l, .nothing _ (by simp [hanswer]), h⟩
  | done hb hk ht =>
    exact ⟨_, .defined key value hk hanswer, h.put hb (by simpa using ht) (by simp)⟩

/-- A session keeps the entries of a ledger through every request. -/
theorem tracks_after {w : Pass} {p : Policy} {l : Ledger} (h : w.session.Tracks (w.view p) l)
    (r : Request) :
    ∃ l', w.Enters p l r l' ∧ (w.after p r).session.Tracks ((w.after p r).view p) l' := by
  cases hr : r.mayEnter with
  | false =>
    obtain ⟨ha, ht, hc⟩ := holds_after h hr
    refine ⟨l, .of_ne_define (by rintro key value rfl; simp [Request.mayEnter] at hr), ?_⟩
    rw [view, ha]
    exact h.congr ht hc
  | true =>
    cases r with
    | edit e => exact ⟨l, .of_ne_define (by simp), h.extend (w.arena.extends_edit e)⟩
    | number key => exact tracks_number h key
    | define key value => exact tracks_define h key value
    | _ => simp [Request.mayEnter] at hr

theorem run_tracks (a : Arena) (settings : Settings) (p : Policy) (requests : List Request) :
    ∃ l, ((start a settings).run p requests).2.session.Tracks
      (((start a settings).run p requests).2.view p) l := by
  refine run_induction (P := fun _ w => ∃ l, w.session.Tracks (w.view p) l)
    ⟨[], Session.tracks_start settings _⟩ ?_
  rintro past w r - ⟨l, h⟩
  obtain ⟨l', -, h'⟩ := tracks_after h r
  exact ⟨l', h'⟩

/-- What holds at first, and after a request to a session that keeps a ledger if it held before, holds at
the end of a run. -/
theorem tracked_induction {a : Arena} {settings : Settings} {p : Policy} {requests : List Request}
    {P : List Exchange → Pass → Prop} (first : P [] (start a settings))
    (step : ∀ past w l, ∀ r ∈ requests, w.session.Tracks (w.view p) l → P past w →
      P (past ++ [w.exchange p r]) (w.after p r)) :
    P ((start a settings).run p requests).1 ((start a settings).run p requests).2 := by
  have hrun : (∃ l, ((start a settings).run p requests).2.session.Tracks
      (((start a settings).run p requests).2.view p) l) ∧
      P ((start a settings).run p requests).1 ((start a settings).run p requests).2 := by
    refine run_induction (P := fun past w => (∃ l, w.session.Tracks (w.view p) l) ∧ P past w)
      ⟨⟨[], Session.tracks_start settings _⟩, first⟩ ?_
    rintro past w r hmem ⟨⟨l, h⟩, hP⟩
    obtain ⟨l', -, h'⟩ := tracks_after h r
    exact ⟨⟨l', h'⟩, step past w l r hmem h hP⟩
  exact hrun.2

/-! ### Runs that define no values by hand -/

/-- The session keeps the entries of a ledger, and their values are different handles. -/
structure Enumerates (w : Pass) (p : Policy) (l : Ledger) : Prop where
  tracks : w.session.Tracks (w.view p) l
  handles : ∀ e ∈ l, ∃ id, e.2 = .handle id
  distinct : (l.map (·.2)).Nodup

theorem enumerates_start (a : Arena) (settings : Settings) (p : Policy) :
    (start a settings).Enumerates p [] :=
  ⟨Session.tracks_start settings _, by simp, by simp⟩

variable {w : Pass} {p : Policy} {l : Ledger}

theorem Enumerates.congr {w' : Pass} (h : w.Enumerates p l) (ha : w'.arena = w.arena)
    (ht : w'.session.table.Holds (w.view p) l)
    (hc : w.session.allocated ≤ w'.session.allocated) : w'.Enumerates p l := by
  have hv : w'.view p = w.view p := by simp only [view, ha]
  refine ⟨?_, h.handles, h.distinct⟩
  rw [hv]
  exact h.tracks.congr ht hc

theorem Enumerates.extend {b : Arena} (h : w.Enumerates p l) (hab : w.arena.Extends b) :
    Enumerates { w with arena := b } p l :=
  ⟨h.tracks.extend hab, h.handles, h.distinct⟩

theorem Enumerates.next_not_mem (h : w.Enumerates p l) (hid : w.session.allocated < identLimit) :
    w.session.next ∉ l.map (·.2) := by
  intro hmem
  obtain ⟨e, he, hv⟩ := List.mem_map.1 hmem
  have hknows := h.tracks.knows e he
  rw [hv] at hknows
  have hlt : (Handle.ofIndex w.session.allocated).index < w.session.allocated := hknows
  rw [Handle.index_ofIndex hid] at hlt
  omega

theorem Enumerates.append_next {key : Key} {q : Node} {s' : Session} (h : w.Enumerates p l)
    (hq : w.arena.node? key.node = some q) (ho : q.op.kind ≠ .other)
    (hid : w.session.allocated < identLimit)
    (ht : s'.table.Holds (w.view p) (l ++ [(key, w.session.next)]))
    (hc : s'.allocated = w.session.allocated + 1) :
    Enumerates { w with session := s' } p (l ++ [(key, w.session.next)]) := by
  refine ⟨h.tracks.append_next hq ho hid ht hc, fun e he => ?_, ?_⟩
  · rcases List.mem_append.1 he with he | he
    · exact h.handles e he
    · exact ⟨_, congrArg Prod.snd (List.mem_singleton.1 he)⟩
  · rw [List.map_append, List.nodup_append]
    refine ⟨h.distinct, by simp, ?_⟩
    intro x hx y hy
    rw [List.map_singleton, List.mem_singleton] at hy
    rintro rfl
    rw [hy] at hx
    exact h.next_not_mem hid hx

/-- The exchange hands out only handles that are the values of entries with equal keys. -/
def Backed (p : Policy) (w : Pass) (l : Ledger) (x : Exchange) : Prop :=
  ∀ key id, x.Gives key (.handle id) →
    ∃ e ∈ l, e.2 = .handle id ∧ (w.view p).sameKey e.1 key

theorem backed_of_entry? {x : Exchange} {key : Key} {e : Key × Value}
    (hx : ∀ k value, x.Gives k value → k = key ∧ value = e.2)
    (he : l.entry? (w.view p) key = some e) : Backed p w l x := by
  intro k id hg
  obtain ⟨rfl, hv⟩ := hx k _ hg
  exact ⟨e, Ledger.mem_of_entry? he, hv.symm, Ledger.sameKey_of_entry? he⟩

theorem Backed.after {x : Exchange} {r : Request} {l' : Ledger} (h : Backed p w l x)
    (hl : l <+: l') : Backed p (w.after p r) l' x := by
  intro key id hg
  obtain ⟨e, he, hv, hk⟩ := h key id hg
  exact ⟨e, hl.subset he, hv, w.sameKey_after p r hk⟩

theorem Enumerates.number (h : w.Enumerates p l) (key : Key) :
    ∃ l', (w.after p (.number key)).Enumerates p l' ∧ l <+: l' ∧
      Backed p (w.after p (.number key)) l' (w.exchange p (.number key)) := by
  have hn := h.tracks.number key
  simp only [Pass.after, exchange, serve]
  generalize w.session.number (w.view p) key = o at hn ⊢
  cases hn with
  | refused hk =>
    exact ⟨l, h, List.prefix_rfl, by rintro k id ⟨⟩⟩
  | constant hq hc =>
    exact ⟨l, h, List.prefix_rfl, by rintro k id ⟨⟩⟩
  | @known q e t hq hb hk he ht =>
    refine ⟨l, h.congr rfl ht (Nat.le_refl _), List.prefix_rfl, ?_⟩
    exact backed_of_entry? (by rintro k value ⟨⟩; exact ⟨rfl, rfl⟩) he
  | @created q t hq hb hk he hid ht =>
    have ho := (NodeKind.binding_eq_recorded_iff.1 hb).2
    refine ⟨l ++ [(key, w.session.next)], h.append_next hq ho hid ht (Array.size_push _),
      List.prefix_append _ _, ?_⟩
    rintro k id hg
    cases hg
    exact ⟨(key, w.session.next), by simp, rfl, View.sameKey_self key⟩
  | @unbindable q t hq ho hid ht =>
    refine ⟨l, h.congr rfl ht ?_, List.prefix_rfl, by rintro k id ⟨⟩⟩
    simp
  | exhausted hk he hid ht =>
    exact ⟨l, h.congr rfl ht (Nat.le_refl _), List.prefix_rfl, by rintro k id ⟨⟩⟩

theorem Enumerates.valueOf (h : w.Enumerates p l) (key : Key) :
    (w.after p (.valueOf key)).Enumerates p l ∧
      Backed p (w.after p (.valueOf key)) l (w.exchange p (.valueOf key)) := by
  simp only [Pass.after, exchange, serve]
  cases hk : (w.view p).hashFault? key.node with
  | some fault =>
    rw [Session.valueOf_fault h.tracks.holds hk]
    exact ⟨h, by rintro k id ⟨⟩⟩
  | none =>
    obtain ⟨q, hq, _⟩ := View.hashFault?_eq_none_iff.1 hk
    by_cases hc : q.op.kind = .constant
    · rw [Session.valueOf_constant hq hc]
      exact ⟨h, by rintro k id ⟨⟩⟩
    · obtain ⟨t, ht, h'⟩ := Session.find_eq h.tracks.holds hk
      rw [Session.valueOf_eq_find hq hc, ht, Ledger.find]
      refine ⟨h.congr rfl h' (Nat.le_refl _), ?_⟩
      cases he : l.entry? (w.view p) key with
      | none => rintro k id ⟨⟩
      | some e => exact backed_of_entry? (by rintro k value ⟨⟩; exact ⟨rfl, rfl⟩) he

/-- A request that defines no value by hand adds at most one entry, at the end, and is answered
with the value of an entry. -/
theorem Enumerates.serve (h : w.Enumerates p l) {r : Request}
    (hr : ∀ key value, r ≠ .define key value) :
    ∃ l', (w.after p r).Enumerates p l' ∧ l <+: l' ∧
      Backed p (w.after p r) l' (w.exchange p r) := by
  cases r with
  | number key => exact h.number key
  | define key value => exact absurd rfl (hr key value)
  | valueOf key =>
    obtain ⟨h', hb⟩ := h.valueOf key
    exact ⟨l, h', List.prefix_rfl, hb⟩
  | edit e =>
    exact ⟨l, h.extend (w.arena.extends_edit e), List.prefix_rfl, by rintro k id ⟨⟩⟩
  | record n value =>
    obtain ⟨ha, ht, hc⟩ := holds_after h.tracks (r := .record n value) rfl
    exact ⟨l, h.congr ha ht hc, List.prefix_rfl, by rintro k id hg; cases hg⟩
  | allocate ty =>
    obtain ⟨ha, ht, hc⟩ := holds_after h.tracks (r := .allocate ty) rfl
    exact ⟨l, h.congr ha ht hc, List.prefix_rfl, by rintro k id hg; cases hg⟩
  | find key =>
    obtain ⟨ha, ht, hc⟩ := holds_after h.tracks (r := .find key) rfl
    exact ⟨l, h.congr ha ht hc, List.prefix_rfl, by rintro k id ⟨⟩⟩
  | hashKey key =>
    obtain ⟨ha, ht, hc⟩ := holds_after h.tracks (r := .hashKey key) rfl
    exact ⟨l, h.congr ha ht hc, List.prefix_rfl, by rintro k id ⟨⟩⟩
  | _ => exact ⟨l, h, List.prefix_rfl, by rintro k id ⟨⟩⟩

/-- At the end of a run that defines no values by hand, the handles of the entries are different, and
each handle that was handed out is that of an entry with an equal key. -/
theorem run_enumerates (a : Arena) (settings : Settings) (p : Policy) {requests : List Request}
    (hr : ∀ key value, .define key value ∉ requests) :
    ∃ l, ((start a settings).run p requests).2.Enumerates p l ∧
      ∀ x ∈ ((start a settings).run p requests).1,
        Backed p ((start a settings).run p requests).2 l x := by
  refine run_induction (P := fun past w => ∃ l, w.Enumerates p l ∧ ∀ x ∈ past, Backed p w l x)
    ⟨[], enumerates_start a settings p, by simp⟩ ?_
  rintro past w r hmem ⟨l, h, hpast⟩
  have hdef : ∀ key value, r ≠ .define key value := by
    rintro key value rfl
    exact hr key value hmem
  obtain ⟨l', h', hl, hnew⟩ := h.serve hdef
  refine ⟨l', h', fun x hx => ?_⟩
  rcases List.mem_append.1 hx with hx | hx
  · exact (hpast x hx).after hl
  · rw [List.mem_singleton.1 hx]
    exact hnew

end Pass

end ValueNumbering
