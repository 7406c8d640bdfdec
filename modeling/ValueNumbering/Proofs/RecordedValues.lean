import Mathlib.Data.Finset.Card
import ValueNumbering.Proofs.StableAnswers
import ValueNumbering.Proofs.Stores

/-!
# The last value given to a node is the recorded one

Three requests give a value to a node: the key of the node is numbered, it is defined by hand, or the
value is recorded. What a session has recorded for a node is the value that the latest of these gave to
this very node, whatever was done to other nodes in between, equal ones included, and whatever failed
(`Pass.recorded_eq_latest`). Constants are their own values, and nothing is recorded for them.

`Exchange.binding?` reads off an exchange which node was given which value, and `latest` looks for a node
in a history of such bindings from the end. `Pass.Writes` lists what a request can do to the recorded
values, and `Pass.writes_after` says that there is nothing else. The invariant of a run is `Pass.Mirrors`.
-/

namespace ValueNumbering

/-! ### Histories of bindings -/

/-- The node that was given a value in the exchange, and the value. A request that ends in a fault gives
none. -/
def Exchange.binding? (x : Exchange) : Option (NodeId × Value) :=
  match x.request, x.answer with
  | .number key, .value (.ok value) => some (key.node, value)
  | .define key value, .done (.ok ()) => some (key.node, value)
  | .record n value, .done (.ok ()) => some (n, value)
  | _, _ => none

theorem Exchange.binding?_of_asks {r : Request} (hr : r.asks) (answer : Answer)
    (events : List Event) : binding? ⟨r, answer, events⟩ = none := by
  cases r with
  | number key => simp [Request.asks] at hr
  | define key value => simp [Request.asks] at hr
  | record n value => simp [Request.asks] at hr
  | _ => rfl

/-- The nodes that were given values in a run, and the values, in order. -/
def bindings (said : List Exchange) : List (NodeId × Value) := said.filterMap Exchange.binding?

/-- The value that was given to a node last. -/
def latest (history : List (NodeId × Value)) (n : NodeId) : Option Value :=
  (history.reverse.find? fun b => b.1 = n).map (·.2)

theorem latest_append (history : List (NodeId × Value)) (m : NodeId) (value : Value) (n : NodeId) :
    latest (history ++ [(m, value)]) n = if m = n then some value else latest history n := by
  unfold latest
  rw [List.reverse_append, List.reverse_singleton, List.singleton_append, List.find?_cons]
  by_cases h : m = n <;> simp [h]

theorem latest_isSome_iff {history : List (NodeId × Value)} {n : NodeId} :
    (latest history n).isSome ↔ n ∈ history.map (·.1) := by
  simp [latest, List.find?_isSome]

theorem bindings_append (past : List Exchange) (x : Exchange) :
    bindings (past ++ [x]) = bindings past ++ x.binding?.toList := by
  rw [bindings, List.filterMap_append]
  cases h : x.binding? <;> simp [bindings, h]

/-! ### One request -/

namespace Session

variable {s : Session} {v : View} {n : NodeId} {value : Value}

/-- A node can carry a value if it is not of kind `other`, if the value is its own in case it is a
constant, and if the value is one of the session. -/
theorem bindingFor_eq_ok_iff {binding : Binding} :
    s.bindingFor v.arena n value = .ok binding ↔ ∃ q, v.arena.node? n = some q ∧
      binding = q.op.kind.binding ∧ q.op.kind ≠ .other ∧
      (q.op.kind = .constant → value = .const n) ∧ s.Knows value := by
  constructor
  · intro hb
    cases hq : v.arena.node? n with
    | none => simp [bindingFor, Arena.node, hq] at hb
    | some q =>
      exact ⟨q, rfl, eq_binding_of_bindingFor hb hq, kind_ne_other_of_bindingFor hb hq,
        eq_const_of_bindingFor hb hq, knows_of_bindingFor hb⟩
  · rintro ⟨q, hq, rfl, hother, hconst, hknows⟩
    by_cases hc : q.op.kind = .constant
    · obtain rfl := hconst hc
      simp [bindingFor, Arena.node, hq, hc, NodeKind.binding]
    · have hrec := NodeKind.binding_eq_recorded_iff.2 ⟨hc, hother⟩
      have hbind : s.bindingFor v.arena (Key.mk n []).node value = .ok .recorded :=
        bindingFor_of_recorded hq hrec hknows
      rw [hrec]
      exact hbind

end Session

namespace Pass

variable {w : Pass} {p : Policy} {l : Ledger}

/-- What a request does to the recorded values, by the binding that can be read off the exchange. -/
inductive Writes (w : Pass) : Option (NodeId × Value) → Std.TreeMap NodeId Value → Prop
  /-- No node is given a value. -/
  | nothing : Writes w none w.session.bound
  /-- A constant is given its own value, which need not be recorded. -/
  | constant {n : NodeId} {q : Node} {value : Value} (hq : w.arena.node? n = some q)
      (hc : q.op.kind = .constant) : Writes w (some (n, value)) w.session.bound
  /-- The value is recorded. -/
  | recorded {n : NodeId} {q : Node} {value : Value} (hq : w.arena.node? n = some q)
      (hb : q.op.kind.binding = .recorded) :
      Writes w (some (n, value)) (w.session.bound.insert n value)

theorem writes_write {n : NodeId} {value : Value} {binding : Binding}
    (hb : w.session.bindingFor (w.view p).arena n value = .ok binding) :
    w.Writes (some (n, value))
      (if binding = .recorded then w.session.bound.insert n value else w.session.bound) := by
  obtain ⟨q, hq, rfl, hother, -, -⟩ := Session.bindingFor_eq_ok_iff.1 hb
  by_cases hc : q.op.kind = .constant
  · rw [if_neg (by simp [hc, NodeKind.binding])]
    exact .constant hq hc
  · have hrec := NodeKind.binding_eq_recorded_iff.2 ⟨hc, hother⟩
    rw [if_pos hrec]
    exact .recorded hq hrec

theorem writes_number {key : Key} {o : Outcome Value}
    (ho : w.session.Numbers (w.view p) l key o) :
    w.Writes (Exchange.binding? ⟨.number key, .value o.result, o.events⟩) o.session.bound := by
  cases ho with
  | constant hq hc => exact .constant hq hc
  | known hq hb hk he ht => exact .recorded hq hb
  | created hq hb hk he hid ht => exact .recorded hq hb
  | _ => exact .nothing

theorem writes_define {key : Key} {value : Value} {o : Outcome Unit}
    (ho : w.session.Defines (w.view p) l key value o) :
    w.Writes (Exchange.binding? ⟨.define key value, .done o.result, o.events⟩) o.session.bound := by
  cases ho with
  | unbound hb => exact .nothing
  | refused hk => exact .nothing
  | done hb hk ht =>
    rw [Session.bound_join, Session.bound_write]
    exact writes_write hb

/-- A request changes the recorded values only in the ways that `Writes` lists. -/
theorem writes_after (h : w.session.Tracks (w.view p) l) (r : Request) :
    w.Writes (w.exchange p r).binding? (w.after p r).session.bound := by
  have hs := serves h r
  simp only [exchange, after]
  generalize w.serve p r = o at hs ⊢
  cases hs with
  | numbered key ho => exact writes_number ho
  | defined key value ho => exact writes_define ho
  | recorded n value hb =>
    rw [Session.bound_write]
    exact writes_write hb
  | asked hr ht =>
    rw [Exchange.binding?_of_asks hr]
    exact .nothing
  | _ => exact .nothing

/-! ### Runs -/

/-- What is recorded is what was given last, except that nothing is recorded for constants. -/
def Agrees (v : View) (history : List (NodeId × Value)) (bound : Std.TreeMap NodeId Value) : Prop :=
  ∀ n : NodeId, bound[n]? = if v.isConstant n then none else latest history n

theorem Writes.index_lt {binding? : Option (NodeId × Value)} {bound : Std.TreeMap NodeId Value}
    (h : w.Writes binding? bound) : ∀ b ∈ binding?, b.1.index < w.arena.size := by
  cases h with
  | nothing => simp
  | constant hq hc => simpa using Arena.index_lt_of_node hq
  | recorded hq hb => simpa using Arena.index_lt_of_node hq

theorem Writes.agrees {binding? : Option (NodeId × Value)} {bound : Std.TreeMap NodeId Value}
    {history : List (NodeId × Value)} (h : w.Writes binding? bound)
    (ha : Agrees (w.view p) history w.session.bound) :
    Agrees (w.view p) (history ++ binding?.toList) bound := by
  intro n
  cases h with
  | nothing => simpa using ha n
  | @constant m q value hq hc =>
    rw [Option.toList_some, latest_append, ha n]
    by_cases hmn : m = n
    · subst hmn
      have hconst : (w.view p).isConstant m := (View.isConstant_iff hq).2 hc
      simp [hconst]
    · simp [hmn]
  | @recorded m q value hq hb =>
    rw [Option.toList_some, latest_append, Std.TreeMap.getElem?_insert, ha n]
    simp only [Std.compare_eq_iff_eq]
    by_cases hmn : m = n
    · subst hmn
      have hconst : ¬ (w.view p).isConstant m := by
        rw [View.isConstant_iff hq]
        exact (NodeKind.binding_eq_recorded_iff.1 hb).1
      simp [hconst]
    · simp [hmn]

/-- A history of nodes that exist is not touched by new nodes, constants or not. -/
theorem Agrees.extend {a b : Arena} {history : List (NodeId × Value)}
    {bound : Std.TreeMap NodeId Value} (h : Agrees ⟨a, p⟩ history bound)
    (hlt : ∀ c ∈ history, c.1.index < a.size) (hab : a.Extends b) : Agrees ⟨b, p⟩ history bound := by
  intro n
  rw [h n]
  by_cases hn : n.index < a.size
  · rw [View.isConstant_extend hab hn]
  · have hnone : latest history n = none := by
      rw [← Option.not_isSome_iff_eq_none, latest_isSome_iff, List.mem_map]
      rintro ⟨c, hc, rfl⟩
      exact hn (hlt c hc)
    simp [hnone]

/-- The recorded values agree with the bindings of the past. -/
structure Mirrors (p : Policy) (past : List Exchange) (w : Pass) : Prop where
  index_lt : ∀ b ∈ bindings past, b.1.index < w.arena.size
  agrees : Agrees (w.view p) (bindings past) w.session.bound

theorem mirrors_start (a : Arena) (settings : Settings) (p : Policy) :
    Mirrors p [] (start a settings) := by
  refine ⟨by simp [bindings], fun n => ?_⟩
  have hnone : latest (bindings []) n = none := rfl
  rw [hnone, ite_self]
  exact Std.TreeMap.getElem?_emptyc

theorem Mirrors.after {past : List Exchange} (h : Mirrors p past w)
    (ht : w.session.Tracks (w.view p) l) (r : Request) :
    Mirrors p (past ++ [w.exchange p r]) (w.after p r) := by
  have hw := writes_after ht r
  have hgrown := w.extends_after p r
  have hlt : ∀ b ∈ bindings (past ++ [w.exchange p r]), b.1.index < w.arena.size := by
    intro b hb
    rw [bindings_append, List.mem_append, Option.mem_toList] at hb
    exact hb.elim (h.index_lt b) (hw.index_lt b)
  refine ⟨fun b hb => hgrown.index_lt (hlt b hb), Agrees.extend ?_ hlt hgrown⟩
  rw [bindings_append]
  exact hw.agrees h.agrees

theorem run_mirrors (a : Arena) (settings : Settings) (p : Policy) (requests : List Request) :
    Mirrors p ((start a settings).run p requests).1 ((start a settings).run p requests).2 :=
  tracked_induction (mirrors_start a settings p) fun _ _ _ r _ ht h => h.after ht r

/-! ### What is recorded -/

theorem Mirrors.recorded_eq {past : List Exchange} (h : Mirrors p past w) {n : NodeId} {q : Node}
    (hq : w.arena.node? n = some q) (ho : q.op.kind ≠ .other) :
    w.session.recorded w.arena n =
      .ok (if q.op.kind = .constant then some (.const n) else latest (bindings past) n) := by
  by_cases hc : q.op.kind = .constant
  · simp only [Session.recorded, Arena.node, hq, hc, NodeKind.binding, if_true]
  · have hrec := NodeKind.binding_eq_recorded_iff.2 ⟨hc, ho⟩
    have hconst : ¬ (w.view p).isConstant n := by rwa [View.isConstant_iff hq]
    have hbound := h.agrees n
    rw [if_neg hconst] at hbound
    simp only [Session.recorded, Arena.node, hq, hrec, hbound, if_neg hc]

/-- The nodes with a recorded value are those that were given one and are not constants. -/
theorem Mirrors.mem_bound_iff {past : List Exchange} (h : Mirrors p past w) {n : NodeId} :
    n ∈ w.session.bound ↔ n ∈ (bindings past).map (·.1) ∧ ¬ (w.view p).isConstant n := by
  rw [Std.TreeMap.mem_iff_isSome_getElem?, h.agrees n, ← latest_isSome_iff]
  by_cases hc : (w.view p).isConstant n <;> simp [hc]

theorem Mirrors.size_eq {past : List Exchange} (h : Mirrors p past w) :
    w.session.bound.size =
      (((bindings past).map (·.1)).toFinset.filter fun n => ¬ (w.view p).isConstant n).card := by
  rw [← Std.TreeMap.length_keys, ← List.toFinset_card_of_nodup (Arena.Memo.nodup_keys _)]
  congr 1
  ext n
  rw [List.mem_toFinset, Std.TreeMap.mem_keys, h.mem_bound_iff, Finset.mem_filter,
    List.mem_toFinset]

theorem recorded_after (h : w.session.Tracks (w.view p) l) {r : Request} {n : NodeId}
    (hn : n.index < w.arena.size) (hr : ∀ value, (w.exchange p r).binding? ≠ some (n, value)) :
    (w.after p r).session.recorded (w.after p r).arena n = w.session.recorded w.arena n := by
  have hbound : (w.after p r).session.bound[n]? = w.session.bound[n]? := by
    have hw := writes_after h r
    generalize (w.exchange p r).binding? = b at hw hr
    generalize (w.after p r).session.bound = bound at hw ⊢
    cases hw with
    | nothing => rfl
    | constant hq hc => rfl
    | @recorded m q value hq hb =>
      have hne : m ≠ n := by
        rintro rfl
        exact hr value rfl
      rw [Std.TreeMap.getElem?_insert, if_neg (by simpa using hne)]
  obtain ⟨q, hq⟩ := Arena.exists_node hn
  have hq' : (w.after p r).arena.node? n = some q := (w.extends_after p r).node? hq
  simp only [Session.recorded, Arena.node, hq, hq', hbound]

/-- At every point of every run, the value recorded for a node that can have one is the one that was
given to it last by a request that succeeded. A request on other nodes, or one that fails, does not
change it. The summary counts the nodes that were given a value, apart from constants, which are their
own values. -/
theorem recorded_eq_latest (a : Arena) (settings : Settings) (p : Policy)
    (requests : List Request) :
    let said := ((start a settings).run p requests).1
    let w := ((start a settings).run p requests).2
    (∀ n q, w.arena.node? n = some q → q.op.kind ≠ .other →
      w.session.recorded w.arena n =
        .ok (if q.op.kind = .constant then some (.const n) else latest (bindings said) n)) ∧
    (∀ n r, n.index < w.arena.size → (∀ value, (w.exchange p r).binding? ≠ some (n, value)) →
      (w.after p r).session.recorded (w.after p r).arena n = w.session.recorded w.arena n) ∧
    ∃ counts, (w.exchange p .summary).answer = .summary counts ∧
      (w.exchange p .summary).events = [.closed counts] ∧
      counts.associations = (((bindings said).map (·.1)).toFinset.filter
        fun n => ¬ (w.view p).isConstant n).card := by
  intro said w
  have hw : Mirrors p said w := run_mirrors a settings p requests
  obtain ⟨l, ht⟩ := run_tracks a settings p requests
  refine ⟨fun n q hq ho => hw.recorded_eq hq ho, fun n r hn hr => recorded_after ht hn hr, ?_⟩
  exact ⟨w.session.summary, rfl, rfl, hw.size_eq⟩

end Pass

end ValueNumbering
