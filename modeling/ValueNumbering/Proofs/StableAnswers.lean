import ValueNumbering.Proofs.FiniteMap
import ValueNumbering.Proofs.KnownValues

/-!
# Answers that last

While no types are declared, what a session has once said about a key it says again.

* `Pass.answers_stable`: in a run that defines no values by hand, a key keeps the first value that it
  was given, whether it is numbered again or asked for, and whatever else is requested in between.
* `Pass.last_write_lasts`: a value defined by hand is the answer from then on, until an equal key is
  defined. Numbering, of equal keys too, does not change it.

Types need not be transitive, so a later entry may well have a key equal to one that is known, and a
later definition may replace an entry that equals it. The reason that nothing is lost is the order of
the entries. Numbering adds entries at the end, behind the first match (`Pass.Fixes.after`). Defining a
key that differs from the one in question and from its first match moves neither
(`Ledger.entry?_put_of_not`).
-/

namespace ValueNumbering

/-! ### The first match -/

/-- Overwriting an element changes neither the first match of another search, if it is not the one
that goes, nor what stands before it, if the new element is no match. -/
theorem find?_upsert_of_find? {α : Type} {p q : α → Bool} {x a : α} {l : List α}
    (h : l.find? q = some a) (ha : ¬ p a) (hx : ¬ q x) : (upsert p x l).find? q = some a := by
  induction l with
  | nil => simp at h
  | cons b l ih =>
    rw [upsert]
    by_cases hb : q b
    · obtain rfl : b = a := by simpa [hb] using h
      rw [if_neg ha, List.find?_cons_of_pos hb]
    · rw [List.find?_cons_of_neg hb] at h
      split
      next => rwa [List.find?_cons_of_neg hx]
      next =>
        rw [List.find?_cons_of_neg hb]
        exact ih h

theorem View.isConstant_extend {a b : Arena} {p : Policy} {n : NodeId} (hab : a.Extends b)
    (hn : n.index < a.size) : (View.mk b p).isConstant n = (View.mk a p).isConstant n := by
  simp only [isConstant, hab.node?_eq hn]

theorem View.Valued.extend {a b : Arena} {p : Policy} {n : NodeId} (hab : a.Extends b)
    (h : (View.mk a p).Valued n) : (View.mk b p).Valued n := by
  obtain ⟨q, hq, hval⟩ := h
  exact ⟨q, hab.node? hq, hval⟩

theorem View.Valued.index_lt {v : View} {n : NodeId} (h : v.Valued n) : n.index < v.arena.size :=
  index_lt_of_hashFault? h.hashFault?

theorem View.sameKey_eq_true_iff {v : View} {k l : Key} :
    v.sameKey k l ↔ v.equalKeys k l = .ok true := by
  unfold sameKey
  split
  next same h => simp [h]
  next fault h => simp [h]

namespace Ledger

variable {l : Ledger} {v : View} {key k : Key} {value : Value}

theorem entry?_put_self (l : Ledger) (v : View) (key : Key) (value : Value) :
    entry? (l.put v key value) v key = some (key, value) :=
  find?_upsert_of_pos (p := fun e : Key × Value => v.sameKey e.1 key) (View.sameKey_self key)

/-- Giving a value to another key, which does not equal the first match either, keeps this match. -/
theorem entry?_put_of_not {e : Key × Value} (he : l.entry? v key = some e)
    (hek : ¬ v.sameKey e.1 k) (hk : ¬ v.sameKey k key) :
    entry? (l.put v k value) v key = some e :=
  find?_upsert_of_find? he hek hk

section grown

variable {a b : Arena} {p : Policy} {t : Table}

/-- While no types are declared, the first match of an old key stays the same. -/
theorem entry?_extend (h : t.Holds ⟨a, p⟩ l) (hab : a.Extends b) (halias : b.aliases = a.aliases)
    (hk : key.node.index < a.size) : l.entry? ⟨b, p⟩ key = l.entry? ⟨a, p⟩ key := by
  unfold entry?
  rw [← List.head?_filter, ← List.head?_filter]
  congr 1
  refine List.filter_congr fun e he => ?_
  exact Table.sameKey_eq hab halias (View.index_lt_of_hashFault? (h.hashable e he)) hk

theorem value?_extend (h : t.Holds ⟨a, p⟩ l) (hab : a.Extends b)
    (halias : b.aliases = a.aliases) (hk : key.node.index < a.size) :
    l.value? ⟨b, p⟩ key = l.value? ⟨a, p⟩ key := by
  rw [value?, value?, find, find, entry?_extend h hab halias hk, View.isConstant_extend hab hk]

end grown

end Ledger

/-- What is said about a key that is not refused: its value, if it has one. -/
theorem Session.valueOf_eq {s : Session} {v : View} {l : Ledger} {key : Key}
    (h : s.table.Holds v l) (hk : v.hashFault? key.node = none) :
    ∃ t, s.valueOf v key = (.ok (l.value? v key), { s with table := t }) ∧ t.Holds v l := by
  obtain ⟨q, hq, -⟩ := View.hashFault?_eq_none_iff.1 hk
  by_cases hc : q.op.kind = .constant
  · rw [valueOf_constant hq hc, Ledger.value?_of_constant ((View.isConstant_iff hq).2 hc)]
    exact ⟨s.table, rfl, h⟩
  · rw [valueOf_eq_find hq hc, Ledger.value?_eq_find (mt (View.isConstant_iff hq).1 hc)]
    exact find_eq h hk

/-! ### Values that are fixed -/

namespace Exchange

/-- The exchange says that the key has the value, if it is about the key at all. -/
def Confirms (x : Exchange) (key : Key) (value : Value) : Prop :=
  (x.request = .number key → x.answer = .value (.ok value)) ∧
    (x.request = .valueOf key → x.answer = .value? (.ok (some value)))

theorem Gives.request_answer {x : Exchange} {key : Key} {value : Value} (h : x.Gives key value) :
    (x.request = .number key ∧ x.answer = .value (.ok value)) ∨
      (x.request = .valueOf key ∧ x.answer = .value? (.ok (some value))) := by
  cases h with
  | number key value events => exact .inl ⟨rfl, rfl⟩
  | valueOf key value events => exact .inr ⟨rfl, rfl⟩

end Exchange

namespace Pass

variable {w : Pass} {p : Policy} {l l' : Ledger} {key : Key} {value : Value} {r : Request}

/-- The key can have a value, and by the entries of the ledger it has the given one. -/
structure Fixes (w : Pass) (p : Policy) (l : Ledger) (key : Key) (value : Value) : Prop where
  valued : (w.view p).Valued key.node
  value?_eq : l.value? (w.view p) key = some value

theorem Fixes.valueOf (h : w.session.Tracks (w.view p) l) (hf : w.Fixes p l key value) :
    (w.exchange p (.valueOf key)).answer = .value? (.ok (some value)) := by
  obtain ⟨t, ht, -⟩ := Session.valueOf_eq h.holds hf.valued.hashFault?
  simp only [exchange, serve, ht, hf.value?_eq]

theorem Fixes.number (h : w.session.Tracks (w.view p) l) (hf : w.Fixes p l key value) :
    (w.exchange p (.number key)).answer = .value (.ok value) := by
  have hleft : l.value? (w.view p) key = none → w.session.allocated < identLimit := by
    rw [hf.value?_eq]
    simp
  obtain ⟨value', l', ha, -, hanswer⟩ := tracks_number_valued h hf.valued hleft
  have hsame := Ledger.value?_mono ha.grown hf.value?_eq
  rw [ha.value?] at hsame
  rw [hanswer, Option.some.inj hsame]

theorem Fixes.confirms (h : w.session.Tracks (w.view p) l) (hf : w.Fixes p l key value)
    (r : Request) : (w.exchange p r).Confirms key value := by
  constructor
  · intro hr
    obtain rfl : r = .number key := hr
    exact hf.number h
  · intro hr
    obtain rfl : r = .valueOf key := hr
    exact hf.valueOf h

/-- A value stays fixed while no types are declared and entries are added at the end only. -/
theorem Fixes.after (h : w.session.Tracks (w.view p) l) (hf : w.Fixes p l key value)
    (hr : ∀ s t, r ≠ .edit (.declare s t)) (hl : l <+: l') :
    (w.after p r).Fixes p l' key value := by
  have hgrown := w.extends_after p r
  refine ⟨hf.valued.extend hgrown, Ledger.value?_mono hl ?_⟩
  have hsame := Ledger.value?_extend h.holds hgrown (w.aliases_after p hr) hf.valued.index_lt
  exact hsame.trans hf.value?_eq

theorem fixes_number (h : w.session.Tracks (w.view p) l) (key : Key) :
    ∃ l', l <+: l' ∧ (w.after p (.number key)).session.Tracks (w.view p) l' ∧
      ∀ k value, (w.exchange p (.number key)).Gives k value →
        (w.after p (.number key)).Fixes p l' k value := by
  have hgives : ∀ k value, (w.exchange p (.number key)).Gives k value →
      key = k ∧ (w.exchange p (.number key)).answer = .value (.ok value) := by
    intro k value hg
    rcases hg.request_answer with ⟨hr, hv⟩ | ⟨hr, -⟩
    · exact ⟨Request.number.inj hr, hv⟩
    · simp [exchange] at hr
  rcases tracks_number_answered h key with ⟨value, l', hval, ha, ht, hanswer⟩ |
    ⟨-, ht, fault, hanswer⟩
  · refine ⟨l', ha.grown, ht, fun k value' hg => ?_⟩
    obtain ⟨rfl, hv⟩ := hgives k value' hg
    obtain rfl : value = value' := by simpa [hanswer] using hv
    exact ⟨hval, ha.value?⟩
  · refine ⟨l, List.prefix_rfl, ht, fun k value' hg => ?_⟩
    obtain ⟨-, hv⟩ := hgives k value' hg
    simp [hanswer] at hv

theorem valued_of_value? (h : w.session.Tracks (w.view p) l)
    (hk : (w.view p).hashFault? key.node = none) (hv : l.value? (w.view p) key = some value) :
    (w.view p).Valued key.node := by
  obtain ⟨q, hq, hstmt⟩ := View.hashFault?_eq_none_iff.1 hk
  by_cases hc : (w.view p).isConstant key.node
  · have hkind := (View.isConstant_iff hq).1 hc
    exact ⟨q, hq, by simp [Op.producesValue, hkind]⟩
  · rw [Ledger.value?_eq_find hc, Ledger.find, Option.map_eq_some_iff] at hv
    obtain ⟨e, he, -⟩ := hv
    have hother := h.kind_ne_other_of_entry? he hq
    exact ⟨q, hq, by simp [Op.producesValue, hstmt, hother]⟩

theorem fixes_valueOf (h : w.session.Tracks (w.view p) l) {k : Key}
    (hg : (w.exchange p (.valueOf key)).Gives k value) : w.Fixes p l k value := by
  rcases hg.request_answer with ⟨hr, -⟩ | ⟨hr, hv⟩
  · simp [exchange] at hr
  · obtain rfl : key = k := Request.valueOf.inj hr
    cases hk : (w.view p).hashFault? key.node with
    | some fault => simp [exchange, serve, Session.valueOf_fault h.holds hk] at hv
    | none =>
      obtain ⟨t, ht, -⟩ := Session.valueOf_eq h.holds hk
      simp only [exchange, serve, ht, Answer.value?.injEq, Except.ok.injEq] at hv
      exact ⟨valued_of_value? h hk hv, hv⟩

/-- A request that defines no value by hand adds entries at the end only, and the values that it
returns are fixed from then on. -/
theorem fixes_serve (h : w.session.Tracks (w.view p) l) (hr : ∀ key value, r ≠ .define key value) :
    ∃ l', l <+: l' ∧ (w.after p r).session.Tracks ((w.after p r).view p) l' ∧
      ∀ key value, (w.exchange p r).Gives key value → (w.after p r).Fixes p l' key value := by
  cases hm : r.mayEnter with
  | false =>
    obtain ⟨ha, ht, hc⟩ := holds_after h hm
    have hview : (w.after p r).view p = w.view p := by rw [view, ha, view]
    refine ⟨l, List.prefix_rfl, ?_, fun key value hg => ?_⟩
    · rw [hview]
      exact h.congr ht hc
    · rcases hg.request_answer with ⟨rfl, -⟩ | ⟨rfl, -⟩
      · simp [Request.mayEnter] at hm
      · obtain ⟨hval, hv⟩ := fixes_valueOf h hg
        exact ⟨hval, hv⟩
  | true =>
    cases r with
    | edit e =>
      refine ⟨l, List.prefix_rfl, h.extend (w.arena.extends_edit e), fun key value hg => ?_⟩
      cases hg
    | number key => exact fixes_number h key
    | define key value => exact absurd rfl (hr key value)
    | _ => simp [Request.mayEnter] at hm

/-- What was said so far is settled: the present entries fix all values that were returned, and every
answer confirms the ones before it. -/
structure Stable (p : Policy) (past : List Exchange) (w : Pass) : Prop where
  fixed : ∃ l, w.session.Tracks (w.view p) l ∧
    ∀ x ∈ past, ∀ key value, x.Gives key value → w.Fixes p l key value
  confirmed : past.Pairwise fun x y => ∀ key value, x.Gives key value → y.Confirms key value

theorem stable_start (a : Arena) (settings : Settings) (p : Policy) :
    Stable p [] (start a settings) :=
  ⟨⟨[], Session.tracks_start settings _, by simp⟩, List.Pairwise.nil⟩

theorem Stable.serve {past : List Exchange} (h : Stable p past w)
    (hdef : ∀ key value, r ≠ .define key value) (hdecl : ∀ s t, r ≠ .edit (.declare s t)) :
    Stable p (past ++ [w.exchange p r]) (w.after p r) := by
  obtain ⟨l, ht, hfixed⟩ := h.fixed
  obtain ⟨l', hl, ht', hnew⟩ := fixes_serve ht hdef
  refine ⟨⟨l', ht', fun x hx key value hg => ?_⟩, ?_⟩
  · rcases List.mem_append.1 hx with hx | hx
    · exact (hfixed x hx key value hg).after ht hdecl hl
    · rw [List.mem_singleton.1 hx] at hg
      exact hnew key value hg
  · refine List.pairwise_append.2 ⟨h.confirmed, List.pairwise_singleton _ _, fun x hx y hy => ?_⟩
    rw [List.mem_singleton.1 hy]
    intro key value hg
    exact (hfixed x hx key value hg).confirms ht r

/-- In a run that neither defines values by hand nor declares types, each answer about a key is
confirmed by all later ones: whatever value a key has got by being numbered or asked for, numbering it
again returns this value, and so does asking for it. -/
theorem answers_stable (a : Arena) (settings : Settings) (p : Policy) (requests : List Request)
    (hdef : ∀ key value, .define key value ∉ requests)
    (hdecl : ∀ s t, .edit (.declare s t) ∉ requests) :
    ((start a settings).run p requests).1.Pairwise fun x y =>
      ∀ key value, x.Gives key value → y.Confirms key value := by
  have hrun : Stable p ((start a settings).run p requests).1
      ((start a settings).run p requests).2 := by
    refine run_induction (stable_start a settings p) fun past w r hmem h => h.serve ?_ ?_
    · rintro key value rfl
      exact hdef key value hmem
    · rintro s t rfl
      exact hdecl s t hmem
  exact hrun.confirmed

/-- The last of three loads is numbered before the second, which it equals, has an entry. Then comes
whatever can be asked, with a fault among it. -/
def crossedLoads : List Request :=
  [.number ⟨⟨1⟩, []⟩, .number ⟨⟨3⟩, []⟩, .number ⟨⟨2⟩, []⟩, .number ⟨⟨9⟩, []⟩,
    .edit (.push .load ⟨21⟩ [⟨0⟩] .empty), .allocate .int, .record ⟨3⟩ (.handle ⟨1⟩),
    .valueOf ⟨⟨3⟩, []⟩, .number ⟨⟨3⟩, []⟩]

/-- The last load keeps the value of the first, although the second entry has an equal key, too. -/
theorem crossedLoads_stable :
    (∀ key value, .define key value ∉ crossedLoads) ∧
      (∀ s t, .edit (.declare s t) ∉ crossedLoads) ∧
      (View.mk chainedLoads .full).equalKeys ⟨⟨2⟩, []⟩ ⟨⟨3⟩, []⟩ = .ok true ∧
      ⟨.number ⟨⟨3⟩, []⟩, .value (.ok (.handle ⟨0⟩)), []⟩ ∈
        ((start chainedLoads .standard).run .full crossedLoads).1 ∧
      ⟨.number ⟨⟨2⟩, []⟩, .value (.ok (.handle ⟨1⟩)), [.created (.handle ⟨1⟩) ⟨2⟩]⟩ ∈
        ((start chainedLoads .standard).run .full crossedLoads).1 ∧
      ((start chainedLoads .standard).run .full crossedLoads).1.Pairwise fun x y =>
        ∀ key value, x.Gives key value → y.Confirms key value := by
  have hdef : ∀ key value, .define key value ∉ crossedLoads := by simp [crossedLoads]
  have hdecl : ∀ s t, .edit (.declare s t) ∉ crossedLoads := by simp [crossedLoads]
  refine ⟨hdef, hdecl, by decide +kernel, by decide +kernel, by decide +kernel, ?_⟩
  exact answers_stable chainedLoads .standard .full crossedLoads hdef hdecl

/-! ### Values defined by hand -/

/-- The first entry with a key equal to the given one is its own, with the given value. -/
structure Leads (w : Pass) (p : Policy) (l : Ledger) (key : Key) (value : Value) : Prop where
  valued : (w.view p).Valued key.node
  entry?_eq : l.entry? (w.view p) key = some (key, value)
  eq_const : (w.view p).isConstant key.node → value = .const key.node

theorem Leads.fixes (h : w.Leads p l key value) : w.Fixes p l key value := by
  refine ⟨h.valued, ?_⟩
  by_cases hc : (w.view p).isConstant key.node
  · rw [Ledger.value?_of_constant hc, h.eq_const hc]
  · rw [Ledger.value?_eq_find hc, Ledger.find, h.entry?_eq]
    rfl

theorem leads_define (h : w.session.Tracks (w.view p) l)
    (hok : (w.exchange p (.define key value)).answer = .done (.ok ())) :
    ∃ l', (w.after p (.define key value)).session.Tracks (w.view p) l' ∧
      (w.after p (.define key value)).Leads p l' key value := by
  obtain ⟨l', he, h'⟩ := tracks_define h key value
  have hresult : (w.session.define (w.view p) key value).result = .ok () := by
    simpa [exchange, serve] using hok
  obtain ⟨binding, hb⟩ := Session.bindingFor_of_define hresult
  cases he with
  | nothing _ hr => exact absurd hok (hr key value rfl)
  | defined _ _ hk _ =>
    obtain ⟨q, hq, hstmt⟩ := View.hashFault?_eq_none_iff.1 hk
    have hother := Session.kind_ne_other_of_bindingFor hb hq
    refine ⟨_, h', ⟨q, hq, by simp [Op.producesValue, hstmt, hother]⟩,
      l.entry?_put_self (w.view p) key value, fun hc => ?_⟩
    exact Session.eq_const_of_bindingFor hb hq ((View.isConstant_iff hq).1 hc)

/-- A key leads to its value until types are declared or an equal key is given a value by hand. -/
theorem Leads.after (h : w.session.Tracks (w.view p) l) (hl : w.Leads p l key value)
    (he : w.Enters p l r l') (hr : ∀ s t, r ≠ .edit (.declare s t))
    (hother : ∀ k value', r = .define k value' → (w.exchange p r).answer = .done (.ok ()) →
      ¬ (w.view p).sameKey key k) :
    (w.after p r).Leads p l' key value := by
  have hgrown := w.extends_after p r
  refine ⟨hl.valued.extend hgrown, ?_, fun hc => hl.eq_const ?_⟩
  · cases he with
    | nothing _ _ =>
      have hsame := Ledger.entry?_extend h.holds hgrown (w.aliases_after p hr) hl.valued.index_lt
      exact hsame.trans hl.entry?_eq
    | numbered k hk hnone => exact (List.prefix_append l _).find?_eq_some hl.entry?_eq
    | defined k value' hk hok =>
      have hne := hother k value' rfl hok
      refine Ledger.entry?_put_of_not hl.entry?_eq hne ?_
      rwa [View.sameKey_comm]
  · rw [← hc]
    exact (View.isConstant_extend hgrown hl.valued.index_lt).symm

/-- Once a key was given a value by hand, asking for it returns this value, right then and all through
any later requests that declare no types and give no value by hand to an equal key. -/
theorem last_write_lasts (a : Arena) (settings : Settings) (p : Policy) (before : List Request)
    (key : Key) (value : Value) (later : List Request)
    (hdecl : ∀ s t, .edit (.declare s t) ∉ later) :
    let w := ((start a settings).run p before).2
    let now := fun rs => ((w.after p (.define key value)).run p rs).2
    (w.exchange p (.define key value)).answer = .done (.ok ()) →
    (∀ rs k value', rs ++ [.define k value'] <+: later →
      ((now rs).exchange p (.define k value')).answer = .done (.ok ()) →
      ((now rs).view p).equalKeys key k ≠ .ok true) →
    ∀ rs, rs <+: later →
      ((now rs).exchange p (.valueOf key)).answer = .value? (.ok (some value)) := by
  intro w now hok hother rs hrs
  obtain ⟨l, h⟩ := run_tracks a settings p before
  have hlead : ∃ l, (now rs).session.Tracks ((now rs).view p) l ∧
      (now rs).Leads p l key value := by
    refine prefix_induction (P := fun rs => ∃ l, (now rs).session.Tracks ((now rs).view p) l ∧
      (now rs).Leads p l key value) (leads_define h hok) ?_ rs hrs
    rintro rs r hpre ⟨l, hnow, hl⟩
    have hnext : now (rs ++ [r]) = (now rs).after p r := run_concat _ p rs r
    have hr : ∀ s t, r ≠ .edit (.declare s t) := by
      rintro s t rfl
      exact hdecl s t (hpre.subset (by simp))
    obtain ⟨l', he, h'⟩ := tracks_after hnow r
    rw [hnext]
    refine ⟨l', h', hl.after hnow he hr ?_⟩
    rintro k value' rfl hdone
    rw [View.sameKey_eq_true_iff]
    exact hother rs k value' hpre hdone
  obtain ⟨l, hnow, hl⟩ := hlead
  exact hl.fixes.valueOf hnow

/-- The last of three loads has an entry, and there is one more value. -/
def beforeWrite : List Request := [.number ⟨⟨3⟩, []⟩, .allocate .int]

/-- The second load is given a value, the last is numbered again, and the first is to get a value that
does not exist. -/
def afterWrite : List Request :=
  [.define ⟨⟨2⟩, []⟩ (.handle ⟨0⟩), .number ⟨⟨3⟩, []⟩, .define ⟨⟨1⟩, []⟩ (.handle ⟨9⟩)]

/-- The first load keeps the value that it was given in place of the last, although the last equals
the second, which is given another value later. -/
theorem firstLoad_write_lasts :
    let w := ((start chainedLoads .standard).run .full beforeWrite).2
    (∀ s t, .edit (.declare s t) ∉ afterWrite) ∧
      (w.exchange .full (.define ⟨⟨1⟩, []⟩ (.handle ⟨1⟩))).answer = .done (.ok ()) ∧
      (((w.after .full (.define ⟨⟨1⟩, []⟩ (.handle ⟨1⟩))).run .full afterWrite).2.exchange .full
        (.valueOf ⟨⟨1⟩, []⟩)).answer = .value? (.ok (some (.handle ⟨1⟩))) := by
  intro w
  have hdecl : ∀ s t, .edit (.declare s t) ∉ afterWrite := by simp [afterWrite]
  have hok : (w.exchange .full (.define ⟨⟨1⟩, []⟩ (.handle ⟨1⟩))).answer = .done (.ok ()) := by
    decide +kernel
  refine ⟨hdecl, hok, last_write_lasts chainedLoads .standard .full beforeWrite ⟨⟨1⟩, []⟩
    (.handle ⟨1⟩) afterWrite hdecl hok ?_ afterWrite List.prefix_rfl⟩
  rintro rs k value ⟨rest, heq⟩
  match rs with
  | [] =>
    simp only [afterWrite, List.nil_append, List.cons_append, List.cons.injEq,
      Request.define.injEq] at heq
    obtain ⟨⟨rfl, rfl⟩, -⟩ := heq
    decide +kernel
  | [r] => simp [afterWrite] at heq
  | [r, r'] =>
    simp only [afterWrite, List.nil_append, List.cons_append, List.cons.injEq,
      Request.define.injEq] at heq
    obtain ⟨rfl, rfl, ⟨rfl, rfl⟩, -⟩ := heq
    decide +kernel
  | _ :: _ :: _ :: _ => simp [afterWrite] at heq

end Pass

end ValueNumbering
