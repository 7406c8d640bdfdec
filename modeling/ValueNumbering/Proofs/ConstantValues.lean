import ValueNumbering.Proofs.Interning
import ValueNumbering.Proofs.SessionSteps

/-!
# The values of constants

A constant is its own value, so two constants have the same value only if they are one node. Two rules
decide when that is so, and when constants are equal:

* a literal has one node for each type (`Arena.Reachable.eq_of_literal`);
* constants are equal if they have the same literal and types that may stand for each other
  (`View.equal_constants_iff`).

The second is the wider one. Constants with the same value are equal, but equal constants have the same
value only if they are of the same type (`Session.constant_values_eq_iff`). Nodes of every other kind are
looked up by equality, and share their values whenever they are equal. `Session.aliased_literals_split`
has the smallest case: one literal under two types that were declared interchangeable.
-/

namespace ValueNumbering

theorem Arena.Reachable.operands_of_constant {a : Arena} (h : a.Reachable) {n : NodeId} {q : Node}
    (hq : a.node? n = some q) (hc : q.op.kind = .constant) : a.operands n = [] := by
  obtain ⟨l, hl⟩ := Op.kind_eq_constant_iff.1 hc
  have harity : q.op.arity? = some 0 := by
    rw [hl]
    rfl
  exact List.eq_nil_of_length_eq_zero (h.wellFormed.arity n q 0 hq harity)

theorem View.equal_constants_iff {v : View} (ha : v.arena.Reachable) {x y : NodeId} {q r : Node}
    (hx : v.arena.node? x = some q) (hy : v.arena.node? y = some r) (hq : q.op.kind = .constant)
    (hr : r.op.kind = .constant) : v.equal x y = .ok true ↔ x = y ∨ v.Alike q r := by
  rw [equal_eq_true_iff]
  constructor
  · intro h
    rcases sameTree_iff.1 h with heq | ⟨hagree, -⟩
    · exact .inl heq
    · obtain ⟨q', r', hx', hy', halike, -⟩ := agree_iff.1 hagree
      obtain rfl := Option.some.inj (hx.symm.trans hx')
      obtain rfl := Option.some.inj (hy.symm.trans hy')
      exact .inr halike
  · rintro (rfl | halike)
    · exact sameTree_self x
    · refine sameTree_of_alike hx hy halike ?_
      rw [ha.operands_of_constant hx hq, ha.operands_of_constant hy hr]
      exact .nil

namespace Session

/-- Numbering a constant returns the constant, in every state of a session and whatever the memory
versions. So two constants get the same value exactly if they are equal and of the same type. They may
be equal without that, if they have the same literal, no side effects, and types that may stand for each
other. -/
theorem constant_values_eq_iff {a : Arena} (ha : a.Reachable) (p : Policy) {x y : NodeId} {q r : Node}
    (hx : a.node? x = some q) (hy : a.node? y = some r) (hq : q.op.kind = .constant)
    (hr : r.op.kind = .constant) (s t : Session) (deps deps' : List MemVersion) :
    let v : View := ⟨a, p⟩
    let value := (s.number v ⟨x, deps⟩).result
    let value' := (t.number v ⟨y, deps'⟩).result
    value = .ok (.const x) ∧ value' = .ok (.const y) ∧
      (value = value' ↔ v.equal x y = .ok true ∧ q.ty = r.ty) ∧
      (v.equal x y = .ok true ↔ x = y ∨ (q.op = r.op ∧ v.interchangeable q.ty r.ty ∧
        v.hasEffects q = false ∧ v.hasEffects r = false)) := by
  intro v value value'
  have hfirst : s.number v ⟨x, deps⟩ = ⟨.ok (.const x), s, []⟩ := number_constant hx hq
  have hsecond : t.number v ⟨y, deps'⟩ = ⟨.ok (.const y), t, []⟩ := number_constant hy hr
  have hvalue : value = .ok (.const x) := congrArg Outcome.result hfirst
  have hvalue' : value' = .ok (.const y) := congrArg Outcome.result hsecond
  have hsame : value = value' ↔ x = y := by
    rw [hvalue, hvalue', Except.ok.injEq, Value.const.injEq]
  have hequal : v.equal x y = .ok true ↔ x = y ∨ v.Alike q r :=
    View.equal_constants_iff ha hx hy hq hr
  refine ⟨hvalue, hvalue', ?_, ?_⟩
  · rw [hsame, hequal]
    constructor
    · rintro rfl
      exact ⟨.inl rfl, by rw [Option.some.inj (hx.symm.trans hy)]⟩
    · rintro ⟨heq | halike, hty⟩
      · exact heq
      · exact ha.eq_of_literal hx hy hq halike.op_eq hty
  · rw [hequal]
    refine or_congr_right ⟨fun h => ⟨h.op_eq, h.types, h.left_pure, h.right_pure⟩, ?_⟩
    rintro ⟨hop, htypes, hleft, hright⟩
    exact ⟨hleft, hright, hop, htypes⟩

/-- One literal under two types that may stand for each other. -/
def aliasedFives : Arena :=
  (((Arena.empty.declare .int ⟨7⟩).int 5).2.push (.lit (.int 5)) ⟨7⟩ [] .empty).2

theorem reachable_aliasedFives : aliasedFives.Reachable :=
  ((Arena.Reachable.empty.edit (.declare .int ⟨7⟩)).edit (.push (.lit (.int 5)) .int [] .empty)).edit
    (.push (.lit (.int 5)) ⟨7⟩ [] .empty)

/-- The types of the two constants differ, and so do their values. -/
theorem aliasedFives_values :
    let s := Session.start .standard
    let t := (s.number ⟨aliasedFives, .full⟩ ⟨⟨0⟩, [⟨1⟩]⟩).session
    (s.number ⟨aliasedFives, .full⟩ ⟨⟨0⟩, [⟨1⟩]⟩).result ≠
      (t.number ⟨aliasedFives, .full⟩ ⟨⟨1⟩, [⟨2⟩]⟩).result := by
  intro s t heq
  obtain ⟨-, -, hvalues, -⟩ := constant_values_eq_iff reachable_aliasedFives .full
    (x := ⟨0⟩) (y := ⟨1⟩) rfl rfl rfl rfl s t [⟨1⟩] [⟨2⟩]
  have htypes := (hvalues.1 heq).2
  revert htypes
  decide

/-- The two constants are equal, and have different values in one session. -/
theorem aliased_literals_split :
    let v : View := ⟨aliasedFives, .full⟩
    let first := (Session.start .standard).number v ⟨⟨0⟩, []⟩
    let second := first.session.number v ⟨⟨1⟩, []⟩
    aliasedFives.Reachable ∧ v.isConstant ⟨0⟩ ∧ v.isConstant ⟨1⟩ ∧
      ¬ (first.result = second.result ↔ v.equal ⟨0⟩ ⟨1⟩ = .ok true) :=
  ⟨reachable_aliasedFives, by decide +kernel⟩

end Session

end ValueNumbering
