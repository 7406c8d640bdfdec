import Mathlib.Data.Set.Basic
import ValueNumbering.Proofs.Growth
import ValueNumbering.Arena.Build

/-!
# What a comparison decides

Every node has a canonical term (`View.term`). A node with side effects is its own term. The term of any
other node has its operation, the types that may stand for its type, and the terms of its operands. It has
neither the numbers of such nodes in it, nor does it show which of them are shared.

* Nodes with the same term are equal, whichever types are interchangeable
  (`View.sameTree_of_term_eq`).
* Equal nodes have the same term if types are transitive (`View.term_eq_of_sameTree`). The types that may
  stand for a type are then a class of types, and two of these that have a type in common are the same
  (`View.typeClass_eq_iff`).

So a comparison decides whether two terms are the same, and it is an equivalence then
(`View.equal_iff_same_term`). Of the three properties of an equivalence, the first two do not depend on the
types.
-/

namespace ValueNumbering

/-- What a node computes, as a term. -/
inductive Term
  /-- The node stands for itself and for nothing else. -/
  | own (n : NodeId)
  /-- An operation on operands, with all types that the result may be taken to have. -/
  | node (op : Op) (types : Set Ty) (operands : List Term)

namespace View

variable (v : View)

/-- The types that may stand for a type. -/
def typeClass (s : Ty) : Set Ty := { t | v.interchangeable s t }

/-- The term of a node, made from the terms of its operands. -/
def termNode (n : NodeId) (below : List Term) : Term :=
  match v.arena.node? n with
  | some q => if v.hasEffects q then .own n else .node q.op (v.typeClass q.ty) below
  | none => .own n

/-- The canonical term of a node. -/
def term (n : NodeId) : Term := v.arena.fold v.termNode n

variable {v}

/-! ### Classes of types -/

theorem mem_typeClass_self (s : Ty) : s ∈ v.typeClass s := by
  show v.interchangeable s s
  simp [interchangeable]

theorem interchangeable_of_typeClass_eq {s t : Ty} (h : v.typeClass s = v.typeClass t) :
    v.interchangeable s t := by
  have ht : t ∈ v.typeClass s := h ▸ mem_typeClass_self t
  exact ht

theorem typeClass_eq_iff (ht : v.TransitiveTypes) {s t : Ty} :
    v.typeClass s = v.typeClass t ↔ v.interchangeable s t := by
  refine ⟨interchangeable_of_typeClass_eq, fun hst => ?_⟩
  have hts : v.interchangeable t s := by rwa [interchangeable_comm]
  ext u
  constructor
  · intro hu
    exact ht t s u hts hu
  · intro hu
    exact ht s t u hst hu

/-! ### Terms of nodes -/

/-- A node is its own term, or it has no side effects and its term is made from those of its operands. -/
theorem term_eq_own_or (n : NodeId) :
    v.term n = .own n ∨ ∃ q, v.arena.node? n = some q ∧ v.hasEffects q = false ∧
      v.term n = .node q.op (v.typeClass q.ty) ((v.arena.operands n).map v.term) := by
  have hterm : v.term n = v.termNode n ((v.arena.operands n).map v.term) :=
    v.arena.fold_eq v.termNode n
  rw [hterm, termNode]
  cases hq : v.arena.node? n with
  | none => exact .inl rfl
  | some q =>
    cases he : v.hasEffects q with
    | true => exact .inl (by simp [he])
    | false => exact .inr ⟨q, rfl, he, by simp [he]⟩

theorem sameTree_of_term_eq {x y : NodeId} (h : v.term x = v.term y) : v.sameTree x y := by
  induction x using v.arena.operand_induction generalizing y with
  | step x ih =>
    rcases v.term_eq_own_or x with hx | ⟨p, hp, hpp, hx⟩
    · rcases v.term_eq_own_or y with hy | ⟨q, hq, hqp, hy⟩
      · rw [hx, hy, Term.own.injEq] at h
        exact h ▸ sameTree_self x
      · simp [hx, hy] at h
    · rcases v.term_eq_own_or y with hy | ⟨q, hq, hqp, hy⟩
      · simp [hx, hy] at h
      · rw [hx, hy, Term.node.injEq] at h
        obtain ⟨hop, htypes, hterms⟩ := h
        have hpq : v.Alike p q := ⟨hpp, hqp, hop, interchangeable_of_typeClass_eq htypes⟩
        refine sameTree_of_alike hp hq hpq ?_
        -- operands with the same terms are equal by induction, pair by pair
        rw [← List.forall₂_eq_eq_eq, List.forall₂_map_left_iff, List.forall₂_map_right_iff,
          List.forall₂_iff_zip] at hterms
        rw [List.forall₂_iff_zip]
        exact ⟨hterms.1, fun ho => ih _ (List.of_mem_zip ho).1 (hterms.2 ho)⟩

theorem term_eq_of_sameTree (ht : v.TransitiveTypes) {x y : NodeId} (h : v.sameTree x y) :
    v.term x = v.term y := by
  apply fold_eq_of_sameTree _ h
  intro x y p q hp hq hpq
  have htypes : v.typeClass p.ty = v.typeClass q.ty := (typeClass_eq_iff ht).2 hpq.types
  funext below
  simp [termNode, hp, hq, hpq.left_pure, hpq.right_pure, hpq.op_eq, htypes]

/-! ### The answer of a comparison -/

theorem equal_comm {x y : NodeId} (hx : x.index < v.arena.size) (hy : y.index < v.arena.size) :
    v.equal x y = v.equal y x := by
  rw [equal_eq_sameTree hx hy, equal_eq_sameTree hy hx, sameTree_comm]

theorem equal_trans (ht : v.TransitiveTypes) {x y z : NodeId} (hxy : v.equal x y = .ok true)
    (hyz : v.equal y z = .ok true) : v.equal x z = .ok true := by
  rw [equal_eq_true_iff] at hxy hyz ⊢
  exact sameTree_trans ht hxy hyz

/-- In every arena and under every policy, nodes equal themselves, and a comparison does not depend on the
order of its nodes. If types are transitive, it returns whether the canonical terms of the nodes are the
same, so it is an equivalence of the nodes that exist. -/
theorem equal_iff_same_term (v : View) :
    (∀ x, v.equal x x = .ok true) ∧
    (∀ x y, x.index < v.arena.size → y.index < v.arena.size → v.equal x y = v.equal y x) ∧
    (v.TransitiveTypes →
      (∀ x y, x.index < v.arena.size → y.index < v.arena.size →
        ∃ same, v.equal x y = .ok same ∧ (same = true ↔ v.term x = v.term y)) ∧
      Equivalence fun x y : { n : NodeId // n.index < v.arena.size } =>
        v.equal x.1 y.1 = .ok true) := by
  have hself : ∀ x, v.equal x x = .ok true := fun x => equal_eq_true_iff.2 (sameTree_self x)
  refine ⟨hself, fun x y => equal_comm, fun ht => ⟨fun x y hx hy => ?_, ?_⟩⟩
  · refine ⟨v.sameTree x y, equal_eq_sameTree hx hy, ?_⟩
    exact ⟨term_eq_of_sameTree ht, sameTree_of_term_eq⟩
  · refine ⟨fun x => hself x.1, fun {x y} hxy => ?_, fun {x y z} => equal_trans ht⟩
    rw [equal_comm y.2 x.2]
    exact hxy

/-- A sum of two loads from one address, of types that may stand for each other, the sum with the second
load on both sides, and two calls with side effects, each with the first sum as its argument. -/
def sumsAndCalls : Arena :=
  let a := ((Arena.empty.declare .int ⟨7⟩).var ⟨1⟩ 0 .pointer).2
  let b := ((a.load ⟨0⟩ .int).2.load ⟨0⟩ ⟨7⟩).2
  let c := ((b.binary .add ⟨1⟩ ⟨2⟩ .int).2.binary .add ⟨2⟩ ⟨2⟩ ⟨7⟩).2
  ((c.effectfulCall ⟨2⟩ [⟨3⟩] .int).2.effectfulCall ⟨2⟩ [⟨3⟩] .int).2

/-- The sums have one term, although one of them shares an operand. The calls have two. -/
theorem sumsAndCalls_terms :
    let v : View := ⟨sumsAndCalls, .full⟩
    v.TransitiveTypes ∧ v.term ⟨3⟩ = v.term ⟨4⟩ ∧ v.term ⟨5⟩ ≠ v.term ⟨6⟩ := by
  intro v
  have ht : v.TransitiveTypes := transitiveTypes_of_one_pair (s := .int) (t := ⟨7⟩) rfl
  obtain ⟨-, -, hterms⟩ := equal_iff_same_term v
  obtain ⟨sums, hsums, hsame⟩ := (hterms ht).1 ⟨3⟩ ⟨4⟩ (by decide +kernel) (by decide +kernel)
  obtain ⟨calls, hcalls, hdiffer⟩ := (hterms ht).1 ⟨5⟩ ⟨6⟩ (by decide +kernel) (by decide +kernel)
  have hsums' : v.equal ⟨3⟩ ⟨4⟩ = .ok true := by decide +kernel
  have hcalls' : v.equal ⟨5⟩ ⟨6⟩ = .ok false := by decide +kernel
  obtain rfl : true = sums := Except.ok.inj (hsums'.symm.trans hsums)
  obtain rfl : false = calls := Except.ok.inj (hcalls'.symm.trans hcalls)
  exact ⟨ht, hsame.1 rfl, fun h => by simpa using hdiffer.2 h⟩

end View

end ValueNumbering
