import Mathlib.Data.List.Forall2
import ValueNumbering.Equality.Lemmas

/-!
# Equality of trees as a relation

Facts about `View.sameTree`, the plain recursion that `View.equal` decides.

* `Arena.operand_induction`: what passes from the operands to the node holds of every node;
* `View.sameTree_iff` unfolds one level, and `View.sameTree_induction` is the induction on a proof
  that two nodes are equal: the same node, or two nodes that agree and have related operands;
* equality is reflexive and symmetric (`View.sameTree_comm`), and transitive whenever the types are
  (`View.sameTree_trans`);
* `View.sameTree_congr`: it depends on the operands of nodes and on which nodes agree, and on nothing
  else;
* `View.equal_eq_true_iff`: the answer of a comparison is "yes" exactly for equal trees.
-/

namespace ValueNumbering

/-! ### Induction over the graph -/

theorem Arena.operand_induction (a : Arena) {motive : NodeId → Prop}
    (step : ∀ n, (∀ o ∈ a.operands n, motive o) → motive n) (n : NodeId) : motive n :=
  step n fun o ho =>
    have : o.index < n.index := index_lt_of_mem_operands ho
    a.operand_induction step o
termination_by n.index

theorem Arena.exists_node {a : Arena} {n : NodeId} (h : n.index < a.size) :
    ∃ p, a.node? n = some p :=
  Option.isSome_iff_exists.1 (node?_isSome_iff.2 h)

theorem Arena.index_lt_of_node {a : Arena} {n : NodeId} {p : Node} (h : a.node? n = some p) :
    n.index < a.size := by
  rw [← node?_isSome_iff, h]
  rfl

/-! ### Interchangeable types -/

theorem TypeAliases.related_comm (as : TypeAliases) (s t : Ty) :
    as.related s t = as.related t s := by
  simp only [related, pair_comm s t, eq_comm (a := s)]

namespace View

variable (v : View)

theorem interchangeable_comm (s t : Ty) : v.interchangeable s t = v.interchangeable t s := by
  simp only [interchangeable, TypeAliases.related_comm v.arena.aliases s t, eq_comm (a := s)]

/-- That types may stand for each other is transitive in this view. -/
def TransitiveTypes : Prop :=
  ∀ s t u, v.interchangeable s t → v.interchangeable t u → v.interchangeable s u

/-! ### Nodes that agree -/

/-- Two nodes agree in all but their operands. -/
structure Alike (p q : Node) : Prop where
  left_pure : v.hasEffects p = false
  right_pure : v.hasEffects q = false
  op_eq : p.op = q.op
  types : v.interchangeable p.ty q.ty

variable {v}

theorem Alike.symm {p q : Node} (h : v.Alike p q) : v.Alike q p := by
  refine ⟨h.right_pure, h.left_pure, h.op_eq.symm, ?_⟩
  rw [interchangeable_comm]
  exact h.types

theorem Alike.trans (ht : v.TransitiveTypes) {p q r : Node} (h : v.Alike p q)
    (h' : v.Alike q r) : v.Alike p r :=
  ⟨h.left_pure, h'.right_pure, h.op_eq.trans h'.op_eq, ht _ _ _ h.types h'.types⟩

theorem agree_iff {x y : NodeId} :
    v.agree x y ↔ ∃ p q, v.arena.node? x = some p ∧ v.arena.node? y = some q ∧ v.Alike p q ∧
      (v.arena.operands x).length = (v.arena.operands y).length := by
  constructor
  · intro h
    unfold agree at h
    split at h
    next p q hp hq =>
      simp only [Bool.and_eq_true, Bool.not_eq_eq_eq_not, Bool.not_true, decide_eq_true_eq] at h
      obtain ⟨⟨⟨⟨h1, h2⟩, h3⟩, h4⟩, h5⟩ := h
      exact ⟨p, q, hp, hq, ⟨h1, h2, h3, h4⟩, h5⟩
    next => simp at h
  · rintro ⟨p, q, hp, hq, h, hl⟩
    simp [agree, hp, hq, h.left_pure, h.right_pure, h.op_eq, h.types, hl]

/-! ### Equal trees -/

/-- Two nodes are equal if they are the same, or if they agree and their operands are equal one
by one. -/
theorem sameTree_iff {x y : NodeId} :
    v.sameTree x y ↔ x = y ∨ v.agree x y ∧
      List.Forall₂ (fun o o' => v.sameTree o o') (v.arena.operands x) (v.arena.operands y) := by
  rw [sameTree_eq, Bool.or_eq_true, decide_eq_true_iff, Bool.and_eq_true, List.forall₂_iff_zip]
  refine or_congr_right (and_congr_right fun ha => ?_)
  obtain ⟨p, q, hp, hq, hpq, hl⟩ := agree_iff.1 ha
  simp only [List.all_eq_true, operandPairs, Prod.forall, hl, true_and]

theorem sameTree_induction {motive : NodeId → NodeId → Prop} (same : ∀ x, motive x x)
    (node : ∀ x y p q, v.arena.node? x = some p → v.arena.node? y = some q → v.Alike p q →
      List.Forall₂ motive (v.arena.operands x) (v.arena.operands y) → motive x y)
    {x y : NodeId} (h : v.sameTree x y) : motive x y := by
  induction x using v.arena.operand_induction generalizing y with
  | step x ih =>
    rcases sameTree_iff.1 h with rfl | ⟨ha, hops⟩
    · exact same x
    · obtain ⟨p, q, hp, hq, hpq, _⟩ := agree_iff.1 ha
      refine node x y p q hp hq hpq ?_
      rw [List.forall₂_iff_zip] at hops ⊢
      refine ⟨hops.1, fun ho => ?_⟩
      exact ih _ (List.of_mem_zip ho).1 (hops.2 ho)

@[simp] theorem sameTree_self (x : NodeId) : v.sameTree x x := sameTree_iff.2 (.inl rfl)

/-- The one way to show that two different nodes are equal. -/
theorem sameTree_of_alike {x y : NodeId} {p q : Node} (hp : v.arena.node? x = some p)
    (hq : v.arena.node? y = some q) (h : v.Alike p q)
    (hops : List.Forall₂ (fun o o' => v.sameTree o o') (v.arena.operands x)
      (v.arena.operands y)) : v.sameTree x y :=
  sameTree_iff.2 (.inr ⟨agree_iff.2 ⟨p, q, hp, hq, h, hops.length_eq⟩, hops⟩)

theorem sameTree_symm {x y : NodeId} (h : v.sameTree x y) : v.sameTree y x := by
  refine sameTree_induction (motive := fun x y => v.sameTree y x) sameTree_self ?_ h
  intro x y p q hp hq hpq ih
  exact sameTree_of_alike hq hp hpq.symm ih.flip

theorem sameTree_comm (x y : NodeId) : v.sameTree x y = v.sameTree y x :=
  Bool.eq_iff_iff.2 ⟨sameTree_symm, sameTree_symm⟩

/-- Equality is transitive if types are. -/
theorem sameTree_trans (ht : v.TransitiveTypes) {x y z : NodeId} (h : v.sameTree x y)
    (h' : v.sameTree y z) : v.sameTree x z := by
  refine sameTree_induction (motive := fun x y => ∀ z, v.sameTree y z → v.sameTree x z)
    (fun x z hz => hz) ?_ h z h'
  intro x y p q hp hq hpq ih z hz
  rcases sameTree_iff.1 hz with rfl | ⟨ha, hops⟩
  · exact sameTree_of_alike hp hq hpq (ih.imp fun o o' ho => ho o' (sameTree_self o'))
  · obtain ⟨q', r, hq', hr, hqr, _⟩ := agree_iff.1 ha
    obtain rfl : q = q' := Option.some.inj (hq.symm.trans hq')
    refine sameTree_of_alike hp hr (hpq.trans ht hqr) ?_
    -- pair the operands of `x` with those of `z` through those of `y`
    rw [List.forall₂_iff_get] at ih hops ⊢
    refine ⟨ih.1.trans hops.1, fun i hx hz => ?_⟩
    exact ih.2 i hx (ih.1 ▸ hx) _ (hops.2 i (ih.1 ▸ hx) hz)

/-- Two views call the same nodes equal, if in both of them the nodes have the same operands and the same
nodes agree. It is enough that this holds of some nodes, to which their operands belong. -/
theorem sameTree_congr {v v' : View} {P : NodeId → Prop}
    (hP : ∀ n, P n → ∀ o ∈ v.arena.operands n, P o)
    (hops : ∀ n, P n → v'.arena.operands n = v.arena.operands n)
    (hagree : ∀ x y, P x → P y → v'.agree x y = v.agree x y) {x y : NodeId} (hx : P x) (hy : P y) :
    v'.sameTree x y = v.sameTree x y := by
  induction x using v.arena.operand_induction generalizing y with
  | step x ih =>
    have hpairs : v'.operandPairs x y = v.operandPairs x y := by
      simp only [operandPairs, hops x hx, hops y hy]
    rw [sameTree_eq, sameTree_eq v, hagree x y hx hy, hpairs]
    congr 2
    rw [Bool.eq_iff_iff, List.all_eq_true, List.all_eq_true]
    refine forall₂_congr fun q hq => ?_
    obtain ⟨ho, ho'⟩ := List.of_mem_zip hq
    rw [ih q.1 ho (hP x hx _ ho) (hP y hy _ ho')]

/-- A fold that treats nodes alike whenever they agree has the same result on equal nodes. -/
theorem fold_eq_of_sameTree {β : Type} {f : NodeId → List β → β}
    (hf : ∀ x y p q, v.arena.node? x = some p → v.arena.node? y = some q → v.Alike p q →
      f x = f y)
    {x y : NodeId} (h : v.sameTree x y) : v.arena.fold f x = v.arena.fold f y := by
  refine sameTree_induction (motive := fun x y => v.arena.fold f x = v.arena.fold f y)
    (fun x => rfl) ?_ h
  intro x y p q hp hq hpq ih
  have hops : (v.arena.operands x).map (v.arena.fold f) =
      (v.arena.operands y).map (v.arena.fold f) := by
    rw [← List.forall₂_eq_eq_eq, List.forall₂_map_left_iff, List.forall₂_map_right_iff]
    exact ih
  rw [Arena.fold_eq, Arena.fold_eq v.arena f y, hops, hf x y p q hp hq hpq]

/-- A node that equals an existing one exists, too, with the same operation and a type that may stand
for that of the other. -/
theorem exists_of_sameTree {x y : NodeId} {p : Node} (hp : v.arena.node? x = some p)
    (h : v.sameTree x y) :
    ∃ q, v.arena.node? y = some q ∧ p.op = q.op ∧ v.interchangeable p.ty q.ty := by
  rcases sameTree_iff.1 h with rfl | ⟨ha, -⟩
  · exact ⟨p, hp, rfl, by simp [interchangeable]⟩
  · obtain ⟨p', q, hp', hq, hpq, -⟩ := agree_iff.1 ha
    obtain rfl : p = p' := Option.some.inj (hp.symm.trans hp')
    exact ⟨q, hq, hpq.op_eq, hpq.types⟩

theorem op_eq_of_sameTree {x y : NodeId} {p q : Node} (hp : v.arena.node? x = some p)
    (hq : v.arena.node? y = some q) (h : v.sameTree x y) : p.op = q.op := by
  obtain ⟨q', hq', hop, -⟩ := exists_of_sameTree hp h
  rw [hop, Option.some.inj (hq'.symm.trans hq)]

/-! ### Answers of a comparison -/

/-- A comparison says that two nodes are equal exactly if the trees below them are. Nodes that do
not exist are equal to themselves only. -/
theorem equal_eq_true_iff {x y : NodeId} : v.equal x y = .ok true ↔ v.sameTree x y := by
  constructor
  · intro h
    unfold equal at h
    split at h
    next hxy => exact hxy ▸ sameTree_self x
    next =>
      split at h
      next => simp at h
      next p hp =>
        split at h
        next => simp at h
        next =>
          split at h
          next => simp at h
          next q hq =>
            rw [settle_compare_empty] at h
            exact Except.ok.inj h
  · intro h
    rcases sameTree_iff.1 h with rfl | ⟨ha, _⟩
    · simp [equal]
    · obtain ⟨p, q, hp, hq, _⟩ := agree_iff.1 ha
      rw [equal_eq_sameTree (Arena.index_lt_of_node hp) (Arena.index_lt_of_node hq), h]

end View

end ValueNumbering
