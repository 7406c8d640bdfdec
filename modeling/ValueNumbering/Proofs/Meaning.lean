import Mathlib.Data.List.Nodup
import ValueNumbering.Proofs.Runs

/-!
# Numbering respects meaning

What an expression computes is left open: an `Interpretation` says what an operation of a given type
makes of the meanings of its operands at given versions of the memory, and gives a node with side
effects any meaning of its own. The only condition is that interchangeable types make no difference
(`Interpretation.Respects`).

`Pass.meaning_eq_of_same_handle` is the result: whatever two keys got the same handle in a run, by
being numbered or by being asked for, mean the same. Only values defined by hand are excluded. Nodes
may be pushed and types declared between the requests, types need not be transitive, and requests may
fail.

Two keys with one handle need not be equal to each other, but both are equal to the key of the entry
that has the handle (`Pass.run_enumerates`), and equal keys mean the same
(`View.meaning_eq_of_sameKey`).
-/

namespace ValueNumbering

/-- What operations and nodes with side effects compute. -/
structure Interpretation (M : Type) where
  /-- An operation of a type, at versions of the memory, on operands with the given meanings. -/
  op : Op → Ty → List MemVersion → List M → M
  /-- A node with side effects, at versions of the memory. -/
  effect : NodeId → List MemVersion → M

variable {M : Type}

/-- Types that may stand for each other make no difference. -/
def Interpretation.Respects (I : Interpretation M) (v : View) : Prop :=
  ∀ s t, v.interchangeable s t → ∀ op deps below, I.op op s deps below = I.op op t deps below

namespace View

variable (v : View) (I : Interpretation M)

/-- The meaning of a node whose operands have the given meanings. -/
def nodeMeaning (deps : List MemVersion) (n : NodeId) (below : List M) : M :=
  match v.arena.node? n with
  | some q => if v.hasEffects q then I.effect n deps else I.op q.op q.ty deps below
  | none => I.effect n deps

/-- What a key means: its expression, evaluated at its versions of the memory. -/
def meaning (key : Key) : M := v.arena.fold (v.nodeMeaning I key.deps) key.node

variable {v I}

theorem nodeMeaning_of_pure {deps : List MemVersion} {n : NodeId} {q : Node} {below : List M}
    (hq : v.arena.node? n = some q) (hp : v.hasEffects q = false) :
    v.nodeMeaning I deps n below = I.op q.op q.ty deps below := by
  simp [nodeMeaning, hq, hp]

theorem fold_nodeMeaning_eq (hI : I.Respects v) (deps : List MemVersion) {x y : NodeId}
    (h : v.sameTree x y) :
    v.arena.fold (v.nodeMeaning I deps) x = v.arena.fold (v.nodeMeaning I deps) y := by
  apply fold_eq_of_sameTree _ h
  intro x y p q hp hq hpq
  funext below
  rw [nodeMeaning_of_pure hp hpq.left_pure, nodeMeaning_of_pure hq hpq.right_pure, hpq.op_eq]
  exact hI p.ty q.ty hpq.types _ _ _

theorem meaning_eq_of_sameKey (hI : I.Respects v) {k l : Key} (h : v.sameKey k l) :
    v.meaning I k = v.meaning I l := by
  obtain ⟨hd, ht⟩ := sameKey_iff.1 h
  rw [meaning, meaning, hd]
  exact fold_nodeMeaning_eq hI l.deps ht

end View

/-! ### Runs -/

namespace Pass

/-- Keys that got the same handle in a run without values defined by hand have the same meaning, in
every interpretation for which the interchangeable types of the last arena make no difference. -/
theorem meaning_eq_of_same_handle (a : Arena) (settings : Settings) (p : Policy)
    (requests : List Request) (hr : ∀ key value, .define key value ∉ requests)
    (I : Interpretation M) (hI : I.Respects (((start a settings).run p requests).2.view p))
    {x y : Exchange} (hx : x ∈ ((start a settings).run p requests).1)
    (hy : y ∈ ((start a settings).run p requests).1) {k l : Key} {id : Handle}
    (hk : x.Gives k (.handle id)) (hl : y.Gives l (.handle id)) :
    (((start a settings).run p requests).2.view p).meaning I k =
      (((start a settings).run p requests).2.view p).meaning I l := by
  obtain ⟨ledger, h, hbacked⟩ := run_enumerates a settings p hr
  obtain ⟨e, he, hev, hek⟩ := hbacked x hx k id hk
  obtain ⟨f, hf, hfv, hfl⟩ := hbacked y hy l id hl
  -- different entries have different handles
  have hef : e = f := List.inj_on_of_nodup_map h.distinct he hf (hev.trans hfv.symm)
  subst hef
  calc _ = _ := (View.meaning_eq_of_sameKey hI hek).symm
    _ = _ := View.meaning_eq_of_sameKey hI hfl

/-- Two loads from one address, numbered at the same version of the memory. Their types are made
interchangeable only after the first is numbered. -/
def lateAlias : List Request :=
  [.edit (.push (.var ⟨1⟩ 0) .pointer [] .empty), .edit (.push .load .int [⟨0⟩] .empty),
    .number ⟨⟨1⟩, [⟨3⟩]⟩, .edit (.push .load ⟨7⟩ [⟨0⟩] .empty), .edit (.declare .int ⟨7⟩),
    .valueOf ⟨⟨2⟩, [⟨3⟩]⟩]

/-- Means an expression by the words of its operations and types, with one word for the two types of
the loads. -/
def wordMeaning : Interpretation (List UInt64) where
  op o ty deps below :=
    o.words ++ [if ty = ⟨7⟩ then 0 else ty.raw.toUInt64] ++ deps.map (·.raw.toUInt64) ++
      below.flatten
  effect n _ := [n.raw.toUInt64]

theorem wordMeaning_respects :
    wordMeaning.Respects (((start .empty .standard).run .full lateAlias).2.view .full) := by
  have halias : (((start .empty .standard).run .full lateAlias).2).arena.aliases =
      TypeAliases.empty.declare .int ⟨7⟩ := by
    decide +kernel
  intro s t hst op deps below
  simp only [View.interchangeable, view, halias, Bool.or_eq_true, Bool.and_eq_true,
    decide_eq_true_eq, TypeAliases.related_declare] at hst
  rcases hst with rfl | ⟨-, h | ⟨rfl, rfl⟩ | ⟨rfl, rfl⟩⟩
  · rfl
  · have heq : s = t := by simpa [TypeAliases.related, TypeAliases.empty] using h
    rw [heq]
  · rfl
  · rfl

theorem lateAlias_meaning_eq :
    Exchange.mk (.number ⟨⟨1⟩, [⟨3⟩]⟩) (.value (.ok (.handle ⟨0⟩)))
        [.created (.handle ⟨0⟩) ⟨1⟩] ∈ ((start .empty .standard).run .full lateAlias).1 ∧
      Exchange.mk (.valueOf ⟨⟨2⟩, [⟨3⟩]⟩) (.value? (.ok (some (.handle ⟨0⟩)))) [] ∈
        ((start .empty .standard).run .full lateAlias).1 ∧
      (((start .empty .standard).run .full lateAlias).2.view .full).meaning wordMeaning
          ⟨⟨1⟩, [⟨3⟩]⟩ =
        (((start .empty .standard).run .full lateAlias).2.view .full).meaning wordMeaning
          ⟨⟨2⟩, [⟨3⟩]⟩ := by
  have hr : ∀ key value, Request.define key value ∉ lateAlias := by
    intro key value h
    simp [lateAlias] at h
  have hx : Exchange.mk (.number ⟨⟨1⟩, [⟨3⟩]⟩) (.value (.ok (.handle ⟨0⟩)))
      [.created (.handle ⟨0⟩) ⟨1⟩] ∈ ((start .empty .standard).run .full lateAlias).1 := by
    decide +kernel
  have hy : Exchange.mk (.valueOf ⟨⟨2⟩, [⟨3⟩]⟩) (.value? (.ok (some (.handle ⟨0⟩)))) [] ∈
      ((start .empty .standard).run .full lateAlias).1 := by
    decide +kernel
  refine ⟨hx, hy, ?_⟩
  exact meaning_eq_of_same_handle .empty .standard .full lateAlias hr wordMeaning
    wordMeaning_respects hx hy (.number _ _ _) (.valueOf _ _ _)

end Pass

end ValueNumbering
