import ValueNumbering.Arena.Push
import ValueNumbering.Proofs.TreeEquality

/-!
# Growing arenas

An arena changes in two ways only (`Edit`): a node is pushed, or two types are made
interchangeable. Either way everything that was there before stays as it was: `Arena.Extends a b`
says that `b` has every node of `a`, with the operands that it has in `a`, and every pair of
interchangeable types. `Arena.extends_edit` is the step.

What a comparison or a hash says about old nodes survives growth:

* `Extends.fold_eq`: folds over old nodes give the same results;
* `Extends.treeHash_eq`: so do hashes;
* `Extends.sameTree`: nodes that are equal stay equal;
* `Extends.sameTree_eq`: while no types are declared, nodes that differ also stay different;
* `View.Trusts.extend`: remembered hashes stay right, as they are about nodes that exist.
-/

namespace ValueNumbering

/-- A change to an arena. -/
inductive Edit
  /-- Push a node. -/
  | push (op : Op) (ty : Ty) (operands : List NodeId) (flags : Flags)
  /-- Make two types interchangeable. -/
  | declare (s t : Ty)
deriving DecidableEq, Repr

namespace Arena

/-- Makes a change, and returns the node that was pushed, if one was. -/
def edit (a : Arena) : Edit → Except Fault (Option NodeId) × Arena
  | .push op ty operands flags =>
    ((a.push op ty operands flags).1.map some, (a.push op ty operands flags).2)
  | .declare s t => (.ok none, a.declare s t)

/-- The second arena has all that the first has. -/
structure Extends (a b : Arena) : Prop where
  node?_eq : ∀ {n}, n.index < a.size → b.node? n = a.node? n
  operands_eq : ∀ {n}, n.index < a.size → b.operands n = a.operands n
  related : ∀ {s t}, a.aliases.related s t → b.aliases.related s t

namespace Extends

variable {a b c : Arena}

theorem refl (a : Arena) : a.Extends a := ⟨fun _ => rfl, fun _ => rfl, id⟩

theorem index_lt (h : a.Extends b) {n : NodeId} (hn : n.index < a.size) : n.index < b.size := by
  rw [← node?_isSome_iff, h.node?_eq hn, node?_isSome_iff]
  exact hn

theorem trans (h : a.Extends b) (h' : b.Extends c) : a.Extends c := by
  refine ⟨fun hn => ?_, fun hn => ?_, fun hr => h'.related (h.related hr)⟩
  · rw [h'.node?_eq (h.index_lt hn), h.node?_eq hn]
  · rw [h'.operands_eq (h.index_lt hn), h.operands_eq hn]

theorem node? (h : a.Extends b) {n : NodeId} {p : Node} (hp : a.node? n = some p) :
    b.node? n = some p := by
  rw [h.node?_eq (index_lt_of_node hp), hp]

end Extends

/-! ### Every change extends the arena -/

end Arena

theorem TypeAliases.pair_eq_pair_iff {s t x y : Ty} :
    pair s t = pair x y ↔ (s = x ∧ t = y) ∨ (s = y ∧ t = x) := by
  constructor
  · intro h
    unfold pair at h
    split at h <;> split at h <;> simp only [Prod.mk.injEq] at h <;> grind
  · rintro (⟨rfl, rfl⟩ | ⟨rfl, rfl⟩)
    · rfl
    · exact pair_comm _ _

@[simp] theorem TypeAliases.related_empty {x y : Ty} : empty.related x y ↔ x = y := by
  simp [related, empty]

theorem TypeAliases.related_declare (as : TypeAliases) (s t x y : Ty) :
    (as.declare s t).related x y ↔
      as.related x y ∨ (x = s ∧ y = t) ∨ (x = t ∧ y = s) := by
  unfold declare
  split
  next h =>
    subst h
    constructor
    · exact .inl
    · rintro (h | ⟨rfl, rfl⟩ | ⟨rfl, rfl⟩)
      · exact h
      all_goals simp [related]
  next =>
    simp only [related, Bool.or_eq_true, decide_eq_true_eq, List.contains_iff_mem,
      List.mem_insert_iff, pair_eq_pair_iff]
    tauto

namespace Arena

variable (a : Arena)

@[simp] theorem node?_extendPool (more : List NodeId) (n : NodeId) :
    (a.extendPool more).node? n = a.node? n := rfl

theorem extends_extendPool (more : List NodeId) : a.Extends (a.extendPool more) := by
  refine ⟨fun _ => rfl, fun {n} hn => ?_, id⟩
  obtain ⟨p, hp⟩ := exists_node hn
  obtain ⟨hi, rfl⟩ := Array.getElem?_eq_some_iff.1 hp
  simp only [operands, node?_extendPool, hp]
  exact Span.slice_append (a.ordered n.index hi).1 more

theorem extends_of_nodes_eq_push {a b : Arena} {node : Node} (hn : b.nodes = a.nodes.push node)
    (hp : b.pool = a.pool) (ha : b.aliases = a.aliases) : a.Extends b := by
  have hnode : ∀ {n : NodeId}, n.index < a.size → b.node? n = a.node? n := by
    intro n h
    simp only [node?, hn]
    rw [Array.getElem?_push_lt h, Array.getElem?_eq_getElem h]
  refine ⟨hnode, fun h => ?_, fun h => by rwa [ha]⟩
  simp only [operands, hnode h, hp]

theorem extends_allocate (op : Op) (ty : Ty) (operands : List NodeId) (flags : Flags)
    (h : operands.all (·.index < a.size)) :
    a.Extends (a.allocate op ty operands flags h).2 := by
  unfold allocate
  split
  · exact .refl a
  · split
    · exact extends_of_nodes_eq_push rfl rfl rfl
    · split
      · exact .refl a
      · split
        · exact a.extends_extendPool operands
        · exact (a.extends_extendPool operands).trans (extends_of_nodes_eq_push rfl rfl rfl)

theorem extends_push (op : Op) (ty : Ty) (operands : List NodeId) (flags : Flags) :
    a.Extends (a.push op ty operands flags).2 := by
  unfold push
  split
  · exact .refl a
  · split
    · split
      · exact .refl a
      · exact a.extends_allocate op ty operands flags _
    · exact .refl a

theorem extends_declare (s t : Ty) : a.Extends (a.declare s t) := by
  refine ⟨fun _ => rfl, fun _ => rfl, fun {s' t'} h => ?_⟩
  exact (a.aliases.related_declare s t s' t').2 (.inl h)

theorem extends_edit (e : Edit) : a.Extends (a.edit e).2 := by
  cases e with
  | push op ty operands flags => exact a.extends_push op ty operands flags
  | declare s t => exact a.extends_declare s t

@[simp] theorem aliases_push (op : Op) (ty : Ty) (operands : List NodeId) (flags : Flags) :
    (a.push op ty operands flags).2.aliases = a.aliases := by
  unfold push allocate
  repeat' split
  all_goals rfl

/-! ### What survives growth -/

namespace Extends

variable {a b : Arena} {β : Type}

theorem fold_eq (h : a.Extends b) {f g : NodeId → List β → β}
    (hfg : ∀ n, n.index < a.size → f n = g n) {n : NodeId} (hn : n.index < a.size) :
    b.fold f n = a.fold g n := by
  induction n using a.operand_induction with
  | step n ih =>
    rw [Arena.fold_eq, Arena.fold_eq, h.operands_eq hn, hfg n hn]
    congr 1
    exact List.map_congr_left fun o ho => ih o ho (index_lt_size_of_mem_operands ho)

variable (p : Policy)

theorem combine_eq (h : a.Extends b) {n : NodeId} (hn : n.index < a.size) :
    (View.mk b p).combine n = (View.mk a p).combine n := by
  funext below
  simp only [View.combine, View.words, h.node?_eq hn]

theorem treeHash_eq (h : a.Extends b) {n : NodeId} (hn : n.index < a.size) :
    (View.mk b p).treeHash n = (View.mk a p).treeHash n :=
  h.fold_eq (fun _ => h.combine_eq p) hn

theorem interchangeable (h : a.Extends b) {s t : Ty}
    (hst : (View.mk a p).interchangeable s t) : (View.mk b p).interchangeable s t := by
  simp only [View.interchangeable, Bool.or_eq_true, Bool.and_eq_true] at hst ⊢
  exact hst.imp_right fun hr => ⟨hr.1, h.related hr.2⟩

theorem alike (h : a.Extends b) {m n : Node} (hmn : (View.mk a p).Alike m n) :
    (View.mk b p).Alike m n :=
  ⟨hmn.left_pure, hmn.right_pure, hmn.op_eq, h.interchangeable p hmn.types⟩

theorem sameTree (h : a.Extends b) {x y : NodeId} (hxy : (View.mk a p).sameTree x y) :
    (View.mk b p).sameTree x y := by
  refine View.sameTree_induction (motive := fun x y => (View.mk b p).sameTree x y)
    View.sameTree_self ?_ hxy
  intro x y m n hm hn hmn ih
  refine View.sameTree_of_alike (h.node? hm) (h.node? hn) (h.alike p hmn) ?_
  have hx : (View.mk b p).arena.operands x = a.operands x := h.operands_eq (index_lt_of_node hm)
  have hy : (View.mk b p).arena.operands y = a.operands y := h.operands_eq (index_lt_of_node hn)
  rw [hx, hy]
  exact ih

theorem agree_eq (h : a.Extends b) (ha : b.aliases = a.aliases) {x y : NodeId}
    (hx : x.index < a.size) (hy : y.index < a.size) :
    (View.mk b p).agree x y = (View.mk a p).agree x y := by
  simp only [View.agree, h.node?_eq hx, h.node?_eq hy, h.operands_eq hx, h.operands_eq hy,
    View.hasEffects, View.interchangeable, ha]

/-- While no types are declared, comparisons of old nodes keep their results. -/
theorem sameTree_eq (h : a.Extends b) (ha : b.aliases = a.aliases) {x y : NodeId}
    (hx : x.index < a.size) (hy : y.index < a.size) :
    (View.mk b p).sameTree x y = (View.mk a p).sameTree x y := by
  refine View.sameTree_congr (P := fun n => n.index < a.size) ?_ ?_ ?_ hx hy
  · intro n _ o ho
    exact index_lt_size_of_mem_operands ho
  · intro n hn
    exact h.operands_eq hn
  · intro x y hx hy
    exact h.agree_eq p ha hx hy

end Extends

/-! ### Walks -/

theorem Memo.nodup_keys {β : Type} (memo : Memo β) : memo.keys.Nodup :=
  Std.TreeMap.distinct_keys.imp fun hne heq => hne (Std.compare_eq_iff_eq.2 heq)

/-- What a walk remembers is about the nodes of its tasks and what is below them. -/
theorem of_mem_work {a : Arena} {β : Type} {f : NodeId → List β → β} {P : NodeId → Prop}
    (hP : ∀ n, P n → ∀ o ∈ a.operands n, P o) {tasks : List Task} {memo : Memo β}
    (ht : ∀ t ∈ tasks, P t.node) (hm : ∀ n ∈ memo, P n) : ∀ n ∈ a.work f tasks memo, P n := by
  fun_induction work a f tasks memo with
  | case1 memo => exact hm
  | case2 memo n rest hn ih => exact ih (List.forall_mem_cons.1 ht).2 hm
  | case3 memo n rest hn ih =>
    obtain ⟨hn, hrest⟩ := List.forall_mem_cons.1 ht
    refine ih (fun t htask => ?_) hm
    rcases List.mem_append.1 htask with h | h
    · obtain ⟨o, ho, rfl⟩ := List.mem_map.1 h
      exact hP n hn o ho
    · rcases List.mem_cons.1 h with rfl | h
      · exact hn
      · exact hrest t h
  | case4 memo n rest ih =>
    obtain ⟨hn, hrest⟩ := List.forall_mem_cons.1 ht
    refine ih hrest fun k hk => ?_
    rcases Std.TreeMap.mem_insert.1 hk with h | h
    · exact Std.LawfulEqCmp.eq_of_compare h ▸ hn
    · exact hm k h

end Arena

namespace View

/-! ### Transitive types -/

theorem TransitiveTypes.congr {a b : Arena} {p : Policy} (h : (View.mk a p).TransitiveTypes)
    (hab : b.aliases = a.aliases) : (View.mk b p).TransitiveTypes := by
  simp only [TransitiveTypes, interchangeable, hab] at h ⊢
  exact h

/-- One declaration relates two types, so there is nothing to be closed. -/
theorem transitiveTypes_of_one_pair {a : Arena} {p : Policy} {s t : Ty}
    (h : a.aliases = TypeAliases.empty.declare s t) : (View.mk a p).TransitiveTypes := by
  have hrel : ∀ x y, (View.mk a p).interchangeable x y ↔
      x = y ∨ (p.heedsAliases ∧ ((x = s ∧ y = t) ∨ (x = t ∧ y = s))) := by
    intro x y
    have hd := TypeAliases.empty.related_declare s t x y
    rw [TypeAliases.related_empty] at hd
    simp only [interchangeable, h, Bool.or_eq_true, Bool.and_eq_true, decide_eq_true_eq, hd]
    tauto
  intro x y z hxy hyz
  rw [hrel] at hxy hyz ⊢
  grind

/-! ### Remembered hashes -/

/-- What is remembered is right, and is about nodes that exist. Without the latter it would not
stay right, as a missing node may be pushed later. -/
structure Trusts (v : View) (memo : HashMemo) : Prop where
  sound : memo.Sound v.arena v.combine
  index_lt : ∀ n ∈ memo, n.index < v.arena.size

theorem trusts_empty (v : View) : v.Trusts ∅ :=
  ⟨v.sound_empty, fun _ hn => absurd hn Std.TreeMap.not_mem_emptyc⟩

theorem Trusts.remember {v : View} {memo : HashMemo} (h : v.Trusts memo) {n : NodeId}
    (hn : n.index < v.arena.size) : v.Trusts (v.remember n memo) := by
  refine ⟨v.remember_sound h.sound n, ?_⟩
  refine Arena.of_mem_work (fun k _ o ho => Arena.index_lt_size_of_mem_operands ho) ?_ h.index_lt
  intro t ht
  rw [List.mem_singleton.1 ht]
  exact hn

theorem Trusts.extend {a b : Arena} {p : Policy} {memo : HashMemo} (hab : a.Extends b)
    (h : (View.mk a p).Trusts memo) : (View.mk b p).Trusts memo := by
  refine ⟨fun n hash hh => ?_, fun n hn => hab.index_lt (h.index_lt n hn)⟩
  have hn : n ∈ memo := Std.TreeMap.mem_iff_isSome_getElem?.2 (by rw [hh]; rfl)
  rw [h.sound n hash hh]
  exact (hab.treeHash_eq p (h.index_lt n hn)).symm

end View

end ValueNumbering
