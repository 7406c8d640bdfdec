import Mathlib.Data.Finset.Card
import Mathlib.Data.Sym.Sym2
import ValueNumbering.Proofs.Growth

/-!
# Declared types

A table of interchangeable types keeps each pair of different types once, in the order of their
numbers (`TypeAliases.Canonical`). To declare a pair, to look one up and to count them all go through
that order, so what a table says depends on which unordered pairs were declared, and on nothing else
about the declarations (`TypeAliases.declared_exactly`):

* two types are related if they are the same or were declared, in either order;
* the size is the number of unordered pairs of different types among the declarations;
* declarations that are made in another order, with their types turned round, or once more, lead to a
  table with the same answers and the same size (`TypeAliases.Rearranges`).
-/

namespace ValueNumbering.TypeAliases

/-- Makes declarations in order. -/
def declareAll (as : TypeAliases) (ds : List (Ty × Ty)) : TypeAliases :=
  ds.foldl (fun as d => as.declare d.1 d.2) as

/-- The types of declarations, in no order. -/
def unordered (ds : List (Ty × Ty)) : Finset (Sym2 Ty) := (ds.map fun d => s(d.1, d.2)).toFinset

theorem mem_unordered_iff {ds : List (Ty × Ty)} {x y : Ty} :
    s(x, y) ∈ unordered ds ↔ (x, y) ∈ ds ∨ (y, x) ∈ ds := by
  simp only [unordered, List.mem_toFinset, List.mem_map, Sym2.eq_iff, Prod.exists]
  constructor
  · rintro ⟨s, t, hst, ⟨rfl, rfl⟩ | ⟨rfl, rfl⟩⟩
    · exact .inl hst
    · exact .inr hst
  · rintro (h | h)
    · exact ⟨x, y, h, .inl ⟨rfl, rfl⟩⟩
    · exact ⟨y, x, h, .inr ⟨rfl, rfl⟩⟩

/-! ### Answers -/

theorem related_declareAll (as : TypeAliases) (ds : List (Ty × Ty)) (x y : Ty) :
    (as.declareAll ds).related x y ↔ as.related x y ∨ (x, y) ∈ ds ∨ (y, x) ∈ ds := by
  induction ds generalizing as with
  | nil => simp [declareAll]
  | cons d ds ih =>
    obtain ⟨s, t⟩ := d
    have hrest := ih (as.declare s t)
    rw [related_declare] at hrest
    simp only [List.mem_cons, Prod.mk.injEq]
    rw [declareAll, List.foldl_cons]
    exact hrest.trans (by tauto)

/-! ### Pairs in order -/

/-- Each pair stands once, with two different types in the order of their numbers. -/
structure Canonical (as : TypeAliases) : Prop where
  ordered : ∀ d ∈ as.pairs, pair d.1 d.2 = d
  different : ∀ d ∈ as.pairs, d.1 ≠ d.2
  nodup : as.pairs.Nodup

theorem canonical_empty : empty.Canonical := ⟨by simp [empty], by simp [empty], List.nodup_nil⟩

theorem pair_eq_or (s t : Ty) : pair s t = (s, t) ∨ pair s t = (t, s) := by
  unfold pair
  split
  · exact .inl rfl
  · exact .inr rfl

theorem Canonical.declare {as : TypeAliases} (h : as.Canonical) (s t : Ty) :
    (as.declare s t).Canonical := by
  unfold TypeAliases.declare
  split
  next => exact h
  next hst =>
    have hnew : pair (pair s t).1 (pair s t).2 = pair s t ∧ (pair s t).1 ≠ (pair s t).2 := by
      rcases pair_eq_or s t with heq | heq
      · rw [heq]
        exact ⟨heq, hst⟩
      · rw [heq]
        exact ⟨(pair_comm t s).trans heq, Ne.symm hst⟩
    refine ⟨fun d hd => ?_, fun d hd => ?_, h.nodup.insert⟩
    · rcases List.mem_insert_iff.1 hd with rfl | hd
      · exact hnew.1
      · exact h.ordered d hd
    · rcases List.mem_insert_iff.1 hd with rfl | hd
      · exact hnew.2
      · exact h.different d hd

theorem Canonical.declareAll {as : TypeAliases} (h : as.Canonical) (ds : List (Ty × Ty)) :
    (as.declareAll ds).Canonical := by
  induction ds generalizing as with
  | nil => exact h
  | cons d ds ih => exact ih (h.declare d.1 d.2)

theorem Canonical.mem_unordered_pairs {as : TypeAliases} (h : as.Canonical) {x y : Ty} :
    s(x, y) ∈ unordered as.pairs ↔ as.related x y ∧ x ≠ y := by
  simp only [related, Bool.or_eq_true, decide_eq_true_eq, List.contains_iff_mem, mem_unordered_iff]
  constructor
  · rintro (hxy | hyx)
    · have hpair := h.ordered _ hxy
      exact ⟨.inr (hpair ▸ hxy), h.different _ hxy⟩
    · have hpair := h.ordered _ hyx
      exact ⟨.inr (pair_comm x y ▸ hpair ▸ hyx), Ne.symm (h.different _ hyx)⟩
  · rintro ⟨hxy, hne⟩
    have hmem := hxy.resolve_left hne
    rcases pair_eq_or x y with heq | heq
    · exact .inl (heq ▸ hmem)
    · exact .inr (heq ▸ hmem)

/-- As each pair stands once and in one order only, the size counts unordered pairs. -/
theorem Canonical.size_eq {as : TypeAliases} (h : as.Canonical) :
    as.size = (unordered as.pairs).card := by
  have hinj : ∀ d ∈ as.pairs, ∀ e ∈ as.pairs, s(d.1, d.2) = s(e.1, e.2) → d = e := by
    intro d hd e he heq
    rw [← h.ordered d hd, ← h.ordered e he, pair_eq_pair_iff]
    exact Sym2.eq_iff.1 heq
  rw [unordered, List.toFinset_card_of_nodup (h.nodup.map_on hinj), List.length_map, size]

theorem size_declareAll_empty (ds : List (Ty × Ty)) :
    (empty.declareAll ds).size = ((unordered ds).filter fun z => ¬ z.IsDiag).card := by
  have hcanonical := canonical_empty.declareAll ds
  rw [hcanonical.size_eq]
  congr 1
  ext z
  induction z using Sym2.ind with
  | _ x y =>
    rw [hcanonical.mem_unordered_pairs, related_declareAll, related_empty, Finset.mem_filter,
      mem_unordered_iff, Sym2.mk_isDiag_iff]
    tauto

/-! ### Declarations made another way -/

/-- The second declarations are the first ones in another order, with the types of some turned round, and
with some made more often or less often, but at least once. -/
inductive Rearranges : List (Ty × Ty) → List (Ty × Ty) → Prop
  | reordered {ds es : List (Ty × Ty)} (h : ds.Perm es) : Rearranges ds es
  | turned (before after : List (Ty × Ty)) (s t : Ty) :
      Rearranges (before ++ (s, t) :: after) (before ++ (t, s) :: after)
  | again {ds : List (Ty × Ty)} {d : Ty × Ty} (h : d ∈ ds) : Rearranges ds (d :: ds)
  | symm {ds es : List (Ty × Ty)} (h : Rearranges ds es) : Rearranges es ds
  | trans {ds es fs : List (Ty × Ty)} (h : Rearranges ds es) (h' : Rearranges es fs) :
      Rearranges ds fs

theorem Rearranges.unordered_eq {ds es : List (Ty × Ty)} (h : Rearranges ds es) :
    unordered ds = unordered es := by
  induction h with
  | reordered h => exact List.toFinset_eq_of_perm _ _ (h.map _)
  | turned before after s t =>
    have hturn : s(s, t) = s(t, s) := Sym2.eq_swap
    simp only [unordered, List.map_append, List.map_cons, hturn]
  | @again ds d h =>
    have hmem : s(d.1, d.2) ∈ unordered ds := mem_unordered_iff.2 (.inl h)
    have hcons : unordered (d :: ds) = insert s(d.1, d.2) (unordered ds) := List.toFinset_cons
    rw [hcons, Finset.insert_eq_of_mem hmem]
  | symm _ ih => exact ih.symm
  | trans _ _ ih ih' => exact ih.trans ih'

/-- Whatever was declared, and however often and in whichever order:

* two types are related exactly if they are the same or were declared, in one order or the other;
* the size is the number of unordered pairs of different types that were declared;
* declarations that rearrange these lead to the same answers and the same size. -/
theorem declared_exactly (ds : List (Ty × Ty)) :
    let as := empty.declareAll ds
    (∀ x y, as.related x y ↔ x = y ∨ (x, y) ∈ ds ∨ (y, x) ∈ ds) ∧
    as.size = ((ds.map fun d => s(d.1, d.2)).toFinset.filter fun z => ¬ z.IsDiag).card ∧
    ∀ es, Rearranges ds es →
      (∀ x y, (empty.declareAll es).related x y = as.related x y) ∧
        (empty.declareAll es).size = as.size := by
  intro as
  have hrelated : ∀ ds x y,
      (empty.declareAll ds).related x y ↔ x = y ∨ (x, y) ∈ ds ∨ (y, x) ∈ ds := by
    intro ds x y
    rw [related_declareAll, related_empty]
  refine ⟨hrelated ds, size_declareAll_empty ds, fun es hes => ⟨fun x y => ?_, ?_⟩⟩
  · rw [Bool.eq_iff_iff, hrelated es, hrelated ds, ← mem_unordered_iff, ← mem_unordered_iff,
      hes.unordered_eq]
  · rw [size_declareAll_empty, size_declareAll_empty, hes.unordered_eq]

-- The second declaration turns the first one round, and the third says nothing.
example : (empty.declareAll [(.int, ⟨7⟩), (⟨7⟩, .int), (.bool, .bool)]).size = 1 := by
  decide

end ValueNumbering.TypeAliases
