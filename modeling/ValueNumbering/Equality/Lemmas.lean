import ValueNumbering.Equality.Basic

/-!
# Remembering pairs does not change a comparison

`View.settle_sound`: from pairs that are equal, a comparison gives the verdict of the plain
recursion and leaves pairs that are equal. Hence `View.equal_eq_sameTree`: for nodes that exist,
`View.equal` is `View.sameTree`.
-/

namespace ValueNumbering.View

variable (v : View)

theorem sameTree_eq (x y : NodeId) :
    v.sameTree x y =
      (x = y || (v.agree x y && (v.operandPairs x y).all fun p => v.sameTree p.1 p.2)) := by
  have h : v.operandPairs x y =
      ((v.arena.operands x).attach.zip (v.arena.operands y)).map (Prod.map Subtype.val id) := by
    rw [← List.zip_map_left, List.attach_map_subtype_val]
    rfl
  rw [sameTree, h, List.all_map]
  rfl

/-- All known pairs are equal. -/
def Sound (known : ProvenPairs) : Prop := ∀ x y, (x, y) ∈ known → v.sameTree x y

/-- Whether an obligation can be met. -/
def meets : Obligation → Bool
  | .compare x y => v.sameTree x y
  | .record _ _ => true

/-- What is to be put down is true once the obligations before it are met. -/
def Justified : List Obligation → Prop
  | [] => True
  | .compare x y :: rest => v.sameTree x y → Justified rest
  | .record x y :: rest => v.sameTree x y ∧ Justified rest

variable {v}

theorem justified_compares {ps : List (NodeId × NodeId)} {rest : List Obligation}
    (h : (ps.all fun p => v.sameTree p.1 p.2) → v.Justified rest) :
    v.Justified (ps.map (fun p => .compare p.1 p.2) ++ rest) := by
  induction ps with
  | nil => exact h rfl
  | cons p ps ih => exact fun hp => ih fun hps => h (by simp_all)

theorem justified_obligations {x y : NodeId} {rest : List Obligation} (ha : v.agree x y)
    (h : v.sameTree x y → v.Justified rest) : v.Justified (v.obligations x y ++ rest) := by
  have hxy : ((v.operandPairs x y).all fun p => v.sameTree p.1 p.2) → v.sameTree x y := by
    intro hall
    simp [sameTree_eq v x y, ha, hall]
  unfold obligations
  split
  next he => exact h (hxy (by simp_all))
  next =>
    rw [List.append_assoc]
    exact justified_compares fun hall => ⟨hxy hall, h (hxy hall)⟩

theorem all_meets_obligations (x y : NodeId) :
    (v.obligations x y).all v.meets = (v.operandPairs x y).all fun p => v.sameTree p.1 p.2 := by
  unfold obligations
  split
  next he => simp_all
  next => simp [List.all_map, Function.comp_def, meets]

/-- Working through justified obligations from known pairs that are equal tells whether all of
them can be met, and leaves known pairs that are equal. -/
theorem settle_sound {obs : List Obligation} {known : ProvenPairs} (hk : v.Sound known)
    (hj : v.Justified obs) :
    (v.settle obs known).1 = obs.all v.meets ∧ v.Sound (v.settle obs known).2 := by
  fun_induction settle v obs known with
  | case1 known => exact ⟨rfl, hk⟩
  | case2 known x y rest h ih =>
    have hxy : v.sameTree x y := by
      rcases Bool.or_eq_true_iff.1 h with h | h
      · simp [sameTree_eq v x y, h]
      · exact hk x y h
    obtain ⟨h1, h2⟩ := ih hk (hj hxy)
    exact ⟨by simp [h1, meets, hxy], h2⟩
  | case3 known x y rest h ha ih =>
    obtain ⟨h1, h2⟩ := ih hk (justified_obligations ha hj)
    refine ⟨?_, h2⟩
    have hne : x ≠ y := by intro e; simp [e] at h
    rw [h1, List.all_append, all_meets_obligations, List.all_cons, meets, sameTree_eq v x y]
    simp [hne, ha]
  | case4 known x y rest h ha =>
    have hne : x ≠ y := by intro e; simp [e] at h
    have hxy : v.sameTree x y = false := by simp [sameTree_eq v x y, hne, ha]
    exact ⟨by simp [meets, hxy], hk⟩
  | case5 known x y rest ih =>
    obtain ⟨h1, h2⟩ := ih (fun p q hpq => by
      rw [Std.TreeSet.mem_insert] at hpq
      rcases hpq with h | h
      · cases Std.LawfulEqCmp.eq_of_compare h; exact hj.1
      · exact hk p q h) hj.2
    exact ⟨by simpa [meets] using h1, h2⟩

theorem sound_empty_pairs : v.Sound ∅ := by
  intro x y h
  simp at h

theorem settle_compare_empty (x y : NodeId) :
    (v.settle [.compare x y] ∅).1 = v.sameTree x y := by
  have hj : v.Justified [.compare x y] := fun _ => trivial
  simpa [meets] using (settle_sound sound_empty_pairs hj).1

/-- For nodes that exist, equality is that of the trees below them. -/
theorem equal_eq_sameTree {x y : NodeId} (hx : x.index < v.arena.size)
    (hy : y.index < v.arena.size) : v.equal x y = .ok (v.sameTree x y) := by
  obtain ⟨p, hp⟩ := Option.isSome_iff_exists.1 (Arena.node?_isSome_iff.2 hx)
  obtain ⟨q, hq⟩ := Option.isSome_iff_exists.1 (Arena.node?_isSome_iff.2 hy)
  unfold equal
  split
  next h => rw [sameTree_eq, decide_eq_true h, Bool.true_or]
  next h =>
    rw [settle_compare_empty]
    simp only [Arena.node, hp, hq]
    split
    next he => simp [sameTree_eq v x y, h, agree, hp, hq, he]
    next => rfl

end ValueNumbering.View
