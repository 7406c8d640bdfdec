import Mathlib.Logic.Function.Basic
import ValueNumbering.Arena.Build
import ValueNumbering.Proofs.HashAgreement

/-!
# What the hash of a key tells apart

A hash of 64 bits cannot tell all keys apart. But it never loses a single difference:
`View.hashKey_separates` says that two hashes of an expression differ if

* the seeds are different;
* the memory versions are equally many and differ in one place;
* two neighbours among the memory versions, which are different, change places.

The first two hold for all 64-bit words. Reading a word can be undone, as the multiplier is odd
(`Digest.multiplier_mul_inverse`), so a difference between two states is never lost, however many words
follow (`Digest.foldl_absorb_injective`), and turning the last state loses nothing either
(`Digest.finish_injective`).

The third does not hold for all words. The multiplier less one is four times an odd number, so neighbours
can change places unnoticed exactly if four times the one is four times the other
(`Digest.ofWords_swap_iff`), and then they differ in the two highest bits only. Memory versions have
32 bits.
-/

namespace ValueNumbering

namespace Digest

/-! ### Reading words -/

/-- The number that undoes the multiplier. -/
def inverse : UInt64 := 0x781494a55daaed0d

theorem multiplier_mul_inverse : multiplier * inverse = 1 := by decide

theorem mul_multiplier_injective : Function.Injective (· * multiplier) := by
  intro s t h
  have hundo : s * multiplier * inverse = t * multiplier * inverse := congrArg (· * inverse) h
  rwa [UInt64.mul_assoc, UInt64.mul_assoc, multiplier_mul_inverse, UInt64.mul_one,
    UInt64.mul_one] at hundo

theorem absorb_left_injective (word : UInt64) : Function.Injective (absorb · word) := by
  intro s t h
  have hsum : s + word = t + word := mul_multiplier_injective h
  exact (UInt64.add_left_inj word).1 hsum

theorem absorb_right_injective (state : UInt64) : Function.Injective (absorb state) := by
  intro x y h
  have hsum : state + x = state + y := mul_multiplier_injective h
  exact (UInt64.add_right_inj state).1 hsum

theorem foldl_absorb_injective (words : List UInt64) :
    Function.Injective fun state => words.foldl absorb state := by
  induction words with
  | nil => exact Function.injective_id
  | cons word rest ih => exact ih.comp (absorb_left_injective word)

/-- Turning the state back by 26 bits. -/
theorem unfinish_finish (state : UInt64) :
    finish state >>> 26 ||| finish state <<< 38 = state := by
  unfold finish
  apply UInt64.toBitVec_inj.1
  apply BitVec.eq_of_getLsbD_eq
  intro i hi
  simp only [UInt64.toBitVec_or, UInt64.toBitVec_shiftLeft, UInt64.toBitVec_shiftRight,
    UInt64.toBitVec_ofNat, BitVec.reduceMod, BitVec.shiftLeft_eq', BitVec.ushiftRight_eq',
    BitVec.toNat_ofNat, Nat.reducePow, Nat.reduceMod, BitVec.getLsbD_or, BitVec.getLsbD_shiftLeft,
    BitVec.getLsbD_ushiftRight]
  -- a bit comes back from the high end or from the low end, according to its position
  by_cases h : i < 38 <;> grind

theorem finish_injective : Function.Injective finish := by
  intro s t h
  rw [← unfinish_finish s, ← unfinish_finish t, h]

/-! ### Digests -/

/-- Digests that read the same words at the end are the same exactly if the words before led to the same
state. -/
theorem ofWords_append_eq_iff (xs ys rest : List UInt64) :
    ofWords (xs ++ rest) = ofWords (ys ++ rest) ↔ xs.foldl absorb 0 = ys.foldl absorb 0 := by
  unfold ofWords
  rw [List.foldl_append, List.foldl_append, finish_injective.eq_iff]
  exact (foldl_absorb_injective rest).eq_iff

theorem ofWords_word_iff (front rest : List UInt64) (x y : UInt64) :
    ofWords (front ++ x :: rest) = ofWords (front ++ y :: rest) ↔ x = y := by
  have h := ofWords_append_eq_iff (front ++ [x]) (front ++ [y]) rest
  simp only [List.append_assoc, List.singleton_append, List.foldl_append, List.foldl_cons,
    List.foldl_nil] at h
  rw [h]
  exact (absorb_right_injective _).eq_iff

/-- The multiplier less one can be undone up to a factor of four. -/
theorem pred_multiplier_mul : (multiplier - 1) * 0xa15aab46355dd691 = 4 := by decide

/-- The order of two words makes no difference exactly if it makes none to their product with the multiplier
less one. -/
theorem absorb_comm_iff (state x y : UInt64) :
    absorb (absorb state x) y = absorb (absorb state y) x ↔
      x * (multiplier - 1) = y * (multiplier - 1) := by
  have hlast : absorb (absorb state x) y = absorb (absorb state y) x ↔
      (state + x) * multiplier + y = (state + y) * multiplier + x :=
    mul_multiplier_injective.eq_iff
  rw [hlast]
  generalize multiplier = k
  -- what both sides have in common, `state * k + x + y`, is taken away or added
  constructor
  · intro h
    grind
  · intro h
    grind

/-- Two neighbours may change places unnoticed exactly if they agree in all but the two highest bits. -/
theorem ofWords_swap_iff (front rest : List UInt64) (x y : UInt64) :
    ofWords (front ++ x :: y :: rest) = ofWords (front ++ y :: x :: rest) ↔ x * 4 = y * 4 := by
  have h := ofWords_append_eq_iff (front ++ [x, y]) (front ++ [y, x]) rest
  simp only [List.append_assoc, List.cons_append, List.nil_append, List.foldl_append, List.foldl_cons,
    List.foldl_nil] at h
  rw [h, absorb_comm_iff]
  have hfour : multiplier - 1 = 4 * 0x3c4d5eba8b98aa71 := by decide
  constructor
  · intro h
    rw [← pred_multiplier_mul, ← UInt64.mul_assoc, ← UInt64.mul_assoc, h]
  · intro h
    rw [hfour, ← UInt64.mul_assoc, ← UInt64.mul_assoc, h]

end Digest

/-! ### Memory versions -/

theorem MemVersion.toUInt64_inj {x y : MemVersion} : x.raw.toUInt64 = y.raw.toUInt64 ↔ x = y := by
  cases x
  cases y
  rw [← UInt64.toNat_inj, UInt32.toNat_toUInt64, UInt32.toNat_toUInt64, UInt32.toNat_inj, mk.injEq]

theorem MemVersion.toUInt64_mul_four_inj {x y : MemVersion} :
    x.raw.toUInt64 * 4 = y.raw.toUInt64 * 4 ↔ x = y := by
  rw [← toUInt64_inj, ← UInt64.toNat_inj, ← UInt64.toNat_inj, UInt64.toNat_mul, UInt64.toNat_mul,
    UInt32.toNat_toUInt64, UInt32.toNat_toUInt64, show UInt64.toNat 4 = 4 from rfl]
  have hx := x.raw.toNat_lt
  have hy := y.raw.toNat_lt
  omega

theorem exists_split_of_differ_once {α : Type} {l l' : List α} (hlen : l.length = l'.length)
    (h : ∃! i : Nat, l[i]? ≠ l'[i]?) :
    ∃ front x y rest, x ≠ y ∧ l = front ++ x :: rest ∧ l' = front ++ y :: rest := by
  obtain ⟨i, hne, honly⟩ := h
  have hi : i < l.length := by
    by_contra hi
    apply hne
    rw [List.getElem?_eq_none (by omega), List.getElem?_eq_none (by omega)]
  have hi' : i < l'.length := by omega
  have hset : l' = l.set i l'[i] := by
    apply List.ext_getElem?
    intro j
    by_cases hij : i = j
    · rw [← hij, List.getElem?_set_self hi, List.getElem?_eq_getElem hi']
    · rw [List.getElem?_set_ne hij]
      by_contra hdiffer
      exact hij (honly j (Ne.symm hdiffer)).symm
  refine ⟨l.take i, l[i], l'[i], l.drop (i + 1), ?_, ?_, ?_⟩
  · rwa [List.getElem?_eq_getElem hi, List.getElem?_eq_getElem hi', ne_eq, Option.some.injEq] at hne
  · rw [List.getElem_cons_drop, List.take_append_drop]
  · rwa [List.set_eq_take_append_cons_drop, if_pos hi] at hset

namespace View

variable (seed hash : UInt64)

theorem digestKey_seed_iff (seed' : UInt64) (deps : List MemVersion) :
    digestKey seed hash deps = digestKey seed' hash deps ↔ seed = seed' :=
  Digest.ofWords_word_iff [] _ seed seed'

theorem digestKey_version_iff (front rest : List MemVersion) (x y : MemVersion) :
    digestKey seed hash (front ++ x :: rest) = digestKey seed hash (front ++ y :: rest) ↔ x = y := by
  unfold digestKey
  rw [List.map_append, List.map_append, List.map_cons, List.map_cons, ← MemVersion.toUInt64_inj]
  exact Digest.ofWords_word_iff (seed :: hash :: front.map _) _ _ _

theorem digestKey_swap_iff (front rest : List MemVersion) (x y : MemVersion) :
    digestKey seed hash (front ++ x :: y :: rest) = digestKey seed hash (front ++ y :: x :: rest) ↔
      x = y := by
  unfold digestKey
  simp only [List.map_append, List.map_cons]
  rw [← MemVersion.toUInt64_mul_four_inj]
  exact Digest.ofWords_swap_iff (seed :: hash :: front.map _) _ _ _

/-- An expression has a hash under every seed and all memory versions. Different seeds give different hashes,
memory versions that are equally many and differ in one place do, and exchanging two neighbours that are
different always changes the hash. -/
theorem hashKey_separates (v : View) {n : NodeId} {q : Node} (hq : v.arena.node? n = some q)
    (hk : q.op.kind ≠ .statement) :
    ∃ H : UInt64 → List MemVersion → UInt64,
      (∀ seed deps, v.hashKey seed ⟨n, deps⟩ = .ok (H seed deps)) ∧
      (∀ seed seed' deps, seed ≠ seed' → H seed deps ≠ H seed' deps) ∧
      (∀ seed deps deps', deps.length = deps'.length → (∃! i : Nat, deps[i]? ≠ deps'[i]?) →
        H seed deps ≠ H seed deps') ∧
      ∀ seed front x y rest, x ≠ y →
        H seed (front ++ x :: y :: rest) ≠ H seed (front ++ y :: x :: rest) := by
  refine ⟨fun seed deps => digestKey seed (v.treeHash n) deps, hashKey_of_expression hq hk,
    fun seed seed' deps hne => ?_, fun seed deps deps' hlen hdiffer => ?_,
    fun seed front x y rest hne => ?_⟩
  · exact mt (digestKey_seed_iff seed _ seed' deps).1 hne
  · obtain ⟨front, x, y, rest, hne, rfl, rfl⟩ := exists_split_of_differ_once hlen hdiffer
    exact mt (digestKey_version_iff seed _ front rest x y).1 hne
  · exact mt (digestKey_swap_iff seed _ front rest x y).1 hne

/-- A load from an address. -/
def oneLoad : Arena := ((Arena.empty.var ⟨1⟩ 0 .pointer).2.load ⟨0⟩ .int).2

/-- The load has different hashes under two seeds, under versions of which the second differs, and under two
versions in either order. -/
theorem oneLoad_separates :
    ∃ H : UInt64 → List MemVersion → UInt64,
      (∀ seed deps, (View.mk oneLoad .full).hashKey seed ⟨⟨1⟩, deps⟩ = .ok (H seed deps)) ∧
      H 0 [⟨4⟩] ≠ H 1 [⟨4⟩] ∧ H 0 [⟨4⟩, ⟨5⟩] ≠ H 0 [⟨4⟩, ⟨6⟩] ∧ H 0 [⟨4⟩, ⟨5⟩] ≠ H 0 [⟨5⟩, ⟨4⟩] := by
  have hq : oneLoad.node? ⟨1⟩ = some ⟨.load, .int, .empty, ⟨0, 1⟩⟩ := by decide +kernel
  obtain ⟨H, hH, hseed, hversion, hswap⟩ := hashKey_separates ⟨oneLoad, .full⟩ hq (by decide)
  refine ⟨H, hH, hseed 0 1 [⟨4⟩] (by decide), hversion 0 _ _ rfl ?_, hswap 0 [] ⟨4⟩ ⟨5⟩ [] (by decide)⟩
  refine ⟨1, by decide, fun i hi => ?_⟩
  rcases i with _ | _ | i
  · simp at hi
  · rfl
  · simp at hi

end View

end ValueNumbering
