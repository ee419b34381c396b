import FiberStacks.Pool.SizeClass
import FiberStacks.Proofs.Size
import Mathlib.Algebra.Group.Nat.Defs

/-!
# Sizes that have a class

The search for the class of a size doubles the base size and stops before it leaves the range of
sizes, while the size of a class is found by a shift that drops bits. The two agree: a size is found
in the class whose size it is as an exact number, and in no other.
-/

namespace FiberStacks.SizeClass

variable {base size v w i : Nat} {classes : List SizeClass} {k : SizeClass}

theorem eq_of_search_eq_some (h : search w size classes = some k) :
    ∃ i : Nat, classes[i]? = some k ∧ w = size * 2 ^ i := by
  induction classes generalizing size with
  | nil => cases h
  | cons j rest ih =>
      unfold search at h
      split at h
      · rename_i heq
        exact ⟨0, by simpa using h, by simp [heq]⟩
      · split at h
        · rename_i doubled hdoubled
          obtain rfl := Size.eq_of_mul?_eq_some hdoubled
          obtain ⟨i, hi, hsize⟩ := ih h
          exact ⟨i + 1, by simpa using hi, by rw [hsize, Nat.pow_succ', Nat.mul_assoc]⟩
        · cases h

/-- The search finds a size that is doubled `i` times at the place `i`. -/
theorem search_mul_two_pow (hsize : 0 < size) (hlimit : size * 2 ^ i < Size.limit) :
    search (size * 2 ^ i) size classes = classes[i]? := by
  induction classes generalizing size i with
  | nil => rfl
  | cons k rest ih =>
      cases i with
      | zero => simp [search]
      | succ i =>
          have hpow := Nat.one_le_two_pow (n := i)
          have hdouble : size * 2 ^ (i + 1) = size * 2 * 2 ^ i := by
            rw [Nat.pow_succ', Nat.mul_assoc]
          have hle : size * 2 ≤ size * 2 * 2 ^ i := Nat.le_mul_of_pos_right _ hpow
          have hnext : Size.mul? size 2 = some (size * 2) := if_pos (by omega)
          rw [search, if_neg (by omega), hnext, List.getElem?_cons_succ, hdouble]
          exact ih (by omega) (by omega)

/-- A size has a class only if it is the size of that class. -/
theorem eq_of_forSize?_eq_some (h : forSize? w base = some k) : w = base * 2 ^ k.val := by
  obtain ⟨i, hi, hsize⟩ := eq_of_search_eq_some h
  rw [List.getElem?_eq_some_iff] at hi
  obtain ⟨hi, rfl⟩ := hi
  simpa using hsize

/-- Every class is found by its size. -/
theorem forSize?_mul_two_pow (hbase : 0 < base) (hlimit : base * 2 ^ k.val < Size.limit) :
    forSize? (base * 2 ^ k.val) base = some k := by
  rw [forSize?, search_mul_two_pow hbase hlimit]
  simp

theorem forSize?_eq_some_iff (hbase : 0 < base) (hw : w < Size.limit) :
    forSize? w base = some k ↔ w = base * 2 ^ k.val := by
  constructor
  · exact eq_of_forSize?_eq_some
  · rintro rfl
    exact forSize?_mul_two_pow hbase hw

/-- No bits are dropped from the size of a class that is found. -/
theorem wsize_of_forSize?_eq_some (hw : w < Size.limit) (h : forSize? w base = some k) :
    k.wsize base = w := by
  obtain rfl := eq_of_forSize?_eq_some h
  rw [wsize, Nat.shiftLeft_eq, Nat.mod_eq_of_lt hw]

/-- A size has the class of number `n` exactly if there is such a class and the size is the base
size doubled `n` times. That class has the size, so different sizes have different classes. -/
theorem forSize?_exact (hbase : 0 < base) (hw : w < Size.limit) :
    (∀ n : Nat, (forSize? w base).map Fin.val = some n ↔ n < count ∧ w = base * 2 ^ n) ∧
      (∀ k, forSize? w base = some k → k.wsize base = w) ∧
      ∀ v, v ≠ w → ∀ j k, forSize? v base = some j → forSize? w base = some k → j ≠ k := by
  refine ⟨fun n => ?_, fun k => wsize_of_forSize?_eq_some hw, ?_⟩
  · rw [Option.map_eq_some_iff]
    constructor
    · rintro ⟨k, hk, rfl⟩
      exact ⟨k.isLt, eq_of_forSize?_eq_some hk⟩
    · rintro ⟨hn, hsize⟩
      exact ⟨⟨n, hn⟩, (forSize?_eq_some_iff hbase hw).mpr hsize, rfl⟩
  · rintro v hne j k hj hk rfl
    exact hne ((eq_of_forSize?_eq_some hj).trans (eq_of_forSize?_eq_some hk).symm)

/-- With this base size only three of the classes have a size in the range. The size of the fourth
one loses a bit, and what is left of it has no class. -/
theorem class_of_large_base :
    0 < 3 * 2 ^ 60 ∧ 3 * 2 ^ 62 < Size.limit ∧ 2 ^ 63 < Size.limit ∧
      forSize? (3 * 2 ^ 62) (3 * 2 ^ 60) = some 2 ∧ wsize 2 (3 * 2 ^ 60) = 3 * 2 ^ 62 ∧
      wsize 3 (3 * 2 ^ 60) = 2 ^ 63 ∧ forSize? (2 ^ 63) (3 * 2 ^ 60) = none := by
  have hbase : 0 < 3 * 2 ^ 60 := by decide
  obtain ⟨hclass, hsize, -⟩ := forSize?_exact hbase (w := 3 * 2 ^ 62) (by decide)
  obtain ⟨k, hk, hval⟩ := Option.map_eq_some_iff.mp ((hclass 2).mpr ⟨by decide, by decide⟩)
  obtain rfl : k = 2 := Fin.ext hval
  refine ⟨hbase, by decide, by decide, hk, hsize 2 hk, by decide, ?_⟩
  obtain ⟨hclass, -⟩ := forSize?_exact hbase (w := 2 ^ 63) (by decide)
  refine Option.eq_none_iff_forall_ne_some.mpr fun k hk => ?_
  obtain ⟨-, hdoubled⟩ := (hclass k).mp (Option.map_eq_some_iff.mpr ⟨k, hk, rfl⟩)
  revert k
  decide

end FiberStacks.SizeClass
