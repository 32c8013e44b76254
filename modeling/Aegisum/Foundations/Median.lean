import Mathlib.Data.List.GetD
import Mathlib.Data.List.Sort
import Mathlib.Data.Int.Order.Basic

/-!
# The median of a list

The upper median of a list of integers and its behaviour when a list is extended: adding an
element that is at least the median, and dropping elements, never lowers it.
-/

namespace Aegisum

open List

/-- The element in the middle of the sorted list. -/
def median (l : List ℤ) : ℤ := (l.insertionSort (· ≤ ·)).getD (l.length / 2) 0

/-- In a sorted list, the element at position `k` is at least `v` exactly when at most `k`
elements are below `v`. -/
lemma countP_lt_le_iff {s : List ℤ} (hs : s.Pairwise (· ≤ ·)) {k : ℕ} (hk : k < s.length)
    (v : ℤ) : s.countP (· < v) ≤ k ↔ v ≤ s[k] := by
  induction s generalizing k with
  | nil => simp at hk
  | cons a s ih =>
    rw [pairwise_cons] at hs
    by_cases hav : a < v
    · cases k with
      | zero => simp [hav]
      | succ k =>
        have := ih hs.2 (k := k) (by simpa using hk)
        simpa [hav] using this
    · -- nothing is below `v`, since the first element is not
      have hge : ∀ x ∈ a :: s, ¬ x < v := by
        intro x hx
        rcases mem_cons.mp hx with rfl | hx
        · exact hav
        · have := hs.1 x hx
          omega
      have hzero : (a :: s).countP (· < v) = 0 := by
        rw [countP_eq_zero]
        intro x hx
        simpa using hge x hx
      rw [hzero]
      simpa using hge _ (getElem_mem hk)

/-- The median is at least `v` exactly when at most half of the elements are below `v`. -/
lemma le_median_iff {l : List ℤ} (hl : l ≠ []) (v : ℤ) :
    v ≤ median l ↔ l.countP (· < v) ≤ l.length / 2 := by
  have hpos : 0 < l.length := length_pos_iff.mpr hl
  have hk : l.length / 2 < (l.insertionSort (· ≤ ·)).length := by
    rw [length_insertionSort]
    omega
  rw [median, getD_eq_getElem _ _ hk,
    ← countP_lt_le_iff (pairwise_insertionSort _ _) hk,
    (perm_insertionSort (· ≤ ·) l).countP_eq]

/-- Extending a window of `n` elements by an element that is at least its median, and cutting
it back to `n` elements, does not lower the median. -/
lemma median_le_median_cons {n : ℕ} {l : List ℤ} (hl : l ≠ []) (hn : l.length ≤ n) {t : ℤ}
    (ht : median l ≤ t) : median l ≤ median ((t :: l).take n) := by
  have hpos : 0 < l.length := length_pos_iff.mpr hl
  have hne : (t :: l).take n ≠ [] := by
    rw [ne_eq, take_eq_nil_iff]
    simp
    omega
  have hold := (le_median_iff hl (median l)).mp le_rfl
  rw [le_median_iff hne]
  calc ((t :: l).take n).countP (· < median l)
      ≤ (t :: l).countP (· < median l) := (take_sublist n _).countP_le
    _ = l.countP (· < median l) := by simp [ht]
    _ ≤ l.length / 2 := hold
    _ ≤ ((t :: l).take n).length / 2 := by
        refine Nat.div_le_div_right ?_
        rw [length_take, length_cons]
        omega

end Aegisum
