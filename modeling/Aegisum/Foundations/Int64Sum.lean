import Mathlib.Algebra.BigOperators.Group.List.Basic
import Mathlib.Algebra.Order.BigOperators.Group.List
import Mathlib.Data.Int.ModEq
import Mathlib.Algebra.Order.Group.Unbundled.Int

/-!
# Sums of 64-bit integers

Amounts are added in wrapping 64-bit arithmetic.  This file compares such sums with
the unbounded integers they stand for: a wrapped sum is congruent to the unbounded
one modulo `2 ^ 64`, and equals it as soon as the unbounded sum is representable.
-/

namespace Aegisum

/-- The unbounded integer `n` is the value of some 64-bit integer. -/
def FitsInt64 (n : ℤ) : Prop := -2 ^ 63 ≤ n ∧ n < 2 ^ 63

/-- Every machine integer fits. -/
lemma fitsInt64_toInt (a : Int64) : FitsInt64 a.toInt := by
  have h := a.toInt_lt
  exact ⟨a.le_toInt, h⟩

/-- Two representable integers that agree modulo `2 ^ 64` are equal. -/
lemma eq_of_modEq_of_fits {m n : ℤ} (hm : FitsInt64 m) (hn : FitsInt64 n)
    (h : m ≡ n [ZMOD 2 ^ 64]) : m = n := by
  obtain ⟨k, hk⟩ := h.dvd
  unfold FitsInt64 at hm hn
  omega

lemma bmod_modEq (n : ℤ) : n.bmod (2 ^ 64) ≡ n [ZMOD 2 ^ 64] := by
  have h : n.bmod (2 ^ 64) % ((2 ^ 64 : ℕ) : ℤ) = n % ((2 ^ 64 : ℕ) : ℤ) := Int.bmod_emod
  exact_mod_cast h

/-- Machine addition is exact modulo `2 ^ 64`. -/
lemma toInt_add_modEq (a b : Int64) : (a + b).toInt ≡ a.toInt + b.toInt [ZMOD 2 ^ 64] := by
  rw [Int64.toInt_add]
  exact bmod_modEq _

/-- Machine subtraction is exact modulo `2 ^ 64`. -/
lemma toInt_sub_modEq (a b : Int64) : (a - b).toInt ≡ a.toInt - b.toInt [ZMOD 2 ^ 64] := by
  rw [Int64.toInt_sub]
  exact bmod_modEq _

variable {a b : Int64}

/-- An addition whose unbounded result is representable does not wrap. -/
lemma toInt_add_of_fits (h : FitsInt64 (a.toInt + b.toInt)) : (a + b).toInt = a.toInt + b.toInt :=
  eq_of_modEq_of_fits (fitsInt64_toInt _) h (toInt_add_modEq a b)

/-- A subtraction whose unbounded result is representable does not wrap. -/
lemma toInt_sub_of_fits (h : FitsInt64 (a.toInt - b.toInt)) : (a - b).toInt = a.toInt - b.toInt :=
  eq_of_modEq_of_fits (fitsInt64_toInt _) h (toInt_sub_modEq a b)

/-- Congruent 64-bit integers are equal. -/
lemma eq_of_toInt_modEq (h : a.toInt ≡ b.toInt [ZMOD 2 ^ 64]) : a = b :=
  Int64.toInt_inj.mp (eq_of_modEq_of_fits (fitsInt64_toInt a) (fitsInt64_toInt b) h)

/-- A non-negative integer is read as the same unsigned integer. -/
lemma toNat_toUInt64_of_nonneg (h : 0 ≤ a.toInt) : (a.toUInt64.toNat : ℤ) = a.toInt := by
  have h0 : (0 : Int64) ≤ a := Int64.le_iff_toInt_le.mpr (by simpa using h)
  rw [Int64.toNat_toUInt64_of_le h0, Int64.toNatClampNeg]
  omega

/-- The absolute value, read as an unsigned integer, is right even for the least integer. -/
lemma toNat_toUInt64_abs (a : Int64) : (a.abs.toUInt64.toNat : ℤ) = |a.toInt| := by
  have h1 : a.abs.toUInt64.toNat = a.toBitVec.abs.toNat := rfl
  have h2 : a.toInt = a.toBitVec.toInt := rfl
  have hlt := a.toBitVec.isLt
  rw [h1, h2, BitVec.toNat_abs, BitVec.toInt_eq_msb_cond]
  by_cases hm : a.toBitVec.msb = true
  · have hge : 2 ^ 63 ≤ a.toBitVec.toNat := by
      have := BitVec.msb_eq_true_iff_two_mul_ge.mp hm
      omega
    simp only [hm, if_true]
    rw [abs_of_nonpos (by omega)]
    omega
  · rw [if_neg hm, if_neg hm, abs_of_nonneg (Int.natCast_nonneg _)]

/-- The absolute value does not wrap unless the argument is the least integer. -/
lemma toInt_abs_of_ne (h : a.toInt ≠ -2 ^ 63) : a.abs.toInt = |a.toInt| := by
  have h1 : a.abs.toInt = a.toBitVec.abs.toInt := rfl
  have h2 : a.toInt = a.toBitVec.toInt := rfl
  rw [h1, h2, BitVec.toInt_abs_eq_natAbs_of_ne_intMin, Int.natCast_natAbs]
  intro hmin
  exact h (by rw [h2, hmin]; decide)

/-! ### Sums over lists -/

variable {α : Type*}

/-- The unbounded sum of a family of 64-bit integers. -/
def intSum (f : α → Int64) (xs : List α) : ℤ := (xs.map fun x => (f x).toInt).sum

@[simp] lemma intSum_nil (f : α → Int64) : intSum f [] = 0 := rfl

@[simp] lemma intSum_cons (f : α → Int64) (x : α) (xs : List α) :
    intSum f (x :: xs) = (f x).toInt + intSum f xs := by
  simp [intSum]

@[simp] lemma intSum_append (f : α → Int64) (xs ys : List α) :
    intSum f (xs ++ ys) = intSum f xs + intSum f ys := by
  simp [intSum]

lemma intSum_flatMap {β : Type*} (f : α → Int64) (g : β → List α) (xs : List β) :
    intSum f (xs.flatMap g) = (xs.map fun x => intSum f (g x)).sum := by
  induction xs with
  | nil => rfl
  | cons x xs ih => rw [List.flatMap_cons, intSum_append, ih, List.map_cons, List.sum_cons]

variable {xs : List α} {f : α → Int64}

/-- A sum of terms that are not negative. -/
lemma intSum_nonneg (h : ∀ x ∈ xs, 0 ≤ (f x).toInt) : 0 ≤ intSum f xs := by
  refine List.sum_nonneg fun n hn => ?_
  obtain ⟨x, hx, rfl⟩ := List.mem_map.mp hn
  exact h x hx

/-- The order of the terms does not matter. -/
lemma intSum_perm (f : α → Int64) {ys : List α} (h : xs.Perm ys) : intSum f xs = intSum f ys :=
  (h.map _).sum_eq

/-- The wrapping accumulation of a family, as `std::accumulate` computes it. -/
def accumulate (f : α → Int64) (init : Int64) (xs : List α) : Int64 :=
  xs.foldl (fun sum x => sum + f x) init

@[simp] lemma accumulate_nil (f : α → Int64) (init : Int64) : accumulate f init [] = init := rfl

@[simp] lemma accumulate_cons (f : α → Int64) (init : Int64) (x : α) (xs : List α) :
    accumulate f init (x :: xs) = accumulate f (init + f x) xs := rfl

/-- The loop goes on where it stopped. -/
lemma accumulate_append (f : α → Int64) (init : Int64) (xs ys : List α) :
    accumulate f init (xs ++ ys) = accumulate f (accumulate f init xs) ys := by
  simp [accumulate]

/-- A wrapped accumulation agrees with the unbounded one modulo `2 ^ 64`. -/
lemma toInt_accumulate_modEq (f : α → Int64) (init : Int64) (xs : List α) :
    (accumulate f init xs).toInt ≡ init.toInt + intSum f xs [ZMOD 2 ^ 64] := by
  induction xs generalizing init with
  | nil => simp
  | cons x xs ih =>
    rw [accumulate_cons, intSum_cons, ← add_assoc]
    exact (ih (init + f x)).trans ((toInt_add_modEq init (f x)).add_right _)

/-- The loop is exact modulo `2 ^ 64`. -/
lemma toInt_accumulate_zero_modEq (f : α → Int64) (xs : List α) :
    (accumulate f 0 xs).toInt ≡ intSum f xs [ZMOD 2 ^ 64] := by
  have h := toInt_accumulate_modEq f 0 xs
  rwa [Int64.toInt_zero, zero_add] at h

/-- An accumulation whose unbounded value is representable has that value. -/
lemma toInt_accumulate_of_fits (h : FitsInt64 (intSum f xs)) :
    (accumulate f 0 xs).toInt = intSum f xs :=
  eq_of_modEq_of_fits (fitsInt64_toInt _) h (toInt_accumulate_zero_modEq f xs)

/-- No partial sum of the accumulation wraps. -/
def AccumulatesExactly (f : α → Int64) (xs : List α) : Prop :=
  ∀ n, (accumulate f 0 (xs.take n)).toInt = intSum f (xs.take n)

/-- The loop gives the sum itself. -/
lemma AccumulatesExactly.toInt_eq (h : AccumulatesExactly f xs) :
    (accumulate f 0 xs).toInt = intSum f xs := by
  simpa using h xs.length

/-- The partial sums of a family of non-negative numbers are at most the whole sum. -/
lemma intSum_take_le (hf : ∀ x ∈ xs, 0 ≤ (f x).toInt) (n : ℕ) :
    intSum f (xs.take n) ≤ intSum f xs := by
  have hdrop : 0 ≤ intSum f (xs.drop n) := intSum_nonneg fun x hx => hf x (List.mem_of_mem_drop hx)
  have hsplit := intSum_append f (xs.take n) (xs.drop n)
  rw [List.take_append_drop] at hsplit
  omega

/-- One term of a sum of non-negative numbers is at most the whole sum. -/
lemma le_intSum (hf : ∀ x ∈ xs, 0 ≤ (f x).toInt) {x : α} (hx : x ∈ xs) :
    (f x).toInt ≤ intSum f xs := by
  obtain ⟨l, r, rfl⟩ := List.append_of_mem hx
  have hl : 0 ≤ intSum f l := intSum_nonneg fun y hy => hf y (by simp [hy])
  have hr : 0 ≤ intSum f r := intSum_nonneg fun y hy => hf y (by simp [hy])
  simp only [intSum_append, intSum_cons]
  omega

/-- Non-negative numbers are accumulated exactly when their sum is representable. -/
lemma accumulatesExactly_of_nonneg (hf : ∀ x ∈ xs, 0 ≤ (f x).toInt) (h : intSum f xs < 2 ^ 63) :
    AccumulatesExactly f xs := by
  intro n
  have hle := intSum_take_le hf n
  have hpos : 0 ≤ intSum f (xs.take n) := intSum_nonneg fun x hx => hf x (List.mem_of_mem_take hx)
  exact toInt_accumulate_of_fits ⟨by omega, by omega⟩

end Aegisum
