import Mathlib.Algebra.BigOperators.ModEq
import Mathlib.Algebra.Order.Ring.Int
import Aegisum.Mweb.TxBody

/-!
# Unbounded amounts

The amounts a body is asked for, over the unbounded integers, and how the wrapping sums of the
code relate to them: always modulo `2 ^ 64`, and exactly as long as no sum leaves the range of
64-bit integers.
-/

namespace Aegisum

namespace Mw

variable {P : Primitives}

namespace Kernel

/-- The unbounded sum of the peg-outs. -/
def pegOutSum (k : Kernel P) : ℤ := intSum PegOutCoin.amount k.pegouts

/-- The unbounded supply change. -/
def supplySum (k : Kernel P) : ℤ := k.getPegIn.toInt - k.getFee.toInt - k.pegOutSum

lemma pegOutSum_nonneg (k : Kernel P) : 0 ≤ k.pegOutSum :=
  intSum_nonneg fun _ hp => k.pegout_nonneg hp

lemma getPegOutAmount_modEq (k : Kernel P) : k.getPegOutAmount.toInt ≡ k.pegOutSum [ZMOD 2 ^ 64] :=
  toInt_accumulate_zero_modEq PegOutCoin.amount k.pegouts

lemma getSupplyChange_modEq (k : Kernel P) : k.getSupplyChange.toInt ≡ k.supplySum [ZMOD 2 ^ 64] :=
  (toInt_sub_modEq _ _).trans
    ((toInt_sub_modEq _ _).sub k.getPegOutAmount_modEq)

lemma getSupplyChange_eq_of_fits {k : Kernel P} (h : FitsInt64 k.supplySum) :
    k.getSupplyChange.toInt = k.supplySum :=
  eq_of_modEq_of_fits (fitsInt64_toInt _) h k.getSupplyChange_modEq

end Kernel

namespace TxBody

/-- The unbounded sum of the peg-ins. -/
def pegInSum (b : TxBody P) : ℤ := intSum Kernel.getPegIn b.kernels

/-- The unbounded sum of the fees. -/
def feeSum (b : TxBody P) : ℤ := intSum Kernel.getFee b.kernels

/-- The unbounded sum of the peg-outs. -/
def pegOutSum (b : TxBody P) : ℤ := intSum PegOutCoin.amount b.getPegOuts

/-- The unbounded supply change. -/
def supplySum (b : TxBody P) : ℤ := (b.kernels.map Kernel.supplySum).sum

lemma pegInSum_nonneg (b : TxBody P) : 0 ≤ b.pegInSum :=
  intSum_nonneg fun k _ => k.getPegIn_nonneg

lemma feeSum_nonneg (b : TxBody P) : 0 ≤ b.feeSum :=
  intSum_nonneg fun k _ => k.getFee_nonneg

lemma pegOutSum_eq_sum (b : TxBody P) : b.pegOutSum = (b.kernels.map Kernel.pegOutSum).sum :=
  intSum_flatMap PegOutCoin.amount Kernel.pegouts b.kernels

lemma pegOutSum_nonneg (b : TxBody P) : 0 ≤ b.pegOutSum := by
  rw [pegOutSum_eq_sum]
  refine List.sum_nonneg fun n hn => ?_
  obtain ⟨k, -, rfl⟩ := List.mem_map.mp hn
  exact k.pegOutSum_nonneg

/-- Kernels without a peg-in add nothing to the peg-ins. -/
lemma intSum_getPegIns [MwCrypto P] (b : TxBody P) :
    intSum PegInCoin.amount b.getPegIns = b.pegInSum := by
  unfold getPegIns pegInSum
  induction b.kernels with
  | nil => rfl
  | cons k ks ih =>
    cases hk : k.hasPegIn with
    | true => simp [hk, ih]
    | false =>
      have hnone : k.pegin = none := by simpa [Kernel.hasPegIn] using hk
      have hzero : k.getPegIn = 0 := by
        rw [Kernel.getPegIn, hnone]
        rfl
      simp [hk, ih, hzero]

lemma supplySum_eq (b : TxBody P) : b.supplySum = b.pegInSum - b.feeSum - b.pegOutSum := by
  rw [pegOutSum_eq_sum]
  unfold supplySum pegInSum feeSum
  induction b.kernels with
  | nil => rfl
  | cons k ks ih =>
    simp only [List.map_cons, List.sum_cons, intSum_cons, ih, Kernel.supplySum]
    omega

lemma getFee_le_feeSum {b : TxBody P} {k : Kernel P} (hk : k ∈ b.kernels) :
    k.getFee.toInt ≤ b.feeSum :=
  le_intSum (fun k _ => k.getFee_nonneg) hk

lemma pegOutSum_le_pegOutSum {b : TxBody P} {k : Kernel P} (hk : k ∈ b.kernels) :
    k.pegOutSum ≤ b.pegOutSum := by
  rw [pegOutSum_eq_sum]
  refine List.single_le_sum (fun n hn => ?_) _ (List.mem_map_of_mem hk)
  obtain ⟨k', -, rfl⟩ := List.mem_map.mp hn
  exact k'.pegOutSum_nonneg

/-- The first kernels of a body add at most all its peg-ins to the supply. -/
lemma sum_take_supplySum_le (b : TxBody P) (n : ℕ) :
    ((b.kernels.take n).map Kernel.supplySum).sum ≤ b.pegInSum := by
  have hpegin : intSum Kernel.getPegIn (b.kernels.take n) ≤ b.pegInSum :=
    intSum_take_le (fun k _ => k.getPegIn_nonneg) n
  have hsum := supplySum_eq { b with kernels := b.kernels.take n }
  have hfee := feeSum_nonneg { b with kernels := b.kernels.take n }
  have hpegout := pegOutSum_nonneg { b with kernels := b.kernels.take n }
  unfold supplySum pegInSum at hsum
  simp only at hsum
  omega

lemma getTotalFee_modEq (b : TxBody P) : b.getTotalFee.toInt ≡ b.feeSum [ZMOD 2 ^ 64] :=
  toInt_accumulate_zero_modEq Kernel.getFee b.kernels

lemma getSupplyChange_modEq (b : TxBody P) : b.getSupplyChange.toInt ≡ b.supplySum [ZMOD 2 ^ 64] :=
  (toInt_accumulate_zero_modEq Kernel.getSupplyChange b.kernels).trans
    (Int.ModEq.listSum_map fun k _ => k.getSupplyChange_modEq)

end TxBody

end Mw

end Aegisum
