import Mathlib.Algebra.BigOperators.Group.List.Basic
import Mathlib.Tactic.Abel
import Mathlib.Tactic.Module
import Aegisum.Mweb.TxBody

/-!
# Balance of commitments and of stealth keys

`KernelSumValidator` compares the commitments of outputs minus inputs, corrected by the coins
added, with the kernel excesses plus the offset; `StealthSumValidator` does the same for the
public keys.  The lemma `validateSums_eq_ok_iff` states the balance equation in the group.
-/

namespace Aegisum

open List

namespace Mw

variable {P : Primitives} [MwCrypto P]

/-- A curve operation that cannot be encoded throws. -/
def liftCrypto {α : Type} : Option α → Except MwError α
  | none => .error .crypto
  | some a => .ok a

@[simp] lemma liftCrypto_eq_ok {α : Type} {x : Option α} {a : α} :
    liftCrypto x = .ok a ↔ x = some a := by
  cases x <;> simp [liftCrypto]

/-! ### Kernel sums -/

/-- The outputs minus the inputs, with the coins added taken out. -/
def sumUtxoCommitments (inputCommits outputCommits : List P.Point) (coinsAdded : CAmount) :
    Except MwError P.Point := do
  let sumUtxo ← liftCrypto (addCommitments outputCommits inputCommits)
  if coinsAdded > 0 then
    liftCrypto (addCommitments [sumUtxo] [commitTransparent P coinsAdded.toUInt64.toNat])
  else if coinsAdded < 0 then
    liftCrypto (addCommitments [sumUtxo, commitTransparent P coinsAdded.abs.toUInt64.toNat] [])
  else pure sumUtxo

/-- The kernel excesses plus the offset. -/
def sumExcessCommitments (kernelCommits : List P.Point) (offset : P.Scalar) :
    Except MwError P.Point := do
  let sumExcess ← liftCrypto (addCommitments kernelCommits [])
  if offset ≠ 0 then liftCrypto (addCommitments [sumExcess, commitBlinded offset 0] [])
  else pure sumExcess

/-- The comparison all kernel sum checks end in. -/
def validateSums (inputCommits outputCommits kernelCommits : List P.Point) (offset : P.Scalar)
    (coinsAdded : CAmount) : Except MwError Unit := do
  let sumUtxo ← sumUtxoCommitments inputCommits outputCommits coinsAdded
  let sumExcess ← sumExcessCommitments kernelCommits offset
  rejectIf (sumUtxo ≠ sumExcess) .blockSums

/-- The running supply of a list of kernels; it may never become negative. -/
def runningSupply (kernels : List (Kernel P)) : Except MwError CAmount :=
  kernels.foldlM
    (fun totalMwebSupply k => do
      rejectIf (totalMwebSupply + k.getSupplyChange < 0) .blockSums
      pure (totalMwebSupply + k.getSupplyChange))
    0

/-- The check of a whole state: all unspent commitments against all kernels. -/
def validateState (utxoCommitments : List P.Point) (kernels : List (Kernel P))
    (totalOffset : P.Scalar) : Except MwError Unit := do
  let totalMwebSupply ← runningSupply kernels
  validateSums [] utxoCommitments (kernels.map Kernel.excess) totalOffset totalMwebSupply

/-- The check of a block: its body against the change of the total offset. -/
def validateForBlock (body : TxBody P) (totalOffset prevTotalOffset : P.Scalar) :
    Except MwError Unit :=
  let blockOffset := if prevTotalOffset ≠ 0 then totalOffset - prevTotalOffset else totalOffset
  validateSums body.getInputCommits body.getOutputCommits body.getKernelCommits blockOffset
    body.getSupplyChange

/-- The check of a loose transaction. -/
def validateForTx (tx : Transaction P) : Except MwError Unit :=
  validateSums tx.body.getInputCommits tx.body.getOutputCommits tx.body.getKernelCommits
    tx.kernelOffset tx.body.getSupplyChange

omit [MwCrypto P]

variable {coinsAdded : CAmount} {inputs outputs kernels : List P.Point}

variable {offset : P.Scalar} {c : P.Point}

/-- Taking the supply change out of a sum of commitments. -/
lemma subtractSupply_eq_ok_iff {s : P.Point} :
    (if coinsAdded > 0 then
      liftCrypto (addCommitments [s] [commitTransparent P coinsAdded.toUInt64.toNat])
    else if coinsAdded < 0 then
      liftCrypto (addCommitments [s, commitTransparent P coinsAdded.abs.toUInt64.toNat] [])
    else pure s : Except MwError P.Point) = .ok c ↔
      (s = coinsAdded.toInt • P.genH → s = 0) ∧ c = s - coinsAdded.toInt • P.genH := by
  have hzero : (0 : CAmount).toInt = 0 := rfl
  split
  case isTrue hpos =>
    have hpos' := Int64.lt_iff_toInt_lt.mp hpos
    rw [liftCrypto_eq_ok, addCommitments_eq_some_iff, commitTransparent,
      toNat_toUInt64_of_nonneg (by omega)]
    simp only [sum_singleton, cons_append, nil_append, forall_mem_cons,
      not_mem_nil, false_implies, implies_true, and_true]
    refine and_congr_left fun _ => ⟨fun h heq => (h heq).1, fun h heq => ⟨h heq, ?_⟩⟩
    exact heq.symm.trans (h heq)
  case isFalse hpos =>
    have hpos' := mt Int64.lt_iff_toInt_lt.mpr hpos
    split
    case isTrue hneg =>
      have hneg' := Int64.lt_iff_toInt_lt.mp hneg
      rw [liftCrypto_eq_ok, addCommitments_eq_some_iff, commitTransparent, toNat_toUInt64_abs,
        abs_of_neg (by omega), neg_smul]
      simp only [sum_cons, sum_nil, add_zero, append_nil, forall_mem_cons,
        not_mem_nil, false_implies, implies_true, and_true, sub_zero, ← sub_eq_add_neg,
        sub_eq_zero, neg_eq_zero]
      refine and_congr_left fun _ => ⟨fun h heq => (h heq).1, fun h heq => ⟨h heq, ?_⟩⟩
      exact heq.symm.trans (h heq)
    case isFalse hneg =>
      have hneg' := mt Int64.lt_iff_toInt_lt.mpr hneg
      have hcoins : coinsAdded.toInt = 0 := by omega
      rw [hcoins, zero_smul, sub_zero]
      simp [pure, Except.pure, eq_comm]

/-- The sums that `ValidateSums` takes can be represented. -/
structure Representable (inputs outputs kernels : List P.Point) (offset : P.Scalar)
    (coinsAdded : CAmount) : Prop where
  utxos : outputs.sum = inputs.sum → ∀ c ∈ outputs ++ inputs, c = 0
  supply : outputs.sum - inputs.sum = coinsAdded.toInt • P.genH → outputs.sum = inputs.sum
  excesses : kernels.sum = 0 → ∀ c ∈ kernels, c = 0
  total : kernels.sum + offset • P.genG = 0 → kernels.sum = 0

lemma sumUtxoCommitments_eq_ok_iff :
    sumUtxoCommitments inputs outputs coinsAdded = .ok c ↔
      ((outputs.sum = inputs.sum → ∀ c ∈ outputs ++ inputs, c = 0) ∧
        (outputs.sum - inputs.sum = coinsAdded.toInt • P.genH → outputs.sum = inputs.sum)) ∧
        c = outputs.sum - inputs.sum - coinsAdded.toInt • P.genH := by
  rw [sumUtxoCommitments, bind_eq_ok]
  simp only [liftCrypto_eq_ok, addCommitments_eq_some_iff, subtractSupply_eq_ok_iff]
  constructor
  · rintro ⟨s, ⟨hutxos, rfl⟩, hsupply, hc⟩
    exact ⟨⟨hutxos, fun h => sub_eq_zero.mp (hsupply h)⟩, hc⟩
  · rintro ⟨⟨hutxos, hsupply⟩, hc⟩
    exact ⟨_, ⟨hutxos, rfl⟩, fun h => sub_eq_zero.mpr (hsupply h), hc⟩

lemma sumExcessCommitments_eq_ok_iff :
    sumExcessCommitments kernels offset = .ok c ↔
      ((kernels.sum = 0 → ∀ c ∈ kernels, c = 0) ∧
        (kernels.sum + offset • P.genG = 0 → kernels.sum = 0)) ∧
        c = kernels.sum + offset • P.genG := by
  rw [sumExcessCommitments, bind_eq_ok]
  simp only [liftCrypto_eq_ok, addCommitments_eq_some_iff, sum_nil, append_nil, sub_zero]
  by_cases hoffset : offset = 0
  · simp [hoffset, pure, Except.pure, eq_comm]
  · simp only [ne_eq, hoffset, not_false_eq_true, if_true, liftCrypto_eq_ok,
      addCommitments_eq_some_iff, commitBlinded, zero_smul, zero_add, sum_cons, sum_nil,
      add_zero, append_nil, forall_mem_cons, not_mem_nil, false_implies,
      implies_true, and_true, sub_zero]
    constructor
    · rintro ⟨s, ⟨hkernels, rfl⟩, htotal, hc⟩
      exact ⟨⟨hkernels, fun h => (htotal h).1⟩, hc⟩
    · rintro ⟨⟨hkernels, htotal⟩, hc⟩
      refine ⟨_, ⟨hkernels, rfl⟩, fun h => ⟨htotal h, ?_⟩, hc⟩
      rwa [htotal h, zero_add] at h

/-- `ValidateSums` passes if its sums can be represented and the commitments balance. -/
lemma validateSums_eq_ok_iff :
    validateSums inputs outputs kernels offset coinsAdded = .ok () ↔
      Representable inputs outputs kernels offset coinsAdded ∧
        outputs.sum - inputs.sum - coinsAdded.toInt • P.genH =
          kernels.sum + offset • P.genG := by
  rw [validateSums, bind_eq_ok]
  simp only [bind_eq_ok, sumUtxoCommitments_eq_ok_iff, sumExcessCommitments_eq_ok_iff,
    rejectIf_eq_ok, ne_eq, not_not]
  constructor
  · rintro ⟨u, ⟨⟨hutxos, hsupply⟩, rfl⟩, e, ⟨⟨hexcesses, htotal⟩, rfl⟩, heq⟩
    exact ⟨⟨hutxos, hsupply, hexcesses, htotal⟩, heq⟩
  · rintro ⟨⟨hutxos, hsupply, hexcesses, htotal⟩, heq⟩
    exact ⟨_, ⟨⟨hutxos, hsupply⟩, rfl⟩, _, ⟨⟨hexcesses, htotal⟩, rfl⟩, heq⟩

/-- Curve operations only fail with their own error. -/
lemma liftCrypto_ne_blockSums {α : Type} {x : Option α} : liftCrypto x ≠ .error .blockSums := by
  cases x <;> simp [liftCrypto]

lemma sumUtxoCommitments_ne_blockSums :
    sumUtxoCommitments inputs outputs coinsAdded ≠ .error .blockSums := by
  intro h
  rcases bind_eq_error.mp h with h | ⟨s, -, h⟩
  · exact liftCrypto_ne_blockSums h
  · split at h
    · exact liftCrypto_ne_blockSums h
    · split at h
      · exact liftCrypto_ne_blockSums h
      · cases h

lemma sumExcessCommitments_ne_blockSums :
    sumExcessCommitments kernels offset ≠ .error .blockSums := by
  intro h
  rcases bind_eq_error.mp h with h | ⟨s, -, h⟩
  · exact liftCrypto_ne_blockSums h
  · split at h
    · exact liftCrypto_ne_blockSums h
    · cases h

/-- The balance equation behind `ValidateSums`. -/
lemma balance_of_validateSums (h : validateSums inputs outputs kernels offset coinsAdded = .ok ()) :
    outputs.sum - inputs.sum - coinsAdded.toInt • P.genH = kernels.sum + offset • P.genG :=
  (validateSums_eq_ok_iff.mp h).2

/-- The balance equation of a block, with the offset as a difference of total offsets. -/
lemma balance_of_validateForBlock {body : TxBody P} {totalOffset prevTotalOffset : P.Scalar}
    (h : validateForBlock body totalOffset prevTotalOffset = .ok ()) :
    body.getOutputCommits.sum - body.getInputCommits.sum -
        body.getSupplyChange.toInt • P.genH =
      body.getKernelCommits.sum + (totalOffset - prevTotalOffset) • P.genG := by
  have hbal := balance_of_validateSums h
  split at hbal
  · exact hbal
  · next hzero => rwa [not_not.mp hzero, sub_zero]

end Mw

end Aegisum
