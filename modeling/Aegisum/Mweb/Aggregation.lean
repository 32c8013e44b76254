import Aegisum.Mweb.Amounts
import Aegisum.Mweb.Build

/-!
# What aggregation keeps

An aggregated transaction has the inputs, outputs and kernels of its transactions in another
order.  Sums and all tests of a body that do not depend on the order are those of the transactions
taken together, and the lists are sorted if the comparison of hashes is a strict weak order.
-/

namespace Aegisum

open List

namespace Mw

/-! ### Sorting -/

/-- What `std::sort` requires of a comparison. -/
structure StrictWeak {α : Type} (less : α → α → Bool) : Prop where
  asymm : ∀ a b, less a b = true → less b a = false
  cotrans : ∀ a b c, less a c = true → less a b = true ∨ less b c = true

lemma StrictWeak.comap {α β : Type} {less : β → β → Bool} (h : StrictWeak less) (f : α → β) :
    StrictWeak fun a b => less (f a) (f b) :=
  ⟨fun a b => h.asymm (f a) (f b), fun a b c => h.cotrans (f a) (f b) (f c)⟩

lemma perm_sortBy {α : Type} (less : α → α → Bool) (l : List α) : (sortBy less l).Perm l :=
  perm_insertionSort _ l

lemma isSorted_of_pairwise {α : Type} {less : α → α → Bool} {l : List α}
    (h : l.Pairwise fun a b => less b a = false) : isSorted less l = true := by
  induction l with
  | nil => rfl
  | cons a l ih =>
    obtain ⟨hhead, htail⟩ := pairwise_cons.mp h
    match l, ih htail, hhead with
    | [], _, _ => rfl
    | b :: l, hsorted, hhead =>
      rw [isSorted, hsorted, hhead b mem_cons_self]
      rfl

/-- The result of sorting is in order. -/
lemma pairwise_sortBy {α : Type} {less : α → α → Bool} (h : StrictWeak less) (l : List α) :
    (sortBy less l).Pairwise fun a b => less b a = false := by
  have htotal : Std.Total fun a b : α => less b a = false := by
    refine ⟨fun a b => ?_⟩
    by_cases hlt : less b a = true
    · exact .inr (h.asymm b a hlt)
    · exact .inl (Bool.eq_false_iff.mpr hlt)
  have htrans : IsTrans α fun a b : α => less b a = false := by
    refine ⟨fun a b c hab hbc => ?_⟩
    by_contra hca
    rcases h.cotrans c b a (Bool.not_eq_false _ ▸ hca) with hcb | hba
    · rw [hbc] at hcb
      cases hcb
    · rw [hab] at hba
      cases hba
  exact pairwise_insertionSort _ l

/-- The result of sorting is sorted. -/
lemma isSorted_sortBy {α : Type} {less : α → α → Bool} (h : StrictWeak less) (l : List α) :
    isSorted less (sortBy less l) = true :=
  isSorted_of_pairwise (pairwise_sortBy h l)

variable {P : Primitives}

/-- Kernels are compared by their supply change first. -/
lemma StrictWeak.kernelSort [MwCrypto P] (h : StrictWeak P.hashLt) :
    StrictWeak (Mw.kernelSort (P := P)) where
  asymm a b hab := by
    simp only [Mw.kernelSort, Bool.or_eq_true, Bool.and_eq_true, decide_eq_true_eq, gt_iff_lt,
      Int64.lt_iff_toInt_lt] at hab
    simp only [Mw.kernelSort, Bool.or_eq_false_iff, Bool.and_eq_false_iff, decide_eq_false_iff_not,
      gt_iff_lt, Int64.lt_iff_toInt_lt]
    rcases hab with hlt | ⟨heq, hid⟩
    · refine ⟨by omega, .inl fun heq => ?_⟩
      rw [heq] at hlt
      omega
    · rw [heq]
      exact ⟨by omega, .inr (h.asymm _ _ hid)⟩
  cotrans a b c hac := by
    simp only [Mw.kernelSort, Bool.or_eq_true, Bool.and_eq_true, decide_eq_true_eq, gt_iff_lt,
      Int64.lt_iff_toInt_lt] at hac ⊢
    by_cases hab : b.getSupplyChange.toInt < a.getSupplyChange.toInt
    · exact .inl (.inl hab)
    · by_cases hbc : c.getSupplyChange.toInt < b.getSupplyChange.toInt
      · exact .inr (.inl hbc)
      · rcases hac with hlt | ⟨heq, hid⟩
        · omega
        · have hsame : a.getSupplyChange = b.getSupplyChange := by
            have hac := congrArg Int64.toInt heq
            exact Int64.toInt_inj.mp (by omega)
          rcases h.cotrans _ b.getKernelID _ hid with h1 | h2
          · exact .inl (.inr ⟨hsame, h1⟩)
          · exact .inr (.inr ⟨hsame.symm.trans heq, h2⟩)

/-! ### Sums that do not depend on the order -/

private lemma eq_nil_iff_of_perm {α : Type} {l l' : List α} (h : l.Perm l') : l = [] ↔ l' = [] :=
  ⟨fun hl => (hl ▸ h).nil_eq.symm, fun hl => (hl ▸ h).eq_nil⟩

lemma accumulate_perm {α : Type} (f : α → Int64) {xs ys : List α} (h : xs.Perm ys) :
    accumulate f 0 xs = accumulate f 0 ys := by
  apply eq_of_toInt_modEq
  have hxs := toInt_accumulate_zero_modEq f xs
  rw [intSum_perm f h] at hxs
  exact hxs.trans (toInt_accumulate_zero_modEq f ys).symm

lemma addCommitments_perm {pos pos' neg neg' : List P.Point} (hpos : pos.Perm pos')
    (hneg : neg.Perm neg') : addCommitments pos neg = addCommitments pos' neg' := by
  have hpos' := hpos.filter (· ≠ 0)
  have hneg' := hneg.filter (· ≠ 0)
  simp only [addCommitments, eq_nil_iff_of_perm hpos', eq_nil_iff_of_perm hneg', hpos'.sum_eq,
    hneg'.sum_eq]

lemma validateSums_perm {inputs inputs' outputs outputs' kernels kernels' : List P.Point}
    (hinputs : inputs.Perm inputs') (houtputs : outputs.Perm outputs')
    (hkernels : kernels.Perm kernels') (offset : P.Scalar) (coinsAdded : CAmount) :
    validateSums inputs outputs kernels offset coinsAdded =
      validateSums inputs' outputs' kernels' offset coinsAdded := by
  simp only [validateSums, sumUtxoCommitments, sumExcessCommitments,
    addCommitments_perm houtputs hinputs, addCommitments_perm hkernels (List.Perm.refl [])]

lemma totalKey_perm {keys keys' : List P.Point} (h : keys.Perm keys') :
    totalKey keys = totalKey keys' := by
  simp only [totalKey, addPublicKeys, eq_nil_iff_of_perm h, h.sum_eq, h.any_eq]

/-! ### Bodies with the same parts -/

namespace TxBody

/-- The same inputs, outputs and kernels in another order. -/
structure SameParts (b b' : TxBody P) : Prop where
  inputs : b.inputs.Perm b'.inputs
  outputs : b.outputs.Perm b'.outputs
  kernels : b.kernels.Perm b'.kernels

namespace SameParts

variable {b b' : TxBody P}

section

variable (h : b.SameParts b')

include h

lemma calculateWeight_eq : b.calculateWeight = b'.calculateWeight := by
  rw [calculateWeight, calculateWeight, (h.inputs.map _).sum_eq, (h.kernels.map _).sum_eq,
    (h.outputs.map _).sum_eq]

lemma getSpentIDs : b.getSpentIDs.Perm b'.getSpentIDs := h.inputs.map _

lemma getPegOuts : b.getPegOuts.Perm b'.getPegOuts :=
  h.kernels.flatMap_right _

lemma feeSum_eq : b.feeSum = b'.feeSum := intSum_perm _ h.kernels

lemma supplySum_eq : b.supplySum = b'.supplySum := (h.kernels.map _).sum_eq

/-- The kernel sums with the same offset. -/
lemma validateSums_eq (offset : P.Scalar) :
    validateSums b.getInputCommits b.getOutputCommits b.getKernelCommits offset
        b.getSupplyChange =
      validateSums b'.getInputCommits b'.getOutputCommits b'.getKernelCommits offset
        b'.getSupplyChange := by
  rw [getSupplyChange, getSupplyChange, accumulate_perm _ h.kernels]
  exact validateSums_perm (h.inputs.map _) (h.outputs.map _) (h.kernels.map _) _ _

/-- The stealth sums with the same offset. -/
lemma stealthSumValidate_eq (offset : P.Scalar) :
    stealthSumValidate offset b = stealthSumValidate offset b' := by
  have hlhs := totalKey_perm ((h.outputs.map Output.senderPubKey).append
    (h.inputs.filterMap Input.inputPubKey))
  have hrhs := totalKey_perm (((h.kernels.filterMap Kernel.stealthExcess).append
    (h.inputs.map Input.outputPubKey)).append
    (List.Perm.refl (if offset ≠ 0 then [offset • P.genG] else [])))
  rw [stealthSumValidate, stealthSumValidate, getStealthExcesses, getStealthExcesses, hlhs, hrhs]

end

variable [MwCrypto P]

lemma getOutputIDs (h : b.SameParts b') : b.getOutputIDs.Perm b'.getOutputIDs := h.outputs.map _

lemma getKernelIDs (h : b.SameParts b') : b.getKernelIDs.Perm b'.getKernelIDs := h.kernels.map _

lemma getPegIns (h : b.SameParts b') : b.getPegIns.Perm b'.getPegIns := h.kernels.filterMap _

lemma signedMessages (h : b.SameParts b') : b.signedMessages.Perm b'.signedMessages :=
  ((h.kernels.map _).append (h.inputs.map _)).append (h.outputs.map _)

end SameParts

/-- The parts of transactions, one transaction after the other. -/
def together (txs : List (Transaction P)) : TxBody P where
  inputs := txs.flatMap (·.body.inputs)
  outputs := txs.flatMap (·.body.outputs)
  kernels := txs.flatMap (·.body.kernels)

section Together

variable (txs : List (Transaction P)) (tx : Transaction P)

lemma calculateWeight_together_concat :
    (together (txs ++ [tx])).calculateWeight =
      (together txs).calculateWeight + tx.body.calculateWeight := by
  simp only [together, calculateWeight, flatMap_append, map_append, sum_append,
    flatMap_cons, flatMap_nil, append_nil]
  omega

lemma getSpentIDs_together_concat :
    (together (txs ++ [tx])).getSpentIDs = (together txs).getSpentIDs ++ tx.body.getSpentIDs := by
  simp [together, getSpentIDs]

lemma getPegOuts_together : (together txs).getPegOuts = txs.flatMap (·.body.getPegOuts) := by
  simp [together, getPegOuts, flatMap_assoc]

lemma feeSum_together : (together txs).feeSum = (txs.map (·.body.feeSum)).sum :=
  intSum_flatMap _ _ txs

lemma supplySum_together : (together txs).supplySum = (txs.map (·.body.supplySum)).sum := by
  induction txs with
  | nil => rfl
  | cons tx txs ih =>
    rw [map_cons, sum_cons, ← ih]
    simp [together, supplySum]

variable [MwCrypto P]

lemma getOutputIDs_together_concat :
    (together (txs ++ [tx])).getOutputIDs =
      (together txs).getOutputIDs ++ tx.body.getOutputIDs := by
  simp [together, getOutputIDs]

lemma getPegIns_together : (together txs).getPegIns = txs.flatMap (·.body.getPegIns) := by
  simp [together, getPegIns, filterMap_flatMap]

end Together

end TxBody

/-! ### Aggregated transactions -/

variable [MwCrypto P]

/-- Aggregation rearranges the parts. -/
lemma sameParts_aggregate (txs : List (Transaction P)) :
    (aggregate txs).body.SameParts (TxBody.together txs) := by
  match txs with
  | [] => exact ⟨.refl _, .refl _, .refl _⟩
  | [tx] => exact ⟨by simp [aggregate, TxBody.together], by simp [aggregate, TxBody.together],
      by simp [aggregate, TxBody.together]⟩
  | _ :: _ :: _ => exact ⟨perm_sortBy _ _, perm_sortBy _ _, perm_sortBy _ _⟩

lemma kernelOffset_aggregate (txs : List (Transaction P)) :
    (aggregate txs).kernelOffset = (txs.map Transaction.kernelOffset).sum := by
  match txs with
  | [] => rfl
  | [tx] => simp [aggregate]
  | _ :: _ :: _ => rfl

lemma stealthOffset_aggregate (txs : List (Transaction P)) :
    (aggregate txs).stealthOffset = (txs.map Transaction.stealthOffset).sum := by
  match txs with
  | [] => rfl
  | [tx] => simp [aggregate]
  | _ :: _ :: _ => rfl

/-- The inputs, outputs and kernels of a body are in order. -/
def TxBody.Sorted (b : TxBody P) : Prop :=
  isSorted inputSort b.inputs = true ∧ isSorted outputSort b.outputs = true ∧
    isSorted kernelSort b.kernels = true

/-- Aggregation sorts, but a single transaction stays as it is. -/
lemma sorted_aggregate_iff (h : StrictWeak P.hashLt) (txs : List (Transaction P)) :
    (aggregate txs).body.Sorted ↔ ∀ tx, txs = [tx] → tx.body.Sorted := by
  match txs with
  | [] => simp [aggregate, TxBody.Sorted, isSorted]
  | [tx] => simp [aggregate]
  | _ :: _ :: _ =>
    refine iff_of_true ⟨?_, ?_, ?_⟩ (by simp)
    · exact isSorted_sortBy (h.comap Input.outputID) _
    · exact isSorted_sortBy (h.comap Output.getOutputID) _
    · exact isSorted_sortBy h.kernelSort _

end Mw

end Aegisum
