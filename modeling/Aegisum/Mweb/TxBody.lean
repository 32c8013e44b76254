import Aegisum.Foundations.Checked
import Aegisum.Mweb.Crypto

/-!
# Transaction bodies

The sums a `TxBody` is asked for, its weight, and `TxBody::Validate`: the context-free checks
every extension block and every loose MWEB transaction must pass.
-/

namespace Aegisum

namespace Mw

/-- The consensus errors of libmw, together with a failed curve operation. -/
inductive MwError
  | duplicates
  | blockWeight
  | blockSums
  | stealthSums
  | invalidSig
  | bulletproof
  | peginMismatch
  | pegoutMismatch
  | mmrMismatch
  | utxoMissing
  | notSorted
  | crypto
deriving DecidableEq

namespace TxBody

variable {P : Primitives} [MwCrypto P]

/-! ### Amounts -/

/-- The peg-ins the kernels declare. -/
def getPegIns (b : TxBody P) : List (PegInCoin P) :=
  b.kernels.filterMap fun k =>
    if k.hasPegIn then some ⟨k.getPegIn, k.getKernelID⟩ else none

/-- The sum of the kernels' peg-ins. -/
def getPegInAmount (b : TxBody P) : CAmount := accumulate Kernel.getPegIn 0 b.kernels

/-- The kernels' peg-outs, in kernel order. -/
def getPegOuts (b : TxBody P) : List (PegOutCoin P) := b.kernels.flatMap Kernel.pegouts

/-- The sum of the kernels' fees. -/
def getTotalFee (b : TxBody P) : CAmount := accumulate Kernel.getFee 0 b.kernels

/-- The sum of the kernels' supply changes. -/
def getSupplyChange (b : TxBody P) : CAmount := accumulate Kernel.getSupplyChange 0 b.kernels

/-- The largest lock height of a kernel. -/
def getLockHeight (b : TxBody P) : ℕ :=
  b.kernels.foldl (fun lockHeight k => max lockHeight k.getLockHeight) 0

/-! ### Ids, commitments and keys -/

/-- The ids of the outputs that are spent. -/
def getSpentIDs (b : TxBody P) : List P.Hash := b.inputs.map Input.outputID

/-- The ids of the outputs that are created. -/
def getOutputIDs (b : TxBody P) : List P.Hash := b.outputs.map Output.getOutputID

/-- The ids of the kernels. -/
def getKernelIDs (b : TxBody P) : List P.Hash := b.kernels.map Kernel.getKernelID

/-- The commitments the inputs declare. -/
def getInputCommits (b : TxBody P) : List P.Point := b.inputs.map Input.commitment

/-- The commitments of the outputs. -/
def getOutputCommits (b : TxBody P) : List P.Point := b.outputs.map Output.commitment

/-- The excesses of the kernels. -/
def getKernelCommits (b : TxBody P) : List P.Point := b.kernels.map Kernel.excess

/-- The stealth excesses of the kernels that have one. -/
def getStealthExcesses (b : TxBody P) : List P.Point := b.kernels.filterMap Kernel.stealthExcess

/-! ### Weight -/

/-- One unit of weight for every 42 bytes of extra data. -/
def extraBytesToWeight (extraBytes : ℕ) : ℕ := (extraBytes + (42 - 1)) / 42

/-- `CalcInputWeight`. -/
def calcInputWeight (extraData : List UInt8) : ℕ := extraBytesToWeight extraData.length

/-- `CalcKernelWeight`, from the sizes of the peg-out scripts. -/
def calcKernelWeight (hasStealthExcess : Bool) (pegoutSizes : List ℕ) (extraData : List UInt8) :
    ℕ :=
  (if hasStealthExcess then 3 else 2) + (pegoutSizes.map extraBytesToWeight).sum +
    extraBytesToWeight extraData.length

/-- `CalcOutputWeight`. -/
def calcOutputWeight (standardFields : Bool) (extraData : List UInt8) : ℕ :=
  (if standardFields then 18 else 17) + extraBytesToWeight extraData.length

/-- The weight of a body. -/
def calculateWeight (b : TxBody P) : ℕ :=
  (b.inputs.map fun i => calcInputWeight i.extraData).sum +
    (b.kernels.map fun k => calcKernelWeight k.stealthExcess.isSome
      (k.pegouts.map (·.scriptPubKey.size)) k.extraData).sum +
    (b.outputs.map fun o => calcOutputWeight
      (o.message.features &&& standardFieldsFeatureBit != 0) o.message.extraData).sum

/-- The most inputs a body may have. -/
def maxNumInputs : ℕ := 50000

/-- The largest weight of a body. -/
def maxBlockWeight : ℕ := 200000

/-- A body with that many inputs and that weight is too heavy for a block. -/
def tooHeavy (numInputs weight : ℕ) : Bool := maxNumInputs < numInputs || maxBlockWeight < weight

/-- The body is too heavy for a block. -/
def exceedsMaximum (b : TxBody P) : Bool := tooHeavy b.inputs.length b.calculateWeight

end TxBody

/-! ### Orders -/

/-- `std::is_sorted`: no element is less than the one before it. -/
def isSorted {α : Type} (less : α → α → Bool) : List α → Bool
  | a :: b :: l => !less b a && isSorted less (b :: l)
  | _ => true

variable {P : Primitives} [MwCrypto P]

/-- Inputs are sorted by the id of the output they spend. -/
def inputSort (a b : Input P) : Bool := P.hashLt a.outputID b.outputID

/-- Outputs are sorted by id. -/
def outputSort (a b : Output P) : Bool := P.hashLt a.getOutputID b.getOutputID

/-- Kernels are sorted by supply change, the largest first, then by id. -/
def kernelSort (a b : Kernel P) : Bool :=
  a.getSupplyChange > b.getSupplyChange ||
    (a.getSupplyChange = b.getSupplyChange && P.hashLt a.getKernelID b.getKernelID)

namespace TxBody

/-! ### Validation -/

/-- All signatures of the body. -/
def signedMessages (b : TxBody P) : List (SignedMessage P) :=
  b.kernels.map Kernel.buildSignedMsg ++ b.inputs.map Input.buildSignedMsg ++
    b.outputs.map Output.buildSignedMsg

/-- The context-free checks of a body. -/
def validate (b : TxBody P) : Except MwError Unit := do
  rejectIf b.exceedsMaximum .blockWeight
  rejectIf (!isSorted inputSort b.inputs || !isSorted outputSort b.outputs ||
    !isSorted kernelSort b.kernels) .notSorted
  rejectIf (¬ b.getSpentIDs.Nodup) .duplicates
  rejectIf (¬ b.getOutputIDs.Nodup) .duplicates
  rejectIf (¬ b.getKernelIDs.Nodup) .duplicates
  rejectIf (!b.signedMessages.all MwCrypto.schnorrVerify) .invalidSig
  rejectIf (!(b.outputs.map Output.buildProofData).all MwCrypto.bulletproofVerify) .bulletproof

/-- What `TxBody::Validate` establishes. -/
structure Valid (b : TxBody P) : Prop where
  weight : b.exceedsMaximum = false
  sorted_inputs : isSorted inputSort b.inputs = true
  sorted_outputs : isSorted outputSort b.outputs = true
  sorted_kernels : isSorted kernelSort b.kernels = true
  nodup_spent : b.getSpentIDs.Nodup
  nodup_outputs : b.getOutputIDs.Nodup
  nodup_kernels : b.getKernelIDs.Nodup
  signatures : ∀ m ∈ b.signedMessages, MwCrypto.schnorrVerify m = true
  proofs : ∀ d ∈ b.outputs.map Output.buildProofData, MwCrypto.bulletproofVerify d = true

lemma validate_eq_ok {b : TxBody P} : b.validate = .ok () ↔ b.Valid := by
  simp only [validate, rejectIf_bind_eq_ok, rejectIf_eq_ok, Bool.or_eq_true,
    Bool.not_eq_true', not_or, not_not, Bool.not_eq_false, List.all_eq_true, Bool.not_eq_true]
  constructor
  · rintro ⟨hw, ⟨⟨hi, ho⟩, hk⟩, hs, ho', hk', hsig, hp⟩
    exact ⟨hw, hi, ho, hk, hs, ho', hk', hsig, hp⟩
  · rintro ⟨hw, hi, ho, hk, hs, ho', hk', hsig, hp⟩
    exact ⟨hw, ⟨⟨hi, ho⟩, hk⟩, hs, ho', hk', hsig, hp⟩

end TxBody

end Mw

end Aegisum
