import Aegisum.Model.Amount
import Aegisum.Model.Script

/-!
# MWEB transactions and blocks

The data of an extension block: inputs, outputs and kernels, the body that collects them,
the header and the block, together with the quantities the node reads off them.

Values come from the wire, so a kernel carries the facts its decoder guarantees: fees,
peg-ins and peg-outs are non-negative variable-length integers.  In the same way the optional
keys of an input and of an output message are present exactly when their feature bit is set.
-/

namespace Aegisum

namespace Mw

variable {P : Primitives}

/-- Bytes of a serialized field. -/
abbrev Bytes := List UInt8

/-! ### Peg coins -/

/-- A canonical peg-in output, or the peg-in a kernel declares. -/
structure PegInCoin (P : Primitives) where
  amount : CAmount
  kernelID : P.Hash
deriving DecidableEq

/-- A peg-out of a kernel, or the HogEx output that pays it. -/
structure PegOutCoin (P : Primitives) where
  amount : CAmount
  scriptPubKey : CScript P
deriving DecidableEq

/-! ### Kernels -/

/-- A kernel. -/
@[ext] structure Kernel (P : Primitives) where
  features : UInt8
  fee : Option CAmount
  pegin : Option CAmount
  pegouts : List (PegOutCoin P)
  lockHeight : Option ℕ
  stealthExcess : Option P.Point
  extraData : Bytes
  excess : P.Point
  signature : Signature
  fee_nonneg : 0 ≤ fee.getD 0
  pegin_nonneg : 0 ≤ pegin.getD 0
  pegouts_nonneg : ∀ p ∈ pegouts, 0 ≤ p.amount
deriving DecidableEq

namespace Kernel

/-- The fee, zero when absent. -/
def getFee (k : Kernel P) : CAmount := k.fee.getD 0

/-- The peg-in amount, zero when absent. -/
def getPegIn (k : Kernel P) : CAmount := k.pegin.getD 0

/-- The lock height, zero when absent. -/
def getLockHeight (k : Kernel P) : ℕ := k.lockHeight.getD 0

/-- The kernel declares a peg-in. -/
def hasPegIn (k : Kernel P) : Bool := k.pegin.isSome

/-- The kernel declares a peg-out. -/
def hasPegOut (k : Kernel P) : Bool := !k.pegouts.isEmpty

/-- The sum of the peg-out amounts. -/
def getPegOutAmount (k : Kernel P) : CAmount := accumulate PegOutCoin.amount 0 k.pegouts

/-- The amount by which the kernel changes the extension block's supply. -/
def getSupplyChange (k : Kernel P) : CAmount := (k.getPegIn - k.getFee) - k.getPegOutAmount

lemma getFee_nonneg (k : Kernel P) : 0 ≤ k.getFee.toInt := by
  simpa [Int64.le_iff_toInt_le, getFee] using k.fee_nonneg

lemma getPegIn_nonneg (k : Kernel P) : 0 ≤ k.getPegIn.toInt := by
  simpa [Int64.le_iff_toInt_le, getPegIn] using k.pegin_nonneg

lemma pegout_nonneg (k : Kernel P) {p : PegOutCoin P} (hp : p ∈ k.pegouts) :
    0 ≤ p.amount.toInt := by
  simpa [Int64.le_iff_toInt_le] using k.pegouts_nonneg p hp

end Kernel

/-! ### Inputs -/

/-- The feature bit of an input that carries an input public key. -/
def stealthKeyFeatureBit : UInt8 := 0x01

/-- The feature bit of an input or output message that carries extra data. -/
def extraDataFeatureBit : UInt8 := 0x02

/-- An input: the id of the output it spends, and the commitment and receiver key that its
creator declares for that output. -/
@[ext] structure Input (P : Primitives) where
  features : UInt8
  outputID : P.Hash
  commitment : P.Point
  inputPubKey : Option P.Point
  outputPubKey : P.Point
  extraData : Bytes
  signature : Signature
  inputPubKey_isSome : inputPubKey.isSome = (features &&& stealthKeyFeatureBit != 0)
deriving DecidableEq

/-! ### Outputs -/

/-- The feature bit of an output message with the standard fields. -/
def standardFieldsFeatureBit : UInt8 := 0x01

/-- The standard fields of an output message. -/
structure StandardFields (P : Primitives) where
  keyExchangePubKey : P.Point
  viewTag : UInt8
  maskedValue : UInt64
  maskedNonce : Bytes
deriving DecidableEq

/-- The message of an output. -/
@[ext] structure OutputMessage (P : Primitives) where
  features : UInt8
  standardFields : Option (StandardFields P)
  extraData : Bytes
  standardFields_isSome : standardFields.isSome = (features &&& standardFieldsFeatureBit != 0)
deriving DecidableEq

/-- An output. -/
structure Output (P : Primitives) where
  commitment : P.Point
  senderPubKey : P.Point
  receiverPubKey : P.Point
  message : OutputMessage P
  proof : RangeProof
  signature : Signature
deriving DecidableEq

/-! ### Bodies, headers and blocks -/

/-- The inputs, outputs and kernels of a transaction or block. -/
structure TxBody (P : Primitives) where
  inputs : List (Input P)
  outputs : List (Output P)
  kernels : List (Kernel P)
deriving DecidableEq

/-- The header of an extension block. -/
structure Header (P : Primitives) where
  height : ℤ
  outputRoot : P.Hash
  kernelRoot : P.Hash
  leafsetRoot : P.Hash
  kernelOffset : P.Scalar
  stealthOffset : P.Scalar
  numTXOs : ℕ
  numKernels : ℕ
deriving DecidableEq

/-- An extension block. -/
structure Block (P : Primitives) where
  header : Header P
  body : TxBody P
deriving DecidableEq

/-- A loose MWEB transaction.  The decoder refuses one without kernels. -/
@[ext] structure Transaction (P : Primitives) where
  kernelOffset : P.Scalar
  stealthOffset : P.Scalar
  body : TxBody P
  kernels_ne_nil : body.kernels ≠ []
deriving DecidableEq

/-- An unspent output with its place in the output MMR. -/
structure UTXO (P : Primitives) where
  blockHeight : ℤ
  leafIndex : ℕ
  output : Output P
deriving DecidableEq

end Mw

end Aegisum
