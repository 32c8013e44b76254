import Aegisum.Mweb.Models
import Aegisum.Mweb.Mmr

/-!
# Hashing and signing in the extension block

One field of `MwCrypto` for each place where libmw feeds values to the Blake3 hasher, and one
predicate each for Schnorr signatures and range proofs.  On top of these the ids of kernels,
outputs and headers, and the messages that signatures are checked against.
-/

namespace Aegisum

namespace Mw

/-- A message with the key and the signature it is to be verified with. -/
structure SignedMessage (P : Primitives) where
  message : P.Hash
  publicKey : P.Point
  signature : Signature
deriving DecidableEq

/-- A range proof with the commitment and the output message it is bound to. -/
structure ProofData (P : Primitives) where
  commitment : P.Point
  proof : RangeProof
  extraData : OutputMessage P
deriving DecidableEq

/-- The hash functions of libmw and its two verifiers. -/
class MwCrypto (P : Primitives) where
  /-- Hash of a serialized kernel. -/
  kernelHash : Kernel P → P.Hash
  /-- Hash of the fields a kernel signature covers. -/
  kernelMessageHash : UInt8 → P.Point → Option CAmount → Option CAmount → List (PegOutCoin P) →
    Option ℕ → Option P.Point → Bytes → P.Hash
  /-- Hash of the fields an input signature covers. -/
  inputMessageHash : UInt8 → P.Hash → Option Bytes → P.Hash
  /-- Hash of two public keys, the coefficient of an aggregated key. -/
  keyHash : P.Point → P.Point → P.Hash
  /-- Hash of an output message. -/
  outputMessageHash : OutputMessage P → P.Hash
  /-- Hash of a range proof. -/
  rangeProofHash : RangeProof → P.Hash
  /-- Hash of commitment, sender key, receiver key, message hash, proof hash and signature. -/
  outputHash : P.Point → P.Point → P.Point → P.Hash → P.Hash → Signature → P.Hash
  /-- Hash of the fields an output signature covers. -/
  outputSignatureHash : P.Point → P.Point → P.Point → P.Hash → P.Hash → P.Hash
  /-- Hash of a header. -/
  headerHash : Header P → P.Hash
  /-- Hash of a leaf of the output MMR. -/
  outputLeafHash : ℕ → P.Hash → P.Hash
  /-- Hash of a leaf of the kernel MMR. -/
  kernelLeafHash : ℕ → Kernel P → P.Hash
  /-- Hash of an inner MMR node. -/
  parentHash : ℕ → P.Hash → P.Hash → P.Hash
  /-- Hash of the bytes of a leaf set. -/
  leafSetHash : Bytes → P.Hash
  /-- Schnorr verification. -/
  schnorrVerify : SignedMessage P → Bool
  /-- Range proof verification. -/
  bulletproofVerify : ProofData P → Bool

variable {P : Primitives} [MwCrypto P]

open MwCrypto

/-! ### Ids -/

/-- The id of a kernel. -/
def Kernel.getKernelID (k : Kernel P) : P.Hash := kernelHash k

/-- The id of an output. -/
def Output.getOutputID (o : Output P) : P.Hash :=
  outputHash o.commitment o.senderPubKey o.receiverPubKey (outputMessageHash o.message)
    (rangeProofHash o.proof) o.signature

/-- The hash of a header. -/
def Header.getHash (hdr : Header P) : P.Hash := headerHash hdr

/-- The id of the output of an unspent coin. -/
def UTXO.getOutputID (u : UTXO P) : P.Hash := u.output.getOutputID

/-- How the output MMR hashes its nodes. -/
def outputMmrHasher (P : Primitives) [MwCrypto P] : MmrHasher P.Hash P.Hash :=
  ⟨outputLeafHash, parentHash, P.zeroHash⟩

/-- How the kernel MMR hashes its nodes. -/
def kernelMmrHasher (P : Primitives) [MwCrypto P] : MmrHasher P.Hash (Kernel P) :=
  ⟨kernelLeafHash, parentHash, P.zeroHash⟩

/-! ### Signed messages -/

/-- The message a kernel's signature is verified against.  A stealth excess is aggregated into
the key. -/
def Kernel.buildSignedMsg (k : Kernel P) : SignedMessage P where
  message := kernelMessageHash k.features k.excess k.fee k.pegin k.pegouts k.lockHeight
    k.stealthExcess k.extraData
  publicKey :=
    match k.stealthExcess with
    | none => k.excess
    | some stealthExcess =>
      P.hashToScalar (keyHash k.excess stealthExcess) • k.excess + stealthExcess
  signature := k.signature

/-- The message an input's signature is verified against.  It covers the features and the id
of the spent output; the commitment is not part of it. -/
def Input.buildSignedMsg (i : Input P) : SignedMessage P where
  message := inputMessageHash i.features i.outputID
    (if i.features &&& extraDataFeatureBit != 0 then some i.extraData else none)
  publicKey :=
    match i.inputPubKey with
    | none => i.outputPubKey
    | some inputPubKey =>
      P.hashToScalar (keyHash inputPubKey i.outputPubKey) • i.outputPubKey + inputPubKey
  signature := i.signature

/-- The message an output's signature is verified against. -/
def Output.buildSignedMsg (o : Output P) : SignedMessage P where
  message := outputSignatureHash o.commitment o.senderPubKey o.receiverPubKey
    (outputMessageHash o.message) (rangeProofHash o.proof)
  publicKey := o.senderPubKey
  signature := o.signature

/-- The data an output's range proof is verified against. -/
def Output.buildProofData (o : Output P) : ProofData P := ⟨o.commitment, o.proof, o.message⟩

end Mw

end Aegisum
