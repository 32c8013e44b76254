import Aegisum.Mweb.Crypto

/-!
# Canonical transactions and blocks

`CTransaction`, `CBlockHeader` and `CBlock`, with the digests that identify them.  A
transaction id covers neither the witnesses, nor the attached MWEB transaction, nor the HogEx
marker: these travel next to the committed data.
-/

namespace Aegisum

open Mw (Bytes)

variable {P : Primitives}

/-! ### Inputs and outputs -/

/-- A reference to an output of an earlier transaction. -/
structure COutPoint (P : Primitives) where
  hash : P.Hash
  n : ℕ
deriving DecidableEq

instance : LawfulBEq (COutPoint P) := instLawfulBEq

/-- The output index of a coinbase input. -/
def nullIndex : ℕ := 2 ^ 32 - 1

/-- The reference of a coinbase input. -/
def COutPoint.isNull (o : COutPoint P) : Bool := o.hash = P.zeroHash ∧ o.n = nullIndex

/-- A transaction input with its witness stack. -/
structure CTxIn (P : Primitives) where
  prevout : COutPoint P
  scriptSig : Bytes
  nSequence : ℕ
  scriptWitness : List Bytes
deriving DecidableEq

/-- A transaction output. -/
structure CTxOut (P : Primitives) where
  nValue : CAmount
  scriptPubKey : CScript P
deriving DecidableEq

/-! ### Transactions -/

/-- A transaction.  The decoder sets the HogEx marker only on a transaction without MWEB data
and with at least one output. -/
@[ext] structure CTransaction (P : Primitives) where
  vin : List (CTxIn P)
  vout : List (CTxOut P)
  nVersion : ℤ
  nLockTime : ℕ
  mwebTx : Option (Mw.Transaction P)
  hogEx : Bool
  hogEx_wf : hogEx = true → mwebTx = none ∧ vout ≠ []
deriving DecidableEq

/-- The part of an input that a transaction id covers. -/
structure TxInPreimage (P : Primitives) where
  prevout : COutPoint P
  scriptSig : Bytes
  nSequence : ℕ
deriving DecidableEq

/-- What is serialized to identify a transaction: without witnesses for its id, with all
witness stacks for its witness id. -/
structure TxPreimage (P : Primitives) where
  nVersion : ℤ
  vin : List (TxInPreimage P)
  vout : List (CTxOut P)
  witness : Option (List (List Bytes))
  nLockTime : ℕ
deriving DecidableEq

/-- A block header. -/
structure CBlockHeader (P : Primitives) where
  nVersion : ℤ
  hashPrevBlock : P.Hash
  hashMerkleRoot : P.Hash
  nTime : ℕ
  nBits : ℕ
  nNonce : ℕ
deriving DecidableEq

/-- A block with the extension block attached to it. -/
structure CBlock (P : Primitives) where
  header : CBlockHeader P
  vtx : List (CTransaction P)
  mwebBlock : Option (Mw.Block P)
deriving DecidableEq

/-- The double SHA-256 of the structures the node identifies by it. -/
class NodeCrypto (P : Primitives) extends Mw.MwCrypto P where
  /-- Hash of a serialized transaction. -/
  txHash : TxPreimage P → P.Hash
  /-- Hash of two nodes of a Merkle tree. -/
  merkleHash : P.Hash → P.Hash → P.Hash
  /-- Hash of a block header. -/
  blockHash : CBlockHeader P → P.Hash
  /-- Hash of a witness Merkle root and the coinbase's witness nonce. -/
  witnessCommitmentHash : P.Hash → Bytes → P.Hash

/-- Different serialized transactions have different hashes. -/
abbrev TxHashInjective (P : Primitives) [NodeCrypto P] : Prop :=
  Function.Injective (NodeCrypto.txHash (P := P))

namespace CTransaction

/-- The transaction's only input is a coinbase input. -/
def isCoinBase (tx : CTransaction P) : Bool :=
  match tx.vin with
  | [txin] => txin.prevout.isNull
  | _ => false

/-- Some input has a witness. -/
def hasWitness (tx : CTransaction P) : Bool := tx.vin.any fun txin => !txin.scriptWitness.isEmpty

/-- An MWEB transaction is attached. -/
def hasMWEBTx (tx : CTransaction P) : Bool := tx.mwebTx.isSome

/-- The transaction carries the HogEx marker. -/
def isHogEx (tx : CTransaction P) : Bool := tx.hogEx

/-- The transaction has MWEB data only. -/
def isMWEBOnly (tx : CTransaction P) : Bool := tx.hasMWEBTx && tx.vin.isEmpty && tx.vout.isEmpty

/-- The serialization a transaction id covers. -/
def basePreimage (tx : CTransaction P) : TxPreimage P where
  nVersion := tx.nVersion
  vin := tx.vin.map fun txin => ⟨txin.prevout, txin.scriptSig, txin.nSequence⟩
  vout := tx.vout
  witness := none
  nLockTime := tx.nLockTime

/-- The serialization a witness id covers. -/
def witnessPreimage (tx : CTransaction P) : TxPreimage P :=
  { tx.basePreimage with witness := some (tx.vin.map CTxIn.scriptWitness) }

/-- The total value of the outputs; a value or a running sum out of the money range throws. -/
def getValueOut (tx : CTransaction P) : Option CAmount :=
  tx.vout.foldlM
    (fun nValueOut out =>
      if ¬ MoneyRange out.nValue ∨ ¬ MoneyRange (nValueOut + out.nValue) then none
      else some (nValueOut + out.nValue))
    0

variable [NodeCrypto P]

/-- The transaction id.  A transaction with MWEB data only is identified by its first kernel. -/
def getHash (tx : CTransaction P) : P.Hash :=
  match (if tx.isMWEBOnly then tx.mwebTx.bind (·.body.kernels.head?) else none) with
  | some k => k.getKernelID
  | none => NodeCrypto.txHash tx.basePreimage

/-- The witness id. -/
def getWitnessHash (tx : CTransaction P) : P.Hash :=
  if tx.hasWitness then NodeCrypto.txHash tx.witnessPreimage else tx.getHash

variable {tx tx' : CTransaction P}

/-- Without MWEB data a transaction is identified by its base serialization. -/
lemma getHash_of_mwebTx_eq_none (h : tx.mwebTx = none) :
    tx.getHash = NodeCrypto.txHash tx.basePreimage := by
  simp [getHash, isMWEBOnly, hasMWEBTx, h]

/-- Transactions without MWEB data and with the same id have the same base serialization. -/
lemma basePreimage_eq_of_getHash_eq (hinj : TxHashInjective P)
    {tx tx' : CTransaction P} (h : tx.mwebTx = none) (h' : tx'.mwebTx = none)
    (hhash : tx.getHash = tx'.getHash) : tx.basePreimage = tx'.basePreimage := by
  rw [getHash_of_mwebTx_eq_none h, getHash_of_mwebTx_eq_none h'] at hhash
  exact hinj hhash

omit [NodeCrypto P] in
/-- The outputs are part of the base serialization. -/
lemma vout_eq_of_basePreimage_eq (h : tx.basePreimage = tx'.basePreimage) : tx.vout = tx'.vout :=
  congrArg TxPreimage.vout h

omit [NodeCrypto P] in
/-- The outpoints of the inputs are part of the base serialization. -/
lemma prevouts_eq_of_basePreimage_eq (h : tx.basePreimage = tx'.basePreimage) :
    tx.vin.map CTxIn.prevout = tx'.vin.map CTxIn.prevout := by
  have hvin := congrArg (fun t : TxPreimage P => t.vin.map TxInPreimage.prevout) h
  simpa [basePreimage, Function.comp_def] using hvin

omit [NodeCrypto P] in
/-- Whether a transaction is a coinbase depends on the outpoints of its inputs. -/
lemma isCoinBase_congr (h : tx.vin.map CTxIn.prevout = tx'.vin.map CTxIn.prevout) :
    tx.isCoinBase = tx'.isCoinBase := by
  have hview : ∀ t : CTransaction P, t.isCoinBase = true ↔
      ∃ o, t.vin.map CTxIn.prevout = [o] ∧ o.isNull = true := by
    intro t
    unfold isCoinBase
    rcases t.vin with _ | ⟨a, _ | ⟨b, l⟩⟩ <;> simp
  rw [Bool.eq_iff_iff, hview, hview, h]

end CTransaction

/-! ### Blocks -/

/-- The hash of a block. -/
def CBlock.getHash [NodeCrypto P] (b : CBlock P) : P.Hash := NodeCrypto.blockHash b.header

/-- The integrating transaction: the last one, if it carries the marker. -/
def CBlock.getHogEx (b : CBlock P) : Option (CTransaction P) :=
  if 2 ≤ b.vtx.length then b.vtx.getLast?.filter CTransaction.isHogEx else none

/-! ### Value of the outputs -/

/-- The unbounded value of a list of outputs. -/
def outputsValue (vout : List (CTxOut P)) : ℤ := intSum CTxOut.nValue vout

private lemma getValueOut_loop {vout : List (CTxOut P)} {acc v : CAmount} (hacc : MoneyRange acc)
    (h : vout.foldlM
      (fun nValueOut (out : CTxOut P) =>
        if ¬ MoneyRange out.nValue ∨ ¬ MoneyRange (nValueOut + out.nValue) then none
        else some (nValueOut + out.nValue))
      acc = some v) :
    v.toInt = acc.toInt + outputsValue vout ∧ MoneyRange v ∧
      ∀ out ∈ vout, MoneyRange out.nValue := by
  induction vout generalizing acc with
  | nil =>
    obtain rfl : acc = v := by simpa using h
    simp [outputsValue, hacc]
  | cons out rest ih =>
    rw [List.foldlM_cons] at h
    obtain ⟨acc', hacc', h⟩ := Option.bind_eq_some_iff.mp h
    split at hacc'
    case isTrue => cases hacc'
    case isFalse hrange =>
      rw [not_or, not_not, not_not] at hrange
      cases hacc'
      obtain ⟨hv, hvr, hall⟩ := ih hrange.2 h
      refine ⟨?_, hvr, ?_⟩
      · rw [hv, hacc.toInt_add hrange.1, outputsValue, outputsValue, intSum_cons, add_assoc]
      · intro o ho
        rcases List.mem_cons.mp ho with rfl | ho
        · exact hrange.1
        · exact hall o ho

/-- When `GetValueOut` returns, it returns the unbounded sum of the output values, and the sum
and every single value are in the money range. -/
lemma getValueOut_eq_some {tx : CTransaction P} {v : CAmount} (h : tx.getValueOut = some v) :
    v.toInt = outputsValue tx.vout ∧ MoneyRange v ∧ ∀ out ∈ tx.vout, MoneyRange out.nValue := by
  have := getValueOut_loop moneyRange_zero h
  simpa using this

end Aegisum
