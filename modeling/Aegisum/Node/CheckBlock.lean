import Aegisum.Model.Merkle
import Aegisum.Node.CheckTx

/-!
# Checks of a block

`CheckBlock` and `ContextualCheckBlock`.  Proof of work, signet signatures, script execution and
the counting of signature operations in a single script are parameters, collected in
`ScriptEnv`: the checks only use their results.
-/

namespace Aegisum

open Mw (Bytes)

variable {P : Primitives}

/-- What the block checks use of the proof of work and of the script code. -/
structure ScriptEnv (P : Primitives) where
  /-- `CheckProofOfWork` of the header's proof-of-work hash. -/
  checkProofOfWork : CBlockHeader P → Bool
  /-- `CheckSignetBlockSolution`. -/
  checkSignetBlockSolution : CBlock P → Bool
  /-- `GetSigOpCount` of an input script. -/
  scriptSigOps : Bytes → ℕ
  /-- `GetSigOpCount` of an output script. -/
  scriptPubKeyOps : CScript P → ℕ
  /-- The cost of the P2SH and witness signature operations of an input, for the script flags,
  the input and the output it spends. -/
  inputSigOpCost : ℕ → CTxIn P → CTxOut P → ℕ
  /-- `GetBlockScriptFlags` for the block after the given chain. -/
  getBlockScriptFlags : Chain P → ℕ
  /-- `CheckInputScripts` for the script flags, the transaction and the outputs it spends: the
  reject reason, if it fails. -/
  checkInputScripts : ℕ → CTransaction P → List (CTxOut P) → Option String

/-! ### Sizes -/

/-- Bytes of the witness stacks of a transaction. -/
def CTransaction.witnessSize (tx : CTransaction P) : ℕ :=
  (tx.vin.map fun txin => compactSizeLength txin.scriptWitness.length +
    (txin.scriptWitness.map fun item => compactSizeLength item.length + item.length).sum).sum

/-- The serialized size of a transaction with witnesses, without MWEB data. -/
def CTransaction.totalSize (tx : CTransaction P) : ℕ :=
  tx.strippedSize + if tx.hasWitness then 2 + tx.witnessSize else 0

/-- The serialized size of a block without witnesses and MWEB data. -/
def CBlock.strippedSize (b : CBlock P) : ℕ :=
  80 + compactSizeLength b.vtx.length + (b.vtx.map CTransaction.strippedSize).sum

/-- The serialized size of a block with witnesses, without MWEB data. -/
def CBlock.totalSize (b : CBlock P) : ℕ :=
  80 + compactSizeLength b.vtx.length + (b.vtx.map CTransaction.totalSize).sum

/-- The weight of a block. -/
def CBlock.getBlockWeight (b : CBlock P) : ℕ :=
  b.strippedSize * (witnessScaleFactor - 1) + b.totalSize

/-! ### Checks without context -/

/-- The largest cost of signature operations in a block. -/
def maxBlockSigopsCost : ℕ := 80000

/-- Signature operations in the scripts a transaction carries, peg-outs included. -/
def getLegacySigOpCount (env : ScriptEnv P) (tx : CTransaction P) : ℕ :=
  (tx.vin.map fun txin => env.scriptSigOps txin.scriptSig).sum +
    (tx.vout.map fun out => env.scriptPubKeyOps out.scriptPubKey).sum +
    ((tx.mwebTx.elim [] (·.body.kernels.flatMap Mw.Kernel.pegouts)).map fun pegout =>
      env.scriptPubKeyOps pegout.scriptPubKey).sum

/-- A failed check of a transaction makes the block invalid with the same reason. -/
def checkBlockTransaction (tx : CTransaction P) : Except BlockFailure Unit :=
  match checkTransaction tx with
  | .ok _ => .ok ()
  | .error (.invalid .txConsensus reason) => .error (.invalid .blockConsensus reason)
  | .error _ => .error .exception

variable [NodeCrypto P]

/-- The Merkle root over the transaction ids, and whether a mutation was found. -/
def blockMerkleRoot (b : CBlock P) : P.Hash × Bool :=
  computeMerkleRoot NodeCrypto.merkleHash P.zeroHash (b.vtx.map CTransaction.getHash)

/-- The checks of a block that need no context. -/
def checkBlock (env : ScriptEnv P) (params : ConsensusParams P) (b : CBlock P) :
    Except BlockFailure Unit := do
  rejectIf (!env.checkProofOfWork b.header) (.invalid .blockInvalidHeader "high-hash")
  rejectIf (params.signetBlocks && !env.checkSignetBlockSolution b)
    (.invalid .blockConsensus "bad-signet-blksig")
  rejectIf (b.header.hashMerkleRoot ≠ (blockMerkleRoot b).1)
    (.invalid .blockMutated "bad-txnmrklroot")
  rejectIf (blockMerkleRoot b).2 (.invalid .blockMutated "bad-txns-duplicate")
  rejectIf (b.vtx.isEmpty || b.vtx.length * witnessScaleFactor > maxBlockWeight ||
      b.strippedSize * witnessScaleFactor > maxBlockWeight)
    (.invalid .blockConsensus "bad-blk-length")
  rejectIf (!(b.vtx.head?.any CTransaction.isCoinBase)) (.invalid .blockConsensus "bad-cb-missing")
  rejectIf (b.vtx.tail.any CTransaction.isCoinBase) (.invalid .blockConsensus "bad-cb-multiple")
  forM b.vtx checkBlockTransaction
  rejectIf ((b.vtx.map (getLegacySigOpCount env)).sum * witnessScaleFactor > maxBlockSigopsCost)
    (.invalid .blockConsensus "bad-blk-sigops")
  MwebNode.checkBlock b

/-- What `CheckBlock` establishes. -/
structure CheckedBlock (b : CBlock P) : Prop where
  merkleRoot : b.header.hashMerkleRoot = (blockMerkleRoot b).1
  not_mutated : (blockMerkleRoot b).2 = false
  coinbase_first : ∃ coinbase rest, b.vtx = coinbase :: rest ∧ coinbase.isCoinBase = true ∧
    ∀ tx ∈ rest, tx.isCoinBase = false
  txs : ∀ tx ∈ b.vtx, CheckedTx tx
  mwebTx_eq : ∀ tx ∈ b.vtx, tx.mwebTx = none

omit [NodeCrypto P] in
private lemma checkTransaction_of_checkBlockTransaction {tx : CTransaction P} {u : Unit}
    (h : checkBlockTransaction tx = .ok u) : checkTransaction tx = .ok () := by
  unfold checkBlockTransaction at h
  split at h
  case h_1 hok => exact hok
  case h_2 => cases h
  case h_3 => cases h

lemma checkedBlock_of_checkBlock {env : ScriptEnv P} {params : ConsensusParams P} {b : CBlock P}
    (h : checkBlock env params b = .ok ()) : CheckedBlock b := by
  replace h := of_rejectIf h
  replace h := of_rejectIf h
  obtain ⟨hroot, h⟩ := rejectIf_bind_eq_ok.mp h
  obtain ⟨hmutated, h⟩ := rejectIf_bind_eq_ok.mp h
  replace h := of_rejectIf h
  obtain ⟨hfirst, h⟩ := rejectIf_bind_eq_ok.mp h
  obtain ⟨hrest, h⟩ := rejectIf_bind_eq_ok.mp h
  obtain ⟨_, htxs, h⟩ := bind_eq_ok.mp h
  replace h := of_rejectIf h
  refine ⟨not_not.mp hroot, by simpa using hmutated, ?_, fun tx htx => ?_, fun tx htx => ?_⟩
  · cases hvtx : b.vtx with
    | nil => simp [hvtx] at hfirst
    | cons coinbase rest =>
      rw [hvtx] at hfirst hrest
      exact ⟨coinbase, rest, rfl, by simpa using hfirst, by simpa using hrest⟩
  · exact checkedTx_of_checkTransaction
      (checkTransaction_of_checkBlockTransaction (forM_eq_ok.mp htxs tx htx))
  · simpa [CTransaction.hasMWEBTx] using rejectIf_eq_ok.mp (forM_eq_ok.mp h tx htx)

/-! ### Checks in context -/

/-- Lock times below this are heights. -/
def locktimeThreshold : ℤ := 500000000

/-- The sequence number of an input that does not use lock times. -/
def sequenceFinal : ℕ := 0xffffffff

/-- The lock height of the attached MWEB transaction. -/
def CTransaction.mwebLockHeight (tx : CTransaction P) : ℕ :=
  tx.mwebTx.elim 0 (·.body.getLockHeight)

/-- The transaction can be in a block of the given height and time. -/
def isFinalTx (tx : CTransaction P) (nBlockHeight nBlockTime : ℤ) : Bool :=
  if (tx.mwebLockHeight : ℤ) > nBlockHeight then false
  else if tx.nLockTime = 0 then true
  else if (tx.nLockTime : ℤ) <
      (if (tx.nLockTime : ℤ) < locktimeThreshold then nBlockHeight else nBlockTime) then true
  else tx.vin.all fun txin => txin.nSequence = sequenceFinal

/-- The minimal little-endian bytes of a number, with room for a sign bit. -/
def scriptNumBytes : ℕ → ℕ → Bytes
  | 0, _ => []
  | fuel + 1, n =>
    if n < 128 then (if n = 0 then [] else [UInt8.ofNat n])
    else if n < 256 then [UInt8.ofNat n, 0]
    else UInt8.ofNat (n % 256) :: scriptNumBytes fuel (n / 256)

/-- The script that pushes a height, as `CScript() << nHeight`. -/
def scriptPushHeight (nHeight : ℕ) : Bytes :=
  if nHeight = 0 then [0x00]
  else if nHeight ≤ 16 then [UInt8.ofNat (0x50 + nHeight)]
  else
    let bytes := scriptNumBytes 9 nHeight
    UInt8.ofNat bytes.length :: bytes

/-- The commitment to the witnesses in the coinbase: the last output of that form counts. -/
def witnessCommitment (coinbase : CTransaction P) : Option P.Hash :=
  (coinbase.vout.filterMap fun out =>
    match out.scriptPubKey with
    | .witnessCommitment commitment _ => some commitment
    | _ => none).getLast?

/-- The Merkle root over the witness ids; the coinbase counts as zero. -/
def blockWitnessMerkleRoot (b : CBlock P) : P.Hash :=
  (computeMerkleRoot NodeCrypto.merkleHash P.zeroHash
    (P.zeroHash :: b.vtx.tail.map CTransaction.getWitnessHash)).1

/-- Without a commitment there are no witnesses. -/
def checkNoWitness (b : CBlock P) : Except BlockFailure Unit :=
  rejectIf (b.vtx.any CTransaction.hasWitness) (.invalid .blockMutated "unexpected-witness")

/-- With a commitment, the coinbase witness is the nonce of the commitment. -/
def checkCommitment (b : CBlock P) (witness : List Bytes) (commitment : P.Hash) :
    Except BlockFailure Unit :=
  match witness with
  | [nonce] => do
    rejectIf (nonce.length ≠ 32) (.invalid .blockMutated "bad-witness-nonce-size")
    rejectIf (NodeCrypto.witnessCommitmentHash (blockWitnessMerkleRoot b) nonce ≠ commitment)
      (.invalid .blockMutated "bad-witness-merkle-match")
  | _ => .error (.invalid .blockMutated "bad-witness-nonce-size")

/-- The witnesses are the ones the block commits to. -/
def checkWitness (params : ConsensusParams P) (nHeight : ℤ) (b : CBlock P)
    (coinbase : CTransaction P) (coinbaseIn : CTxIn P) : Except BlockFailure Unit :=
  if nHeight ≥ params.segwitHeight then
    match witnessCommitment coinbase with
    | some commitment => checkCommitment b coinbaseIn.scriptWitness commitment
    | none => checkNoWitness b
  else checkNoWitness b

/-- The time that lock times are compared with. -/
def lockTimeCutoff (params : ConsensusParams P) (prev : Chain P) (b : CBlock P) : ℤ :=
  if prev.nHeight + 1 ≥ params.csvHeight then prev.getMedianTimePast else b.header.nTime

/-- The checks of a block that depend on its ancestors but not on the coins.  They run after
`CheckBlock`, so there is a coinbase with an input. -/
def contextualCheckBlock (params : ConsensusParams P) (prev : Chain P) (b : CBlock P) :
    Except BlockFailure Unit := do
  let nHeight := prev.nHeight + 1
  rejectIf (nHeight ≥ params.csvHeight ∧ prev = []) .exception
  forM b.vtx fun tx => rejectIf (!isFinalTx tx nHeight (lockTimeCutoff params prev b))
    (.invalid .blockConsensus "bad-txns-nonfinal")
  let coinbase ← orThrow b.vtx.head?
  let coinbaseIn ← orThrow coinbase.vin.head?
  rejectIf (nHeight ≥ params.bip34Height ∧
      coinbaseIn.scriptSig.take (scriptPushHeight nHeight.toNat).length ≠
        scriptPushHeight nHeight.toNat)
    (.invalid .blockConsensus "bad-cb-height")
  checkWitness params nHeight b coinbase coinbaseIn
  rejectIf (b.getBlockWeight > maxBlockWeight) (.invalid .blockConsensus "bad-blk-weight")
  MwebNode.contextualCheckBlock params prev b

/-- The MWEB checks are among the checks in context. -/
lemma mweb_of_contextualCheckBlock {params : ConsensusParams P} {prev : Chain P} {b : CBlock P}
    (h : contextualCheckBlock params prev b = .ok ()) :
    MwebNode.contextualCheckBlock params prev b = .ok () := by
  replace h := of_rejectIf h
  obtain ⟨_, -, h⟩ := bind_eq_ok.mp h
  obtain ⟨coinbase, -, h⟩ := bind_eq_ok.mp h
  obtain ⟨coinbaseIn, -, h⟩ := bind_eq_ok.mp h
  replace h := of_rejectIf h
  obtain ⟨_, -, h⟩ := bind_eq_ok.mp h
  exact (rejectIf_bind_eq_ok.mp h).2

end Aegisum
