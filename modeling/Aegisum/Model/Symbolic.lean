import Mathlib.Algebra.Module.Prod
import Mathlib.Algebra.Module.BigOperators
import Aegisum.Chain.Index

/-!
# Symbolic primitives

An instance of the primitives in which every hash function is injective: a digest is the
symbolic term that was hashed.  Points are pairs of integers, so that the commitment to the
value `v` with blinding factor `r` is `(v, r)`.  Concrete blocks are evaluated over it.
-/

namespace Aegisum

namespace Symbolic

/-- A symbolic digest. -/
inductive Digest
  | word (n : ℕ)
  | pair (a b : Digest)
deriving DecidableEq

/-- An order on symbolic digests. -/
def Digest.lt : Digest → Digest → Bool
  | .word m, .word n => m < n
  | .word _, .pair _ _ => true
  | .pair _ _, .word _ => false
  | .pair a b, .pair c d => a.lt c || (a = c && b.lt d)

/-! ### Injective encodings -/

/-- Types whose values are faithfully represented by digests. -/
class Encode (α : Type) where
  enc : α → Digest
  enc_injective : Function.Injective enc

export Encode (enc)

instance : Encode Digest := ⟨id, fun _ _ h => h⟩

instance : Encode ℕ := ⟨.word, fun _ _ h => Digest.word.inj h⟩

instance {α β : Type} [Encode α] [Encode β] : Encode (α × β) where
  enc p := .pair (enc p.1) (enc p.2)
  enc_injective _ _ h := by
    obtain ⟨h1, h2⟩ := Digest.pair.inj h
    exact Prod.ext (Encode.enc_injective h1) (Encode.enc_injective h2)

instance {α : Type} [Encode α] : Encode (Option α) where
  enc
    | none => .word 0
    | some a => .pair (.word 0) (enc a)
  enc_injective x y h := by
    cases x <;> cases y
    · rfl
    · cases h
    · cases h
    · exact congrArg some (Encode.enc_injective (Digest.pair.inj h).2)

/-- A list is encoded as nested pairs. -/
def encList {α : Type} [Encode α] : List α → Digest
  | [] => .word 0
  | a :: l => .pair (enc a) (encList l)

/-- Encoded lists are told apart. -/
lemma encList_injective {α : Type} [Encode α] : Function.Injective (encList (α := α)) := by
  intro l
  induction l with
  | nil =>
    intro l' h
    cases l' with
    | nil => rfl
    | cons b l' => cases h
  | cons a l ih =>
    intro l' h
    cases l' with
    | nil => cases h
    | cons b l' =>
      obtain ⟨h1, h2⟩ := Digest.pair.inj h
      rw [Encode.enc_injective h1, ih h2]

instance {α : Type} [Encode α] : Encode (List α) := ⟨encList, encList_injective⟩

/-- An encoding through an injective view of the type. -/
@[reducible] def Encode.comap {α β : Type} [Encode β] (f : α → β) (hf : Function.Injective f) :
    Encode α :=
  ⟨fun a => enc (f a), Encode.enc_injective.comp hf⟩

instance : Encode ℤ := .comap (fun n : ℤ => (n.toNat, (-n).toNat)) fun m n h => by
  have h1 := congrArg Prod.fst h
  have h2 := congrArg Prod.snd h
  simp only at h1 h2
  omega

instance : Encode UInt8 := .comap UInt8.toNat fun _ _ h => UInt8.toNat_inj.mp h

instance : Encode UInt64 := .comap UInt64.toNat fun _ _ h => UInt64.toNat_inj.mp h

instance : Encode Int64 := .comap Int64.toInt fun _ _ h => Int64.toInt_inj.mp h

/-! ### The primitives -/

/-- Symbolic digests, integers as scalars and pairs of integers as points. -/
abbrev sym : Primitives where
  Hash := Digest
  Scalar := ℤ
  Point := ℤ × ℤ
  decEqHash := inferInstance
  hashLt := Digest.lt
  zeroHash := .word 0
  decEqScalar := inferInstance
  commRingScalar := inferInstance
  decEqPoint := inferInstance
  addCommGroupPoint := inferInstance
  modulePoint := inferInstance
  genG := (0, 1)
  genH := (1, 0)
  hashToScalar _ := 1

/-- The form and the contents of a script. -/
def scriptView : CScript sym → ℕ × Digest × List UInt8
  | .mwebPegin id => (0, id, [])
  | .mwebHogAddr h => (1, h, [])
  | .witnessCommitment h rest => (2, h, rest)
  | .raw s => (3, .word 0, s.bytes)

instance : Encode (CScript sym) := .comap scriptView fun a b h => by
  cases a <;> cases b <;> simp_all [scriptView, RawScript.ext_iff]

instance : Encode (Mw.PegOutCoin sym) :=
  .comap (fun p => (p.amount, p.scriptPubKey)) fun a b h => by
    cases a
    cases b
    simp_all

instance : Encode (Mw.Kernel sym) :=
  .comap
    (fun k => ((k.features, k.fee, k.pegin, k.pegouts, k.lockHeight),
      (k.stealthExcess, k.extraData, k.excess, k.signature)))
    fun a b h => by
      simp only [Prod.mk.injEq] at h
      obtain ⟨⟨h1, h2, h3, h4, h5⟩, h6, h7, h8, h9⟩ := h
      exact Mw.Kernel.ext h1 h2 h3 h4 h5 h6 h7 h8 h9

instance : Encode (Mw.StandardFields sym) :=
  .comap (fun f => (f.keyExchangePubKey, f.viewTag, f.maskedValue, f.maskedNonce)) fun a b h => by
    cases a
    cases b
    simp_all

instance : Encode (Mw.OutputMessage sym) :=
  .comap (fun m => (m.features, m.standardFields, m.extraData)) fun a b h => by
    simp only [Prod.mk.injEq] at h
    exact Mw.OutputMessage.ext h.1 h.2.1 h.2.2

instance : Encode (Mw.Header sym) :=
  .comap
    (fun hdr => ((hdr.height, hdr.outputRoot, hdr.kernelRoot, hdr.leafsetRoot),
      (hdr.kernelOffset, hdr.stealthOffset, hdr.numTXOs, hdr.numKernels)))
    fun a b h => by
      cases a
      cases b
      simp_all

instance : Encode (COutPoint sym) :=
  .comap (fun o => (o.hash, o.n)) fun a b h => by
    cases a
    cases b
    simp_all

instance : Encode (CTxOut sym) :=
  .comap (fun o => (o.nValue, o.scriptPubKey)) fun a b h => by
    cases a
    cases b
    simp_all

instance : Encode (TxInPreimage sym) :=
  .comap (fun i => (i.prevout, i.scriptSig, i.nSequence)) fun a b h => by
    cases a
    cases b
    simp_all

instance : Encode (TxPreimage sym) :=
  .comap (fun t => (t.nVersion, t.vin, t.vout, t.witness, t.nLockTime)) fun a b h => by
    cases a
    cases b
    simp_all

instance : Encode (CBlockHeader sym) :=
  .comap
    (fun hdr => (hdr.nVersion, hdr.hashPrevBlock, hdr.hashMerkleRoot, hdr.nTime, hdr.nBits,
      hdr.nNonce))
    fun a b h => by
      cases a
      cases b
      simp_all

/-- The digest of a value under a domain tag. -/
def tagged {α : Type} [Encode α] (tag : ℕ) (a : α) : Digest := .pair (.word tag) (enc a)

/-- Tagged values are told apart. -/
lemma tagged_injective {α : Type} [Encode α] (tag : ℕ) : Function.Injective (tagged (α := α) tag) :=
  fun _ _ h => Encode.enc_injective (Digest.pair.inj h).2

/-- The only signature that verifies. -/
def goodSignature : Signature := [1]

/-- The only range proof that verifies. -/
def goodProof : RangeProof := [1]

instance : NodeCrypto sym where
  kernelHash := tagged 1
  kernelMessageHash features excess fee pegin pegouts lockHeight stealthExcess extraData :=
    tagged 2 ((features, excess, fee, pegin), (pegouts, lockHeight, stealthExcess, extraData))
  inputMessageHash features outputID extraData := tagged 3 (features, outputID, extraData)
  keyHash a b := tagged 4 (a, b)
  outputMessageHash := tagged 5
  rangeProofHash := tagged (α := List UInt8) 6
  outputHash commitment sender receiver message proof signature :=
    tagged 7 (commitment, sender, receiver, message, proof, signature)
  outputSignatureHash commitment sender receiver message proof :=
    tagged 8 (commitment, sender, receiver, message, proof)
  headerHash := tagged 9
  outputLeafHash position id := tagged 10 (position, id)
  kernelLeafHash position k := tagged 11 (position, k)
  parentHash position left right := tagged 12 (position, left, right)
  leafSetHash := tagged (α := List UInt8) 13
  schnorrVerify m := m.signature = goodSignature
  bulletproofVerify d := d.proof = goodProof
  txHash := tagged 14
  merkleHash left right := tagged 15 (left, right)
  blockHash := tagged 16
  witnessCommitmentHash root nonce := tagged 17 (root, nonce)

/-! ### Building blocks of concrete scenarios -/

lemma nonneg_none : 0 ≤ (none : Option CAmount).getD 0 := by decide +kernel

lemma nonneg_one : 0 ≤ (some 1 : Option CAmount).getD 0 := by decide +kernel

lemma nonneg_nil : ∀ p ∈ ([] : List (Mw.PegOutCoin sym)), 0 ≤ p.amount := nofun

/-- A kernel with the given amounts and blinding factor. -/
def kernel (fee pegin : Option CAmount) (pegouts : List (Mw.PegOutCoin sym)) (r : ℤ)
    (fee_nonneg : 0 ≤ fee.getD 0 := by
      first | with_reducible exact nonneg_none | decide +kernel)
    (pegin_nonneg : 0 ≤ pegin.getD 0 := by
      first | with_reducible exact nonneg_none | decide +kernel)
    (pegouts_nonneg : ∀ p ∈ pegouts, 0 ≤ p.amount := by
      first | with_reducible exact nonneg_nil | decide +kernel) : Mw.Kernel sym where
  features := 0
  fee := fee
  pegin := pegin
  pegouts := pegouts
  lockHeight := none
  stealthExcess := none
  extraData := []
  excess := (0, r)
  signature := goodSignature
  fee_nonneg := fee_nonneg
  pegin_nonneg := pegin_nonneg
  pegouts_nonneg := pegouts_nonneg

/-- An output of value `v` with blinding factor `r`, sender key `s` and receiver key `k`. -/
def output (v r s k : ℤ) : Mw.Output sym where
  commitment := (v, r)
  senderPubKey := (0, s)
  receiverPubKey := (0, k)
  message := ⟨0, none, [], rfl⟩
  proof := goodProof
  signature := goodSignature

/-- An input that declares the commitment to `v` with blinding factor `r` and the receiver
key `k` for the output it spends. -/
def input (outputID : Digest) (v r k : ℤ) : Mw.Input sym where
  features := 0
  outputID := outputID
  commitment := (v, r)
  inputPubKey := none
  outputPubKey := (0, k)
  extraData := []
  signature := goodSignature
  inputPubKey_isSome := rfl

/-- The kernel of a peg-in of ten units. -/
def mintKernel : Mw.Kernel sym := kernel none (some 10) [] 7

/-- The transaction that pegs in ten units. -/
def mintTx : Mw.Transaction sym := ⟨0, 5, ⟨[], [output 10 7 5 9], [mintKernel]⟩, by simp⟩

/-- The transaction that spends them and pays a fee of 2, with the given stealth offset. -/
def spendTx (stealthOffset : ℤ) : Mw.Transaction sym :=
  ⟨0, stealthOffset, ⟨[input (output 10 7 5 9).getOutputID 10 7 9], [output 8 11 5 9],
    [kernel (some 2) none [] 4]⟩, by simp⟩

/-- A script that anyone can spend. -/
def opTrue : CScript sym := .raw ⟨[0x51], rfl⟩

/-- A transaction without witnesses that spends the given outputs. -/
def spend (prevouts : List (COutPoint sym)) (vout : List (CTxOut sym)) : CTransaction sym where
  vin := prevouts.map fun o => ⟨o, [], 0, []⟩
  vout := vout
  nVersion := 2
  nLockTime := 0
  mwebTx := none
  hogEx := false
  hogEx_wf := by simp

/-- The same transaction with the HogEx marker. -/
def markHogEx (tx : CTransaction sym) (h : tx.mwebTx = none ∧ tx.vout ≠ []) : CTransaction sym :=
  { tx with
    hogEx := true
    hogEx_wf := fun _ => h }

/-- Parameters under which MWEB is active from the block at height 3 on. -/
def earlyParams : ConsensusParams sym where
  hashGenesisBlock := .word 0
  nSubsidyHalvingInterval := 100000
  bip34Height := 0
  bip34Hash := .word 0
  csvHeight := 0
  segwitHeight := 0
  nRuleChangeActivationThreshold := 0
  nMinerConfirmationWindow := 1
  deploymentMweb := ⟨4, 0, 0, 0, 0⟩
  signetBlocks := false
  nMinerConfirmationWindow_pos := Nat.one_pos

/-- An index entry of a block without MWEB data, at the given time. -/
def plainEntry (nTime : ℕ) : CBlockIndex sym where
  header := ⟨0, .word 0, .word 0, nTime, 0, 0⟩
  mwebHeader := none
  hogexHash := .word 0
  mwebAmount := 0

/-- The blocks before the first extension block under `earlyParams`. -/
def plainChain : Chain sym := [plainEntry 2, plainEntry 1, plainEntry 0]

/-- A coinbase transaction; the bytes make it unique. -/
def coinbase (scriptSig : List UInt8) (vout : List (CTxOut sym)) : CTransaction sym where
  vin := [⟨⟨.word 0, nullIndex⟩, scriptSig, 0, []⟩]
  vout := vout
  nVersion := 2
  nLockTime := 0
  mwebTx := none
  hogEx := false
  hogEx_wf := by simp

end Symbolic

end Aegisum
