import Mathlib.Algebra.Module.Prod
import Mathlib.Data.ZMod.Basic
import Aegisum.Mweb.Crypto

/-!
# Stealth addresses and output recovery

A sender and the owner of a stealth address agree on a key without talking to each other.  The
sender draws the sending key `s` from the address, the value and a nonce, and publishes `s • B`;
the secret both know is `s • A`, which the owner computes as `a • (s • B)` with the scan key `a`.
Everything else in the output (view tag, one-time key, blinding factor and masks) is hashed
from this secret, so the owner recovers the amount and the blinding factor and can derive the
key that spends the output.
-/

namespace Aegisum

namespace Mw

/-! ### Keys and hashes of the wallet -/

/-- The tagged hashes of the wallet, its signer and prover, and the inverse of a scalar. -/
class WalletCrypto (P : Primitives) where
  /-- `ADDRESS`: the tweak of the spend key with an index. -/
  addressHash : UInt32 → P.Scalar → P.Scalar
  /-- `NONCE`: the first 16 bytes of the digest of the sender's key. -/
  nonceHash : P.Scalar → Bytes
  /-- `SEND_KEY`: the sending key of an address, a value and a nonce. -/
  sendKeyHash : P.Point → P.Point → UInt64 → Bytes → P.Scalar
  /-- `DERIVE`: the shared secret of an agreed point. -/
  deriveHash : P.Point → P.Hash
  /-- `TAG`: the first byte of the digest of an agreed point. -/
  tagHash : P.Point → UInt8
  /-- `OUT_KEY`: the factor of a one-time key. -/
  outKeyHash : P.Hash → P.Scalar
  /-- `BLIND`: the raw blinding factor. -/
  blindHash : P.Hash → P.Scalar
  /-- `VALUE_MASK`: the first eight bytes. -/
  valueMaskHash : P.Hash → UInt64
  /-- `NONCE_MASK`: the first 16 bytes. -/
  nonceMaskHash : P.Hash → Bytes
  /-- The switch commitment's blinding factor. -/
  blindSwitch : P.Scalar → UInt64 → P.Scalar
  /-- A signature under a secret key. -/
  schnorrSign : P.Scalar → P.Hash → Signature
  /-- A range proof for a value, made with two random nonces. -/
  bulletproofGenerate : UInt64 → P.Scalar → P.Scalar → P.Scalar → OutputMessage P → RangeProof
  /-- The inverse of a scalar. -/
  inverse : P.Scalar → P.Scalar
  length_nonceHash : ∀ key, (nonceHash key).length = 16
  length_nonceMaskHash : ∀ t, (nonceMaskHash t).length = 16
  inverse_mul : ∀ k, k ≠ 0 → inverse k * k = 1

variable {P : Primitives}

/-- A public key times a scalar.  The point at infinity is not a key. -/
def multiplyKey (key : P.Point) (k : P.Scalar) : Option P.Point :=
  if k • key = 0 then none else some (k • key)

lemma multiplyKey_eq_some {key : P.Point} {k : P.Scalar} {result : P.Point} :
    multiplyKey key k = some result ↔ k • key ≠ 0 ∧ k • key = result := by
  unfold multiplyKey
  split_ifs with h
  · simp [h]
  · simp [h]

/-- A public key divided by a scalar. -/
def divideKey [WalletCrypto P] (key : P.Point) (k : P.Scalar) : Option P.Point :=
  if k = 0 then none else multiplyKey key (WalletCrypto.inverse k)

/-- Dividing undoes a multiplication that gave a key. -/
lemma divideKey_multiplyKey [WalletCrypto P] {key result : P.Point} {k : P.Scalar}
    (h : multiplyKey key k = some result) : divideKey result k = some key := by
  obtain ⟨hne, rfl⟩ := multiplyKey_eq_some.mp h
  have hk : k ≠ 0 := by
    rintro rfl
    exact hne (zero_smul _ _)
  have hinv : WalletCrypto.inverse k • k • key = key := by
    rw [smul_smul, WalletCrypto.inverse_mul k hk, one_smul]
  rw [divideKey, if_neg hk, multiplyKey_eq_some, hinv]
  refine ⟨?_, rfl⟩
  rintro rfl
  exact hne (smul_zero _)

/-- The public key of a secret key. -/
def calculatePubKey (k : P.Scalar) : Option P.Point := multiplyKey P.genG k

/-- The commitment to a value, which cannot be the point at infinity. -/
def commit (value : UInt64) (blind : P.Scalar) : Option P.Point :=
  if commitBlinded blind value.toNat = 0 then none else some (commitBlinded blind value.toNat)

lemma commit_eq_some {value : UInt64} {blind : P.Scalar} {c : P.Point} :
    commit value blind = some c ↔
      commitBlinded blind value.toNat ≠ 0 ∧ commitBlinded blind value.toNat = c := by
  unfold commit
  split_ifs with h
  · simp [h]
  · simp [h]

/-- Exclusive or of byte strings. -/
def xorBytes (a b : Bytes) : Bytes := a.zipWith (· ^^^ ·) b

lemma xorBytes_xorBytes_cancel {a b : Bytes} (h : a.length = b.length) :
    xorBytes (xorBytes a b) b = a := by
  induction a generalizing b with
  | nil => rfl
  | cons x a ih =>
    cases b with
    | nil => cases h
    | cons y b =>
      have htail := ih (Nat.succ.inj h)
      simp only [xorBytes, List.zipWith_cons_cons, List.cons.injEq] at htail ⊢
      exact ⟨by rw [UInt8.xor_assoc, UInt8.xor_self, UInt8.xor_zero], htail⟩

/-! ### Masks and outputs -/

open WalletCrypto

/-- A stealth address: scan and spend public keys. -/
structure StealthAddress (P : Primitives) where
  scan : P.Point
  spend : P.Point
deriving DecidableEq

/-- What is hashed from the shared secret of an output. -/
structure OutputMask (P : Primitives) where
  preBlind : P.Scalar
  valueMask : UInt64
  nonceMask : Bytes

namespace OutputMask

variable [WalletCrypto P]

/-- The masks of a shared secret. -/
def fromShared (sharedSecret : P.Hash) : OutputMask P :=
  ⟨blindHash sharedSecret, valueMaskHash sharedSecret, nonceMaskHash sharedSecret⟩

/-- The blinding factor of the commitment. -/
def switchBlind (mask : OutputMask P) (value : UInt64) : P.Scalar :=
  blindSwitch mask.preBlind value

/-- The commitment under the switched blinding factor. -/
def switchCommit (mask : OutputMask P) (value : UInt64) : Option P.Point :=
  commit value (blindSwitch mask.preBlind value)

/-- Mask or unmask a nonce. -/
def maskNonce (mask : OutputMask P) (nonce : Bytes) : Bytes := xorBytes nonce mask.nonceMask

/-- Mask or unmask a value. -/
def maskValue (mask : OutputMask P) (value : UInt64) : UInt64 := value ^^^ mask.valueMask

omit [WalletCrypto P] in
@[simp] lemma maskValue_maskValue (mask : OutputMask P) (value : UInt64) :
    mask.maskValue (mask.maskValue value) = value := by
  rw [maskValue, maskValue, UInt64.xor_assoc, UInt64.xor_self, UInt64.xor_zero]

end OutputMask

section Create

variable [MwCrypto P] [WalletCrypto P]

/-- The output that pays a value to a stealth address, with its raw blinding factor.  The two
nonces are the random numbers of the range proof. -/
def Output.create (senderKey : P.Scalar) (receiver : StealthAddress P) (value : UInt64)
    (nonces : P.Scalar × P.Scalar) : Option (P.Scalar × Output P) := do
  let n := nonceHash senderKey
  let s := sendKeyHash receiver.scan receiver.spend value n
  let sA ← multiplyKey receiver.scan s
  let t := deriveHash sA
  let receiverPubKey ← multiplyKey receiver.spend (outKeyHash t)
  let keyExchangePubKey ← multiplyKey receiver.spend s
  let mask := OutputMask.fromShared t
  let blind := mask.switchBlind value
  let commitment ← commit value blind
  let senderPubKey ← calculatePubKey senderKey
  let message : OutputMessage P :=
    ⟨standardFieldsFeatureBit,
      some ⟨keyExchangePubKey, tagHash sA, mask.maskValue value, mask.maskNonce n⟩, [], rfl⟩
  let proof := bulletproofGenerate value blind nonces.1 nonces.2 message
  let signature := schnorrSign senderKey
    (MwCrypto.outputSignatureHash commitment senderPubKey receiverPubKey
      (MwCrypto.outputMessageHash message) (MwCrypto.rangeProofHash proof))
  some (mask.preBlind, ⟨commitment, senderPubKey, receiverPubKey, message, proof, signature⟩)

/-- The keys and the masked fields of an output made for a stealth address. -/
structure Output.PaysTo (output : Output P) (senderKey : P.Scalar) (receiver : StealthAddress P)
    (value : UInt64) (s : P.Scalar) (sA Ke : P.Point) : Prop where
  sendKey : s = sendKeyHash receiver.scan receiver.spend value (nonceHash senderKey)
  shared : multiplyKey receiver.scan s = some sA
  receiverPubKey :
    multiplyKey receiver.spend (outKeyHash (deriveHash sA)) = some output.receiverPubKey
  keyExchange : multiplyKey receiver.spend s = some Ke
  commitment :
    (OutputMask.fromShared (deriveHash sA)).switchCommit value = some output.commitment
  senderPubKey : calculatePubKey senderKey = some output.senderPubKey
  standardFields : output.message.standardFields =
    some ⟨Ke, tagHash sA, (OutputMask.fromShared (deriveHash sA)).maskValue value,
      (OutputMask.fromShared (deriveHash sA)).maskNonce (nonceHash senderKey)⟩

/-- Everything `create` does that is read again later. -/
lemma Output.create_spec {senderKey blind : P.Scalar} {receiver : StealthAddress P}
    {value : UInt64} {nonces : P.Scalar × P.Scalar} {output : Output P}
    (h : Output.create senderKey receiver value nonces = some (blind, output)) :
    ∃ s sA Ke, output.PaysTo senderKey receiver value s sA Ke ∧
      blind = blindHash (deriveHash sA) := by
  unfold Output.create at h
  obtain ⟨sA, hsA, h⟩ := Option.bind_eq_some_iff.mp h
  obtain ⟨Ko, hKo, h⟩ := Option.bind_eq_some_iff.mp h
  obtain ⟨Ke, hKe, h⟩ := Option.bind_eq_some_iff.mp h
  obtain ⟨commitment, hcommitment, h⟩ := Option.bind_eq_some_iff.mp h
  obtain ⟨Ks, hKs, h⟩ := Option.bind_eq_some_iff.mp h
  obtain ⟨rfl, rfl⟩ := Prod.mk.inj (Option.some.inj h)
  exact ⟨_, sA, Ke, ⟨rfl, hsA, hKo, hKe, hcommitment, hKs, rfl⟩, rfl⟩

end Create

/-! ### The keychain -/

/-- The index of coins whose key is looked up in the wallet's database. -/
def customKey : UInt32 := 0xfffffffe

/-- The index of coins that are not the wallet's. -/
def unknownIndex : UInt32 := 0xffffffff

/-- A coin of the wallet. -/
structure Coin (P : Primitives) where
  addressIndex : UInt32 := unknownIndex
  spendKey : Option P.Scalar := none
  blind : Option P.Scalar := none
  amount : CAmount := 0
  outputID : P.Hash := P.zeroHash
  senderKey : Option P.Scalar := none
  address : Option (StealthAddress P) := none
  sharedSecret : Option P.Hash := none
deriving DecidableEq

/-- The coin is the wallet's own. -/
def Coin.isMine (coin : Coin P) : Bool := coin.addressIndex != unknownIndex

/-- The wallet's two secrets, and what its database says of an address: the MWEB index of its
metadata, and the secret key of a spend key. -/
structure Keychain (P : Primitives) where
  scanSecret : P.Scalar
  spendSecret : P.Scalar
  getMetadata : StealthAddress P → Option (Option UInt32)
  getKey : P.Point → Option P.Scalar

namespace Keychain

section Keys

variable [WalletCrypto P]

/-- The spend key of an index. -/
def getSpendKey (keychain : Keychain P) (index : UInt32) : Option P.Scalar :=
  if keychain.spendSecret = 0 then none
  else
    let key := keychain.spendSecret + addressHash index keychain.scanSecret
    if key = 0 then none else some key

/-- The stealth address of an index. -/
def getStealthAddress (keychain : Keychain P) (index : UInt32) : Option (StealthAddress P) := do
  let spendKey ← keychain.getSpendKey index
  let B ← calculatePubKey spendKey
  let A ← multiplyKey B keychain.scanSecret
  some ⟨A, B⟩

/-- The spend key of an output of a shared secret. -/
def deriveOutputKey (spendKey : P.Scalar) (sharedSecret : P.Hash) : Option P.Scalar :=
  if spendKey = 0 ∨ outKeyHash sharedSecret = 0 then none
  else some (spendKey * outKeyHash sharedSecret)

/-- The key that spends a coin, if the wallet can compute it.  The outer `none` is an exception
of the key arithmetic. -/
def calculateOutputKey (keychain : Keychain P) (coin : Coin P) : Option (Option P.Scalar) :=
  if coin.spendKey.isSome then some coin.spendKey
  else if keychain.spendSecret = 0 ∨ coin.isMine = false then some none
  else
    match coin.sharedSecret with
    | none => some none
    | some sharedSecret =>
      if coin.addressIndex = customKey then
        match coin.address.bind fun address => keychain.getKey address.spend with
        | none => some none
        | some key => (deriveOutputKey key sharedSecret).map some
      else do
        let spendKey ← keychain.getSpendKey coin.addressIndex
        (deriveOutputKey spendKey sharedSecret).map some

end Keys

section Rewind

variable [MwCrypto P] [WalletCrypto P]

/-- Try to recover an output: whether it is the wallet's, and the coin with what was found.  A
failed assertion or an exception is `none`. -/
def rewindOutput (keychain : Keychain P) (output : Output P) (coin : Coin P) :
    Option (Bool × Coin P) :=
  match output.message.standardFields with
  | none => some (false, coin)
  | some fields =>
    if keychain.scanSecret = 0 then none
    else do
      let sharedSecret ← multiplyKey fields.keyExchangePubKey keychain.scanSecret
      if tagHash sharedSecret ≠ fields.viewTag then some (false, coin)
      else
        let t := deriveHash sharedSecret
        let B ← divideKey output.receiverPubKey (outKeyHash t)
        -- does the address belong to the wallet?
        let A ← multiplyKey B keychain.scanSecret
        match keychain.getMetadata ⟨A, B⟩ with
        | none => some (false, coin)
        | some mwebIndex =>
          let mask := OutputMask.fromShared t
          let value := mask.maskValue fields.maskedValue
          let n := mask.maskNonce fields.maskedNonce
          let commitment ← mask.switchCommit value
          if commitment ≠ output.commitment then some (false, coin)
          else
            let Ke ← multiplyKey B (sendKeyHash A B value n)
            if fields.keyExchangePubKey ≠ Ke then some (false, coin)
            else
              let found : Coin P := { coin with
                addressIndex := mwebIndex.getD customKey
                blind := some mask.preBlind
                amount := value.toInt64
                outputID := output.getOutputID
                address := some ⟨A, B⟩
                sharedSecret := some t }
              let spendKey ← keychain.calculateOutputKey found
              some (true, { found with spendKey := spendKey })

/-! ### Recovery -/

/-- The address of an index the wallet has given out: its metadata carry the index, which is not
one of the two values that stand for a missing index. -/
structure Knows (keychain : Keychain P) (index : UInt32) (address : StealthAddress P) : Prop where
  address_eq : keychain.getStealthAddress index = some address
  metadata : keychain.getMetadata address = some (some index)
  ne_customKey : index ≠ customKey
  ne_unknownIndex : index ≠ unknownIndex

variable {keychain : Keychain P} {index : UInt32} {address : StealthAddress P}

omit [MwCrypto P] in
lemma getSpendKey_ne_zero {key : P.Scalar} (h : keychain.getSpendKey index = some key) :
    keychain.spendSecret ≠ 0 ∧ key ≠ 0 := by
  unfold getSpendKey at h
  dsimp only at h
  split_ifs at h with hspend hkey
  exact ⟨hspend, fun hzero => hkey ((Option.some.inj h).trans hzero)⟩

omit [MwCrypto P] in
lemma getStealthAddress_eq_some (h : keychain.getStealthAddress index = some address) :
    ∃ key, keychain.getSpendKey index = some key ∧ calculatePubKey key = some address.spend ∧
      multiplyKey address.spend keychain.scanSecret = some address.scan := by
  unfold getStealthAddress at h
  obtain ⟨key, hkey, h⟩ := Option.bind_eq_some_iff.mp h
  obtain ⟨B, hB, h⟩ := Option.bind_eq_some_iff.mp h
  obtain ⟨A, hA, h⟩ := Option.bind_eq_some_iff.mp h
  obtain rfl := Option.some.inj h
  exact ⟨key, hkey, hB, hA⟩

omit [MwCrypto P] [WalletCrypto P] in
/-- The key agreement: sender and owner multiply by their secrets in different order. -/
lemma multiplyKey_comm {A B Ke sA : P.Point} {a s : P.Scalar} (hA : multiplyKey B a = some A)
    (hKe : multiplyKey B s = some Ke) (hsA : multiplyKey A s = some sA) :
    multiplyKey Ke a = some sA := by
  obtain ⟨-, rfl⟩ := multiplyKey_eq_some.mp hA
  obtain ⟨-, rfl⟩ := multiplyKey_eq_some.mp hKe
  obtain ⟨hne, rfl⟩ := multiplyKey_eq_some.mp hsA
  rw [multiplyKey_eq_some, smul_comm a s B]
  exact ⟨hne, rfl⟩

omit [MwCrypto P] in
/-- The one-time key of the owner: the spend key of the index times the factor of the shared
secret, whose public key is the receiver key of the output. -/
lemma deriveOutputKey_spec {key : P.Scalar} {B Ko : P.Point} {t : P.Hash} (hkey : key ≠ 0)
    (hB : calculatePubKey key = some B) (hKo : multiplyKey B (outKeyHash t) = some Ko) :
    deriveOutputKey key t = some (key * outKeyHash t) ∧
      (key * outKeyHash t) • P.genG = Ko := by
  obtain ⟨-, rfl⟩ := multiplyKey_eq_some.mp hB
  obtain ⟨hne, rfl⟩ := multiplyKey_eq_some.mp hKo
  have hfactor : outKeyHash t ≠ 0 := by
    intro hzero
    apply hne
    rw [hzero, zero_smul]
  constructor
  · exact if_neg (not_or.mpr ⟨hkey, hfactor⟩)
  · rw [mul_comm, mul_smul]

omit [MwCrypto P] in
/-- The key of a coin received at a known index that has not been computed yet. -/
lemma calculateOutputKey_of_index (coin : Coin P) {key : P.Scalar} {t : P.Hash}
    (hnone : coin.spendKey = none) (hsecret : coin.sharedSecret = some t)
    (hkey : keychain.getSpendKey coin.addressIndex = some key)
    (hcustom : coin.addressIndex ≠ customKey) (hknown : coin.addressIndex ≠ unknownIndex) :
    keychain.calculateOutputKey coin = (deriveOutputKey key t).map some := by
  have hmine : ¬ (keychain.spendSecret = 0 ∨ coin.isMine = false) := by
    rintro (hzero | hmine)
    · exact (getSpendKey_ne_zero hkey).1 hzero
    · exact hknown (by simpa [Coin.isMine] using hmine)
  unfold calculateOutputKey
  rw [if_neg (by simp [hnone]), if_neg hmine]
  simp only [hsecret, if_neg hcustom, hkey]
  rfl

/-- An output made for an address of the wallet is recovered by it. The coin has the amount, the
raw blinding factor, which opens the commitment, and the index of the address; its spend key is
the key of that index times the factor of the shared secret, and belongs to the receiver key. -/
theorem rewindOutput_create (hknows : keychain.Knows index address) {senderKey blind : P.Scalar}
    {value : UInt64} {nonces : P.Scalar × P.Scalar} {output : Output P}
    (hcreate : Output.create senderKey address value nonces = some (blind, output))
    (coin : Coin P) (hcoin : coin.spendKey = none) :
    ∃ found key t,
      keychain.rewindOutput output coin = some (true, found) ∧
      found.amount = value.toInt64 ∧ found.blind = some blind ∧ found.addressIndex = index ∧
      commitBlinded (blindSwitch blind value) value.toNat = output.commitment ∧
      found.sharedSecret = some t ∧ keychain.getSpendKey index = some key ∧
      found.spendKey = some (key * outKeyHash t) ∧
      keychain.calculateOutputKey { found with spendKey := none } =
        some (some (key * outKeyHash t)) ∧
      (key * outKeyHash t) • P.genG = output.receiverPubKey := by
  obtain ⟨key, hkey, hB, hA⟩ := getStealthAddress_eq_some hknows.address_eq
  obtain ⟨s, sA, Ke, hpays, rfl⟩ := Output.create_spec hcreate
  have hscan : keychain.scanSecret ≠ 0 := by
    intro hzero
    apply (multiplyKey_eq_some.mp hA).1
    rw [hzero, zero_smul]
  have hagreed : multiplyKey Ke keychain.scanSecret = some sA :=
    multiplyKey_comm hA hpays.keyExchange hpays.shared
  have hdivide := divideKey_multiplyKey hpays.receiverPubKey
  obtain ⟨hderive, hpublic⟩ :=
    deriveOutputKey_spec (getSpendKey_ne_zero hkey).2 hB hpays.receiverPubKey
  have hnonce : (OutputMask.fromShared (deriveHash sA)).maskNonce
      ((OutputMask.fromShared (deriveHash sA)).maskNonce (nonceHash senderKey)) =
      nonceHash senderKey := by
    apply xorBytes_xorBytes_cancel
    exact (length_nonceHash senderKey).trans (length_nonceMaskHash (deriveHash sA)).symm
  have hcommitment := (commit_eq_some.mp hpays.commitment).2
  -- the coin as it is before its spend key is computed
  let found : Coin P := { coin with
    addressIndex := index
    blind := some (blindHash (deriveHash sA))
    amount := value.toInt64
    outputID := output.getOutputID
    address := some address
    sharedSecret := some (deriveHash sA) }
  have hfound : keychain.calculateOutputKey found =
      some (some (key * outKeyHash (deriveHash sA))) := by
    rw [calculateOutputKey_of_index found hcoin rfl hkey hknows.ne_customKey
      hknows.ne_unknownIndex, hderive]
    rfl
  refine ⟨{ found with spendKey := some (key * outKeyHash (deriveHash sA)) }, key, deriveHash sA,
    ?_, rfl, rfl, rfl, hcommitment, rfl, hkey, rfl, ?_, hpublic⟩
  · unfold rewindOutput
    simp only [hpays.standardFields, if_neg hscan, hagreed, Option.bind_eq_bind,
      Option.bind_some, ne_eq, not_true_eq_false, if_false, hdivide, hA, hknows.metadata,
      OutputMask.maskValue_maskValue, hpays.commitment, hnonce, ← hpays.sendKey,
      hpays.keyExchange, Option.getD_some]
    exact Option.bind_eq_some_iff.mpr ⟨_, hfound, rfl⟩
  · have hsame : { found with spendKey := none } = found := by
      simp only [found, hcoin]
    exact hsame ▸ hfound

end Rewind

end Keychain

end Mw

/-! ### A small instance -/

namespace Symbolic

open Mw

/-- Scalars modulo seven and pairs of them as points. -/
abbrev mod7 : Primitives where
  Hash := ZMod 7
  Scalar := ZMod 7
  Point := ZMod 7 × ZMod 7
  decEqHash := inferInstance
  hashLt a b := a.val < b.val
  zeroHash := 0
  decEqScalar := inferInstance
  commRingScalar := inferInstance
  decEqPoint := inferInstance
  addCommGroupPoint := inferInstance
  modulePoint := inferInstance
  genG := (0, 1)
  genH := (1, 0)
  hashToScalar := id

instance : MwCrypto mod7 where
  kernelHash _ := 0
  kernelMessageHash _ _ _ _ _ _ _ _ := 0
  inputMessageHash _ _ _ := 0
  keyHash _ _ := 1
  outputMessageHash _ := 0
  rangeProofHash _ := 0
  outputHash _ _ _ _ _ _ := 0
  outputSignatureHash _ _ _ _ _ := 0
  headerHash _ := 0
  outputLeafHash _ _ := 0
  kernelLeafHash _ _ := 0
  parentHash _ _ _ := 0
  leafSetHash _ := 0
  schnorrVerify _ := true
  bulletproofVerify _ := true

instance : WalletCrypto mod7 where
  addressHash index a := index.toNat + a
  nonceHash _ := List.replicate 16 5
  sendKeyHash A B value _ := A.2 + B.2 + value.toNat
  deriveHash p := p.2 + 1
  tagHash p := p.2.val.toUInt8
  outKeyHash t := t + 2
  blindHash t := t + 3
  valueMaskHash t := (ZMod.val (n := 7) t).toUInt64
  nonceMaskHash t := List.replicate 16 (ZMod.val (n := 7) t).toUInt8
  blindSwitch r value := r + value.toNat
  schnorrSign _ _ := []
  bulletproofGenerate _ _ _ _ _ := []
  inverse k := k ^ 5
  length_nonceHash _ := List.length_replicate
  length_nonceMaskHash _ := List.length_replicate
  inverse_mul := by decide

/-- A wallet that has given out the address of index two. -/
def smallWallet : Keychain mod7 where
  scanSecret := 2
  spendSecret := 1
  getMetadata address := if address = ⟨(0, 3), (0, 5)⟩ then some (some 2) else none
  getKey _ := none

/-- A coin of eleven in the small wallet's keys. -/
def elevenCoin : Coin mod7 := { spendKey := some 3, blind := some 2, amount := 11 }

/-- A payment of eleven to the second address of the small wallet is recovered. -/
theorem rewindOutput_create_smallWallet :
    smallWallet.Knows 2 ⟨(0, 3), (0, 5)⟩ ∧
      ∃ found output, smallWallet.rewindOutput output { } = some (true, found) ∧
        found.amount = 11 := by
  have hknows : smallWallet.Knows 2 ⟨(0, 3), (0, 5)⟩ := ⟨by decide, by decide, by decide, by decide⟩
  obtain ⟨⟨blind, output⟩, hcreate⟩ := Option.isSome_iff_exists.mp
    (by decide : (Output.create (4 : mod7.Scalar) ⟨(0, 3), (0, 5)⟩ 11 (1, 1)).isSome = true)
  obtain ⟨found, -, -, hrewind, hamount, -⟩ := Keychain.rewindOutput_create hknows hcreate { } rfl
  exact ⟨hknows, found, output, hrewind, hamount⟩

end Symbolic

end Aegisum
