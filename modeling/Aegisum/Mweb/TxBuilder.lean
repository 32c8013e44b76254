import Aegisum.Mweb.AggregationSound
import Aegisum.Mweb.Wallet

/-!
# Building a transaction

`TxBuilder::BuildTx` splits the difference of the blinding factors between the kernel and the
kernel offset, and the ephemeral and spend keys between the stealth excess and the stealth offset.
Both group equations that a validator checks then hold for every choice of the random keys.  A
validator still refuses the transaction when one of the sums it forms on the way is the point at
infinity, which has no encoding.
-/

namespace Aegisum

open List Option

namespace Mw

open WalletCrypto TxBody

variable {P : Primitives} [MwCrypto P] [WalletCrypto P]

/-! ### Inputs, kernels and transactions -/

/-- The key `k * h + k'` a signature is made with. -/
def aggregateKey (key : P.Scalar) (h : P.Hash) (key' : P.Scalar) : Option P.Scalar :=
  if key = 0 ∨ P.hashToScalar h = 0 ∨ key * P.hashToScalar h + key' = 0 then none
  else some (key * P.hashToScalar h + key')

/-- A standard input with a stealth key. -/
def Input.create (outputID : P.Hash) (commitment : P.Point) (inputKey outputKey : P.Scalar) :
    Option (Input P) := do
  let inputPubKey ← calculatePubKey inputKey
  let outputPubKey ← calculatePubKey outputKey
  let sigKey ← aggregateKey outputKey (MwCrypto.keyHash inputPubKey outputPubKey) inputKey
  let message := MwCrypto.inputMessageHash stealthKeyFeatureBit outputID none
  some ⟨stealthKeyFeatureBit, outputID, commitment, some inputPubKey, outputPubKey, [],
    schnorrSign sigKey message, rfl⟩

/-- The amounts of a kernel, which are written as variable-length integers. -/
structure KernelAmounts (P : Primitives) where
  fee : Option CAmount
  pegin : Option CAmount
  pegouts : List (PegOutCoin P)
  fee_nonneg : 0 ≤ fee.getD 0
  pegin_nonneg : 0 ≤ pegin.getD 0
  pegouts_nonneg : ∀ p ∈ pegouts, 0 ≤ p.amount

/-- A signed kernel. -/
def Kernel.create (blind : P.Scalar) (stealthBlind : Option P.Scalar) (amounts : KernelAmounts P)
    (lockHeight : Option ℕ) : Option (Kernel P) := do
  let features : UInt8 :=
    (if amounts.fee.isSome then 0x01 else 0) ||| (if amounts.pegin.isSome then 0x02 else 0) |||
    (if amounts.pegouts = [] then 0 else 0x04) ||| (if lockHeight.isSome then 0x08 else 0) |||
    (if stealthBlind.isSome then 0x10 else 0)
  let excess ← commit 0 blind
  let (sigKey, stealthExcess) ←
    match stealthBlind with
    | none => some (blind, none)
    | some stealthBlind => do
      let stealthExcess ← calculatePubKey stealthBlind
      let sigKey ← aggregateKey blind (MwCrypto.keyHash excess stealthExcess) stealthBlind
      some (sigKey, some stealthExcess)
  let message := MwCrypto.kernelMessageHash features excess amounts.fee amounts.pegin
    amounts.pegouts lockHeight stealthExcess []
  some
    { features, excess, lockHeight, stealthExcess
      fee := amounts.fee
      pegin := amounts.pegin
      pegouts := amounts.pegouts
      extraData := []
      signature := schnorrSign sigKey message
      fee_nonneg := amounts.fee_nonneg
      pegin_nonneg := amounts.pegin_nonneg
      pegouts_nonneg := amounts.pegouts_nonneg }

omit [WalletCrypto P] in
lemma sortBy_ne_nil {α : Type} {less : α → α → Bool} {l : List α} (h : l ≠ []) :
    sortBy less l ≠ [] := by
  intro hnil
  exact h ((hnil ▸ perm_sortBy less l).nil_eq).symm

/-- A transaction with its parts sorted. -/
def Transaction.create (kernelOffset stealthOffset : P.Scalar) (inputs : List (Input P))
    (outputs : List (Output P)) (kernels : List (Kernel P)) (h : kernels ≠ []) : Transaction P where
  kernelOffset := kernelOffset
  stealthOffset := stealthOffset
  body := ⟨sortBy inputSort inputs, sortBy outputSort outputs, sortBy kernelSort kernels⟩
  kernels_ne_nil := sortBy_ne_nil h

/-! ### The builder -/

namespace TxBuilder

/-- Whom to pay, and how much. -/
structure Recipient (P : Primitives) where
  amount : CAmount
  address : StealthAddress P

/-- The signed inputs, with the sum of their blinding factors and of their keys. -/
structure Inputs (P : Primitives) where
  totalBlind : P.Scalar
  totalKey : P.Scalar
  inputs : List (Input P)

/-- The outputs, with the sum of their blinding factors and of their keys, and the coins the
wallet keeps for them. -/
structure Outputs (P : Primitives) where
  totalBlind : P.Scalar
  totalKey : P.Scalar
  outputs : List (Output P)
  coins : List (Coin P)

/-- Sign the input of a coin with an ephemeral key: its blinding factor, its spend key and the
input.  Coins without blinding factor or spend key fail an assertion. -/
def createInput (coin : Coin P) (ephemeralKey : P.Scalar) :
    Option (P.Scalar × P.Scalar × Input P) := do
  let rawBlind ← coin.blind
  let spendKey ← coin.spendKey
  let blind := blindSwitch rawBlind coin.amount.toUInt64
  let commitment ← commit coin.amount.toUInt64 blind
  let input ← Input.create coin.outputID commitment ephemeralKey spendKey
  some (blind, spendKey, input)

/-- Sign the inputs of coins, each with the ephemeral key that was drawn for it. -/
def createInputs : List (Coin P × P.Scalar) → Option (Inputs P)
  | [] => some ⟨0, 0, []⟩
  | (coin, ephemeralKey) :: coins => do
    let (blind, spendKey, input) ← createInput coin ephemeralKey
    let rest ← createInputs coins
    some ⟨blind + rest.totalBlind, ephemeralKey - spendKey + rest.totalKey, input :: rest.inputs⟩

/-- The random numbers of an output: the ephemeral key and the nonces of the range proof. -/
structure OutputDraw (P : Primitives) where
  ephemeralKey : P.Scalar
  nonces : P.Scalar × P.Scalar

/-- Make the outputs of recipients, each with the numbers that were drawn for it. -/
def createOutputs : List (Recipient P × OutputDraw P) → Option (Outputs P)
  | [] => some ⟨0, 0, [], []⟩
  | (recipient, draw) :: recipients => do
    let (rawBlind, output) ←
      Output.create draw.ephemeralKey recipient.address recipient.amount.toUInt64 draw.nonces
    let coin : Coin P :=
      { blind := some rawBlind
        amount := recipient.amount
        outputID := output.getOutputID
        senderKey := some draw.ephemeralKey
        address := some recipient.address }
    let rest ← createOutputs recipients
    some ⟨blindSwitch rawBlind recipient.amount.toUInt64 + rest.totalBlind,
      draw.ephemeralKey + rest.totalKey, output :: rest.outputs, coin :: rest.coins⟩

/-- The sum of the amounts of coins. -/
def totalAmount (coins : List (Coin P × P.Scalar)) : CAmount := accumulate (·.1.amount) 0 coins

/-- Build a transaction, and the coins of its outputs.  The kernel offset and the stealth blind are
random; amounts that do not add up, a failed assertion and an exception are `none`.  Callers always
give a fee. -/
def buildTx (coins : List (Coin P × P.Scalar)) (recipients : List (Recipient P × OutputDraw P))
    (amounts : KernelAmounts P) (kernelOffset stealthBlind : P.Scalar) :
    Option (Transaction P × List (Coin P)) := do
  let pegoutTotal := accumulate PegOutCoin.amount 0 amounts.pegouts
  let recipientTotal := accumulate (·.1.amount) 0 recipients
  if totalAmount coins + amounts.pegin.getD 0 ≠
      pegoutTotal + recipientTotal + amounts.fee.getD 0 then none
  else
    let inputs ← createInputs coins
    let outputs ← createOutputs recipients
    -- the difference of the blinding factors is split between kernel and offset
    let kernelBlind := outputs.totalBlind - inputs.totalBlind - kernelOffset
    let kernel ← Kernel.create kernelBlind (some stealthBlind) amounts none
    let stealthOffset := outputs.totalKey + inputs.totalKey - stealthBlind
    some (Transaction.create kernelOffset stealthOffset inputs.inputs outputs.outputs [kernel]
      (List.cons_ne_nil _ _), outputs.coins)

/-! ### What the parts add up to -/

omit [MwCrypto P] [WalletCrypto P] in
/-- The commitment to a non-negative amount, in the group. -/
lemma commitBlinded_toUInt64 {amount : CAmount} (h : 0 ≤ amount.toInt) (blind : P.Scalar) :
    commitBlinded blind amount.toUInt64.toNat = amount.toInt • P.genH + blind • P.genG := by
  rw [commitBlinded, toNat_toUInt64_of_nonneg h]

/-- The keys of a signed input are the public keys of the two secrets. -/
lemma createInput_spec {coin : Coin P} {ephemeralKey blind spendKey : P.Scalar} {input : Input P}
    (h : createInput coin ephemeralKey = some (blind, spendKey, input)) :
    (input.commitment = commitBlinded blind coin.amount.toUInt64.toNat ∧ input.commitment ≠ 0) ∧
      (input.inputPubKey = some (ephemeralKey • P.genG) ∧ ephemeralKey • P.genG ≠ 0) ∧
      input.outputPubKey = spendKey • P.genG ∧ input.outputPubKey ≠ 0 := by
  unfold createInput at h
  obtain ⟨rawBlind, -, h⟩ := bind_eq_some_iff.mp h
  obtain ⟨spend, -, h⟩ := bind_eq_some_iff.mp h
  obtain ⟨commitment, hcommitment, h⟩ := bind_eq_some_iff.mp h
  obtain ⟨created, hcreated, h⟩ := bind_eq_some_iff.mp h
  obtain ⟨rfl, hrest⟩ := Prod.mk.inj (some.inj h)
  obtain ⟨rfl, rfl⟩ := Prod.mk.inj hrest
  unfold Input.create at hcreated
  obtain ⟨inputPubKey, hinput, hcreated⟩ := bind_eq_some_iff.mp hcreated
  obtain ⟨outputPubKey, houtput, hcreated⟩ := bind_eq_some_iff.mp hcreated
  obtain ⟨sigKey, -, hcreated⟩ := bind_eq_some_iff.mp hcreated
  obtain rfl := some.inj hcreated
  obtain ⟨hcommitmentne, rfl⟩ := commit_eq_some.mp hcommitment
  obtain ⟨hinputne, rfl⟩ := multiplyKey_eq_some.mp hinput
  obtain ⟨houtputne, rfl⟩ := multiplyKey_eq_some.mp houtput
  exact ⟨⟨rfl, hcommitmentne⟩, ⟨rfl, hinputne⟩, rfl, houtputne⟩

/-- Signed inputs commit to the amounts of the coins and carry the ephemeral keys; what is left
of these without the spent keys is the total key. -/
structure Inputs.Signs (ins : Inputs P) (coins : List (Coin P × P.Scalar)) : Prop where
  commits : (ins.inputs.map Input.commitment).sum =
    intSum (·.1.amount) coins • P.genH + ins.totalBlind • P.genG
  inputKeys : (ins.inputs.filterMap Input.inputPubKey).sum = (coins.map Prod.snd).sum • P.genG
  outputKeys : (coins.map Prod.snd).sum • P.genG =
    (ins.inputs.map Input.outputPubKey).sum + ins.totalKey • P.genG
  empty : ins.inputs = [] → ins.totalBlind = 0
  commits_ne : ∀ c ∈ ins.inputs.map Input.commitment, c ≠ 0
  inputKeys_ne : ∀ key ∈ ins.inputs.filterMap Input.inputPubKey, key ≠ 0
  outputKeys_ne : ∀ key ∈ ins.inputs.map Input.outputPubKey, key ≠ 0

lemma createInputs_spec {coins : List (Coin P × P.Scalar)} {ins : Inputs P}
    (h : createInputs coins = some ins) (hamounts : ∀ c ∈ coins, 0 ≤ c.1.amount.toInt) :
    ins.Signs coins := by
  induction coins generalizing ins with
  | nil =>
    obtain rfl := some.inj h
    exact ⟨by simp, by simp, by simp, fun _ => rfl, by simp, by simp, by simp⟩
  | cons c coins ih =>
    obtain ⟨coin, ephemeralKey⟩ := c
    obtain ⟨hamount, hamounts⟩ := forall_mem_cons.mp hamounts
    obtain ⟨⟨blind, spendKey, input⟩, hinput, h⟩ := bind_eq_some_iff.mp h
    obtain ⟨rest, hrest, h⟩ := bind_eq_some_iff.mp h
    obtain rfl := some.inj h
    obtain ⟨⟨hcommit, hcommitne⟩, ⟨hkey, hkeyne⟩, hspent, hspentne⟩ := createInput_spec hinput
    rw [commitBlinded_toUInt64 hamount] at hcommit
    have hcoins := ih hrest hamounts
    constructor
    · simp only [map_cons, sum_cons, intSum_cons, add_smul, hcommit, hcoins.commits]
      abel
    · simp only [filterMap_cons_some hkey, sum_cons, hcoins.inputKeys, map_cons, add_smul]
    · simp only [map_cons, sum_cons, add_smul, sub_smul, hcoins.outputKeys, hspent]
      abel
    · exact fun hnil => absurd hnil (cons_ne_nil _ _)
    · exact forall_mem_cons.mpr ⟨hcommitne, hcoins.commits_ne⟩
    · rw [filterMap_cons_some hkey]
      exact forall_mem_cons.mpr ⟨hkeyne, hcoins.inputKeys_ne⟩
    · exact forall_mem_cons.mpr ⟨hspentne, hcoins.outputKeys_ne⟩

/-- Outputs commit to the amounts of the recipients and carry the ephemeral keys. -/
structure Outputs.Pays (outs : Outputs P) (recipients : List (Recipient P × OutputDraw P)) :
    Prop where
  commits : (outs.outputs.map Output.commitment).sum =
    intSum (·.1.amount) recipients • P.genH + outs.totalBlind • P.genG
  senderKeys : (outs.outputs.map Output.senderPubKey).sum = outs.totalKey • P.genG
  totalKey : outs.totalKey = (recipients.map (·.2.ephemeralKey)).sum
  empty : outs.outputs = [] → outs.totalBlind = 0
  commits_ne : ∀ c ∈ outs.outputs.map Output.commitment, c ≠ 0
  senderKeys_ne : ∀ key ∈ outs.outputs.map Output.senderPubKey, key ≠ 0

lemma createOutputs_spec {recipients : List (Recipient P × OutputDraw P)} {outs : Outputs P}
    (h : createOutputs recipients = some outs)
    (hamounts : ∀ r ∈ recipients, 0 ≤ r.1.amount.toInt) : outs.Pays recipients := by
  induction recipients generalizing outs with
  | nil =>
    obtain rfl := some.inj h
    exact ⟨by simp, by simp, by simp, fun _ => rfl, by simp, by simp⟩
  | cons r recipients ih =>
    obtain ⟨recipient, draw⟩ := r
    obtain ⟨hamount, hamounts⟩ := forall_mem_cons.mp hamounts
    obtain ⟨⟨rawBlind, output⟩, houtput, h⟩ := bind_eq_some_iff.mp h
    obtain ⟨rest, hrest, h⟩ := bind_eq_some_iff.mp h
    obtain rfl := some.inj h
    obtain ⟨s, sA, Ke, hpays, rfl⟩ := Output.create_spec houtput
    obtain ⟨hcommitne, hcommit⟩ := commit_eq_some.mp hpays.commitment
    obtain ⟨hsenderne, hsender⟩ := multiplyKey_eq_some.mp hpays.senderPubKey
    rw [hcommit] at hcommitne
    rw [hsender] at hsenderne
    rw [commitBlinded_toUInt64 hamount] at hcommit
    have hrecipients := ih hrest hamounts
    constructor
    · simp only [map_cons, sum_cons, intSum_cons, add_smul, ← hcommit,
        hrecipients.commits, OutputMask.fromShared]
      abel
    · simp only [map_cons, sum_cons, add_smul, ← hsender, hrecipients.senderKeys]
    · simp only [map_cons, sum_cons, hrecipients.totalKey]
    · exact fun hnil => absurd hnil (cons_ne_nil _ _)
    · exact forall_mem_cons.mpr ⟨hcommitne, hrecipients.commits_ne⟩
    · exact forall_mem_cons.mpr ⟨hsenderne, hrecipients.senderKeys_ne⟩

/-- The excesses of a kernel are the public keys of its two blinds. -/
lemma kernelCreate_spec {blind stealthBlind : P.Scalar} {amounts : KernelAmounts P}
    {kernel : Kernel P} (h : Kernel.create blind (some stealthBlind) amounts none = some kernel) :
    (kernel.excess = blind • P.genG ∧ kernel.excess ≠ 0) ∧
      (kernel.stealthExcess = some (stealthBlind • P.genG) ∧ stealthBlind • P.genG ≠ 0) ∧
      kernel.getSupplyChange = amounts.pegin.getD 0 - amounts.fee.getD 0 -
        accumulate PegOutCoin.amount 0 amounts.pegouts := by
  unfold Kernel.create at h
  obtain ⟨excess, hexcess, h⟩ := bind_eq_some_iff.mp h
  obtain ⟨point, hpoint, h⟩ := bind_eq_some_iff.mp h
  obtain ⟨sigKey, -, h⟩ := bind_eq_some_iff.mp h
  obtain rfl := some.inj h
  obtain ⟨hexcessne, rfl⟩ := commit_eq_some.mp hexcess
  obtain ⟨hpointne, rfl⟩ := multiplyKey_eq_some.mp hpoint
  refine ⟨⟨?_, hexcessne⟩, ⟨rfl, hpointne⟩, rfl⟩
  simp [commitBlinded]

omit [MwCrypto P] [WalletCrypto P] in
/-- The amounts that were compared in 64 bits: the supply change of the kernel is what the
recipients get beyond the value of the coins. -/
lemma toInt_supplyChange {α β : Type} {coins : List α} {recipients : List β}
    {value : α → CAmount} {pay : β → CAmount} {pegin fee pegouts : CAmount}
    (h : accumulate value 0 coins + pegin = pegouts + accumulate pay 0 recipients + fee)
    (hcoins : ∀ c ∈ coins, 0 ≤ (value c).toInt) (hcoinsTotal : intSum value coins < 2 ^ 63)
    (hrecipients : ∀ r ∈ recipients, 0 ≤ (pay r).toInt)
    (hrecipientsTotal : intSum pay recipients < 2 ^ 63) :
    (pegin - fee - pegouts).toInt = intSum pay recipients - intSum value coins := by
  have hcoinsNonneg := intSum_nonneg hcoins
  have hrecipientsNonneg := intSum_nonneg hrecipients
  have hvalue : (accumulate value 0 coins).toInt = intSum value coins := by
    apply toInt_accumulate_of_fits
    unfold FitsInt64
    omega
  have hpay : (accumulate pay 0 recipients).toInt = intSum pay recipients := by
    apply toInt_accumulate_of_fits
    unfold FitsInt64
    omega
  have hdifference :
      pegin - fee - pegouts = accumulate pay 0 recipients - accumulate value 0 coins := by
    grind
  rw [hdifference, toInt_sub_of_fits, hvalue, hpay]
  rw [hvalue, hpay]
  unfold FitsInt64
  omega

/-! ### Both sums balance -/

section Built

variable {coins : List (Coin P × P.Scalar)} {recipients : List (Recipient P × OutputDraw P)}
  {amounts : KernelAmounts P} {kernelOffset stealthBlind : P.Scalar} {tx : Transaction P}
  {outputCoins : List (Coin P)}

/-- What `buildTx` puts together. -/
structure Built (coins : List (Coin P × P.Scalar)) (recipients : List (Recipient P × OutputDraw P))
    (ins : Inputs P) (outs : Outputs P) (stealthBlind : P.Scalar) (kernel : Kernel P)
    (tx : Transaction P) : Prop where
  signs : ins.Signs coins
  pays : outs.Pays recipients
  sameParts : tx.body.SameParts ⟨ins.inputs, outs.outputs, [kernel]⟩
  excess : kernel.excess =
    (outs.totalBlind - ins.totalBlind - tx.kernelOffset) • P.genG ∧ kernel.excess ≠ 0
  stealthExcess :
    kernel.stealthExcess = some (stealthBlind • P.genG) ∧ stealthBlind • P.genG ≠ 0
  stealthOffset : tx.stealthOffset = outs.totalKey + ins.totalKey - stealthBlind
  supply : kernel.getSupplyChange.toInt =
    intSum (·.1.amount) recipients - intSum (·.1.amount) coins

lemma built_of_buildTx (hcoins : ∀ c ∈ coins, 0 ≤ c.1.amount.toInt)
    (hcoinsTotal : intSum (·.1.amount) coins < 2 ^ 63)
    (hrecipients : ∀ r ∈ recipients, 0 ≤ r.1.amount.toInt)
    (hrecipientsTotal : intSum (·.1.amount) recipients < 2 ^ 63)
    (h : buildTx coins recipients amounts kernelOffset stealthBlind = some (tx, outputCoins)) :
    ∃ ins outs kernel, createInputs coins = some ins ∧ createOutputs recipients = some outs ∧
      Built coins recipients ins outs stealthBlind kernel tx := by
  unfold buildTx at h
  dsimp only at h
  split at h
  case isTrue => cases h
  case isFalse hamounts =>
    obtain ⟨ins, hins, h⟩ := bind_eq_some_iff.mp h
    obtain ⟨outs, houts, h⟩ := bind_eq_some_iff.mp h
    obtain ⟨kernel, hkernel, h⟩ := bind_eq_some_iff.mp h
    obtain ⟨rfl, -⟩ := Prod.mk.inj (some.inj h)
    obtain ⟨hexcess, hstealth, hsupply⟩ := kernelCreate_spec hkernel
    refine ⟨ins, outs, kernel, hins, houts, createInputs_spec hins hcoins,
      createOutputs_spec houts hrecipients, ?_, hexcess, hstealth, rfl, ?_⟩
    · exact ⟨perm_sortBy _ _, perm_sortBy _ _, perm_sortBy _ _⟩
    · rw [hsupply]
      exact toInt_supplyChange (not_not.mp hamounts) hcoins hcoinsTotal hrecipients
        hrecipientsTotal

variable {ins : Inputs P} {outs : Outputs P} {kernel : Kernel P}

section

variable (h : Built coins recipients ins outs stealthBlind kernel tx)

include h

omit [MwCrypto P] [WalletCrypto P] in
/-- The kernel sums: what the coins do not cover is the supply change, and the blinding factors
are those of kernel and offset. -/
lemma Built.commits_balance :
    (outs.outputs.map Output.commitment).sum - (ins.inputs.map Input.commitment).sum -
        kernel.getSupplyChange.toInt • P.genH =
      kernel.excess + tx.kernelOffset • P.genG := by
  rw [h.pays.commits, h.signs.commits, h.supply, h.excess.1]
  simp only [sub_smul]
  abel

omit [MwCrypto P] [WalletCrypto P] in
/-- The stealth sums: the ephemeral keys are the spent keys, the stealth excess and the offset. -/
lemma Built.keys_balance :
    (outs.outputs.map Output.senderPubKey).sum + (ins.inputs.filterMap Input.inputPubKey).sum =
      stealthBlind • P.genG + (ins.inputs.map Input.outputPubKey).sum +
        tx.stealthOffset • P.genG := by
  rw [h.pays.senderKeys, h.signs.inputKeys, h.signs.outputKeys, h.stealthOffset]
  simp only [sub_smul, add_smul]
  abel

omit [MwCrypto P] [WalletCrypto P] in
/-- Kernel excess and offset together are the difference of the blinding factors. -/
lemma Built.excess_add_offset :
    kernel.excess + tx.kernelOffset • P.genG =
      outs.totalBlind • P.genG - ins.totalBlind • P.genG := by
  rw [h.excess.1]
  simp only [sub_smul]
  abel

omit [MwCrypto P] [WalletCrypto P] in
/-- The kernel sums can be formed unless the blinding factors or the commitments cancel. -/
lemma Built.representable_iff :
    Representable (ins.inputs.map Input.commitment) (outs.outputs.map Output.commitment)
        [kernel.excess] tx.kernelOffset kernel.getSupplyChange ↔
      outs.totalBlind • P.genG ≠ ins.totalBlind • P.genG ∧
        (outs.outputs.map Output.commitment).sum ≠ (ins.inputs.map Input.commitment).sum := by
  have hoffset := h.excess_add_offset
  have hbalance := h.commits_balance
  rw [hoffset] at hbalance
  constructor
  · intro hrep
    have hblinds : outs.totalBlind • P.genG ≠ ins.totalBlind • P.genG := by
      intro heq
      apply h.excess.2
      have htotal := hrep.total
      rw [sum_singleton] at htotal
      apply htotal
      rw [hoffset, heq, sub_self]
    refine ⟨hblinds, fun hsum => hblinds ?_⟩
    -- equal sums are only formed of no commitments at all, which leaves no blinding factors
    have hzero := hrep.utxos hsum
    have houtputs : outs.outputs = [] := by
      apply map_eq_nil_iff.mp
      apply eq_nil_iff_forall_not_mem.mpr
      intro c hc
      exact h.pays.commits_ne c hc (hzero c (mem_append_left _ hc))
    have hinputs : ins.inputs = [] := by
      apply map_eq_nil_iff.mp
      apply eq_nil_iff_forall_not_mem.mpr
      intro c hc
      exact h.signs.commits_ne c hc (hzero c (mem_append_right _ hc))
    rw [h.pays.empty houtputs, h.signs.empty hinputs]
  · rintro ⟨hblinds, hsums⟩
    refine ⟨fun hsum => absurd hsum hsums, fun hsupply => ?_, fun hsum => ?_, fun htotal => ?_⟩
    · rw [hsupply, sub_self] at hbalance
      exact absurd (sub_eq_zero.mp hbalance.symm) hblinds
    · simpa using hsum
    · rw [sum_singleton, hoffset] at htotal
      exact absurd (sub_eq_zero.mp htotal) hblinds

omit [MwCrypto P] [WalletCrypto P] in
lemma Built.validateForTx_iff :
    validateForTx tx = .ok () ↔
      outs.totalBlind • P.genG ≠ ins.totalBlind • P.genG ∧
        (outs.outputs.map Output.commitment).sum ≠ (ins.inputs.map Input.commitment).sum := by
  have hsupply : getSupplyChange ⟨ins.inputs, outs.outputs, [kernel]⟩ =
      kernel.getSupplyChange := Int64.zero_add _
  rw [validateForTx, h.sameParts.validateSums_eq, validateSums_eq_ok_iff, hsupply,
    ← h.representable_iff]
  apply and_iff_left
  simpa [getKernelCommits, getOutputCommits, getInputCommits]
    using h.commits_balance

omit [MwCrypto P] [WalletCrypto P] in
lemma Built.stealthSumValidate_iff :
    stealthSumValidate tx.stealthOffset tx.body = .ok () ↔
      ((coins.map Prod.snd).sum + (recipients.map (·.2.ephemeralKey)).sum) • P.genG ≠ 0 ∧
        (tx.stealthOffset • P.genG = 0 → tx.stealthOffset = 0) := by
  let body : TxBody P := ⟨ins.inputs, outs.outputs, [kernel]⟩
  have hsender : body.senderKeys.sum =
      ((coins.map Prod.snd).sum + (recipients.map (·.2.ephemeralKey)).sum) • P.genG := by
    rw [senderKeys, sum_append, h.pays.senderKeys, h.signs.inputKeys,
      h.pays.totalKey, ← add_smul, add_comm]
  have hreceiver : body.receiverKeys 0 =
      stealthBlind • P.genG :: ins.inputs.map Input.outputPubKey := by
    simp [body, receiverKeys, getStealthExcesses, h.stealthExcess.1]
  have hbalance : body.senderKeys.sum = (body.receiverKeys tx.stealthOffset).sum := by
    rw [sum_receiverKeys, hreceiver, senderKeys, sum_append, sum_cons]
    exact h.keys_balance
  have hexcess : stealthBlind • P.genG ∈ body.receiverKeys tx.stealthOffset := by
    rw [mem_receiverKeys, hreceiver]
    exact Or.inl mem_cons_self
  rw [h.sameParts.stealthSumValidate_eq, stealthSumValidate_eq_ok_iff, ← hsender]
  constructor
  · rintro ⟨-, ⟨hkeys, hsum⟩, -⟩
    constructor
    · intro hzero
      rw [hsum (hbalance ▸ hzero)] at hexcess
      cases hexcess
    · intro hzero
      by_contra hne
      exact hkeys _ (mem_receiverKeys.mpr (Or.inr ⟨hne, rfl⟩)) hzero
  · rintro ⟨hsum, hoffset⟩
    refine ⟨⟨?_, fun hzero => absurd hzero hsum⟩,
      ⟨?_, fun hzero => absurd (hbalance.trans hzero) hsum⟩, hbalance⟩
    · intro key hkey
      rcases mem_append.mp hkey with hkey | hkey
      · exact h.pays.senderKeys_ne key hkey
      · exact h.signs.inputKeys_ne key hkey
    · intro key hkey
      rcases mem_receiverKeys.mp hkey with hkey | ⟨hne, rfl⟩
      · rw [hreceiver] at hkey
        rcases mem_cons.mp hkey with rfl | hkey
        · exact h.stealthExcess.2
        · exact h.signs.outputKeys_ne key hkey
      · exact mt hoffset hne

end

/-- A transaction that the wallet builds balances, for every choice of the random keys: what the
outputs commit to beyond the inputs is the supply change, and the ephemeral keys are the keys of
the receivers.  It passes the two validators unless a sum they form is the point at infinity: the
total blinding factors of outputs and inputs must not be the same, nor the sums of their
commitments, and the ephemeral keys must not cancel. -/
theorem buildTx_balances (hcoins : ∀ c ∈ coins, 0 ≤ c.1.amount.toInt)
    (hcoinsTotal : intSum (·.1.amount) coins < 2 ^ 63)
    (hrecipients : ∀ r ∈ recipients, 0 ≤ r.1.amount.toInt)
    (hrecipientsTotal : intSum (·.1.amount) recipients < 2 ^ 63)
    (h : buildTx coins recipients amounts kernelOffset stealthBlind = some (tx, outputCoins)) :
    ∃ ins outs, createInputs coins = some ins ∧ createOutputs recipients = some outs ∧
      tx.body.getOutputCommits.sum - tx.body.getInputCommits.sum -
          tx.body.getSupplyChange.toInt • P.genH =
        tx.body.getKernelCommits.sum + tx.kernelOffset • P.genG ∧
      tx.body.senderKeys.sum = (tx.body.receiverKeys tx.stealthOffset).sum ∧
      (validateForTx tx = .ok () ↔
        outs.totalBlind • P.genG ≠ ins.totalBlind • P.genG ∧
          tx.body.getOutputCommits.sum ≠ tx.body.getInputCommits.sum) ∧
      (stealthSumValidate tx.stealthOffset tx.body = .ok () ↔
        ((coins.map Prod.snd).sum + (recipients.map (·.2.ephemeralKey)).sum) • P.genG ≠ 0 ∧
          (tx.stealthOffset • P.genG = 0 → tx.stealthOffset = 0)) := by
  obtain ⟨ins, outs, kernel, hins, houts, hbuilt⟩ :=
    built_of_buildTx hcoins hcoinsTotal hrecipients hrecipientsTotal h
  have houtputs : tx.body.getOutputCommits.sum = (outs.outputs.map Output.commitment).sum :=
    (hbuilt.sameParts.outputs.map Output.commitment).sum_eq
  have hinputs : tx.body.getInputCommits.sum = (ins.inputs.map Input.commitment).sum :=
    (hbuilt.sameParts.inputs.map Input.commitment).sum_eq
  have hkernels : tx.body.kernels = [kernel] := List.perm_singleton.mp hbuilt.sameParts.kernels
  have hsupply : tx.body.getSupplyChange = kernel.getSupplyChange := by
    rw [TxBody.getSupplyChange, hkernels]
    exact Int64.zero_add _
  have hsender : tx.body.senderKeys.sum = (outs.outputs.map Output.senderPubKey).sum +
      (ins.inputs.filterMap Input.inputPubKey).sum := by
    rw [TxBody.senderKeys, List.sum_append,
      (hbuilt.sameParts.outputs.map Output.senderPubKey).sum_eq,
      (hbuilt.sameParts.inputs.filterMap Input.inputPubKey).sum_eq]
  have hreceiver : (tx.body.receiverKeys 0).sum =
      stealthBlind • P.genG + (ins.inputs.map Input.outputPubKey).sum := by
    simp [TxBody.receiverKeys, TxBody.getStealthExcesses, hkernels, hbuilt.stealthExcess.1,
      (hbuilt.sameParts.inputs.map Input.outputPubKey).sum_eq]
  refine ⟨ins, outs, hins, houts, ?_, ?_, ?_, hbuilt.stealthSumValidate_iff⟩
  · rw [houtputs, hinputs, hsupply, hbuilt.commits_balance, TxBody.getKernelCommits, hkernels,
      List.map_singleton, List.sum_singleton]
  · rw [hsender, TxBody.sum_receiverKeys, hreceiver, hbuilt.keys_balance]
  · rw [houtputs, hinputs]
    exact hbuilt.validateForTx_iff

end Built

end TxBuilder

end Mw

namespace Symbolic

open Mw TxBuilder

lemma nonneg_five : 0 ≤ (some 5 : Option CAmount).getD 0 := by decide

/-- A peg-in that is all fee. -/
def feeOnly : KernelAmounts mod7 := ⟨some 5, some 5, [], nonneg_five, nonneg_five, by simp⟩

/-- The transaction that pegs in only its fee is built, but has no inputs and outputs whose
blinding factors or keys could balance the kernel: both validators refuse it. -/
theorem buildTx_feeOnly_refused :
    ∃ tx outputCoins, buildTx [] [] feeOnly 1 2 = some (tx, outputCoins) ∧
      validateForTx tx ≠ .ok () ∧ stealthSumValidate tx.stealthOffset tx.body ≠ .ok () :=
  ⟨_, _, rfl, by decide, by decide⟩

/-- A fee of one. -/
def feeOne : KernelAmounts mod7 := ⟨some 1, none, [], nonneg_one, nonneg_none, by simp⟩

/-- A payment of ten with a fee of one balances. -/
theorem buildTx_balances_elevenCoin :
    ∃ tx outputCoins,
      buildTx [(elevenCoin, 1)] [(⟨10, ⟨(0, 3), (0, 5)⟩⟩, ⟨4, (1, 1)⟩)] feeOne 1 3 =
          some (tx, outputCoins) ∧
        tx.body.senderKeys.sum = (tx.body.receiverKeys tx.stealthOffset).sum := by
  obtain ⟨⟨tx, outputCoins⟩, h⟩ := Option.isSome_iff_exists.mp
    (by decide : (buildTx [(elevenCoin, 1)] [(⟨10, ⟨(0, 3), (0, 5)⟩⟩, ⟨4, (1, 1)⟩)] feeOne 1
      3).isSome = true)
  obtain ⟨ins, outs, -, -, -, hkeys, -⟩ :=
    buildTx_balances (by decide) (by decide) (by decide) (by decide) h
  exact ⟨tx, outputCoins, h, hkeys⟩

end Symbolic

end Aegisum
