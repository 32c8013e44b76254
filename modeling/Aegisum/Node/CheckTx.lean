import Aegisum.Node.MwebNode

/-!
# Checks of a transaction

`CheckTransaction`, `MWEB::Node::CheckTransaction` and `Consensus::CheckTxInputs`.  The first and
the last run on every transaction of a block as well as on loose ones; the second only runs on
loose transactions, since a transaction in a block has no MWEB data.
-/

namespace Aegisum

variable {P : Primitives}

/-! ### Coins -/

/-- An unspent canonical output with the facts the maturity rules need. -/
structure Coin (P : Primitives) where
  out : CTxOut P
  nHeight : ℤ
  fCoinBase : Bool
  fPegout : Bool
deriving DecidableEq

/-- What the checks of a transaction ask a view for. -/
structure CCoinsView (P : Primitives) where
  /-- The unspent coin at an outpoint. -/
  getCoin : COutPoint P → Option (Coin P)
  /-- The unspent MWEB output with an id. -/
  getMWEBCoin : P.Hash → Option (Mw.Output P)

/-- Confirmations a coinbase output needs before it can be spent. -/
def coinbaseMaturity : ℤ := 20

/-- Confirmations a peg-out needs before it can be spent. -/
def pegoutMaturity : ℤ := 6

/-- The coin may be spent in a block of the given height. -/
structure Coin.Mature (coin : Coin P) (nSpendHeight : ℤ) : Prop where
  coinbase : coin.fCoinBase = true → coinbaseMaturity ≤ nSpendHeight - coin.nHeight
  pegout : coin.fPegout = true → pegoutMaturity ≤ nSpendHeight - coin.nHeight

/-! ### Sizes -/

/-- Bytes of a compact size. -/
def compactSizeLength (n : ℕ) : ℕ :=
  if n < 253 then 1 else if n ≤ 0xffff then 3 else if n ≤ 0xffffffff then 5 else 9

/-- The serialized size of a transaction without witnesses and MWEB data. -/
def CTransaction.strippedSize (tx : CTransaction P) : ℕ :=
  4 + (compactSizeLength tx.vin.length +
      (tx.vin.map fun txin =>
        36 + (compactSizeLength txin.scriptSig.length + txin.scriptSig.length) + 4).sum) +
    (compactSizeLength tx.vout.length +
      (tx.vout.map fun out =>
        8 + (compactSizeLength out.scriptPubKey.size + out.scriptPubKey.size)).sum) + 4

/-- How often a byte outside of witnesses counts in a weight. -/
def witnessScaleFactor : ℕ := 4

/-- The largest weight of a block. -/
def maxBlockWeight : ℕ := 4000000

/-! ### Checks without context -/

/-- One step of adding up the outputs. -/
def addOutputValue (nValueOut : CAmount) (out : CTxOut P) : Except TxFailure CAmount := do
  rejectIf (out.nValue < 0) (.invalid .txConsensus "bad-txns-vout-negative")
  rejectIf (out.nValue > maxMoney) (.invalid .txConsensus "bad-txns-vout-toolarge")
  rejectIf (¬ MoneyRange (nValueOut + out.nValue))
    (.invalid .txConsensus "bad-txns-txouttotal-toolarge")
  pure (nValueOut + out.nValue)

/-- The rule on input references: a coinbase has a script of bounded size, any other
transaction names no null reference. -/
def checkPrevouts (tx : CTransaction P) : Except TxFailure Unit :=
  if tx.isCoinBase then
    rejectIf (tx.vin.any fun txin => txin.scriptSig.length < 2 || 100 < txin.scriptSig.length)
      (.invalid .txConsensus "bad-cb-length")
  else
    rejectIf (tx.vin.any fun txin => txin.prevout.isNull)
      (.invalid .txConsensus "bad-txns-prevout-null")

/-- The checks of a transaction that need no context. -/
def checkTransaction (tx : CTransaction P) : Except TxFailure Unit := do
  rejectIf (!tx.isMWEBOnly && tx.vin.isEmpty) (.invalid .txConsensus "bad-txns-vin-empty")
  rejectIf (!tx.isMWEBOnly && tx.vout.isEmpty) (.invalid .txConsensus "bad-txns-vout-empty")
  rejectIf (tx.strippedSize * witnessScaleFactor > maxBlockWeight)
    (.invalid .txConsensus "bad-txns-oversize")
  let _ ← tx.vout.foldlM addOutputValue 0
  rejectIf (¬ (tx.vin.map CTxIn.prevout).Nodup) (.invalid .txConsensus "bad-txns-inputs-duplicate")
  checkPrevouts tx

/-- What `CheckTransaction` establishes. -/
structure CheckedTx (tx : CTransaction P) : Prop where
  vin_ne_nil : tx.isMWEBOnly = false → tx.vin ≠ []
  vout_ne_nil : tx.isMWEBOnly = false → tx.vout ≠ []
  outputs_range : ∀ out ∈ tx.vout, MoneyRange out.nValue
  total_le : outputsValue tx.vout ≤ maxMoney.toInt
  prevouts_nodup : (tx.vin.map CTxIn.prevout).Nodup
  prevouts_ne_null : tx.isCoinBase = false → ∀ txin ∈ tx.vin, txin.prevout.isNull = false

private lemma addOutputValue_eq_ok {s s' : CAmount} {out : CTxOut P}
    (h : addOutputValue s out = .ok s') :
    s' = s + out.nValue ∧ MoneyRange out.nValue ∧ MoneyRange s' := by
  obtain ⟨hneg, h⟩ := rejectIf_bind_eq_ok.mp h
  obtain ⟨hlarge, h⟩ := rejectIf_bind_eq_ok.mp h
  obtain ⟨hrange, h⟩ := rejectIf_bind_eq_ok.mp h
  obtain rfl := Except.ok.inj h
  exact ⟨rfl, ⟨Int64.not_lt.mp hneg, Int64.not_lt.mp hlarge⟩, not_not.mp hrange⟩

lemma checkedTx_of_checkTransaction {tx : CTransaction P} (h : checkTransaction tx = .ok ()) :
    CheckedTx tx := by
  obtain ⟨hvin, h⟩ := rejectIf_bind_eq_ok.mp h
  obtain ⟨hvout, h⟩ := rejectIf_bind_eq_ok.mp h
  replace h := of_rejectIf h
  obtain ⟨total, htotal, h⟩ := bind_eq_ok.mp h
  obtain ⟨hnodup, h⟩ := rejectIf_bind_eq_ok.mp h
  obtain ⟨hsum, hrange, hall⟩ :=
    foldlM_moneyRange (g := CTxOut.nValue) (fun _ _ _ => addOutputValue_eq_ok) moneyRange_zero
      htotal
  refine ⟨fun hm => ?_, fun hm => ?_, hall, ?_, not_not.mp hnodup, fun hcb txin hmem => ?_⟩
  · simpa [hm] using hvin
  · simpa [hm] using hvout
  · have := hrange.le
    rw [hsum] at this
    simpa [outputsValue] using this
  · rw [checkPrevouts, hcb] at h
    have := rejectIf_eq_ok.mp h
    simp only [List.any_eq_true, not_exists, not_and] at this
    simpa using this txin hmem

/-- The outputs of a checked transaction have non-negative values. -/
lemma CheckedTx.outputs_nonneg {tx : CTransaction P} (h : CheckedTx tx) :
    ∀ out ∈ tx.vout, 0 ≤ out.nValue.toInt :=
  fun out hout => (h.outputs_range out hout).nonneg

/-! ### Checks against a view -/

namespace CCoinsView

/-- All inputs of the transaction, canonical and MWEB, are unspent. -/
def haveInputs (inputs : CCoinsView P) (tx : CTransaction P) : Bool :=
  tx.isCoinBase ||
    (tx.vin.all (fun txin => (inputs.getCoin txin.prevout).isSome) &&
      (tx.mwebTx.elim [] (·.body.getSpentIDs)).all fun id => (inputs.getMWEBCoin id).isSome)

/-- One step of adding up the inputs: the coin must be mature and the sum in range. -/
def addInputValue (inputs : CCoinsView P) (nSpendHeight : ℤ) (nValueIn : CAmount)
    (txin : CTxIn P) : Except TxFailure CAmount := do
  let coin ← orThrow (inputs.getCoin txin.prevout)
  rejectIf (coin.fCoinBase ∧ nSpendHeight - coin.nHeight < coinbaseMaturity)
    (.invalid .txPrematureSpend "bad-txns-premature-spend-of-coinbase")
  rejectIf (coin.fPegout ∧ nSpendHeight - coin.nHeight < pegoutMaturity)
    (.invalid .txPrematureSpend "bad-txns-premature-spend-of-pegout")
  rejectIf (¬ MoneyRange coin.out.nValue ∨ ¬ MoneyRange (nValueIn + coin.out.nValue))
    (.invalid .txConsensus "bad-txns-inputvalues-outofrange")
  pure (nValueIn + coin.out.nValue)

/-- An MWEB input names an unspent output and repeats its receiver key and commitment. -/
def checkMwebInput (inputs : CCoinsView P) (input : Mw.Input P) : Except TxFailure Unit :=
  match inputs.getMWEBCoin input.outputID with
  | none => .error (.invalid .txConsensus "bad-txns-inputs-missing")
  | some utxo =>
    rejectIf (utxo.receiverPubKey ≠ input.outputPubKey ∨ utxo.commitment ≠ input.commitment)
      (.invalid .txConsensus "bad-txns-input-mismatch")

/-- The MWEB part of `CheckTxInputs`: the fee including the one of the MWEB transaction. -/
def checkMwebTx (inputs : CCoinsView P) (mwebTx : Option (Mw.Transaction P)) (txfee : CAmount) :
    Except TxFailure CAmount :=
  match mwebTx with
  | none => .ok txfee
  | some mwtx => do
    forM mwtx.body.inputs inputs.checkMwebInput
    rejectIf (¬ MoneyRange mwtx.body.getTotalFee ∨ ¬ MoneyRange (txfee + mwtx.body.getTotalFee))
      (.invalid .txConsensus "bad-txns-mwebfee-outofrange")
    pure (txfee + mwtx.body.getTotalFee)

/-- The inputs are available and mature and pay for the outputs; returns the fee. -/
def checkTxInputs (inputs : CCoinsView P) (tx : CTransaction P) (nSpendHeight : ℤ) :
    Except TxFailure CAmount := do
  rejectIf (!inputs.haveInputs tx)
    (.invalid .txMissingInputs "bad-txns-inputs-missingorspent")
  let nValueIn ← tx.vin.foldlM (inputs.addInputValue nSpendHeight) 0
  let valueOut ← orThrow tx.getValueOut
  rejectIf (nValueIn < valueOut) (.invalid .txConsensus "bad-txns-in-belowout")
  rejectIf (¬ MoneyRange (nValueIn - valueOut)) (.invalid .txConsensus "bad-txns-fee-outofrange")
  inputs.checkMwebTx tx.mwebTx (nValueIn - valueOut)

/-- What `CheckTxInputs` establishes for a transaction without MWEB data that spends `coins`. -/
structure InputsChecked (inputs : CCoinsView P) (tx : CTransaction P) (nSpendHeight : ℤ)
    (coins : List (Coin P)) (txfee : CAmount) : Prop where
  coins_eq : tx.vin.map (fun txin => inputs.getCoin txin.prevout) = coins.map some
  mature : ∀ coin ∈ coins, coin.Mature nSpendHeight
  range : ∀ coin ∈ coins, MoneyRange coin.out.nValue
  total_le : intSum (fun coin => coin.out.nValue) coins ≤ maxMoney.toInt
  fee_eq : txfee.toInt = intSum (fun coin => coin.out.nValue) coins - outputsValue tx.vout
  fee_range : MoneyRange txfee

variable {inputs : CCoinsView P} {nSpendHeight : ℤ}

private lemma addInputValue_eq_ok {v v' : CAmount} {txin : CTxIn P}
    (h : inputs.addInputValue nSpendHeight v txin = .ok v') :
    ∃ coin, inputs.getCoin txin.prevout = some coin ∧ coin.Mature nSpendHeight ∧
      MoneyRange coin.out.nValue ∧ v' = v + coin.out.nValue ∧ MoneyRange v' := by
  obtain ⟨coin, hcoin, h⟩ := bind_eq_ok.mp h
  obtain ⟨hcb, h⟩ := rejectIf_bind_eq_ok.mp h
  obtain ⟨hpo, h⟩ := rejectIf_bind_eq_ok.mp h
  obtain ⟨hrange, h⟩ := rejectIf_bind_eq_ok.mp h
  rw [not_or, not_not, not_not] at hrange
  obtain rfl := Except.ok.inj h
  refine ⟨coin, orThrow_eq_ok.mp hcoin, ⟨fun hc => ?_, fun hc => ?_⟩, hrange.1, rfl, hrange.2⟩
  · exact Int.not_lt.mp fun hlt => hcb ⟨hc, hlt⟩
  · exact Int.not_lt.mp fun hlt => hpo ⟨hc, hlt⟩

/-- The loop over the inputs adds up the values of mature coins without wrapping. -/
private lemma addInputValue_loop {ins : List (CTxIn P)} {v v' : CAmount} (hv : MoneyRange v)
    (h : ins.foldlM (inputs.addInputValue nSpendHeight) v = .ok v') :
    ∃ coins, ins.map (fun txin => inputs.getCoin txin.prevout) = coins.map some ∧
      (∀ coin ∈ coins, coin.Mature nSpendHeight) ∧ (∀ coin ∈ coins, MoneyRange coin.out.nValue) ∧
      v'.toInt = v.toInt + intSum (fun coin => coin.out.nValue) coins ∧ MoneyRange v' := by
  induction ins generalizing v with
  | nil =>
    obtain rfl := Except.ok.inj h
    exact ⟨[], by simp, by simp, by simp, by simp, hv⟩
  | cons txin ins ih =>
    obtain ⟨v₁, hstep, hrest⟩ := foldlM_cons_eq_ok.mp h
    obtain ⟨coin, hcoin, hmature, hrange, rfl, hv₁⟩ := addInputValue_eq_ok hstep
    obtain ⟨coins, hcoins, hmatures, hranges, htotal, hv'⟩ := ih hv₁ hrest
    refine ⟨coin :: coins, by simp [hcoin, hcoins], ?_, ?_, ?_, hv'⟩
    · exact List.forall_mem_cons.mpr ⟨hmature, hmatures⟩
    · exact List.forall_mem_cons.mpr ⟨hrange, hranges⟩
    · rw [htotal, hv.toInt_add hrange, intSum_cons, add_assoc]

lemma inputsChecked_of_checkTxInputs {tx : CTransaction P} {txfee : CAmount}
    (hmweb : tx.mwebTx = none) (h : inputs.checkTxInputs tx nSpendHeight = .ok txfee) :
    ∃ coins, inputs.InputsChecked tx nSpendHeight coins txfee := by
  replace h := of_rejectIf h
  obtain ⟨nValueIn, hin, h⟩ := bind_eq_ok.mp h
  obtain ⟨valueOut, hout, h⟩ := bind_eq_ok.mp h
  replace h := of_rejectIf h
  obtain ⟨hfee, h⟩ := rejectIf_bind_eq_ok.mp h
  rw [hmweb] at h
  obtain rfl := Except.ok.inj h
  obtain ⟨coins, hcoins, hmature, hrange, htotal, hinRange⟩ :=
    addInputValue_loop moneyRange_zero hin
  obtain ⟨hvalue, houtRange, -⟩ := getValueOut_eq_some (orThrow_eq_ok.mp hout)
  rw [Int64.toInt_zero, zero_add] at htotal
  refine ⟨coins, hcoins, hmature, hrange, ?_, ?_, not_not.mp hfee⟩
  · rw [← htotal, maxMoney_toInt]
    exact hinRange.le
  · rw [hinRange.toInt_sub houtRange, htotal, hvalue]

end CCoinsView

/-! ### MWEB checks of a loose transaction -/

namespace MwebNode

variable [NodeCrypto P]

/-- The peg-in outputs of a transaction with the kernel ids they name. -/
def txPegins (tx : CTransaction P) : List (Mw.PegInCoin P) :=
  tx.vout.filterMap fun out => out.scriptPubKey.isMWEBPegin.map fun id => ⟨out.nValue, id⟩

/-- The peg-in outputs match the kernels of the attached MWEB transaction, which is valid. -/
def checkTransaction (tx : CTransaction P) : Except TxFailure Unit := do
  rejectIf (¬ ((txPegins tx).map Mw.PegInCoin.kernelID).Nodup)
    (.invalid .txRecentConsensusChange "duplicate-tx-pegins")
  let peginCoins := tx.mwebTx.elim [] (·.body.getPegIns)
  rejectIf (peginCoins.length ≠ (txPegins tx).length)
    (.invalid .txWitnessMutated "pegin-count-mismatch")
  forM peginCoins fun pegin =>
    rejectIf (((txPegins tx).find? (·.kernelID = pegin.kernelID)).map Mw.PegInCoin.amount ≠
      some pegin.amount) (.invalid .txWitnessMutated "pegin-mismatch")
  rejectIf (tx.mwebTx.any fun mwtx => !mwtx.validate.isOk)
    (.invalid .txWitnessMutated "bad-mweb-txn")

/-- The peg-in outputs of a checked transaction are the peg-ins of its kernels. -/
lemma pegins_perm_of_checkTransaction {tx : CTransaction P} {mwtx : Mw.Transaction P}
    (hmweb : tx.mwebTx = some mwtx) (h : checkTransaction tx = .ok ()) :
    mwtx.body.Valid ∧ mwtx.body.getPegIns.Perm (txPegins tx) ∧ mwtx.body.getPegIns.Nodup := by
  obtain ⟨hnodup, h⟩ := rejectIf_bind_eq_ok.mp h
  obtain ⟨hlen, h⟩ := rejectIf_bind_eq_ok.mp h
  obtain ⟨_, hmatch, h⟩ := bind_eq_ok.mp h
  simp only [hmweb, Option.elim_some] at hlen hmatch
  have hvalid : mwtx.body.Valid := by
    have hok : mwtx.validate.isOk = true := by simpa [hmweb] using rejectIf_eq_ok.mp h
    obtain ⟨_, hvalidate⟩ := exists_eq_ok_of_isOk hok
    obtain ⟨_, hbody, -⟩ := bind_eq_ok.mp hvalidate
    exact Mw.TxBody.validate_eq_ok.mp hbody
  have hids : (mwtx.body.getPegIns.map Mw.PegInCoin.kernelID).Nodup :=
    hvalid.nodup_kernels.sublist (Mw.getPegIns_kernelIDs_sublist _)
  have hsub : mwtx.body.getPegIns ⊆ txPegins tx := by
    intro pegin hpegin
    have hfind := not_not.mp (rejectIf_eq_ok.mp (forM_eq_ok.mp hmatch pegin hpegin))
    obtain ⟨coin, hcoin, hamount⟩ := Option.map_eq_some_iff.mp hfind
    have hid : coin.kernelID = pegin.kernelID := by simpa using List.find?_some hcoin
    have : coin = pegin := by
      cases coin
      cases pegin
      simp_all
    exact this ▸ List.mem_of_find?_eq_some hcoin
  refine ⟨hvalid, ?_, hids.of_map _⟩
  exact (List.subperm_of_subset (hids.of_map _) hsub).perm_of_length_le (by omega)

end MwebNode

end Aegisum
