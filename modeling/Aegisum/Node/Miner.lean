import Aegisum.Model.Symbolic
import Aegisum.Mweb.Amounts
import Aegisum.Mweb.Build
import Aegisum.Node.CheckTx

/-!
# Assembling the MWEB part of a block

`MWEB::Miner` collects MWEB transactions from the mempool for a block template and builds the
HogEx that integrates them.  On the way it asserts that amounts are in the money range.  The
transactions it is given have passed the checks of the mempool, but these see the peg-outs of a
transaction only through a wrapping sum.
-/

namespace Aegisum

open List

variable {P : Primitives} [NodeCrypto P]

open Mw (PegInCoin PegOutCoin)

/-- How a miner function ends early. -/
inductive MinerExit
  /-- It returns `false`. -/
  | refused
  /-- An assertion fails and the process aborts. -/
  | assertionFailed
  /-- An exception is thrown. -/
  | exception
deriving DecidableEq

/-- The state of the miner. -/
structure Miner (P : Primitives) where
  builder : Mw.BlockBuilder P
  hogexInputs : List (COutPoint P)
  hogexOutputs : List (CTxOut P)
  mwebAmountChange : CAmount
  hogexFees : CAmount
  hogexSigops : ℤ

namespace Miner

/-- Start a new block. -/
def newBlock (view : Mw.CoinsView P) (height : ℤ) : Miner P where
  builder := ⟨height, view, [], [], 0⟩
  hogexInputs := []
  hogexOutputs := []
  mwebAmountChange := 0
  hogexFees := 0
  hogexSigops := 0

/-! ### Adding a transaction -/

/-- The peg-in outputs of the transaction are the peg-ins of its kernels: each is erased from
their set, and nothing remains. -/
def validatePegIns (tx : CTransaction P) (pegins : List (PegInCoin P)) : Bool :=
  match (MwebNode.txPegins tx).foldlM
    (fun (peginSet : List (PegInCoin P)) pegin =>
      if pegin ∈ peginSet then some (peginSet.erase pegin) else none) pegins.dedup with
  | some peginSet => peginSet.isEmpty
  | none => false

/-- One step of adding up the peg-in outputs. -/
def addPegin (peginAmount : CAmount) (out : CTxOut P) : Except MinerExit CAmount := do
  rejectIf (¬ MoneyRange out.nValue) .assertionFailed
  rejectIf (¬ MoneyRange (peginAmount + out.nValue)) .refused
  pure (peginAmount + out.nValue)

/-- One step of adding up the peg-outs. -/
def addPegout (pegoutAmount : CAmount) (pegout : PegOutCoin P) : Except MinerExit CAmount := do
  rejectIf (¬ MoneyRange pegout.amount) .assertionFailed
  rejectIf (¬ MoneyRange (pegoutAmount + pegout.amount)) .refused
  pure (pegoutAmount + pegout.amount)

/-- `BlockBuilder::AddTransaction`: a transaction that passes the tests is staged; inserting its
output ids must not meet one that is there already. -/
def stageTransaction (builder : Mw.BlockBuilder P) (mwtx : Mw.Transaction P)
    (pegins : List (PegInCoin P)) : Except MinerExit (Mw.BlockBuilder P) := do
  rejectIf (!builder.accepts mwtx pegins) .refused
  rejectIf (¬ mwtx.body.getOutputIDs.Nodup) .assertionFailed
  pure (builder.stage mwtx)

/-- Add the MWEB part of a mempool transaction. -/
def addMWEBTransaction (m : Miner P) (tx : CTransaction P) (mwtx : Mw.Transaction P)
    (sigOpCost : ℤ) : Except MinerExit (Miner P) := do
  rejectIf (!validatePegIns tx mwtx.body.getPegIns) .refused
  let peginAmount ← (tx.vout.filter CTxOut.isPegin).foldlM addPegin 0
  let pegoutAmount ← mwtx.body.getPegOuts.foldlM addPegout 0
  rejectIf (¬ MoneyRange mwtx.body.getTotalFee) .refused
  let builder ← stageTransaction m.builder mwtx mwtx.body.getPegIns
  pure
    { builder := builder
      hogexInputs := m.hogexInputs ++ tx.peginOutPoints
      hogexOutputs := m.hogexOutputs ++
        mwtx.body.getPegOuts.map fun pegout => ⟨pegout.amount, pegout.scriptPubKey⟩
      mwebAmountChange :=
        m.mwebAmountChange + (peginAmount - (pegoutAmount + mwtx.body.getTotalFee))
      hogexFees :=
        if tx.isMWEBOnly then m.hogexFees + mwtx.body.getTotalFee else m.hogexFees
      hogexSigops := if tx.isMWEBOnly then m.hogexSigops + sigOpCost else m.hogexSigops }

/-! ### The HogEx -/

/-- The HogEx output that the new one spends, with its reference. -/
def prevHogAddr (prevBlock : CBlock P) : Except MinerExit (Option (COutPoint P × CAmount)) :=
  match prevBlock.getHogEx with
  | none => .ok none
  | some hogex =>
    match hogex.vout with
    | [] => .error .assertionFailed
    | hogAddr :: _ => .ok (some (⟨hogex.getHash, 0⟩, hogAddr.nValue))

/-- The HogEx of the new block, and the extension block it integrates. -/
def addHogExTransaction (m : Miner P) (prevBlock : CBlock P) :
    Except MinerExit (CTransaction P × Mw.Block P) := do
  let prev ← prevHogAddr prevBlock
  match m.builder.buildBlock with
  | .error _ => .error .exception
  | .ok mwebBlock =>
    let nValue := (prev.map Prod.snd).getD 0 + m.mwebAmountChange
    rejectIf (¬ MoneyRange nValue) .assertionFailed
    pure
      ({ vin := ((prev.map Prod.fst).toList ++ m.hogexInputs).map fun prevout =>
           ⟨prevout, [], 0xffffffff, []⟩
         vout := ⟨nValue, .mwebHogAddr mwebBlock.header.getHash⟩ :: m.hogexOutputs
         nVersion := 2
         nLockTime := 0
         mwebTx := none
         hogEx := true
         hogEx_wf := by simp }, mwebBlock)

/-- Hand a transaction of the mempool, with its cost of signature operations, to the miner.
Only transactions with MWEB data concern it, and a refusal leaves it unchanged. -/
def handOver (m : Miner P) (entry : CTransaction P × ℤ) : Except MinerExit (Miner P) :=
  match entry.1.mwebTx with
  | none => .ok m
  | some mwtx =>
    match m.addMWEBTransaction entry.1 mwtx entry.2 with
    | .error .refused => .ok m
    | result => result

/-- Assemble the MWEB part of a block from mempool transactions in the given order. -/
def assemble (view : Mw.CoinsView P) (height : ℤ) (entries : List (CTransaction P × ℤ))
    (prevBlock : CBlock P) : Except MinerExit (CTransaction P × Mw.Block P) := do
  let m ← entries.foldlM handOver (newBlock view height)
  m.addHogExTransaction prevBlock

/-! ### Checked transactions -/

/-- The transaction has passed the checks of the mempool, against some view. -/
structure Accepted (tx : CTransaction P) : Prop where
  checkTransaction : checkTransaction tx = .ok ()
  mwebCheckTransaction : MwebNode.checkTransaction tx = .ok ()
  checkTxInputs : ∃ (inputs : CCoinsView P) (nSpendHeight : ℤ) (txfee : CAmount),
    inputs.checkTxInputs tx nSpendHeight = .ok txfee

omit [NodeCrypto P] in
private lemma eraseLoop_of_perm {set coins : List (PegInCoin P)} (h : set.Perm coins) :
    coins.foldlM
      (fun (peginSet : List (PegInCoin P)) pegin =>
        if pegin ∈ peginSet then some (peginSet.erase pegin) else none) set = some [] := by
  induction coins generalizing set with
  | nil =>
    obtain rfl := h.eq_nil
    rfl
  | cons c cs ih =>
    have hmem : c ∈ set := h.mem_iff.mpr (by simp)
    have hperm : (set.erase c).Perm cs := by
      have := h.erase c
      rwa [erase_cons_head] at this
    rw [foldlM_cons, if_pos hmem]
    exact ih hperm

/-- The miner accepts the peg-ins of a checked transaction. -/
lemma validatePegIns_of_accepted {tx : CTransaction P} {mwtx : Mw.Transaction P} (h : Accepted tx)
    (hmweb : tx.mwebTx = some mwtx) : validatePegIns tx mwtx.body.getPegIns = true := by
  obtain ⟨-, hperm, hnodup⟩ := MwebNode.pegins_perm_of_checkTransaction hmweb h.mwebCheckTransaction
  unfold validatePegIns
  rw [hnodup.dedup, eraseLoop_of_perm hperm]
  rfl

/-- The value of the peg-in outputs of a transaction. -/
def peginValue (tx : CTransaction P) : ℤ := outputsValue (tx.vout.filter CTxOut.isPegin)

/-- No assertion about a peg-in output fails on a checked transaction. -/
lemma addPegin_of_accepted {tx : CTransaction P} (h : Accepted tx) :
    ∃ t, (tx.vout.filter CTxOut.isPegin).foldlM addPegin 0 = .ok t ∧
      t.toInt = peginValue tx := by
  have hchecked := checkedTx_of_checkTransaction h.checkTransaction
  have hrange : ∀ out ∈ tx.vout.filter CTxOut.isPegin, MoneyRange out.nValue := fun out hout =>
    hchecked.outputs_range out (mem_of_mem_filter hout)
  have hle : peginValue tx ≤ outputsValue tx.vout :=
    ((filter_sublist).map _).sum_le_sum fun n hn => by
      obtain ⟨out, hout, rfl⟩ := mem_map.mp hn
      exact (hchecked.outputs_range out hout).nonneg
  have htotal := hchecked.total_le
  rw [maxMoney_toInt] at htotal
  have hzero : (0 : CAmount).toInt = 0 := rfl
  have hstep : ∀ (s : CAmount) (out : CTxOut P), MoneyRange out.nValue →
      MoneyRange (s + out.nValue) → addPegin s out = .ok (s + out.nValue) := by
    intro s out hout hsum
    simp [addPegin, rejectIf, hout, hsum, bind, Except.bind, pure, Except.pure]
  obtain ⟨t, hloop, ht⟩ := exists_foldlM_eq_pure hstep moneyRange_zero hrange
    (by rw [hzero, zero_add]; exact hle.trans htotal)
  exact ⟨t, hloop, by rw [ht, hzero, zero_add, peginValue, outputsValue]⟩

omit [NodeCrypto P] in
/-- The peg-in outputs are worth the peg-ins with the kernel ids they name. -/
lemma peginValue_eq_intSum (tx : CTransaction P) :
    peginValue tx = intSum PegInCoin.amount (MwebNode.txPegins tx) := by
  rw [peginValue, outputsValue, MwebNode.txPegins]
  induction tx.vout with
  | nil => rfl
  | cons out outs ih =>
    cases hid : out.scriptPubKey.isMWEBPegin with
    | none => simp [CTxOut.isPegin, hid, ih]
    | some id => simp [CTxOut.isPegin, hid, ih]

/-- The peg-in outputs of a checked transaction are worth the peg-ins of its kernels. -/
lemma peginValue_of_accepted {tx : CTransaction P} {mwtx : Mw.Transaction P}
    (h : Accepted tx) (hmweb : tx.mwebTx = some mwtx) : peginValue tx = mwtx.body.pegInSum := by
  obtain ⟨-, hperm, -⟩ := MwebNode.pegins_perm_of_checkTransaction hmweb h.mwebCheckTransaction
  rw [peginValue_eq_intSum, ← mwtx.body.intSum_getPegIns, intSum_perm _ hperm]

/-! ### Peg-outs -/

/-- Going through the peg-outs with a total of `start` before them: a peg-out that is reached
with a total of at most `MAX_MONEY` is itself at most `MAX_MONEY`. -/
def PegoutsBounded (start : ℤ) (pegouts : List (PegOutCoin P)) : Prop :=
  ∀ before pegout after, pegouts = before ++ pegout :: after →
    start + intSum PegOutCoin.amount before ≤ maxMoney.toInt →
      pegout.amount.toInt ≤ maxMoney.toInt

omit [NodeCrypto P] in
private lemma pegoutsBounded_cons {start : ℤ} {p : PegOutCoin P} {ps : List (PegOutCoin P)}
    (hstart : start ≤ maxMoney.toInt) (hnonneg : ∀ q ∈ ps, 0 ≤ q.amount.toInt) :
    PegoutsBounded start (p :: ps) ↔ p.amount.toInt ≤ maxMoney.toInt ∧
      (start + p.amount.toInt ≤ maxMoney.toInt → PegoutsBounded (start + p.amount.toInt) ps) := by
  constructor
  · intro h
    refine ⟨h [] p ps rfl (by simpa using hstart), fun _ before q after heq hle => ?_⟩
    refine h (p :: before) q after (by rw [heq]; rfl) ?_
    rwa [intSum_cons, ← add_assoc]
  · rintro ⟨hp, hps⟩ before q after heq hle
    cases before with
    | nil =>
      obtain ⟨rfl, -⟩ := cons.inj heq
      exact hp
    | cons p' before =>
      obtain ⟨rfl, rfl⟩ := cons.inj heq
      rw [intSum_cons, ← add_assoc] at hle
      -- the total only grows, so it was in range after the first peg-out
      have hpos : 0 ≤ intSum PegOutCoin.amount before :=
        intSum_nonneg fun q hq => hnonneg q (by simp [hq])
      exact hps (by omega) before q after rfl hle

omit [NodeCrypto P] in
/-- The loop over the peg-outs fails an assertion exactly when they are not bounded. -/
private lemma addPegout_loop {ps : List (PegOutCoin P)} {s : CAmount} (hs : MoneyRange s)
    (hnonneg : ∀ q ∈ ps, 0 ≤ q.amount.toInt) :
    ps.foldlM addPegout s = .error .assertionFailed ↔ ¬ PegoutsBounded s.toInt ps := by
  induction ps generalizing s with
  | nil =>
    have hbounded : PegoutsBounded s.toInt ([] : List (PegOutCoin P)) := by
      intro before p after heq
      simp at heq
    simp [hbounded, pure, Except.pure]
  | cons p ps ih =>
    rw [forall_mem_cons] at hnonneg
    have hmax : s.toInt ≤ maxMoney.toInt := by simpa using hs.le
    rw [pegoutsBounded_cons hmax hnonneg.2, foldlM_cons, bind_eq_error]
    by_cases hp : MoneyRange p.amount
    · have hadd := hs.toInt_add hp
      have hp' : p.amount.toInt ≤ maxMoney.toInt := by simpa using hp.le
      by_cases hsum : MoneyRange (s + p.amount)
      · have hstep : addPegout s p = .ok (s + p.amount) := by
          simp [addPegout, rejectIf, hp, hsum, bind, Except.bind, pure, Except.pure]
        have hle : s.toInt + p.amount.toInt ≤ maxMoney.toInt := by
          simpa [hadd] using hsum.le
        have hrec := ih hsum hnonneg.2
        rw [hadd] at hrec
        rw [hstep]
        constructor
        · rintro (h | ⟨t, ht, h⟩) hbounded
          · cases h
          · obtain rfl := Except.ok.inj ht
            exact hrec.mp h (hbounded.2 hle)
        · intro hbounded
          exact Or.inr ⟨_, rfl, hrec.mpr fun h => hbounded ⟨hp', fun _ => h⟩⟩
      · have hstep : addPegout s p = .error .refused := by
          simp [addPegout, rejectIf, hp, hsum, bind, Except.bind]
        have hle : ¬ s.toInt + p.amount.toInt ≤ maxMoney.toInt := by
          intro hle
          have := hs.nonneg
          rw [maxMoney_toInt] at hle
          exact hsum (moneyRange_iff.mpr ⟨by omega, by omega⟩)
        rw [hstep]
        constructor
        · rintro (h | ⟨t, ht, -⟩)
          · cases h
          · cases ht
        · exact fun hbounded => absurd ⟨hp', fun h => absurd h hle⟩ hbounded
    · have hstep : addPegout s p = .error .assertionFailed := by
        simp [addPegout, rejectIf, hp, bind, Except.bind]
      have hp' : ¬ p.amount.toInt ≤ maxMoney.toInt := by
        intro hle
        exact hp (moneyRange_iff.mpr ⟨hnonneg.1, by simpa using hle⟩)
      exact ⟨fun _ hbounded => hp' hbounded.1, fun _ => Or.inl hstep⟩

/-! ### One transaction -/

/-- The amount the miner has added up is the supply change of the staged transactions, modulo
`2 ^ 64`. -/
def AmountTracked (m : Miner P) : Prop :=
  m.mwebAmountChange.toInt ≡ (m.builder.stagedTxs.map (·.body.supplySum)).sum [ZMOD 2 ^ 64]

variable {m m' : Miner P} {tx : CTransaction P} {mwtx : Mw.Transaction P} {cost : ℤ}

omit [NodeCrypto P] in
private lemma addPegout_eq_ok {s s' : CAmount} {p : PegOutCoin P} (h : addPegout s p = .ok s') :
    s' = s + p.amount ∧ MoneyRange p.amount ∧ MoneyRange s' := by
  obtain ⟨hp, h⟩ := rejectIf_bind_eq_ok.mp h
  obtain ⟨hsum, h⟩ := rejectIf_bind_eq_ok.mp h
  obtain rfl := Except.ok.inj h
  exact ⟨rfl, not_not.mp hp, not_not.mp hsum⟩

/-- What adding a transaction does to the lists and the amount of the miner. -/
structure Added (m : Miner P) (tx : CTransaction P) (mwtx : Mw.Transaction P) (m' : Miner P) :
    Prop where
  builder_eq : m'.builder = m.builder.stage mwtx
  hogexInputs_eq : m'.hogexInputs = m.hogexInputs ++ tx.peginOutPoints
  hogexOutputs_eq : m'.hogexOutputs = m.hogexOutputs ++
    mwtx.body.getPegOuts.map fun pegout => ⟨pegout.amount, pegout.scriptPubKey⟩
  pegouts_range : ∀ pegout ∈ mwtx.body.getPegOuts, MoneyRange pegout.amount
  fee_range : MoneyRange mwtx.body.getTotalFee
  amount_eq : ∃ pegin pegout : CAmount,
    (tx.vout.filter CTxOut.isPegin).foldlM addPegin 0 = .ok pegin ∧
    pegout.toInt = mwtx.body.pegOutSum ∧
    m'.mwebAmountChange = m.mwebAmountChange + (pegin - (pegout + mwtx.body.getTotalFee))

/-- A transaction is added only when every check passes. -/
lemma added_of_addMWEBTransaction (h : m.addMWEBTransaction tx mwtx cost = .ok m') :
    Added m tx mwtx m' := by
  replace h := of_rejectIf h
  obtain ⟨pegin, hpegin, h⟩ := bind_eq_ok.mp h
  obtain ⟨pegout, hpegout, h⟩ := bind_eq_ok.mp h
  obtain ⟨hfee, h⟩ := rejectIf_bind_eq_ok.mp h
  obtain ⟨builder, hbuilder, h⟩ := bind_eq_ok.mp h
  replace hbuilder := of_rejectIf hbuilder
  replace hbuilder := of_rejectIf hbuilder
  obtain rfl := Except.ok.inj hbuilder
  obtain rfl := Except.ok.inj h
  obtain ⟨hsum, -, hpegouts⟩ := foldlM_moneyRange (g := PegOutCoin.amount)
    (fun _ _ _ => addPegout_eq_ok) moneyRange_zero hpegout
  exact ⟨rfl, rfl, rfl, hpegouts, not_not.mp hfee, pegin, pegout, hpegin,
    by simpa [Mw.TxBody.pegOutSum] using hsum, rfl⟩

/-- The amount stays tracked when a checked transaction is added. -/
lemma amountTracked_addMWEBTransaction (hacc : Accepted tx) (hmweb : tx.mwebTx = some mwtx)
    (hm : AmountTracked m) (h : m.addMWEBTransaction tx mwtx cost = .ok m') : AmountTracked m' := by
  have hadded := added_of_addMWEBTransaction h
  obtain ⟨pegin, pegout, hpegin, hout, hamount⟩ := hadded.amount_eq
  have hin : pegin.toInt = mwtx.body.pegInSum := by
    obtain ⟨t, hloop, ht⟩ := addPegin_of_accepted hacc
    obtain rfl := Except.ok.inj (hloop.symm.trans hpegin)
    rw [ht, peginValue_of_accepted hacc hmweb]
  -- the new term is the supply change of the transaction
  have hterm : (pegin - (pegout + mwtx.body.getTotalFee)).toInt ≡ mwtx.body.supplySum
      [ZMOD 2 ^ 64] := by
    have hsum := (toInt_add_modEq pegout mwtx.body.getTotalFee).trans
      (Int.ModEq.add_left pegout.toInt mwtx.body.getTotalFee_modEq)
    have hdiff := (toInt_sub_modEq pegin (pegout + mwtx.body.getTotalFee)).trans
      (Int.ModEq.sub_left pegin.toInt hsum)
    rwa [hin, hout, ← sub_sub, sub_right_comm, ← mwtx.body.supplySum_eq] at hdiff
  unfold AmountTracked
  simp only [hadded.builder_eq, hamount, Mw.BlockBuilder.stage, map_append, map_cons, map_nil,
    sum_append, sum_cons, sum_nil, add_zero]
  exact (toInt_add_modEq _ _).trans (hm.add hterm)

/-- Adding a checked transaction fails an assertion exactly when its peg-outs are not bounded,
and throws no exception. -/
lemma addMWEBTransaction_eq_error (m : Miner P) (cost : ℤ) (hacc : Accepted tx)
    (hmweb : tx.mwebTx = some mwtx) :
    (m.addMWEBTransaction tx mwtx cost = .error .assertionFailed ↔
      ¬ PegoutsBounded 0 mwtx.body.getPegOuts) ∧
    m.addMWEBTransaction tx mwtx cost ≠ .error .exception := by
  obtain ⟨hvalid, -, -⟩ := MwebNode.pegins_perm_of_checkTransaction hmweb hacc.mwebCheckTransaction
  obtain ⟨pegin, hpegin, -⟩ := addPegin_of_accepted hacc
  have hnonneg : ∀ q ∈ mwtx.body.getPegOuts, 0 ≤ q.amount.toInt := fun q hq => by
    obtain ⟨k, -, hk⟩ := mem_flatMap.mp hq
    exact k.pegout_nonneg hk
  have hloop := addPegout_loop moneyRange_zero hnonneg
  have hzero : (0 : CAmount).toInt = 0 := rfl
  rw [hzero] at hloop
  -- everything after the loop over the peg-outs can only refuse the transaction
  have hrest : ∀ e, m.addMWEBTransaction tx mwtx cost = .error e →
      mwtx.body.getPegOuts.foldlM addPegout 0 = .error e ∨ e = .refused := by
    intro e h
    rcases rejectIf_bind_eq_error.mp h with ⟨-, rfl⟩ | ⟨-, h⟩
    · exact Or.inr rfl
    rcases bind_eq_error.mp h with h | ⟨_, -, h⟩
    · rw [hpegin] at h
      cases h
    rcases bind_eq_error.mp h with h | ⟨_, -, h⟩
    · exact Or.inl h
    rcases rejectIf_bind_eq_error.mp h with ⟨-, rfl⟩ | ⟨-, h⟩
    · exact Or.inr rfl
    rcases bind_eq_error.mp h with h | ⟨_, -, h⟩
    · rcases rejectIf_bind_eq_error.mp h with ⟨-, rfl⟩ | ⟨-, h⟩
      · exact Or.inr rfl
      rcases rejectIf_bind_eq_error.mp h with ⟨hdup, -⟩ | ⟨-, h⟩
      · exact absurd hvalid.nodup_outputs hdup
      · cases h
    · cases h
  refine ⟨⟨fun h => ?_, fun hbounded => ?_⟩, fun h => ?_⟩
  · rcases hrest _ h with h | h
    · exact hloop.mp h
    · cases h
  · unfold addMWEBTransaction
    rw [validatePegIns_of_accepted hacc hmweb, hpegin, hloop.mpr hbounded]
    rfl
  · rcases hrest _ h with h | h
    · obtain ⟨s, p, -, hp⟩ := exists_of_foldlM_eq_error h
      rcases rejectIf_bind_eq_error.mp hp with ⟨-, hp⟩ | ⟨-, hp⟩
      · cases hp
      rcases rejectIf_bind_eq_error.mp hp with ⟨-, hp⟩ | ⟨-, hp⟩
      · cases hp
      · cases hp
    · cases h

/-! ### Whole templates -/

/-- The peg-outs of the entry's MWEB transaction are bounded. -/
def EntryBounded (entry : CTransaction P × ℤ) : Prop :=
  ∀ mwtx, entry.1.mwebTx = some mwtx → PegoutsBounded 0 mwtx.body.getPegOuts

/-- Handing over a checked transaction with bounded peg-outs keeps the amount tracked; with
unbounded ones it aborts. -/
lemma handOver_spec {entry : CTransaction P × ℤ} (hacc : Accepted entry.1) :
    (EntryBounded entry → ∃ m', handOver m entry = .ok m' ∧
      (AmountTracked m → AmountTracked m')) ∧
    (¬ EntryBounded entry → handOver m entry = .error .assertionFailed) := by
  unfold EntryBounded handOver
  cases hmweb : entry.1.mwebTx with
  | none => exact ⟨fun _ => ⟨m, rfl, id⟩, fun h => absurd (by simp) h⟩
  | some mwtx =>
    obtain ⟨hassert, hexc⟩ := addMWEBTransaction_eq_error m entry.2 hacc hmweb
    simp only [Option.some.injEq, forall_eq']
    constructor
    · intro hbounded
      cases hadd : m.addMWEBTransaction entry.1 mwtx entry.2 with
      | ok m' => exact ⟨m', rfl, fun hm => amountTracked_addMWEBTransaction hacc hmweb hm hadd⟩
      | error e =>
        cases e with
        | refused => exact ⟨m, rfl, id⟩
        | assertionFailed => exact absurd hbounded (hassert.mp hadd)
        | exception => exact absurd hadd hexc
    · intro hbounded
      rw [hassert.mpr hbounded]

/-- Handing over a list of checked transactions. -/
lemma handOver_loop {entries : List (CTransaction P × ℤ)}
    (hacc : ∀ entry ∈ entries, Accepted entry.1) :
    ((∀ entry ∈ entries, EntryBounded entry) → ∃ m', entries.foldlM handOver m = .ok m' ∧
      (AmountTracked m → AmountTracked m')) ∧
    ((∃ entry ∈ entries, ¬ EntryBounded entry) →
      entries.foldlM handOver m = .error .assertionFailed) := by
  induction entries generalizing m with
  | nil => exact ⟨fun _ => ⟨m, rfl, id⟩, by simp⟩
  | cons entry entries ih =>
    rw [forall_mem_cons] at hacc
    obtain ⟨hok, herror⟩ := handOver_spec (m := m) hacc.1
    by_cases hb : EntryBounded entry
    · obtain ⟨m₁, hm₁, htrack⟩ := hok hb
      obtain ⟨hok', herror'⟩ := ih (m := m₁) hacc.2
      rw [foldlM_cons, hm₁]
      constructor
      · intro h
        obtain ⟨m', hm', htrack'⟩ := hok' (forall_mem_cons.mp h).2
        exact ⟨m', hm', fun hm => htrack' (htrack hm)⟩
      · rintro ⟨entry', hmem, hnot⟩
        rcases mem_cons.mp hmem with rfl | hmem
        · exact absurd hb hnot
        · exact herror' ⟨entry', hmem, hnot⟩
    · refine ⟨fun h => absurd (h entry (by simp)) hb, fun _ => ?_⟩
      rw [foldlM_cons, herror hb]
      rfl

/-- The value of the HogEx output that the new HogEx spends, zero for the first one. -/
def prevAmount (prevBlock : CBlock P) : CAmount :=
  ((prevBlock.getHogEx.bind (·.vout.head?)).map CTxOut.nValue).getD 0

/-- If the staged transactions can be built into a block, then the previous amount and their
supply changes add up to an amount in the money range, modulo `2 ^ 64`. -/
def AmountBounded (m : Miner P) (prevBlock : CBlock P) : Prop :=
  m.builder.buildBlock.isOk = true →
    ∃ n, 0 ≤ n ∧ n ≤ maxMoney.toInt ∧
      n ≡ (prevAmount prevBlock).toInt + (m.builder.stagedTxs.map (·.body.supplySum)).sum
        [ZMOD 2 ^ 64]

/-- The previous HogEx always has a first output. -/
lemma prevHogAddr_eq_ok (prevBlock : CBlock P) :
    ∃ prev, prevHogAddr prevBlock = .ok prev ∧
      (prev.map Prod.snd).getD 0 = prevAmount prevBlock := by
  unfold prevHogAddr prevAmount
  cases hhogex : prevBlock.getHogEx with
  | none => exact ⟨none, rfl, rfl⟩
  | some hogex =>
    have hmark : hogex.hogEx = true := by
      unfold CBlock.getHogEx at hhogex
      split at hhogex
      · exact (Option.filter_eq_some_iff.mp hhogex).2
      · cases hhogex
    cases hvout : hogex.vout with
    | nil => exact absurd hvout (hogex.hogEx_wf hmark).2
    | cons out outs =>
      exact ⟨some (⟨hogex.getHash, 0⟩, out.nValue), by simp [hvout], by simp [hvout]⟩

/-- What the new HogEx looks like. -/
structure Integrates (m : Miner P) (prev : Option (COutPoint P × CAmount)) (mwebBlock : Mw.Block P)
    (hogex : CTransaction P) : Prop where
  prevouts : hogex.vin.map CTxIn.prevout = (prev.map Prod.fst).toList ++ m.hogexInputs
  vout_eq : hogex.vout = ⟨(prev.map Prod.snd).getD 0 + m.mwebAmountChange,
    .mwebHogAddr mwebBlock.header.getHash⟩ :: m.hogexOutputs
  isHogEx : hogex.isHogEx = true

lemma addHogExTransaction_eq_ok {prevBlock : CBlock P} {hogex : CTransaction P}
    {mwebBlock : Mw.Block P} (h : m.addHogExTransaction prevBlock = .ok (hogex, mwebBlock)) :
    ∃ prev, prevHogAddr prevBlock = .ok prev ∧ m.builder.buildBlock = .ok mwebBlock ∧
      m.Integrates prev mwebBlock hogex := by
  obtain ⟨prev, hprev, h⟩ := bind_eq_ok.mp h
  refine ⟨prev, hprev, ?_⟩
  cases hbuild : m.builder.buildBlock with
  | error e =>
    rw [hbuild] at h
    cases h
  | ok built =>
    rw [hbuild] at h
    replace h := of_rejectIf h
    obtain ⟨rfl, rfl⟩ := Prod.mk.inj (Except.ok.inj h)
    exact ⟨rfl, by simp [Function.comp_def], rfl, rfl⟩

lemma exists_addHogExTransaction {prevBlock : CBlock P} {mwebBlock : Mw.Block P}
    {prev : Option (COutPoint P × CAmount)} (hprev : prevHogAddr prevBlock = .ok prev)
    (hbuild : m.builder.buildBlock = .ok mwebBlock)
    (hrange : MoneyRange ((prev.map Prod.snd).getD 0 + m.mwebAmountChange)) :
    ∃ hogex, m.addHogExTransaction prevBlock = .ok (hogex, mwebBlock) := by
  unfold addHogExTransaction
  rw [bind_of_eq_ok hprev, hbuild]
  exact ⟨_, rejectIf_bind_of_not (not_not.mpr hrange) _⟩

/-- The assertion about the new HogEx amount. -/
lemma addHogExTransaction_ne_assertionFailed (hm : AmountTracked m) (prevBlock : CBlock P) :
    m.addHogExTransaction prevBlock ≠ .error .assertionFailed ↔ AmountBounded m prevBlock := by
  obtain ⟨prev, hprev, hamount⟩ := prevHogAddr_eq_ok prevBlock
  have htotal : ((prev.map Prod.snd).getD 0 + m.mwebAmountChange).toInt ≡
      (prevAmount prevBlock).toInt + (m.builder.stagedTxs.map (·.body.supplySum)).sum
        [ZMOD 2 ^ 64] := by
    rw [hamount]
    exact (toInt_add_modEq _ _).trans (Int.ModEq.add_left _ hm)
  unfold addHogExTransaction AmountBounded
  rw [hprev]
  cases hbuild : m.builder.buildBlock with
  | error e => simp [bind, Except.bind, Except.isOk, Except.toBool]
  | ok mwebBlock =>
    have hiff : MoneyRange ((prev.map Prod.snd).getD 0 + m.mwebAmountChange) ↔
        ∃ n, 0 ≤ n ∧ n ≤ maxMoney.toInt ∧
          n ≡ (prevAmount prevBlock).toInt + (m.builder.stagedTxs.map (·.body.supplySum)).sum
            [ZMOD 2 ^ 64] := by
      constructor
      · intro hrange
        exact ⟨_, hrange.nonneg, by simpa using hrange.le, htotal⟩
      · rintro ⟨n, hn, hn', hmod⟩
        rw [maxMoney_toInt] at hn'
        have := eq_of_modEq_of_fits (fitsInt64_toInt _) ⟨by omega, by omega⟩
          (htotal.trans hmod.symm)
        exact moneyRange_iff.mpr ⟨by omega, by omega⟩
    rw [← hiff]
    by_cases hrange : MoneyRange ((prev.map Prod.snd).getD 0 + m.mwebAmountChange)
    · simp [hrange, rejectIf, bind, Except.bind, pure, Except.pure]
    · simp [hrange, rejectIf, bind, Except.bind, Except.isOk, Except.toBool]

/-- Assembling a block from checked transactions, in any order, fails no assertion exactly when
the peg-outs of every transaction are bounded and the new HogEx amount is in range. -/
theorem assemble_ne_assertionFailed_iff (view : Mw.CoinsView P) (height : ℤ)
    (entries : List (CTransaction P × ℤ)) (prevBlock : CBlock P)
    (hacc : ∀ entry ∈ entries, Accepted entry.1) :
    assemble view height entries prevBlock ≠ .error .assertionFailed ↔
      (∀ entry ∈ entries, EntryBounded entry) ∧
        ∀ m, entries.foldlM handOver (newBlock view height) = .ok m →
          AmountBounded m prevBlock := by
  have hnew : AmountTracked (newBlock view height) := rfl
  obtain ⟨hok, herror⟩ := handOver_loop (m := newBlock view height) hacc
  by_cases hbounded : ∀ entry ∈ entries, EntryBounded entry
  · obtain ⟨m, hm, htrack⟩ := hok hbounded
    have hiff := addHogExTransaction_ne_assertionFailed (htrack hnew) prevBlock
    unfold assemble
    rw [hm]
    simp only [Except.ok.injEq, forall_eq']
    exact ⟨fun h => ⟨hbounded, hiff.mp h⟩, fun h => hiff.mpr h.2⟩
  · refine ⟨fun h => absurd ?_ h, fun h => absurd h.1 hbounded⟩
    unfold assemble
    rw [herror (by simpa using hbounded)]
    rfl

section Example

open Symbolic

/-- The kernel of a transaction that pegs in 10 units and pegs out the given amounts. -/
def pegoutKernel (amounts : List CAmount) (h : ∀ a ∈ amounts, 0 ≤ a) : Mw.Kernel sym :=
  kernel none (some 10) (amounts.map fun a => ⟨a, opTrue⟩) 7 nonneg_none
    mintKernel.pegin_nonneg (by simpa using h)

/-- A transaction that pegs in 10 units, pegs out the given amounts and leaves an MWEB output of
the given value. -/
def pegoutTx (amounts : List CAmount) (h : ∀ a ∈ amounts, 0 ≤ a) (v : ℤ) : CTransaction sym :=
  { spend [⟨.word 1, 0⟩] [⟨10, .mwebPegin (pegoutKernel amounts h).getKernelID⟩] with
    mwebTx := some ⟨0, 5, ⟨[], [output v 7 5 9], [pegoutKernel amounts h]⟩, by simp⟩
    hogEx_wf := by simp [spend] }

/-- A view in which the input of the transaction is unspent. -/
def pegoutView : CCoinsView sym where
  getCoin o := if o = ⟨.word 1, 0⟩ then some ⟨⟨10, opTrue⟩, 0, false, false⟩ else none
  getMWEBCoin _ := none

/-- A block without a HogEx. -/
def plainBlock : CBlock sym :=
  ⟨⟨0, .word 0, .word 0, 2, 0, 0⟩, [coinbase [1, 1] [⟨0, opTrue⟩]], none⟩

/-- A transaction that pegs out 3 of its 10 units. -/
def modestTx : CTransaction sym := pegoutTx [3] (List.forall_mem_singleton.mpr (by decide)) 7

/-- A transaction with four peg-outs of `2 ^ 62`, whose sum wraps to zero. -/
def wrappingTx : CTransaction sym :=
  pegoutTx [2 ^ 62, 2 ^ 62, 2 ^ 62, 2 ^ 62]
    (fun a ha => by
      obtain rfl : a = 2 ^ 62 := by simpa using ha
      decide +kernel) 10

/-- A template with the modest transaction is assembled without a failed assertion. -/
theorem assemble_modestTx :
    assemble Mw.CoinsView.empty 3 [(modestTx, 0)] plainBlock ≠ .error .assertionFailed := by
  have hacc : Accepted modestTx :=
    ⟨by decide +kernel, by decide +kernel, pegoutView, 100, 0, by decide +kernel⟩
  rw [assemble_ne_assertionFailed_iff _ _ _ _ (by simpa using hacc)]
  constructor
  · intro entry hentry mwtx hmwtx before p after heq _
    obtain rfl := List.mem_singleton.mp hentry
    obtain rfl := Option.some.inj hmwtx
    -- the only peg-out is the one of 3 units
    have hp : p.amount ∈ [(3 : CAmount)] := by
      have hmem : p ∈ before ++ p :: after := by simp
      rw [← heq] at hmem
      exact List.mem_map_of_mem (f := PegOutCoin.amount) hmem
    rw [List.mem_singleton.mp hp]
    decide +kernel
  · intro m hm _
    have hfold := eq_ok_toOption_get
      (show ([(modestTx, 0)].foldlM handOver (newBlock Mw.CoinsView.empty 3)).toOption.isSome
        from by decide +kernel)
    obtain rfl := Except.ok.inj (hm.symm.trans hfold)
    exact ⟨7, by decide +kernel, by decide +kernel, by decide +kernel⟩

/-- The wrapping transaction passes all checks of the mempool, and handing it to the miner
aborts. -/
theorem assemble_wrappingTx :
    Accepted wrappingTx ∧
      assemble Mw.CoinsView.empty 3 [(wrappingTx, 0)] plainBlock =
        .error .assertionFailed :=
  ⟨⟨by decide +kernel, by decide +kernel, pegoutView, 100, 0, by decide +kernel⟩,
    by decide +kernel⟩

end Example

end Miner

end Aegisum
