import Aegisum.Model.Symbolic
import Aegisum.Node.ConnectBlock

/-!
# No inflation of canonical coins

The coins of a chain are worth at most the subsidies of its blocks.  A transaction other than the
coinbase moves value from coins to fees and loses what its unspendable outputs hold; the coinbase
takes at most fees and subsidy; a coin that is overwritten only lowers the total.
-/

namespace Aegisum

variable {P : Primitives}

/-! ### The subsidy -/

/-- A subsidy is at most a million coins. -/
lemma getBlockSubsidy_range (params : ConsensusParams P) (nHeight : ℤ) :
    0 ≤ (getBlockSubsidy params nHeight).toInt ∧
      (getBlockSubsidy params nHeight).toInt ≤ 10 ^ 14 := by
  unfold getBlockSubsidy
  split
  · decide
  · split
    · decide
    · dsimp only
      split
      · decide
      · have hcoin : (500 * coin).toInt = 50000000000 := by decide
        rw [hcoin, Int.shiftRight_eq_div_pow]
        set halvings := (nHeight / params.nSubsidyHalvingInterval).toNat
        have hpos : (0 : ℤ) < ((2 ^ halvings : ℕ) : ℤ) := Int.natCast_pos.mpr (Nat.two_pow_pos _)
        have h0 : 0 ≤ (50000000000 : ℤ) / ((2 ^ halvings : ℕ) : ℤ) :=
          Int.ediv_nonneg (by decide) hpos.le
        have h1 : (50000000000 : ℤ) / ((2 ^ halvings : ℕ) : ℤ) ≤ 50000000000 :=
          Int.ediv_le_self _ (by decide)
        rw [Int64.toInt_ofInt_of_le (by omega) (by omega)]
        omega

/-- The subsidies of the blocks at heights `1` to `h`. -/
def subsidySum (params : ConsensusParams P) (h : ℕ) : ℤ :=
  ((List.range h).map fun i => (getBlockSubsidy params (i + 1)).toInt).sum

lemma subsidySum_succ (params : ConsensusParams P) (h : ℕ) :
    subsidySum params (h + 1) = subsidySum params h + (getBlockSubsidy params (h + 1)).toInt := by
  simp [subsidySum, List.range_succ]

/-! ### Transactions -/

variable [NodeCrypto P]

section Loop

variable {env : ScriptEnv P} {params : ConsensusParams P} {prev : Chain P}
  {mweb : Mw.CoinsView P} {s s' : ConnectState P}

variable {tx : CTransaction P} {vprevout : List (Coin P)}

/-- The coins a transaction spends are those its checks have looked at. -/
lemma TxConnected.inputsChecked (h : TxConnected prev mweb s tx vprevout s')
    (hcb : tx.isCoinBase = false) (hmweb : tx.mwebTx = none) :
    ∃ txfee, (coinsView s.view.coins mweb).InputsChecked tx (prev.nHeight + 1) vprevout txfee ∧
      s'.nFees = s.nFees + txfee ∧ MoneyRange s'.nFees := by
  obtain ⟨txfee, hcheck, hfees, hrange⟩ := h.fees hcb
  obtain ⟨coins, hchecked⟩ := CCoinsView.inputsChecked_of_checkTxInputs hmweb hcheck
  have hcoins : coins.map some = vprevout.map some := by
    rw [← hchecked.coins_eq, ← h.updated.coins_eq, CTransaction.spentInputs, hcb]
    rfl
  obtain rfl : coins = vprevout := List.map_injective_iff.mpr (Option.some_injective _) hcoins
  exact ⟨txfee, hchecked, hfees, hrange⟩

/-- The fees stay in the money range. -/
lemma connectTx_fees_range {txs : List (CTransaction P)} (hs : MoneyRange s.nFees)
    (h : txs.foldlM (connectTx env params prev mweb) s = .ok s') : MoneyRange s'.nFees := by
  refine foldlM_keeps (I := fun s => MoneyRange s.nFees) (fun tx _ s s' hs hstep => ?_) h hs
  obtain ⟨vprevout, htx⟩ := txConnected_of_connectTx hstep
  cases hcb : tx.isCoinBase with
  | true =>
    rw [htx.fees_coinbase hcb]
    exact hs
  | false =>
    obtain ⟨_, -, -, hrange⟩ := htx.fees hcb
    exact hrange

/-- A transaction that is not the coinbase moves value from coins to fees. -/
lemma TxConnected.total_add_fees_le (h : TxConnected prev mweb s tx vprevout s')
    (hchecked : CheckedTx tx) (hcb : tx.isCoinBase = false) (hmweb : tx.mwebTx = none)
    (hs : MoneyRange s.nFees) (hnonneg : s.view.coins.Nonneg) :
    s'.view.coins.Nonneg ∧ s'.view.coins.totalValue + s'.nFees.toInt ≤
      s.view.coins.totalValue + s.nFees.toInt := by
  obtain ⟨txfee, hinputs, hfees, -⟩ := h.inputsChecked hcb hmweb
  obtain ⟨hnonneg', htotal⟩ := h.updated.total_le hnonneg hchecked.outputs_nonneg
  refine ⟨hnonneg', ?_⟩
  have hfee := hinputs.fee_eq
  have hsum : intSum (fun coin => coin.out.nValue) vprevout = (vprevout.map Coin.value).sum := rfl
  rw [hfees, hs.toInt_add hinputs.fee_range]
  omega

/-- The same for all transactions after the coinbase. -/
lemma connectTxs_total_add_fees_le {txs : List (CTransaction P)}
    (hchecked : ∀ tx ∈ txs, CheckedTx tx) (hcb : ∀ tx ∈ txs, tx.isCoinBase = false)
    (hmweb : ∀ tx ∈ txs, tx.mwebTx = none) (hs : MoneyRange s.nFees)
    (hnonneg : s.view.coins.Nonneg) (h : txs.foldlM (connectTx env params prev mweb) s = .ok s') :
    s'.view.coins.Nonneg ∧ s'.view.coins.totalValue + s'.nFees.toInt ≤
      s.view.coins.totalValue + s.nFees.toInt := by
  refine (foldlM_keeps (I := fun s₁ => MoneyRange s₁.nFees ∧ s₁.view.coins.Nonneg ∧
    s₁.view.coins.totalValue + s₁.nFees.toInt ≤ s.view.coins.totalValue + s.nFees.toInt) ?_ h
    ⟨hs, hnonneg, le_rfl⟩).2
  rintro tx hmem s₁ s₂ ⟨hs₁, hnonneg₁, hle⟩ hstep
  obtain ⟨vprevout, htx⟩ := txConnected_of_connectTx hstep
  obtain ⟨hnonneg₂, htotal⟩ :=
    htx.total_add_fees_le (hchecked tx hmem) (hcb tx hmem) (hmweb tx hmem) hs₁ hnonneg₁
  obtain ⟨_, -, -, hs₂⟩ := htx.fees (hcb tx hmem)
  exact ⟨hs₂, hnonneg₂, by omega⟩

/-- The coinbase adds at most the value of its outputs. -/
lemma TxConnected.total_le_of_coinbase (h : TxConnected prev mweb s tx vprevout s')
    (hchecked : CheckedTx tx) (hcb : tx.isCoinBase = true) (hnonneg : s.view.coins.Nonneg) :
    s'.view.coins.Nonneg ∧
      s'.view.coins.totalValue ≤ s.view.coins.totalValue + outputsValue tx.vout := by
  obtain ⟨hnonneg', htotal⟩ := h.updated.total_le hnonneg hchecked.outputs_nonneg
  have hspent : vprevout = [] := by
    have hcoins := h.updated.coins_eq
    rw [CTransaction.spentInputs, hcb] at hcoins
    exact List.map_eq_nil_iff.mp hcoins.symm
  refine ⟨hnonneg', ?_⟩
  simpa [hspent] using htotal

end Loop

/-! ### Blocks -/

/-- No addition wraps while a block is connected: not the values of the spent coins, not the
fees, not the reward. -/
structure SumsExact (env : ScriptEnv P) (params : ConsensusParams P) (prev : Chain P)
    (b : CBlock P) (tip : CoinsTip P) : Prop where
  inputs : ∀ before tx after s, b.vtx = before ++ tx :: after →
    before.foldlM (connectTx env params prev tip.mweb) tip.connectState = .ok s →
      AccumulatesExactly (fun coin => coin.out.nValue) (spentCoins s.view.coins tx)
  fees : ∀ before tx after s txfee, b.vtx = before ++ tx :: after →
    before.foldlM (connectTx env params prev tip.mweb) tip.connectState = .ok s →
      (coinsView s.view.coins tip.mweb).checkTxInputs tx (prev.nHeight + 1) = .ok txfee →
        (s.nFees + txfee).toInt = s.nFees.toInt + txfee.toInt
  reward : ∀ s, b.vtx.foldlM (connectTx env params prev tip.mweb) tip.connectState = .ok s →
    (s.nFees + getBlockSubsidy params (prev.nHeight + 1)).toInt =
      s.nFees.toInt + (getBlockSubsidy params (prev.nHeight + 1)).toInt

omit [NodeCrypto P] in
/-- Fees in the money range and a subsidy are added without wrapping. -/
lemma toInt_add_subsidy {nFees : CAmount} (h : MoneyRange nFees) (params : ConsensusParams P)
    (nHeight : ℤ) : (nFees + getBlockSubsidy params nHeight).toInt =
      nFees.toInt + (getBlockSubsidy params nHeight).toInt := by
  have hsubsidy := getBlockSubsidy_range params nHeight
  have h0 := h.nonneg
  have h1 := h.le
  exact toInt_add_of_fits ⟨by omega, by omega⟩

namespace BlockConnected

variable {env : ScriptEnv P} {params : ConsensusParams P} {prev : Chain P} {b : CBlock P}
  {tip : CoinsTip P} {s : ConnectState P} {r : ConnectedBlock P}
  (h : BlockConnected env params prev b tip s r)

include h

/-- A block raises the value of all coins by at most its subsidy. -/
lemma total_le (hnonneg : tip.coins.Nonneg) :
    r.tip.coins.Nonneg ∧ r.tip.coins.totalValue ≤
      tip.coins.totalValue + (getBlockSubsidy params (prev.nHeight + 1)).toInt := by
  obtain ⟨coinbase, rest, hvtx, hcb, hrest⟩ := h.checked.coinbase_first
  have hchecked := h.checked.txs
  have hmweb := h.checked.mwebTx_eq
  have hloop := h.loop
  rw [hvtx, List.forall_mem_cons] at hchecked hmweb
  rw [hvtx] at hloop
  obtain ⟨s₁, hfirst, hloop⟩ := foldlM_cons_eq_ok.mp hloop
  -- the coinbase first, then everything else
  obtain ⟨vprevout, htx⟩ := txConnected_of_connectTx hfirst
  obtain ⟨hnonneg₁, htotal₁⟩ := htx.total_le_of_coinbase hchecked.1 hcb hnonneg
  have hfees₁ : s₁.nFees = 0 := htx.fees_coinbase hcb
  have hrange₁ : MoneyRange s₁.nFees := by
    rw [hfees₁]
    exact moneyRange_zero
  obtain ⟨hnonneg', htotal'⟩ :=
    connectTxs_total_add_fees_le hchecked.2 hrest hmweb.2 hrange₁ hnonneg₁ hloop
  -- the outputs of the coinbase are covered by fees and subsidy
  obtain ⟨coinbase', valueOut, hhead, hvalue, hle⟩ := h.reward
  obtain rfl : coinbase = coinbase' := by simpa [hvtx] using hhead
  have hle' := Int64.le_iff_toInt_le.mp hle
  rw [toInt_add_subsidy (connectTx_fees_range hrange₁ hloop),
    (getValueOut_eq_some hvalue).1] at hle'
  rw [h.coins_eq]
  refine ⟨hnonneg', ?_⟩
  have hstart : tip.connectState.view.coins.totalValue = tip.coins.totalValue := rfl
  have hzero : s₁.nFees.toInt = 0 := by simp [hfees₁]
  omega

/-- No addition wraps while the block is connected. -/
lemma sumsExact : SumsExact env params prev b tip := by
  refine ⟨fun before tx after s₁ hvtx hbefore => ?_,
    fun before tx after s₁ txfee hvtx hbefore hfee => ?_, fun s₁ hloop => ?_⟩
  · have hloop := h.loop
    rw [hvtx, foldlM_append_eq_ok] at hloop
    obtain ⟨s₂, hbefore', hloop⟩ := hloop
    obtain rfl : s₁ = s₂ := Except.ok.inj (hbefore.symm.trans hbefore')
    obtain ⟨s₃, hstep, -⟩ := foldlM_cons_eq_ok.mp hloop
    obtain ⟨vprevout, htx⟩ := txConnected_of_connectTx hstep
    have hspent : spentCoins s₁.view.coins tx = vprevout := by
      have hmap : (tx.spentInputs.map fun txin => s₁.view.coins.get txin.prevout).filterMap id =
          (vprevout.map some).filterMap id := congrArg _ htx.updated.coins_eq
      simpa [spentCoins, List.filterMap_map, Function.comp_def] using hmap
    rw [hspent]
    cases hcb : tx.isCoinBase with
    | true =>
      have hcoins := htx.updated.coins_eq
      rw [CTransaction.spentInputs, hcb] at hcoins
      rw [List.map_eq_nil_iff.mp hcoins.symm]
      intro n
      simp
    | false =>
      have hmem : tx ∈ b.vtx := by simp [hvtx]
      obtain ⟨txfee, hinputs, -⟩ := htx.inputsChecked hcb (h.checked.mwebTx_eq tx hmem)
      refine accumulatesExactly_of_nonneg (fun coin hcoin => (hinputs.range coin hcoin).nonneg) ?_
      have := hinputs.total_le
      rw [maxMoney_toInt] at this
      omega
  · have hmem : tx ∈ b.vtx := by simp [hvtx]
    obtain ⟨coins, hinputs⟩ :=
      CCoinsView.inputsChecked_of_checkTxInputs (h.checked.mwebTx_eq tx hmem) hfee
    exact (connectTx_fees_range moneyRange_zero hbefore).toInt_add hinputs.fee_range
  · exact toInt_add_subsidy (connectTx_fees_range moneyRange_zero hloop) _ _

end BlockConnected

/-! ### Chains -/

variable {env : ScriptEnv P} {params : ConsensusParams P}

variable {tip : CoinsTip P}

/-- One connected block raises the value of all coins by at most its subsidy. -/
lemma connectBlock_total_le {prev : Chain P} {b : CBlock P} {r : ConnectedBlock P}
    (hnonneg : tip.coins.Nonneg) (h : connectBlock env params prev b tip = .ok r) :
    r.tip.coins.Nonneg ∧ r.tip.coins.totalValue ≤
      tip.coins.totalValue + (getBlockSubsidy params (prev.nHeight + 1)).toInt := by
  obtain ⟨-, ⟨-, rfl⟩ | ⟨-, s, hconnected⟩⟩ := connectBlock_cases h
  · have := (getBlockSubsidy_range params (prev.nHeight + 1)).1
    exact ⟨hnonneg, by dsimp only; omega⟩
  · exact hconnected.total_le hnonneg

/-- A block can only be connected to no block at all if it is the genesis block. -/
lemma connectBlock_nil {b : CBlock P} {r : ConnectedBlock P}
    (h : connectBlock env params [] b tip = .ok r) : r.tip = tip := by
  obtain ⟨-, ⟨-, rfl⟩ | ⟨-, s, hconnected⟩⟩ := connectBlock_cases h
  · rfl
  · exact absurd rfl hconnected.prev_ne_nil

/-- The coins of a chain are worth at most the subsidies of its blocks after the first one. -/
lemma ConnectedChain.total_le {ok : Chain P → CBlock P → Prop} {c : Chain P}
    (h : ConnectedChain env params ok c tip) :
    tip.coins.Nonneg ∧ tip.coins.totalValue ≤ subsidySum params (c.length - 1) := by
  induction h with
  | empty =>
    have hnonneg : Coins.Nonneg (CoinsTip.empty (P := P)).coins := by
      intro a coin hget
      cases hget
    refine ⟨hnonneg, ?_⟩
    have hzero : Coins.totalValue (CoinsTip.empty (P := P)).coins = 0 := FiniteMap.total_empty _
    rw [hzero]
    exact le_rfl
  | @connectBlock c tip b r h _ hconnect ih =>
    obtain ⟨hnonneg, htotal⟩ := connectBlock_total_le ih.1 hconnect
    refine ⟨hnonneg, ?_⟩
    cases c with
    | nil =>
      rw [connectBlock_nil hconnect]
      exact ih.2
    | cons e c =>
      have hsum := subsidySum_succ params c.length
      have hheight : Chain.nHeight (e :: c) + 1 = (c.length : ℤ) + 1 := by simp [Chain.nHeight]
      have hold := ih.2
      simp only [List.length_cons, Nat.add_sub_cancel] at hold ⊢
      rw [hheight] at htotal
      omega

/-- On every chain of connected blocks, the next block raises the value of all coins by at most
its subsidy, the coins are worth at most the subsidies from height 1 on, and no addition of
input values, fees or reward wraps. -/
theorem no_inflation (env : ScriptEnv P) (params : ConsensusParams P) (c : Chain P)
    (tip : CoinsTip P) (b : CBlock P) (r : ConnectedBlock P)
    (hchain : ConnectedChain env params (fun _ _ => True) c tip)
    (hconnect : connectBlock env params c b tip = .ok r) :
    r.tip.coins.totalValue ≤
        tip.coins.totalValue + (getBlockSubsidy params (c.nHeight + 1)).toInt ∧
      r.tip.coins.totalValue ≤ subsidySum params c.length ∧
      (b.getHash ≠ params.hashGenesisBlock → SumsExact env params c b tip) := by
  refine ⟨(connectBlock_total_le hchain.total_le.1 hconnect).2, ?_, fun hne => ?_⟩
  · exact (hchain.connectBlock trivial hconnect).total_le.2
  · obtain ⟨-, ⟨heq, -⟩ | ⟨-, s, hconnected⟩⟩ := connectBlock_cases hconnect
    · exact absurd heq hne
    · exact hconnected.sumsExact

section Example

open Symbolic

/-- An environment in which proof of work and scripts always pass. -/
def lenientEnv : ScriptEnv sym where
  checkProofOfWork _ := true
  checkSignetBlockSolution _ := true
  scriptSigOps _ := 0
  scriptPubKeyOps _ := 0
  inputSigOpCost _ _ _ := 0
  getBlockScriptFlags _ := 0
  checkInputScripts _ _ _ := none

/-- A block with the given parent, time and contents, and the Merkle root of its transactions. -/
def mine (hashPrevBlock : Digest) (nTime : ℕ) (vtx : List (CTransaction sym))
    (mwebBlock : Option (Mw.Block sym)) : CBlock sym where
  header := ⟨0x20000000, hashPrevBlock,
    (computeMerkleRoot NodeCrypto.merkleHash sym.zeroHash (vtx.map CTransaction.getHash)).1,
    nTime, 0, 0⟩
  vtx := vtx
  mwebBlock := mwebBlock

/-- The genesis block. -/
def genesis : CBlock sym := mine (.word 0) 0 [coinbase [0, 0] [⟨0, opTrue⟩]] none

/-- The parameters of the chains that start with `genesis`. -/
def genesisParams : ConsensusParams sym :=
  { earlyParams with hashGenesisBlock := genesis.getHash }

/-- The result of connecting the genesis block. -/
def afterGenesis : ConnectedBlock sym :=
  (connectBlock lenientEnv genesisParams [] genesis CoinsTip.empty).toOption.get
    (by decide +kernel)

/-- A chain of blocks that hold nothing but a coinbase of 1000 units. -/
def coinbaseBlock : ℕ → CBlock sym
  | 0 => genesis
  | h + 1 => mine (coinbaseBlock h).getHash (h + 1)
      [coinbase (scriptPushHeight (h + 1) ++ [0]) [⟨1000, opTrue⟩]] none

/-- Parameters under which MWEB is not active in the blocks below. -/
def lateParams : ConsensusParams sym :=
  { genesisParams with deploymentMweb := ⟨4, 0, 0, 1000, 1000⟩ }

/-- A transaction that spends the first coinbase. -/
def payment (vout : List (CTxOut sym)) : CTransaction sym :=
  spend [⟨(coinbase (scriptPushHeight 1 ++ [0]) [⟨1000, opTrue⟩]).getHash, 0⟩] vout

/-- Connecting blocks until the first coinbase is mature. -/
def connectMature : Except BlockFailure (Chain sym × CoinsTip sym) :=
  ((List.range 21).map coinbaseBlock).foldlM
    (connectNext lenientEnv lateParams fun _ _ => True) ([], CoinsTip.empty)

lemma connectMature_isSome : connectMature.toOption.isSome = true := by decide +kernel

/-- The state when the first coinbase is mature. -/
def matureState : Chain sym × CoinsTip sym := connectMature.toOption.get connectMature_isSome

/-- The next block, with a payment, whose miner takes the whole subsidy and the fee. -/
def feeBlock : CBlock sym :=
  mine (coinbaseBlock 20).getHash 21
    [coinbase (scriptPushHeight 21 ++ [0]) [⟨500 * coin + 100, opTrue⟩],
      payment [⟨900, opTrue⟩]] none

/-- Connecting this block raises the value of all coins by its subsidy, without wrapping. -/
theorem no_inflation_feeBlock :
    ∃ r, connectBlock lenientEnv lateParams matureState.1 feeBlock matureState.2 = .ok r ∧
      r.tip.coins.totalValue ≤ matureState.2.coins.totalValue + 5 * 10 ^ 10 ∧
      r.tip.coins.totalValue ≤ subsidySum lateParams 21 ∧
      SumsExact lenientEnv lateParams matureState.1 feeBlock matureState.2 := by
  have hchain : ConnectedChain lenientEnv lateParams (fun _ _ => True) matureState.1
      matureState.2 := .connectNext (eq_ok_toOption_get connectMature_isSome)
  have hok : (connectBlock lenientEnv lateParams matureState.1 feeBlock matureState.2).isOk =
      true := by decide +kernel
  obtain ⟨r, hconnect⟩ := exists_eq_ok_of_isOk hok
  obtain ⟨hstep, hsum, hexact⟩ := no_inflation _ _ _ _ _ r hchain hconnect
  have hheight : matureState.1.nHeight + 1 = 21 := by decide +kernel
  have hlength : matureState.1.length = 21 := by decide +kernel
  have hsubsidy : (getBlockSubsidy lateParams 21).toInt = 5 * 10 ^ 10 := by decide
  rw [hheight, hsubsidy] at hstep
  rw [hlength] at hsum
  exact ⟨r, hconnect, hstep, hsum, hexact (by decide +kernel)⟩

end Example

end Aegisum
