import Aegisum.Node.CheckBlock
import Aegisum.Node.Coins

/-!
# Connecting a block

`CChainState::ConnectBlock`: the block is checked again, its transactions are checked against the
coins and applied one after the other, the coinbase is compared with fees and subsidy, and the
extension block is connected.  The result is the new state together with the index entry of the
block and the undo data.

The view is the one of the previous block.  The script checks run in sequence; running them on
other threads moves a failure behind the check of the coinbase.
-/

namespace Aegisum

variable {P : Primitives}

/-! ### Subsidy and relative lock times -/

/-- The subsidy of a block. -/
def getBlockSubsidy (params : ConsensusParams P) (nHeight : ℤ) : CAmount :=
  if nHeight = 1 ∨ nHeight = 2 then 1000000 * coin
  else if nHeight = 3 then 600000 * coin
  else
    let halvings := (nHeight / params.nSubsidyHalvingInterval).toNat
    if halvings ≥ 64 then 0 else Int64.ofInt ((500 * coin).toInt >>> halvings)

/-- The lowest height and time at which an input may be spent, as a running maximum over the
inputs with the heights of the coins they spend. -/
def addSequenceLock (prev : Chain P) (lockPair : ℤ × ℤ) (input : CTxIn P × ℤ) : ℤ × ℤ :=
  let nSequence := input.1.nSequence
  if nSequence.testBit 31 then lockPair
  else if nSequence.testBit 22 then
    let nCoinTime := (prev.getAncestor (max (input.2 - 1) 0)).getMedianTimePast
    (lockPair.1, max lockPair.2 (nCoinTime + ((nSequence % 2 ^ 16) <<< 9 : ℕ) - 1))
  else (max lockPair.1 (input.2 + (nSequence % 2 ^ 16 : ℕ) - 1), lockPair.2)

/-- The last height and time at which the transaction is still locked. -/
def calculateSequenceLocks (enforce : Bool) (tx : CTransaction P) (prevHeights : List ℤ)
    (prev : Chain P) : ℤ × ℤ :=
  if 2 ≤ tx.nVersion % 2 ^ 32 ∧ enforce then
    (tx.vin.zip prevHeights).foldl (addSequenceLock prev) (-1, -1)
  else (-1, -1)

/-- The relative lock times allow the transaction in the block after `prev`. -/
def sequenceLocks (enforce : Bool) (tx : CTransaction P) (prevHeights : List ℤ)
    (prev : Chain P) : Bool :=
  let lockPair := calculateSequenceLocks enforce tx prevHeights prev
  lockPair.1 < prev.nHeight + 1 && lockPair.2 < prev.getMedianTimePast

/-! ### Transactions -/

/-- The state a block is connected to: the unspent canonical coins and the MWEB view. -/
structure CoinsTip (P : Primitives) where
  coins : Coins P
  mweb : Mw.CoinsView P

/-- The view of coins that the checks of a transaction use. -/
def coinsView (coins : Coins P) (mweb : Mw.CoinsView P) : CCoinsView P where
  getCoin := coins.get
  getMWEBCoin id := (mweb.utxos.get id).map (·.output)

/-- What is updated with every transaction. -/
structure ConnectState (P : Primitives) where
  view : CoinsCache P
  nFees : CAmount
  nSigOpsCost : ℕ
  vtxundo : List (List (Coin P))

/-- The state before the first transaction of a block. -/
def CoinsTip.connectState (tip : CoinsTip P) : ConnectState P := ⟨⟨tip.coins, []⟩, 0, 0, []⟩

/-- A failed check of a transaction makes the block invalid. -/
def asBlockFailure : TxFailure → BlockFailure
  | .invalid _ reason => .invalid .blockConsensus reason
  | .exception => .exception

/-- The coins a transaction spends. -/
def spentCoins (coins : Coins P) (tx : CTransaction P) : List (Coin P) :=
  tx.spentInputs.filterMap fun txin => coins.get txin.prevout

/-- The cost of the signature operations of a transaction. -/
def getTransactionSigOpCost (env : ScriptEnv P) (coins : Coins P) (flags : ℕ)
    (tx : CTransaction P) : ℕ :=
  getLegacySigOpCount env tx * witnessScaleFactor +
    (tx.spentInputs.map fun txin =>
      (coins.get txin.prevout).elim 0 fun coin => env.inputSigOpCost flags txin coin.out).sum

/-- The fees after a transaction: its inputs are checked against the coins and may be spent. -/
def addFee (params : ConsensusParams P) (prev : Chain P) (mweb : Mw.CoinsView P)
    (coins : Coins P) (nFees : CAmount) (tx : CTransaction P) : Except BlockFailure CAmount :=
  if tx.isCoinBase then .ok nFees
  else do
    let txfee ← ((coinsView coins mweb).checkTxInputs tx (prev.nHeight + 1)).mapError
      asBlockFailure
    rejectIf (¬ MoneyRange (nFees + txfee))
      (.invalid .blockConsensus "bad-txns-accumulated-fee-outofrange")
    rejectIf (!sequenceLocks (prev.nHeight + 1 ≥ params.csvHeight) tx
        ((spentCoins coins tx).map Coin.nHeight) prev)
      (.invalid .blockConsensus "bad-txns-nonfinal")
    pure (nFees + txfee)

/-- The scripts of the inputs are satisfied. -/
def checkScripts (env : ScriptEnv P) (prev : Chain P) (coins : Coins P) (tx : CTransaction P) :
    Except BlockFailure Unit :=
  if tx.isCoinBase then .ok ()
  else
    match env.checkInputScripts (env.getBlockScriptFlags prev) tx
        ((spentCoins coins tx).map Coin.out) with
    | none => .ok ()
    | some reason => .error (.invalid .blockConsensus reason)

variable [NodeCrypto P]

/-- Check a transaction against the coins and apply it. -/
def connectTx (env : ScriptEnv P) (params : ConsensusParams P) (prev : Chain P)
    (mweb : Mw.CoinsView P) (s : ConnectState P) (tx : CTransaction P) :
    Except BlockFailure (ConnectState P) := do
  let nFees ← addFee params prev mweb s.view.coins s.nFees tx
  let nSigOpsCost := s.nSigOpsCost +
    getTransactionSigOpCost env s.view.coins (env.getBlockScriptFlags prev) tx
  rejectIf (nSigOpsCost > maxBlockSigopsCost) (.invalid .blockConsensus "bad-blk-sigops")
  checkScripts env prev s.view.coins tx
  let (vprevout, view) ← s.view.updateCoins tx (prev.nHeight + 1)
  pure ⟨view, nFees, nSigOpsCost, s.vtxundo ++ [vprevout]⟩

/-! ### Blocks -/

/-- The undo data of a block. -/
structure CBlockUndo (P : Primitives) where
  vtxundo : List (List (Coin P))
  mwundo : Option (Mw.BlockUndo P)

/-- A connected block: the new state, the index entry and the undo data. -/
structure ConnectedBlock (P : Primitives) where
  tip : CoinsTip P
  entry : CBlockIndex P
  undo : CBlockUndo P

/-- The hash of the block of an index entry. -/
def CBlockIndex.getBlockHash (e : CBlockIndex P) : P.Hash := NodeCrypto.blockHash e.header

/-- Existing coins may not be overwritten, unless the chain is the known one that enforces
heights in coinbases. -/
def enforceBIP30 (params : ConsensusParams P) (prev : Chain P) : Bool :=
  match (prev.getAncestor params.bip34Height).head? with
  | none => true
  | some e => e.getBlockHash ≠ params.bip34Hash

/-- Some output of the block has the outpoint of an unspent coin. -/
def overwritesCoin (coins : Coins P) (b : CBlock P) : Bool :=
  b.vtx.any fun tx => (List.range tx.vout.length).any fun o =>
    (coins.get ⟨tx.getHash, o⟩).isSome

/-- The index entry of a connected block. -/
def newEntry (b : CBlock P) : Except BlockFailure (CBlockIndex P) :=
  match b.mwebBlock with
  | none => .ok ⟨b.header, none, P.zeroHash, 0⟩
  | some mwebBlock => do
    let hogex ← orThrow b.getHogEx
    let hogAddr ← orThrow hogex.vout.head?
    pure ⟨b.header, some mwebBlock.header, hogex.getHash, hogAddr.nValue⟩

/-- Connect the transactions and the extension block of a checked block. -/
def connectChecked (env : ScriptEnv P) (params : ConsensusParams P) (prev : Chain P)
    (b : CBlock P) (tip : CoinsTip P) : Except BlockFailure (ConnectedBlock P) := do
  rejectIf (prev = []) .exception
  rejectIf (enforceBIP30 params prev && overwritesCoin tip.coins b)
    (.invalid .blockConsensus "bad-txns-BIP30")
  let s ← b.vtx.foldlM (connectTx env params prev tip.mweb) tip.connectState
  let coinbase ← orThrow b.vtx.head?
  let valueOut ← orThrow coinbase.getValueOut
  rejectIf (valueOut > s.nFees + getBlockSubsidy params (prev.nHeight + 1))
    (.invalid .blockConsensus "bad-cb-amount")
  let (mwundo, mweb) ← MwebNode.connectBlock params prev b tip.mweb
  let entry ← newEntry b
  -- the first transaction is the coinbase, which has no undo data
  pure ⟨⟨s.view.coins, mweb⟩, entry, ⟨s.vtxundo.tail, mwundo⟩⟩

/-- Connect a block.  A block that fails the repeated checks as mutated shuts the node down; the
transactions of the genesis block are not connected. -/
def connectBlock (env : ScriptEnv P) (params : ConsensusParams P) (prev : Chain P)
    (b : CBlock P) (tip : CoinsTip P) : Except BlockFailure (ConnectedBlock P) :=
  match checkBlock env params b with
  | .error (.invalid .blockMutated _) => .error .exception
  | .error e => .error e
  | .ok _ =>
    if b.getHash = params.hashGenesisBlock then
      .ok ⟨tip, ⟨b.header, none, P.zeroHash, 0⟩, ⟨[], none⟩⟩
    else connectChecked env params prev b tip

/-! ### What connecting establishes -/

/-- What connecting one transaction establishes. -/
structure TxConnected (prev : Chain P) (mweb : Mw.CoinsView P) (s : ConnectState P)
    (tx : CTransaction P) (vprevout : List (Coin P)) (s' : ConnectState P) : Prop where
  updated : s.view.Updated tx (prev.nHeight + 1) vprevout s'.view
  fees_coinbase : tx.isCoinBase = true → s'.nFees = s.nFees
  fees : tx.isCoinBase = false → ∃ txfee, (coinsView s.view.coins mweb).checkTxInputs tx
    (prev.nHeight + 1) = .ok txfee ∧ s'.nFees = s.nFees + txfee ∧ MoneyRange s'.nFees

variable {prev : Chain P} {params : ConsensusParams P}

omit [NodeCrypto P] in
private lemma addFee_eq_ok {mweb : Mw.CoinsView P} {coins : Coins P} {nFees nFees' : CAmount}
    {tx : CTransaction P} (h : addFee params prev mweb coins nFees tx = .ok nFees') :
    (tx.isCoinBase = true → nFees' = nFees) ∧
      (tx.isCoinBase = false → ∃ txfee, (coinsView coins mweb).checkTxInputs tx
        (prev.nHeight + 1) = .ok txfee ∧ nFees' = nFees + txfee ∧ MoneyRange nFees') := by
  unfold addFee at h
  split at h
  case isTrue hcb =>
    obtain rfl := Except.ok.inj h
    exact ⟨fun _ => rfl, fun hncb => by simp [hcb] at hncb⟩
  case isFalse hcb =>
    obtain ⟨txfee, hfee, h⟩ := bind_eq_ok.mp h
    obtain ⟨hrange, h⟩ := rejectIf_bind_eq_ok.mp h
    replace h := of_rejectIf h
    obtain rfl := Except.ok.inj h
    exact ⟨fun h => absurd h hcb,
      fun _ => ⟨txfee, mapError_eq_ok.mp hfee, rfl, not_not.mp hrange⟩⟩

lemma txConnected_of_connectTx {env : ScriptEnv P} {mweb : Mw.CoinsView P} {s s' : ConnectState P}
    {tx : CTransaction P} (h : connectTx env params prev mweb s tx = .ok s') :
    ∃ vprevout, TxConnected prev mweb s tx vprevout s' := by
  obtain ⟨nFees, hfee, h⟩ := bind_eq_ok.mp h
  replace h := of_rejectIf h
  obtain ⟨_, -, h⟩ := bind_eq_ok.mp h
  obtain ⟨⟨vprevout, view⟩, hupdate, h⟩ := bind_eq_ok.mp h
  obtain rfl := Except.ok.inj h
  obtain ⟨hcoinbase, hother⟩ := addFee_eq_ok hfee
  exact ⟨vprevout, CoinsCache.updated_of_updateCoins hupdate, hcoinbase, hother⟩

/-- What `ConnectBlock` establishes for a block other than the genesis block; `s` is the state
after the last transaction. -/
structure BlockConnected (env : ScriptEnv P) (params : ConsensusParams P) (prev : Chain P)
    (b : CBlock P) (tip : CoinsTip P) (s : ConnectState P) (r : ConnectedBlock P) : Prop where
  checked : CheckedBlock b
  prev_ne_nil : prev ≠ []
  no_overwrite : enforceBIP30 params prev = true → overwritesCoin tip.coins b = false
  loop : b.vtx.foldlM (connectTx env params prev tip.mweb) tip.connectState = .ok s
  reward : ∃ coinbase valueOut, b.vtx.head? = some coinbase ∧
    coinbase.getValueOut = some valueOut ∧
    valueOut ≤ s.nFees + getBlockSubsidy params (prev.nHeight + 1)
  mweb_connected : MwebNode.connectBlock params prev b tip.mweb = .ok (r.undo.mwundo, r.tip.mweb)
  entry_eq : newEntry b = .ok r.entry
  coins_eq : r.tip.coins = s.view.coins

variable {b : CBlock P}

/-- A connected block is the genesis block, which changes nothing, or passes all checks. -/
lemma connectBlock_cases {env : ScriptEnv P} {tip : CoinsTip P} {r : ConnectedBlock P}
    (h : connectBlock env params prev b tip = .ok r) :
    checkBlock env params b = .ok () ∧
      ((b.getHash = params.hashGenesisBlock ∧
          r = ⟨tip, ⟨b.header, none, P.zeroHash, 0⟩, ⟨[], none⟩⟩) ∨
        (b.getHash ≠ params.hashGenesisBlock ∧
          ∃ s, BlockConnected env params prev b tip s r)) := by
  unfold connectBlock at h
  split at h
  case h_1 => cases h
  case h_2 => cases h
  case h_3 hcheck =>
    refine ⟨hcheck, ?_⟩
    split at h
    case isTrue hgenesis => exact .inl ⟨hgenesis, (Except.ok.inj h).symm⟩
    case isFalse hgenesis =>
      refine .inr ⟨hgenesis, ?_⟩
      obtain ⟨hprev, h⟩ := rejectIf_bind_eq_ok.mp h
      obtain ⟨hbip30, h⟩ := rejectIf_bind_eq_ok.mp h
      obtain ⟨s, hloop, h⟩ := bind_eq_ok.mp h
      obtain ⟨coinbase, hcoinbase, h⟩ := bind_eq_ok.mp h
      obtain ⟨valueOut, hvalue, h⟩ := bind_eq_ok.mp h
      obtain ⟨hreward, h⟩ := rejectIf_bind_eq_ok.mp h
      obtain ⟨⟨mwundo, mweb⟩, hmweb, h⟩ := bind_eq_ok.mp h
      obtain ⟨entry, hentry, h⟩ := bind_eq_ok.mp h
      obtain rfl := Except.ok.inj h
      refine ⟨s, checkedBlock_of_checkBlock hcheck, hprev, fun hon => ?_, hloop,
        ⟨coinbase, valueOut, orThrow_eq_ok.mp hcoinbase, orThrow_eq_ok.mp hvalue,
          Int64.not_lt.mp hreward⟩, hmweb, hentry, rfl⟩
      simpa [hon] using hbip30

/-- The index entry of a block without an extension block. -/
lemma newEntry_of_none (h : b.mwebBlock = none) :
    newEntry b = .ok ⟨b.header, none, P.zeroHash, 0⟩ := by
  simp [newEntry, h]

/-- The index entry of a block with an extension block comes from its HogEx. -/
lemma newEntry_of_some {mwebBlock : Mw.Block P} {e : CBlockIndex P}
    (hattached : b.mwebBlock = some mwebBlock) (h : newEntry b = .ok e) :
    ∃ hogex hogAddr, 2 ≤ b.vtx.length ∧ b.vtx.getLast? = some hogex ∧
      hogex.vout.head? = some hogAddr ∧
      e = ⟨b.header, some mwebBlock.header, hogex.getHash, hogAddr.nValue⟩ := by
  unfold newEntry at h
  rw [hattached] at h
  obtain ⟨hogex, hhogex, h⟩ := bind_eq_ok.mp h
  obtain ⟨hogAddr, hhogAddr, h⟩ := bind_eq_ok.mp h
  have hget := orThrow_eq_ok.mp hhogex
  unfold CBlock.getHogEx at hget
  split at hget
  case isFalse => cases hget
  case isTrue hlen =>
    exact ⟨hogex, hogAddr, hlen, (Option.filter_eq_some_iff.mp hget).1,
      orThrow_eq_ok.mp hhogAddr, (Except.ok.inj h).symm⟩

/-- Every index entry holds the header of its block. -/
lemma newEntry_header {e : CBlockIndex P} (h : newEntry b = .ok e) : e.header = b.header := by
  cases hattached : b.mwebBlock with
  | none =>
    obtain rfl := Except.ok.inj ((newEntry_of_none hattached).symm.trans h)
    rfl
  | some mwebBlock =>
    obtain ⟨_, _, -, -, -, rfl⟩ := newEntry_of_some hattached h
    rfl

/-! ### Chains of connected blocks -/

/-- The state before the genesis block. -/
def CoinsTip.empty : CoinsTip P := ⟨FiniteMap.empty, Mw.CoinsView.empty⟩

/-- The chains that are connected block by block from the empty state, where every block meets
the condition `ok` for the chain before it. -/
inductive ConnectedChain (env : ScriptEnv P) (params : ConsensusParams P)
    (ok : Chain P → CBlock P → Prop) : Chain P → CoinsTip P → Prop
  | empty : ConnectedChain env params ok [] CoinsTip.empty
  | connectBlock {c : Chain P} {tip : CoinsTip P} {b : CBlock P} {r : ConnectedBlock P}
      (h : ConnectedChain env params ok c tip) (hok : ok c b)
      (hconnect : connectBlock env params c b tip = .ok r) :
      ConnectedChain env params ok (r.entry :: c) r.tip

section ConnectNext

variable (env : ScriptEnv P) (params : ConsensusParams P) (ok : Chain P → CBlock P → Prop)
  [∀ c b, Decidable (ok c b)]

/-- Connect a block if it meets the condition. -/
def connectNext (s : Chain P × CoinsTip P) (b : CBlock P) :
    Except BlockFailure (Chain P × CoinsTip P) := do
  rejectIf (¬ ok s.1 b) .exception
  let r ← connectBlock env params s.1 b s.2
  pure (r.entry :: s.1, r.tip)

variable {env params ok}

/-- Connecting a list of blocks gives a chain of connected blocks. -/
lemma ConnectedChain.connectNext {blocks : List (CBlock P)} {s : Chain P × CoinsTip P}
    (hloop : blocks.foldlM (Aegisum.connectNext env params ok) ([], CoinsTip.empty) = .ok s) :
    ConnectedChain env params ok s.1 s.2 := by
  refine foldlM_keeps (I := fun s => ConnectedChain env params ok s.1 s.2)
    (fun b _ s s' h hstep => ?_) hloop .empty
  obtain ⟨hok, hstep⟩ := rejectIf_bind_eq_ok.mp hstep
  obtain ⟨r, hconnect, hstep⟩ := bind_eq_ok.mp hstep
  obtain rfl := Except.ok.inj hstep
  exact h.connectBlock (not_not.mp hok) hconnect

end ConnectNext

end Aegisum
