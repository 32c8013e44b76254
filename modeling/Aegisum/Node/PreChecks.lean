import Aegisum.Node.LockPoints
import Aegisum.Node.MempoolIndex
import Aegisum.Node.Reserve
import Aegisum.Node.TemplateHogEx
import Aegisum.Node.UndoRestore

/-!
# Replacing transactions of the memory pool

`MemPoolAccept::PreChecks` and `AcceptSingleTransaction`.  A transaction may replace entries that
spend the same outputs.  The limits on packages are then relaxed by what is replaced, on the
grounds that the replacement is not to depend on entries that the replaced transactions do not
depend on.  The check of that rule goes through the canonical inputs of the replacement.
-/

namespace Aegisum

variable {P : Primitives}

/-! ### What a transaction is admitted to -/

/-- An output is unspent. -/
def CoinsTip.haveCoin (tip : CoinsTip P) : OutputIndex P → Bool
  | .canonical o => (tip.coins.get o).isSome
  | .mweb id => (tip.mweb.utxos.get id).isSome

/-- The active chain with the coins of its tip, and the memory pool. -/
structure PoolState (P : Primitives) where
  chain : Chain P
  tip : CoinsTip P
  pool : CTxMemPool P

namespace PoolState

/-- `CTxMemPool::get`. -/
def get (s : PoolState P) (h : P.Hash) : Option (CTransaction P) := (s.pool.entry h).map (·.tx)

/-- The coins that a transaction of the pool may spend. -/
def view (s : PoolState P) : COutPoint P → Option (Coin P) := viewMemPool s.tip.coins s.get

/-- `HaveCoin` of a cache on top of the memory pool. -/
def haveCoin (s : PoolState P) : OutputIndex P → Bool
  | .canonical o => (s.view o).isSome
  | .mweb id => (s.pool.mapNextTx (.mweb id)).isNone &&
    ((s.pool.mapTxOutputsMWEB id).isSome || s.tip.haveCoin (.mweb id))

/-- `CheckFinalTx` with the standard flags. -/
def checkFinalTx (s : PoolState P) (tx : CTransaction P) : Bool :=
  isFinalTx tx (s.chain.nHeight + 1) s.chain.getMedianTimePast

end PoolState

/-! ### Fee rates -/

/-- `CFeeRate`: what is paid for 1000 bytes once the MWEB weight is paid for. -/
def feeRate (nFeePaid nBytes : ℤ) (mwebWeight : ℕ) : ℤ :=
  let mwebFee := mwebWeight * baseMwebFee
  if 0 < mwebFee ∧ nFeePaid < mwebFee then 0
  else if 0 < nBytes then ((nFeePaid - mwebFee) * 1000).tdiv nBytes
  else 0

/-- `CFeeRate::GetTotalFee`. -/
def getTotalFee (nSatoshisPerK nBytes : ℤ) (mwebWeight : ℕ) : ℤ :=
  let nFee := (nSatoshisPerK * nBytes).tdiv 1000
  (if nFee = 0 ∧ nBytes ≠ 0 then nSatoshisPerK.sign else nFee) + mwebWeight * baseMwebFee

/-! ### Settings and results -/

/-- The settings of the node, and the checks that look at scripts and at caches. -/
structure AcceptEnv (P : Primitives) where
  params : ConsensusParams P
  fRequireStandard : Bool
  /-- The argument `-mempoolreplacement`. -/
  mempoolReplacement : Bool
  /-- `IsStandardTx`: why the transaction is not standard. -/
  isStandardTx : CTransaction P → Option String
  /-- `AreInputsStandard`. -/
  areInputsStandard : (COutPoint P → Option (Coin P)) → CTransaction P → Bool
  /-- `IsWitnessStandard`. -/
  isWitnessStandard : (COutPoint P → Option (Coin P)) → CTransaction P → Bool
  /-- `GetTransactionSigOpCost` with the standard flags. -/
  getTransactionSigOpCost : (COutPoint P → Option (Coin P)) → CTransaction P → ℤ
  /-- `HaveCoinInCache` of the coins of the tip. -/
  haveCoinInCache : OutputIndex P → Bool
  /-- `GetMinFee` of the pool, the relay fee and the fee for replacements, for 1000 bytes. -/
  getMinFee : CTxMemPool P → ℤ
  minRelayTxFee : ℤ
  incrementalRelayFee : ℤ
  ancestorLimit : ℕ
  ancestorSizeLimit : ℕ
  descendantLimit : ℕ
  descendantSizeLimit : ℕ
  /-- `PolicyScriptChecks` and `ConsensusScriptChecks`. -/
  checkScripts : PoolState P → CTransaction P → Except TxFailure Unit
  /-- `LimitMempoolSize`. -/
  limitMempoolSize : CTxMemPool P → CTxMemPool P

/-- What the checks have found out. -/
structure Workspace (P : Primitives) where
  conflicts : List P.Hash
  allConflicting : List P.Hash
  ancestors : List P.Hash
  entry : CTxMemPoolEntry P
  lockPoints : LockPoints P
  modifiedFees : ℤ
  conflictingFees : ℤ
  conflictingSize : ℤ

/-- The largest sequence number that allows a replacement. -/
def maxBIP125RBFSequence : ℕ := 0xfffffffd

/-- The least size of a standard transaction without witnesses. -/
def minStandardTxNonwitnessSize : ℕ := 82

/-- The largest cost of signature operations of a standard transaction. -/
def maxStandardTxSigopsCost : ℕ := maxBlockSigopsCost / 5

/-- The largest size of a transaction that may exceed the limit on descendants. -/
def extraDescendantTxSizeLimit : ℕ := 10000

namespace MemPoolAccept

variable (env : AcceptEnv P) (pool : CTxMemPool P)

/-! ### Conflicts -/

/-- An entry may be replaced. -/
def signalsReplacement (h : P.Hash) : Bool :=
  env.mempoolReplacement && (pool.entry h).any fun e =>
    e.tx.vin.any fun txin => txin.nSequence ≤ maxBIP125RBFSequence

/-- Add the entry that spends the output of an input. -/
def addConflict (setConflicts : List P.Hash) (input : OutputIndex P) :
    Except TxFailure (List P.Hash) :=
  match pool.mapNextTx input with
  | none => .ok setConflicts
  | some h =>
    if h ∈ setConflicts then .ok setConflicts
    else do
      rejectIf (!signalsReplacement env pool h) (.invalid .txMempoolPolicy "txn-mempool-conflict")
      pure (setConflicts ++ [h])

/-- The limits, with what is replaced by a transaction with a single conflict. -/
def limitsFor (setConflicts : List P.Hash) : ℕ × ℕ :=
  match setConflicts with
  | [h] => (env.descendantLimit + 1, env.descendantSizeLimit +
      ((pool.entry h).elim 0 fun e => e.nSizeWithDescendants).toNat)
  | _ => (env.descendantLimit, env.descendantSizeLimit)

/-- The ancestors of a new transaction.  A small transaction with one parent may exceed the limit
on descendants. -/
def findAncestors (setConflicts : List P.Hash) (entry : MemPoolEntry P) :
    Except TxFailure (List P.Hash) :=
  let (descendants, descendantSize) := limitsFor env pool setConflicts
  match pool.calculateMemPoolAncestors entry
      ⟨some env.ancestorLimit, some env.ancestorSizeLimit, some descendants, some descendantSize⟩
      true with
  | .ok ancestors => .ok ancestors
  | .error _ => do
    rejectIf ((extraDescendantTxSizeLimit : ℤ) < entry.getTxSize)
      (.invalid .txMempoolPolicy "too-long-mempool-chain")
    (pool.calculateMemPoolAncestors entry
      ⟨some 2, some env.ancestorSizeLimit, some (descendants + 1),
        some (descendantSize + extraDescendantTxSizeLimit)⟩ true).mapError
        fun _ => .invalid .txMempoolPolicy "too-long-mempool-chain"

/-! ### Replacements -/

/-- What `setConflictsParents` gets for an entry. -/
def conflictParents (e : MemPoolEntry P) : List P.Hash :=
  e.tx.getInputs.filterMap fun
    | .mweb id => pool.mapTxOutputsMWEB id
    | .canonical prevout => some prevout.hash

/-- The rules for a transaction that replaces entries: a higher fee rate than each of them, not too
many descendants, no new unconfirmed parents, and fees for all that leaves and for the relay. -/
def checkReplacement (entry : CTxMemPoolEntry P) (nModifiedFees : ℤ) (setConflicts : List P.Hash) :
    Except TxFailure (List P.Hash × ℤ × ℤ) := do
  let conflicting := setConflicts.filterMap pool.entry
  rejectIf (conflicting.any fun e =>
      feeRate nModifiedFees entry.getTxSize entry.mwebWeight ≤
        feeRate e.getModifiedFee e.getTxSize e.mwebWeight)
    (.invalid .txMempoolPolicy "insufficient fee")
  let setConflictsParents := conflicting.flatMap (conflictParents pool)
  rejectIf (100 < (conflicting.map (·.nCountWithDescendants)).sum)
    (.invalid .txMempoolPolicy "too many potential replacements")
  let allConflicting := pool.descendantsOfAll (setConflicts.filter (· ∈ pool.mapTx))
  let nConflictingFees := pool.sumOver allConflicting MemPoolEntry.getModifiedFee
  rejectIf (entry.tx.vin.any fun txin =>
      txin.prevout.hash ∉ setConflictsParents ∧ txin.prevout.hash ∈ pool.mapTx)
    (.invalid .txMempoolPolicy "replacement-adds-unconfirmed")
  rejectIf (nModifiedFees < nConflictingFees) (.invalid .txMempoolPolicy "insufficient fee")
  rejectIf (nModifiedFees - nConflictingFees <
      getTotalFee env.incrementalRelayFee entry.getTxSize entry.mwebWeight)
    (.invalid .txMempoolPolicy "insufficient fee")
  pure (allConflicting, nConflictingFees, pool.sumOver allConflicting (·.getTxSize))

/-- The rules for replacements, where there is something to replace. -/
def checkConflicts (entry : CTxMemPoolEntry P) (nModifiedFees : ℤ) (setConflicts : List P.Hash) :
    Except TxFailure (List P.Hash × ℤ × ℤ) :=
  if setConflicts.isEmpty then .ok ([], 0, 0)
  else checkReplacement env pool entry nModifiedFees setConflicts

/-- `CheckFeeRate`. -/
def checkFeeRate (packageSize : ℤ) (mwebWeight : ℕ) (packageFee : ℤ) : Except TxFailure Unit := do
  let mempoolRejectFee := getTotalFee (env.getMinFee pool) packageSize mwebWeight
  rejectIf (0 < mempoolRejectFee ∧ packageFee < mempoolRejectFee)
    (.invalid .txMempoolPolicy "mempool min fee not met")
  rejectIf (packageFee < getTotalFee env.minRelayTxFee packageSize mwebWeight)
    (.invalid .txMempoolPolicy "min relay fee not met")

/-! ### The checks -/

omit pool

/-- `CCoinsViewMemPool::GetMWEBCoin`: an output that an entry spends is not there; below those of
the entries are the outputs of the tip. -/
def getMWEBCoin [NodeCrypto P] (s : PoolState P) (id : P.Hash) : Option (Mw.Output P) :=
  if (s.pool.mapNextTx (.mweb id)).isSome then none
  else
    match s.pool.mapTxOutputsMWEB id with
    | some h => (s.get h).bind fun tx =>
        (tx.mwebTx.elim [] (·.body.outputs)).find? (·.getOutputID = id)
    | none => (s.tip.mweb.utxos.get id).map (·.output)

/-- Only standard transactions, where that is required. -/
def checkStandard (tx : CTransaction P) : Except TxFailure Unit :=
  if env.fRequireStandard then
    (env.isStandardTx tx).elim (.ok ()) fun reason => .error (.invalid .txNotStandard reason)
  else .ok ()

variable [NodeCrypto P]

/-- The checks of the transaction and of its inputs, with the conflicts, the lock points and the
fee. -/
def checkInputs (s : PoolState P) (tx : CTransaction P) :
    Except TxFailure (List P.Hash × LockPoints P × CAmount) := do
  checkTransaction tx
  rejectIf (tx.hasMWEBTx && !env.params.isMWEBEnabled s.chain)
    (.invalid .txNotStandard "mweb-before-activation")
  MwebNode.checkTransaction tx
  rejectIf tx.isCoinBase (.invalid .txConsensus "coinbase")
  rejectIf tx.isHogEx (.invalid .txConsensus "hogex")
  checkStandard env tx
  rejectIf (!tx.isMWEBOnly && tx.strippedSize < minStandardTxNonwitnessSize)
    (.invalid .txNotStandard "tx-size-small")
  rejectIf (!s.checkFinalTx tx) (.invalid .txPrematureSpend "non-final")
  rejectIf (tx.getHash ∈ s.pool.mapTx) (.invalid .txConflict "txn-already-in-mempool")
  let setConflicts ← tx.getInputs.foldlM (addConflict env s.pool) []
  rejectIf (!tx.getInputs.all s.haveCoin)
    (if tx.getOutputs.any env.haveCoinInCache then .invalid .txConflict "txn-already-known"
      else .invalid .txMissingInputs "bad-txns-inputs-missingorspent")
  let locks := checkSequenceLocks s.chain s.view true tx .new false
  rejectIf (!locks.1) (.invalid .txPrematureSpend "non-BIP68-final")
  let nFees ← (CCoinsView.mk s.view (getMWEBCoin s)).checkTxInputs tx (s.chain.nHeight + 1)
  rejectIf (env.fRequireStandard && !env.areInputsStandard s.view tx)
    (.invalid .txInputsNotStandard "bad-txns-nonstandard-inputs")
  rejectIf (tx.hasWitness && env.fRequireStandard && !env.isWitnessStandard s.view tx)
    (.invalid .txWitnessMutated "bad-witness-nonstandard")
  pure (setConflicts, locks.2, nFees)

/-- `MemPoolAccept::PreChecks`. -/
def preChecks (bypassLimits : Bool) (s : PoolState P) (tx : CTransaction P) :
    Except TxFailure (Workspace P) := do
  let (setConflicts, lp, nFees) ← checkInputs env s tx
  let nSigOpsCost := env.getTransactionSigOpCost s.view tx
  let nModifiedFees := nFees.toInt + s.pool.mapDeltas tx.getHash
  let entry : CTxMemPoolEntry P :=
    ⟨tx, nFees, nSigOpsCost, getTransactionWeight tx, tx.mwebTx.elim 0 (·.body.calculateWeight)⟩
  rejectIf ((maxStandardTxSigopsCost : ℤ) < nSigOpsCost)
    (.invalid .txNotStandard "bad-txns-too-many-sigops")
  (if bypassLimits then .ok ()
    else checkFeeRate env s.pool entry.getTxSize entry.mwebWeight nModifiedFees)
  let setAncestors ← findAncestors env s.pool setConflicts (.new entry)
  rejectIf (setAncestors.any (· ∈ setConflicts))
    (.invalid .txConsensus "bad-txns-spends-conflicting-tx")
  let (allConflicting, nConflictingFees, nConflictingSize) ←
    checkConflicts env s.pool entry nModifiedFees setConflicts
  pure ⟨setConflicts, allConflicting, setAncestors, entry, lp, nModifiedFees, nConflictingFees,
    nConflictingSize⟩

/-- `AcceptSingleTransaction`, with `Finalize`: the answer, and the pool with the transaction in the
place of what it replaces. -/
def acceptSingleTransaction (s : PoolState P) (tx : CTransaction P) :
    Except TxFailure Unit × CTxMemPool P :=
  match preChecks env false s tx with
  | .error failure => (.error failure, s.pool)
  | .ok ws =>
    match env.checkScripts s tx with
    | .error failure => (.error failure, s.pool)
    | .ok _ =>
      let pool := env.limitMempoolSize
        ((s.pool.removeStaged ws.allConflicting false).addUnchecked (.new ws.entry) ws.ancestors)
      if tx.getHash ∈ pool.mapTx then (.ok (), pool)
      else (.error (.invalid .txMempoolPolicy "mempool full"), pool)

/-! ### What is found -/

variable {env}

omit [NodeCrypto P] in
/-- The conflicts are the entries that spend an output of the inputs. -/
lemma mem_of_addConflict {pool : CTxMemPool P} {inputs : List (OutputIndex P)}
    {setConflicts setConflicts' : List P.Hash}
    (h : inputs.foldlM (addConflict env pool) setConflicts = .ok setConflicts') (c : P.Hash) :
    c ∈ setConflicts' ↔ c ∈ setConflicts ∨ ∃ i ∈ inputs, pool.mapNextTx i = some c := by
  induction inputs generalizing setConflicts with
  | nil =>
    obtain rfl := Except.ok.inj h
    simp
  | cons i inputs ih =>
    obtain ⟨mid, hstep, hrest⟩ := foldlM_cons_eq_ok.mp h
    have hmid : c ∈ mid ↔ c ∈ setConflicts ∨ pool.mapNextTx i = some c := by
      unfold addConflict at hstep
      split at hstep
      · next hnone =>
        obtain rfl := Except.ok.inj hstep
        simp [hnone]
      · next h' hsome =>
        rw [hsome, Option.some.injEq]
        split at hstep
        · next hin =>
          obtain rfl := Except.ok.inj hstep
          exact ⟨.inl, fun hc => hc.elim id fun heq => heq ▸ hin⟩
        · replace hstep := of_rejectIf hstep
          obtain rfl := Except.ok.inj hstep
          rw [List.mem_append, List.mem_singleton, eq_comm (a := c)]
    rw [ih hrest, hmid, List.exists_mem_cons_iff, or_assoc]

/-- The conflicts of a transaction that passes the checks. -/
lemma mem_conflicts_of_checkInputs {s : PoolState P} {tx : CTransaction P}
    {setConflicts : List P.Hash} {lp : LockPoints P} {nFees : CAmount}
    (h : checkInputs env s tx = .ok (setConflicts, lp, nFees)) (c : P.Hash) :
    c ∈ setConflicts ↔ ∃ i ∈ tx.getInputs, s.pool.mapNextTx i = some c := by
  unfold checkInputs at h
  obtain ⟨_, -, h⟩ := bind_eq_ok.mp h
  replace h := of_rejectIf h
  obtain ⟨_, -, h⟩ := bind_eq_ok.mp h
  replace h := of_rejectIf h
  replace h := of_rejectIf h
  obtain ⟨_, -, h⟩ := bind_eq_ok.mp h
  replace h := of_rejectIf h
  replace h := of_rejectIf h
  replace h := of_rejectIf h
  obtain ⟨found, hfound, h⟩ := bind_eq_ok.mp h
  replace h := of_rejectIf h
  replace h := of_rejectIf h
  obtain ⟨_, -, h⟩ := bind_eq_ok.mp h
  replace h := of_rejectIf h
  replace h := of_rejectIf h
  obtain ⟨rfl, -⟩ := Prod.mk.inj (Except.ok.inj h)
  simpa using mem_of_addConflict hfound c

omit [NodeCrypto P] in
/-- A replacement has canonical inputs of entries only where a conflict has a parent of that id. -/
lemma mem_conflictParents_of_checkReplacement {pool : CTxMemPool P} {entry : CTxMemPoolEntry P}
    {nModifiedFees : ℤ} {setConflicts : List P.Hash} {result : List P.Hash × ℤ × ℤ}
    (h : checkReplacement env pool entry nModifiedFees setConflicts = .ok result)
    {txin : CTxIn P} (htxin : txin ∈ entry.tx.vin) (hmem : txin.prevout.hash ∈ pool.mapTx) :
    ∃ c ∈ setConflicts, ∃ e, pool.entry c = some e ∧
      txin.prevout.hash ∈ conflictParents pool e := by
  replace h := of_rejectIf h
  replace h := of_rejectIf h
  obtain ⟨hparents, -⟩ := rejectIf_bind_eq_ok.mp h
  by_contra hnone
  refine hparents (List.any_eq_true.mpr ⟨txin, htxin, decide_eq_true ⟨fun hin => hnone ?_, hmem⟩⟩)
  obtain ⟨e, he, hin⟩ := List.mem_flatMap.mp hin
  obtain ⟨c, hc, hentry⟩ := List.mem_filterMap.mp he
  exact ⟨c, hc, e, hentry, hin⟩

omit [NodeCrypto P] in
/-- What `setConflictsParents` has of an entry are its parents, as far as they are in the pool. -/
lemma mem_parentsOf_of_mem_conflictParents {pool : CTxMemPool P} {e : MemPoolEntry P} {p : P.Hash}
    (h : p ∈ conflictParents pool e) (hmem : p ∈ pool.mapTx) : p ∈ pool.parentsOf e.tx := by
  obtain ⟨i, hi, hp⟩ := List.mem_filterMap.mp h
  refine List.mem_dedup.mpr (List.mem_filterMap.mpr ⟨i, hi, ?_⟩)
  cases i with
  | canonical prevout =>
    obtain rfl := Option.some.inj hp
    simp [CTxMemPool.getIter, hmem]
  | mweb id => simp [CTxMemPool.getIter, (hp : pool.mapTxOutputsMWEB id = some p), hmem]

/-- What is known of a replacement that passes the checks. -/
lemma replacement_of_preChecks {bypassLimits : Bool} {s : PoolState P} {tx : CTransaction P}
    {ws : Workspace P} (h : preChecks env bypassLimits s tx = .ok ws) (hne : ws.conflicts ≠ []) :
    (∀ c, c ∈ ws.conflicts ↔ ∃ i ∈ tx.getInputs, s.pool.mapNextTx i = some c) ∧
      ∀ txin ∈ tx.vin, txin.prevout.hash ∈ s.pool.mapTx → ∃ c ∈ ws.conflicts, ∃ e,
        s.pool.entry c = some e ∧ txin.prevout.hash ∈ s.pool.parentsOf e.tx := by
  obtain ⟨⟨setConflicts, lp, nFees⟩, hinputs, h⟩ := bind_eq_ok.mp h
  replace h := of_rejectIf h
  obtain ⟨_, -, h⟩ := bind_eq_ok.mp h
  obtain ⟨_, -, h⟩ := bind_eq_ok.mp h
  replace h := of_rejectIf h
  obtain ⟨result, hconflicts, h⟩ := bind_eq_ok.mp h
  obtain rfl := Except.ok.inj h
  rw [checkConflicts, if_neg (by simpa using hne)] at hconflicts
  refine ⟨mem_conflicts_of_checkInputs hinputs, fun txin htxin hmem => ?_⟩
  obtain ⟨c, hc, e, he, hparent⟩ := mem_conflictParents_of_checkReplacement hconflicts htxin hmem
  exact ⟨c, hc, e, he, mem_parentsOf_of_mem_conflictParents hparent hmem⟩

/-- Replacements and their parents: whatever is in the pool, every entry that a replacement depends
on is a parent of one of the transactions it is in conflict with, exactly if that is so for the
entries whose MWEB outputs it spends. -/
theorem preChecks_adds_no_parents_iff {bypassLimits : Bool} {s : PoolState P}
    {tx : CTransaction P} {ws : Workspace P} (h : preChecks env bypassLimits s tx = .ok ws)
    (hne : ws.conflicts ≠ []) :
    (∀ p ∈ s.pool.parentsOf tx, ∃ c ∈ ws.conflicts, ∃ e, s.pool.entry c = some e ∧
        p ∈ s.pool.parentsOf e.tx) ↔
      ∀ id ∈ tx.mwebSpentIDs, ∀ p, s.pool.getIter (.mweb id) = some p →
        ∃ c, (∃ i ∈ tx.getInputs, s.pool.mapNextTx i = some c) ∧
          ∃ e, s.pool.entry c = some e ∧ p ∈ s.pool.parentsOf e.tx := by
  obtain ⟨hconflicts, hcanonical⟩ := replacement_of_preChecks h hne
  constructor
  · intro hall id hid p hp
    have hinput : OutputIndex.mweb id ∈ tx.getInputs := by
      simpa [CTransaction.getInputs] using hid
    have hparent : p ∈ s.pool.parentsOf tx :=
      List.mem_dedup.mpr (List.mem_filterMap.mpr ⟨.mweb id, hinput, hp⟩)
    obtain ⟨c, hc, he⟩ := hall p hparent
    exact ⟨c, (hconflicts c).mp hc, he⟩
  · intro hmweb p hp
    obtain ⟨i, hi, hp⟩ := List.mem_filterMap.mp (List.mem_dedup.mp hp)
    cases i with
    | canonical prevout =>
      obtain ⟨txin, htxin, rfl⟩ := CTxMemPool.mem_getInputs_canonical.mp hi
      unfold CTxMemPool.getIter at hp
      dsimp only at hp
      split at hp
      · next hmem =>
        obtain rfl := Option.some.inj hp
        exact hcanonical txin htxin hmem
      · cases hp
    | mweb id =>
      obtain ⟨c, hc, he⟩ := hmweb id (by simpa [CTransaction.getInputs] using hi) p hp
      exact ⟨c, (hconflicts c).mpr hc, he⟩

end MemPoolAccept

/-! ### A new parent -/

namespace Symbolic

open CTxMemPool MemPoolAccept

/-- The default limits and fees, with replacements allowed. -/
def replacementEnv : AcceptEnv sym where
  params := earlyParams
  fRequireStandard := true
  mempoolReplacement := true
  isStandardTx _ := none
  areInputsStandard _ _ := true
  isWitnessStandard _ _ := true
  getTransactionSigOpCost _ _ := 0
  haveCoinInCache _ := false
  getMinFee _ := 0
  minRelayTxFee := 1000
  incrementalRelayFee := 1000
  ancestorLimit := 25
  ancestorSizeLimit := 101000
  descendantLimit := 25
  descendantSizeLimit := 101000
  checkScripts _ _ := .ok ()
  limitMempoolSize pool := pool

/-- A transaction that pays two amounts, with MWEB data. -/
def payTwo (prevout : COutPoint sym) (first : CTxOut sym) (nValue : CAmount)
    (mwebTx : Option (Mw.Transaction sym)) : CTransaction sym :=
  { spend [prevout] [first, ⟨nValue, opTrue⟩, ⟨1, opTrue⟩, ⟨1, opTrue⟩] with
    mwebTx := mwebTx
    hogEx_wf := by simp [spend] }

/-- A peg-in of ten units. -/
def poolMint : Mw.Transaction sym := mintTx

/-- An MWEB transaction that spends them. -/
def poolSpend : Mw.Transaction sym := spendTx (-4)

/-- The output of the peg-in. -/
def poolPegin : CTxOut sym := ⟨10, .mwebPegin mintKernel.getKernelID⟩

/-- The only coin of the tip. -/
def fundingOut : COutPoint sym := ⟨.word 77, 0⟩

/-- A memory pool on top of that coin, with transactions and their fees and ancestors. -/
def poolWith (txs : List (CTransaction sym × CAmount × List Digest)) : PoolState sym where
  chain := plainChain
  tip := ⟨FiniteMap.empty.set fundingOut (some ⟨⟨1000000, opTrue⟩, 1, false, false⟩),
    Mw.CoinsView.empty⟩
  pool := txs.foldl (fun pool (tx, nFee, setAncestors) => pool.addUnchecked
    (.new ⟨tx, nFee, 0, getTransactionWeight tx, tx.mwebTx.elim 0 (·.body.calculateWeight)⟩)
    setAncestors) empty

/-- A transaction with two outputs, a peg-in that spends the first one, and a payment of the second
one. -/
def splitParent : CTransaction sym := payTwo fundingOut ⟨10000, opTrue⟩ 900000 none

def splitMint : CTransaction sym := payTwo ⟨splitParent.getHash, 0⟩ poolPegin 1 (some poolMint)

def splitPayment (nValue : CAmount) (mwebTx : Option (Mw.Transaction sym)) : CTransaction sym :=
  payTwo ⟨splitParent.getHash, 1⟩ ⟨10, opTrue⟩ nValue mwebTx

/-- The pool with the three. -/
def splitPool : PoolState sym :=
  poolWith [(splitParent, 89998, []), (splitMint, 9987, [splitParent.getHash]),
    (splitPayment 890000 none, 9988, [splitParent.getHash])]

/-- The checks of a replacement, with the transactions it is in conflict with. -/
def replacementConflicts (s : PoolState sym) (tx : CTransaction sym) : Option (List Digest) :=
  (preChecks replacementEnv false s tx).toOption.map (·.conflicts)

lemma exists_preChecks_of_replacementConflicts (s : PoolState sym) (tx : CTransaction sym)
    (conflicts : List Digest) (h : replacementConflicts s tx = some conflicts) :
    ∃ ws, preChecks replacementEnv false s tx = .ok ws ∧ ws.conflicts = conflicts := by
  obtain ⟨ws, hws, rfl⟩ := Option.map_eq_some_iff.mp h
  exact ⟨ws, eq_ok_of_toOption_eq_some hws, rfl⟩

/-- A replacement of the payment spends the output of the peg-in as well.  It is accepted, though
the peg-in is no parent of the payment. -/
theorem preChecks_adds_parent :
    ∃ ws, preChecks replacementEnv false splitPool (splitPayment 800000 (some poolSpend)) = .ok ws ∧
      ws.conflicts = [(splitPayment 890000 none).getHash] ∧
      splitMint.getHash ∈ splitPool.pool.parentsOf (splitPayment 800000 (some poolSpend)) ∧
      ∀ c ∈ ws.conflicts, ∀ e, splitPool.pool.entry c = some e →
        splitMint.getHash ∉ splitPool.pool.parentsOf e.tx := by
  obtain ⟨ws, hws, hconflicts⟩ :=
    exists_preChecks_of_replacementConflicts splitPool (splitPayment 800000 (some poolSpend))
      [(splitPayment 890000 none).getHash] (by decide +kernel)
  have hparents : ∀ e ∈ splitPool.pool.entry (splitPayment 890000 none).getHash,
      splitMint.getHash ∉ splitPool.pool.parentsOf e.tx := by decide +kernel
  refine ⟨ws, hws, hconflicts, by decide +kernel, fun c hc e he => ?_⟩
  rw [hconflicts, List.mem_singleton] at hc
  exact hparents e (hc ▸ he)

/-- A peg-in with change, and a payment of the change. -/
def changeMint : CTransaction sym := payTwo fundingOut poolPegin 900000 (some poolMint)

def changePayment (nValue : CAmount) (mwebTx : Option (Mw.Transaction sym)) : CTransaction sym :=
  payTwo ⟨changeMint.getHash, 1⟩ ⟨10, opTrue⟩ nValue mwebTx

/-- The pool with the two. -/
def changePool : PoolState sym :=
  poolWith [(changeMint, 99988, []), (changePayment 890000 none, 9988, [changeMint.getHash])]

/-- A replacement that spends the output of the peg-in next to the change of the same peg-in has no
new parent. -/
theorem preChecks_adds_no_parents_changePool :
    ∃ ws, preChecks replacementEnv false changePool (changePayment 800000 (some poolSpend)) =
        .ok ws ∧ ws.conflicts ≠ [] ∧
      ∀ p ∈ changePool.pool.parentsOf (changePayment 800000 (some poolSpend)),
        ∃ c ∈ ws.conflicts, ∃ e, changePool.pool.entry c = some e ∧
          p ∈ changePool.pool.parentsOf e.tx := by
  obtain ⟨ws, hws, hconflicts⟩ :=
    exists_preChecks_of_replacementConflicts changePool (changePayment 800000 (some poolSpend))
      [(changePayment 890000 none).getHash] (by decide +kernel)
  have hne : ws.conflicts ≠ [] := by rw [hconflicts]; exact List.cons_ne_nil _ _
  refine ⟨ws, hws, hne, (preChecks_adds_no_parents_iff hws hne).mpr fun id hid p hp => ?_⟩
  have hspent : ∃ i ∈ (changePayment 800000 (some poolSpend)).getInputs,
      changePool.pool.mapNextTx i = some (changePayment 890000 none).getHash := by decide +kernel
  have hparents : ∀ id ∈ (changePayment 800000 (some poolSpend)).mwebSpentIDs,
      ∀ p ∈ changePool.pool.getIter (.mweb id),
        ∃ e ∈ changePool.pool.entry (changePayment 890000 none).getHash,
          p ∈ changePool.pool.parentsOf e.tx := by decide +kernel
  exact ⟨_, hspent, hparents id hid p hp⟩

end Symbolic

end Aegisum
