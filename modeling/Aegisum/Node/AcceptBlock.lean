import Aegisum.Node.Commitments
import Aegisum.Node.Inflation
import Aegisum.Node.PegConservation

/-!
# Accepting a block

`CChainState::AcceptBlock` and `ChainstateManager::ProcessNewBlock`, as far as they change the
status of the block's header.  A failed check marks the header as failed for good, unless the
failure is only due to data that the header does not commit to.
-/

namespace Aegisum

open CTransaction

variable {P : Primitives} [NodeCrypto P]

/-! ### Status of a header -/

/-- What the index stores on the status of a header. -/
structure BlockStatus where
  /-- `BLOCK_FAILED_VALID`. -/
  failedValid : Bool
  /-- `BLOCK_FAILED_CHILD`. -/
  failedChild : Bool
  /-- `BLOCK_HAVE_DATA`. -/
  haveData : Bool
  /-- The number of transactions, once known. -/
  nTx : ℕ
deriving DecidableEq

/-- The status of a header that was just added. -/
def BlockStatus.new : BlockStatus := ⟨false, false, false, 0⟩

/-- What `AcceptBlock` looks at besides the block and the status of its header. -/
structure AcceptContext where
  /-- The checks of a header that is not in the index yet. -/
  headerCheck : Except BlockFailure Unit
  fRequested : Bool
  fHasMoreOrSameWork : Bool
  fTooFarAhead : Bool
  /-- The chain work is below the minimum. -/
  belowMinimumWork : Bool

/-- The status of the header, which is added if it is not in the index yet.  The genesis block
needs no checks. -/
def acceptBlockHeader (params : ConsensusParams P) (b : CBlock P) (ctx : AcceptContext)
    (index : Option BlockStatus) : Except BlockFailure BlockStatus :=
  if b.getHash = params.hashGenesisBlock then .ok (index.getD .new)
  else
    match index with
    | some status =>
      if status.failedValid || status.failedChild then
        .error (.invalid .blockCachedInvalid "duplicate")
      else .ok status
    | none => do
      ctx.headerCheck
      pure .new

/-- The block is stored already, or was not asked for and is of no use. -/
def skipsBlock (ctx : AcceptContext) (status : BlockStatus) : Bool :=
  status.haveData || (!ctx.fRequested &&
    (status.nTx ≠ 0 || !ctx.fHasMoreOrSameWork || ctx.fTooFarAhead || ctx.belowMinimumWork))

/-- A block that is invalid for another reason than being mutated fails for good. -/
def BlockStatus.mark (status : BlockStatus) : BlockFailure → BlockStatus
  | .invalid result _ =>
    if result ≠ .blockMutated then { status with failedValid := true } else status
  | .exception => status

/-- Check a block whose header is accepted and store it. -/
def acceptBlock (env : ScriptEnv P) (params : ConsensusParams P) (prev : Chain P) (b : CBlock P)
    (ctx : AcceptContext) (index : Option BlockStatus) :
    Option BlockStatus × Except BlockFailure Unit :=
  match acceptBlockHeader params b ctx index with
  | .error e => (index, .error e)
  | .ok status =>
    if skipsBlock ctx status then (some status, .ok ())
    else
      match (checkBlock env params b >>= fun _ => contextualCheckBlock params prev b) with
      | .error e => (some (status.mark e), .error e)
      | .ok _ => (some { status with haveData := true, nTx := b.vtx.length }, .ok ())

/-- Process a block from the network, up to the activation of the best chain. -/
def processNewBlock (env : ScriptEnv P) (params : ConsensusParams P) (prev : Chain P)
    (b : CBlock P) (ctx : AcceptContext) (index : Option BlockStatus) :
    Option BlockStatus × Except BlockFailure Unit :=
  match checkBlock env params b with
  | .error e => (index, .error e)
  | .ok _ => acceptBlock env params prev b ctx index

/-- The header is marked as failed for good. -/
def isMarked (index : Option BlockStatus) : Bool := index.any BlockStatus.failedValid

/-- `AcceptBlock` gets to the checks of the block. -/
def ReachesChecks (params : ConsensusParams P) (b : CBlock P) (ctx : AcceptContext)
    (index : Option BlockStatus) : Prop :=
  ∃ status, acceptBlockHeader params b ctx index = .ok status ∧ skipsBlock ctx status = false

/-! ### The MWEB checks of a malleated block -/

/-- The block has an extension block, MWEB is active, and a transaction with the HogEx marker has
a peg-in output. -/
structure MarksPegin (params : ConsensusParams P) (prev : Chain P) (b : CBlock P) : Prop where
  enabled : params.isMWEBEnabled prev = true
  attached : b.mwebBlock.isSome = true
  marked : ∃ tx ∈ b.vtx, tx.isHogEx = true ∧ tx.hasPegin = true

namespace MwebNode

variable {params : ConsensusParams P} {prev : Chain P} {b' b : CBlock P}

/-- A marked transaction with a peg-in output fails for good. -/
lemma contextualCheckBlock_of_marksPegin (h : MarksPegin params prev b) :
    contextualCheckBlock params prev b =
      .error (.invalid .blockConsensus "bad-tx-unexpected-pegin") := by
  obtain ⟨mwebBlock, hattached⟩ := Option.isSome_iff_exists.mp h.attached
  obtain ⟨tx, htx, hhogex, hpegin⟩ := h.marked
  rw [contextualCheckBlock, if_pos h.enabled, hattached]
  refine bind_of_eq_error ?_ _
  cases hloop : forM b.vtx fun tx => rejectIf ((tx.isCoinBase || tx.isHogEx) && tx.hasPegin)
      (Failure.invalid BlockValidationResult.blockConsensus "bad-tx-unexpected-pegin") with
  | ok _ =>
    have := rejectIf_eq_ok.mp (forM_eq_ok.mp hloop tx htx)
    simp [hhogex, hpegin] at this
  | error e =>
    obtain ⟨_, -, herror⟩ := exists_of_forM_eq_error hloop
    rw [(rejectIf_eq_error.mp herror).2]

omit [NodeCrypto P] in
/-- Matching peg-ins depends on the outpoints of the inputs. -/
lemma matchPegin_congr {hogex' hogex : CTransaction P}
    (h : hogex'.vin.map CTxIn.prevout = hogex.vin.map CTxIn.prevout) :
    matchPegin hogex' = matchPegin hogex := by
  have hview : ∀ tx : CTransaction P, matchPegin tx = fun idx pegin =>
      match (tx.vin.map CTxIn.prevout)[idx]? with
      | none => .error (.invalid .blockConsensus "pegins-missing")
      | some prevout =>
        if prevout ≠ pegin then .error (.invalid .blockConsensus "pegin-mismatch")
        else .ok (idx + 1) := by
    intro tx
    funext idx pegin
    unfold matchPegin
    rw [List.getElem?_map]
    cases tx.vin[idx]? <;> rfl
  rw [hview, hview, h]

end MwebNode

/-- The peg-ins of blocks with the same ids are the same. -/
lemma SameIds.peginOutPoints_eq {b' b : CBlock P} (h : SameIds b' b) :
    b'.peginOutPoints = b.peginOutPoints := by
  have hall : b'.vtx.map peginOutPoints = b.vtx.map peginOutPoints :=
    map_eq_of_forall₂ h.txs fun _ _ _ _ htx => htx.peginOutPoints_eq
  have hmiddle : b'.middleTxs.map peginOutPoints =
      b.middleTxs.map peginOutPoints := by
    simp only [CBlock.middleTxs, List.map_dropLast, List.map_tail, hall]
  rw [CBlock.peginOutPoints, CBlock.peginOutPoints, List.flatMap_def, List.flatMap_def, hmiddle]

namespace MwebNode

variable {params : ConsensusParams P} {prev : Chain P} {b' b : CBlock P}
  {mwebBlock' mwebBlock : Mw.Block P}

/-- Only data outside of the ids can make the integration of a block fail that has the ids of a
valid one and no marked peg-in. -/
lemma checkIntegration_malleated (hheader : Function.Injective (Mw.MwCrypto.headerHash (P := P)))
    (h : SameIds b' b) (hb : checkIntegration params prev b mwebBlock = .ok ())
    (hmarked : ∀ tx ∈ b'.vtx, tx.isHogEx = true → tx.hasPegin = false) {e : BlockFailure}
    (he : checkIntegration params prev b' mwebBlock' = .error e) :
    ∃ reason, e = .invalid .blockMutated reason := by
  obtain ⟨_, hpegin, hb⟩ := bind_eq_ok.mp hb
  obtain ⟨hogex, hlast, hb⟩ := bind_eq_ok.mp hb
  replace hb := of_rejectIf hb
  replace hb := of_rejectIf hb
  obtain ⟨out, hout, hb⟩ := bind_eq_ok.mp hb
  obtain ⟨hash, hhash, hb⟩ := bind_eq_ok.mp hb
  obtain ⟨hhashEq, hb⟩ := rejectIf_bind_eq_ok.mp hb
  obtain ⟨hheight, hb⟩ := rejectIf_bind_eq_ok.mp hb
  obtain ⟨idx, hloop, hb⟩ := bind_eq_ok.mp hb
  obtain ⟨hidx, -⟩ := rejectIf_bind_eq_ok.mp hb
  -- the coinbase of the other block has no peg-in either
  have hpegin' : forM b'.vtx (fun tx =>
      rejectIf ((tx.isCoinBase || tx.isHogEx) && tx.hasPegin)
        (Failure.invalid BlockValidationResult.blockConsensus "bad-tx-unexpected-pegin")) =
      .ok () := by
    refine forM_eq_ok.mpr fun tx' htx' => rejectIf_eq_ok.mpr ?_
    obtain ⟨tx, htx, hsame⟩ := forall₂_exists_right h.txs htx'
    have hok := rejectIf_eq_ok.mp (forM_eq_ok.mp hpegin tx htx)
    have heq : tx'.hasPegin = tx.hasPegin := by
      rw [hasPegin, hasPegin, hsame.vout_eq]
    cases hcb : tx'.isCoinBase with
    | true =>
      rw [hsame.isCoinBase_eq] at hcb
      simpa [hcb, heq] using hok
    | false =>
      cases hhogex : tx'.isHogEx with
      | true => simp [hmarked tx' htx' hhogex]
      | false => simp
  rw [checkIntegration, bind_of_eq_ok hpegin'] at he
  have hlast' : b'.vtx.getLast? ≠ none := by
    intro hnone
    have hlen := List.Forall₂.length_eq h.txs
    rw [List.getLast?_eq_none_iff] at hnone
    rw [hnone, List.length_nil] at hlen
    rw [List.length_eq_zero_iff.mp hlen.symm] at hlast
    cases hlast
  obtain ⟨hogex', hlast'⟩ := Option.ne_none_iff_exists'.mp hlast'
  have hsame := forall₂_getLast? h.txs hlast' (orThrow_eq_ok.mp hlast)
  rw [bind_of_eq_ok (orThrow_eq_ok.mpr hlast')] at he
  rcases rejectIf_bind_eq_error.mp he with ⟨-, rfl⟩ | ⟨-, he⟩
  · exact ⟨_, rfl⟩
  rcases rejectIf_bind_eq_error.mp he with ⟨-, rfl⟩ | ⟨-, he⟩
  · exact ⟨_, rfl⟩
  rw [hsame.vout_eq, bind_of_eq_ok hout, bind_of_eq_ok hhash] at he
  rcases rejectIf_bind_eq_error.mp he with ⟨-, rfl⟩ | ⟨hhashEq', he⟩
  · exact ⟨_, rfl⟩
  -- the hash in the HogEx determines the header of the extension block
  have hheaders : mwebBlock'.header = mwebBlock.header :=
    hheader ((not_not.mp hhashEq').symm.trans (not_not.mp hhashEq))
  have hloop' : b'.peginOutPoints.foldlM (matchPegin hogex')
      (if isFirstHogex params prev then 0 else 1) = .ok idx := by
    rw [h.peginOutPoints_eq, matchPegin_congr hsame.prevouts_eq]
    exact hloop
  rcases rejectIf_bind_eq_error.mp he with ⟨hbad, -⟩ | ⟨-, he⟩
  · rw [hheaders] at hbad
    exact absurd hbad hheight
  rw [bind_of_eq_ok hloop', hsame.length_vin_eq] at he
  rcases rejectIf_bind_eq_error.mp he with ⟨hbad, -⟩ | ⟨-, he⟩
  · exact absurd hbad hidx
  · exact ⟨_, (rejectIf_eq_error.mp he).2.symm⟩

/-- The MWEB checks of a block with the ids of a valid one: without a marked peg-in they pass or
fail as mutated. -/
lemma contextualCheckBlock_malleated
    (hheader : Function.Injective (Mw.MwCrypto.headerHash (P := P))) (h : SameIds b' b)
    (hb : contextualCheckBlock params prev b = .ok ()) (hmarks : ¬ MarksPegin params prev b')
    {e : BlockFailure} (he : contextualCheckBlock params prev b' = .error e) :
    ∃ reason, e = .invalid .blockMutated reason := by
  unfold contextualCheckBlock at hb he
  split at he
  case isFalse => exact ⟨_, (rejectIf_eq_error.mp he).2.symm⟩
  case isTrue henabled =>
    rw [if_pos henabled] at hb
    split at he
    case h_1 => exact ⟨_, (Except.error.inj he).symm⟩
    case h_2 mwebBlock' hattached' =>
      split at hb
      case h_1 => cases hb
      case h_2 mwebBlock _ =>
        refine checkIntegration_malleated hheader h hb (fun tx htx hhogex => ?_) he
        rw [Bool.eq_false_iff]
        intro hpegin
        exact hmarks ⟨henabled, by simp [hattached'], tx, htx, hhogex, hpegin⟩

end MwebNode

/-! ### All checks of a malleated block -/

section Malleated

variable {env : ScriptEnv P} {params : ConsensusParams P} {prev : Chain P} {b' b : CBlock P}

/-- What a block with the ids of a valid one is still checked for. -/
lemma contextualCheckBlock_of_sameIds (h : SameIds b' b) {coinbase' : CTransaction P}
    {rest' : List (CTransaction P)} {coinbaseIn' : CTxIn P} (hb' : b'.vtx = coinbase' :: rest')
    (hin' : coinbase'.vin = [coinbaseIn']) (hb : contextualCheckBlock params prev b = .ok ()) :
    contextualCheckBlock params prev b' = (do
      checkWitness params (prev.nHeight + 1) b' coinbase' coinbaseIn'
      rejectIf (b'.getBlockWeight > maxBlockWeight) (.invalid .blockConsensus "bad-blk-weight")
      MwebNode.contextualCheckBlock params prev b') := by
  obtain ⟨hprev, hb⟩ := rejectIf_bind_eq_ok.mp hb
  obtain ⟨_, hfinal, hb⟩ := bind_eq_ok.mp hb
  obtain ⟨coinbase, hcoinbase, hb⟩ := bind_eq_ok.mp hb
  obtain ⟨coinbaseIn, hcoinbaseIn, hb⟩ := bind_eq_ok.mp hb
  obtain ⟨hheight, -⟩ := rejectIf_bind_eq_ok.mp hb
  have htime : lockTimeCutoff params prev b' = lockTimeCutoff params prev b := by
    rw [lockTimeCutoff, lockTimeCutoff, h.header]
  have hfinal' : forM b'.vtx (fun tx =>
      rejectIf (!isFinalTx tx (prev.nHeight + 1) (lockTimeCutoff params prev b'))
        (Failure.invalid BlockValidationResult.blockConsensus "bad-txns-nonfinal")) = .ok () := by
    refine forM_eq_ok.mpr fun tx' htx' => rejectIf_eq_ok.mpr ?_
    obtain ⟨tx, htx, hsame⟩ := forall₂_exists_right h.txs htx'
    rw [htime, hsame.isFinalTx_eq]
    exact rejectIf_eq_ok.mp (forM_eq_ok.mp hfinal tx htx)
  -- the coinbase script is part of the id
  have hscript : coinbaseIn'.scriptSig = coinbaseIn.scriptSig := by
    obtain ⟨rest, hvtx⟩ := List.head?_eq_some_iff.mp (orThrow_eq_ok.mp hcoinbase)
    have hscripts := (h.coinbases hb' hvtx).1.vin_map_eq TxInPreimage.scriptSig
    dsimp only at hscripts
    obtain ⟨ins, hvin⟩ := List.head?_eq_some_iff.mp (orThrow_eq_ok.mp hcoinbaseIn)
    rw [hin', hvin] at hscripts
    exact (List.cons.inj hscripts).1
  rw [← hscript] at hheight
  have hhead : b'.vtx.head? = some coinbase' := by simp [hb']
  have hheadIn : coinbase'.vin.head? = some coinbaseIn' := by simp [hin']
  unfold contextualCheckBlock
  rw [rejectIf_bind_of_not hprev, bind_of_eq_ok hfinal', bind_of_eq_ok (orThrow_eq_ok.mpr hhead),
    bind_of_eq_ok (orThrow_eq_ok.mpr hheadIn), rejectIf_bind_of_not hheight]

section

variable (h : SameIds b' b) (hchecked' : CheckedBlock b') (hchecked : CheckedBlock b)
  (hb : contextualCheckBlock params prev b = .ok ())

include h hchecked' hchecked hb

/-- A block with the ids of a valid block fails in the checks of witnesses, as mutated, or not at
all before the MWEB checks if it has the same witnesses. -/
lemma contextualCheckBlock_cases :
    (b'.witnesses = b.witnesses →
      contextualCheckBlock params prev b' = MwebNode.contextualCheckBlock params prev b') ∧
    (TxHashInjective P → Function.Injective2 (NodeCrypto.merkleHash (P := P)) →
      Function.Injective2 (NodeCrypto.witnessCommitmentHash (P := P)) →
      (∃ reason, contextualCheckBlock params prev b' = .error (.invalid .blockMutated reason)) ∨
        b'.witnesses = b.witnesses) := by
  obtain ⟨coinbase', rest', hvtx', hcb', -⟩ := hchecked'.coinbase_first
  obtain ⟨coinbase, rest, hvtx, hcb, -⟩ := hchecked.coinbase_first
  obtain ⟨coinbaseIn', hin'⟩ := exists_vin_of_isCoinBase hcb'
  obtain ⟨coinbaseIn, hin⟩ := exists_vin_of_isCoinBase hcb
  rw [contextualCheckBlock_of_sameIds h hvtx' hin' hb]
  rw [contextualCheckBlock_of_sameIds hchecked.sameIds_self hvtx hin hb] at hb
  obtain ⟨_, hwitness, hb⟩ := bind_eq_ok.mp hb
  obtain ⟨hweight, -⟩ := rejectIf_bind_eq_ok.mp hb
  constructor
  · intro hw
    rw [h.checkWitness_eq hvtx' hvtx hin' hin hw, h.getBlockWeight_eq hw, bind_of_eq_ok hwitness,
      rejectIf_bind_of_not hweight]
  · intro hinj hmerkle hcommit
    cases hwitness' : checkWitness params (prev.nHeight + 1) b' coinbase' coinbaseIn' with
    | ok u =>
      exact .inr (h.witnesses_eq hvtx' hvtx hin' hin hinj hmerkle hcommit hwitness' hwitness)
    | error e =>
      obtain ⟨reason, rfl⟩ := checkWitness_eq_error hwitness'
      exact .inl ⟨reason, rfl⟩

/-- A block with the ids of a valid block that fails other than as mutated has the same witnesses
and a marked peg-in. -/
lemma contextualCheckBlock_eq_error (hinj : TxHashInjective P)
    (hmerkle : Function.Injective2 (NodeCrypto.merkleHash (P := P)))
    (hcommit : Function.Injective2 (NodeCrypto.witnessCommitmentHash (P := P)))
    (hheader : Function.Injective (Mw.MwCrypto.headerHash (P := P))) {e : BlockFailure}
    (he : contextualCheckBlock params prev b' = .error e) :
    (∃ reason, e = .invalid .blockMutated reason) ∨
      (b'.witnesses = b.witnesses ∧ MarksPegin params prev b') := by
  obtain ⟨hsame, hcases⟩ := contextualCheckBlock_cases h hchecked' hchecked hb
  rcases hcases hinj hmerkle hcommit with ⟨reason, hmutated⟩ | hw
  · exact .inl ⟨reason, Except.error.inj (he.symm.trans hmutated)⟩
  rw [hsame hw] at he
  by_cases hmarks : MarksPegin params prev b'
  · exact .inr ⟨hw, hmarks⟩
  · have hmweb := mweb_of_contextualCheckBlock hb
    exact .inl (MwebNode.contextualCheckBlock_malleated hheader h hmweb hmarks he)

end

/-- An accepted header that was not marked is not marked. -/
lemma failedValid_of_acceptBlockHeader {ctx : AcceptContext} {index : Option BlockStatus}
    {status : BlockStatus} (hindex : isMarked index = false)
    (h : acceptBlockHeader params b ctx index = .ok status) : status.failedValid = false := by
  unfold acceptBlockHeader at h
  split at h
  case isTrue =>
    obtain rfl := Except.ok.inj h
    cases index with
    | none => rfl
    | some status => simpa [isMarked] using hindex
  case isFalse =>
    split at h
    case h_1 status' =>
      split at h
      case isTrue => cases h
      case isFalse =>
        obtain rfl := Except.ok.inj h
        simpa [isMarked] using hindex
    case h_2 =>
      obtain ⟨_, -, h⟩ := bind_eq_ok.mp h
      obtain rfl := Except.ok.inj h
      rfl

/-- When a new mark is set on a header. -/
lemma isMarked_processNewBlock {ctx : AcceptContext} {index : Option BlockStatus}
    (hindex : isMarked index = false) :
    isMarked (processNewBlock env params prev b ctx index).1 = true ↔
      ReachesChecks params b ctx index ∧ checkBlock env params b = .ok () ∧
        ∃ result reason, result ≠ .blockMutated ∧
          contextualCheckBlock params prev b = .error (.invalid result reason) := by
  unfold processNewBlock
  cases hcheck : checkBlock env params b with
  | error e => simp [hindex]
  | ok u =>
    dsimp only
    unfold acceptBlock ReachesChecks
    cases hheader : acceptBlockHeader params b ctx index with
    | error e => simp [hindex]
    | ok status =>
      have hstatus := failedValid_of_acceptBlockHeader hindex hheader
      cases hskip : skipsBlock ctx status with
      | true => simp [isMarked, hstatus, hskip]
      | false =>
        rw [bind_of_eq_ok hcheck]
        cases hcontext : contextualCheckBlock params prev b with
        | ok u => simp [isMarked, hstatus, hskip]
        | error e =>
          cases e with
          | exception => simp [isMarked, BlockStatus.mark, hstatus, hskip]
          | invalid result reason =>
            by_cases hmutated : result = .blockMutated
            · simp [isMarked, BlockStatus.mark, hmutated, hstatus, hskip]
            · simp [isMarked, BlockStatus.mark, hmutated, hskip]

end Malleated

/-- A block with header and transaction ids of a valid block never marks the header as failed,
and passes the checks, is stopped by `CheckBlock` or fails as mutated, exactly unless it passes
`CheckBlock`, carries the witnesses of the valid block and has an extension block under active
MWEB and a transaction with a peg-in output that is marked as HogEx. -/
theorem malleated_block_iff (hinj : Function.Injective (NodeCrypto.txHash (P := P)))
    (hmerkle : Function.Injective2 (NodeCrypto.merkleHash (P := P)))
    (hcommit : Function.Injective2 (NodeCrypto.witnessCommitmentHash (P := P)))
    (hmweb : Function.Injective (Mw.MwCrypto.headerHash (P := P)))
    (env : ScriptEnv P) (params : ConsensusParams P) (prev : Chain P) (b b' : CBlock P)
    (hcheck : checkBlock env params b = .ok ())
    (hcontext : contextualCheckBlock params prev b = .ok ()) (hheader : b'.header = b.header)
    (hids : b'.vtx.map CTransaction.getHash = b.vtx.map CTransaction.getHash) :
    ((∀ ctx index, isMarked index = false →
        isMarked (processNewBlock env params prev b' ctx index).1 = false) ↔
      ¬ (checkBlock env params b' = .ok () ∧ b'.witnesses = b.witnesses ∧
        MarksPegin params prev b')) ∧
    ((checkBlock env params b' ≠ .ok () ∨ contextualCheckBlock params prev b' = .ok () ∨
        ∃ reason, contextualCheckBlock params prev b' =
          .error (.invalid .blockMutated reason)) ↔
      ¬ (checkBlock env params b' = .ok () ∧ b'.witnesses = b.witnesses ∧
        MarksPegin params prev b')) := by
  have hchecked := checkedBlock_of_checkBlock hcheck
  -- both sides come down to the result of the checks in context
  have hmarks : checkBlock env params b' = .ok () → b'.witnesses = b.witnesses →
      MarksPegin params prev b' → contextualCheckBlock params prev b' =
        .error (.invalid .blockConsensus "bad-tx-unexpected-pegin") := by
    intro hcheck' hw hmarks
    have hchecked' := checkedBlock_of_checkBlock hcheck'
    have hsame := sameIds_of_getHash hinj hchecked' hchecked hheader hids
    rw [(contextualCheckBlock_cases hsame hchecked' hchecked hcontext).1 hw]
    exact MwebNode.contextualCheckBlock_of_marksPegin hmarks
  have herror : checkBlock env params b' = .ok () → ∀ e,
      contextualCheckBlock params prev b' = .error e →
        (∃ reason, e = .invalid .blockMutated reason) ∨
          (b'.witnesses = b.witnesses ∧ MarksPegin params prev b') := by
    intro hcheck' e he
    have hchecked' := checkedBlock_of_checkBlock hcheck'
    have hsame := sameIds_of_getHash hinj hchecked' hchecked hheader hids
    exact contextualCheckBlock_eq_error hsame hchecked' hchecked hcontext hinj hmerkle hcommit
      hmweb he
  refine ⟨⟨?_, ?_⟩, ⟨?_, ?_⟩⟩
  · rintro hnever ⟨hcheck', hw, hpegin⟩
    -- a requested block with a new header gets to the checks
    have hreaches : ReachesChecks params b' ⟨.ok (), true, true, false, false⟩ none := by
      refine ⟨.new, ?_, rfl⟩
      unfold acceptBlockHeader
      split <;> rfl
    have hmarked : isMarked (processNewBlock env params prev b'
        ⟨.ok (), true, true, false, false⟩ none).1 = true := by
      rw [isMarked_processNewBlock rfl]
      exact ⟨hreaches, hcheck', _, _, by decide, hmarks hcheck' hw hpegin⟩
    rw [hnever _ none rfl] at hmarked
    cases hmarked
  · intro hnot ctx index hindex
    rw [Bool.eq_false_iff]
    intro hmarked
    obtain ⟨-, hcheck', result, reason, hne, he⟩ := (isMarked_processNewBlock hindex).mp hmarked
    rcases herror hcheck' _ he with ⟨_, heq⟩ | hpegin
    · cases heq
      exact hne rfl
    · exact hnot ⟨hcheck', hpegin⟩
  · rintro hthree ⟨hcheck', hw, hpegin⟩
    have he := hmarks hcheck' hw hpegin
    rcases hthree with hno | hok | ⟨reason, hmutated⟩
    · exact hno hcheck'
    · rw [he] at hok
      cases hok
    · rw [he] at hmutated
      cases hmutated
  · intro hnot
    by_cases hcheck' : checkBlock env params b' = .ok ()
    case neg => exact .inl hcheck'
    case pos =>
      cases hresult : contextualCheckBlock params prev b' with
      | ok u => exact .inr (.inl rfl)
      | error e =>
        rcases herror hcheck' e hresult with ⟨reason, rfl⟩ | hpegin
        · exact .inr (.inr ⟨reason, rfl⟩)
        · exact absurd ⟨hcheck', hpegin⟩ hnot

section Example

open Symbolic MwebNode

/-- A valid block with a peg-in. -/
def peginBlock : CBlock sym :=
  mine (.word 0) 3 [coinbase [0x53, 0] [⟨0, opTrue⟩], repeatedPegin, peginHogex] (some mintBlock)

/-- The same block with the marker of the HogEx removed. -/
def unmarkedBlock : CBlock sym :=
  { peginBlock with
    vtx := [coinbase [0x53, 0] [⟨0, opTrue⟩], repeatedPegin,
      { peginHogex with hogEx := false, hogEx_wf := by simp }] }

/-- The same block with the peg-in transaction marked as HogEx. -/
def poisonedBlock : CBlock sym :=
  { peginBlock with
    vtx := [coinbase [0x53, 0] [⟨0, opTrue⟩],
      markHogEx repeatedPegin ⟨rfl, by simp [repeatedPegin, spend]⟩, peginHogex] }

/-- Removing the marker of the HogEx does not mark the header as failed. -/
theorem malleated_block_iff_unmarkedBlock :
    checkBlock lenientEnv earlyParams unmarkedBlock = .ok () ∧
      unmarkedBlock.vtx ≠ peginBlock.vtx ∧
      (∀ ctx index, isMarked index = false →
        isMarked (processNewBlock lenientEnv earlyParams plainChain unmarkedBlock ctx index).1 =
          false) ∧
      (checkBlock lenientEnv earlyParams unmarkedBlock ≠ .ok () ∨
        contextualCheckBlock earlyParams plainChain unmarkedBlock = .ok () ∨
        ∃ reason, contextualCheckBlock earlyParams plainChain unmarkedBlock =
          .error (.invalid .blockMutated reason)) := by
  have hpair : Function.Injective2 (NodeCrypto.merkleHash (P := sym)) := fun _ _ _ _ h =>
    Prod.mk.inj (tagged_injective (α := Digest × Digest) 15 h)
  have hcommit : Function.Injective2 (NodeCrypto.witnessCommitmentHash (P := sym)) :=
    fun _ _ _ _ h => Prod.mk.inj (tagged_injective (α := Digest × List UInt8) 17 h)
  have hiff := malleated_block_iff (tagged_injective 14) hpair hcommit (tagged_injective 9)
    lenientEnv earlyParams plainChain peginBlock unmarkedBlock (by decide +kernel)
    (by decide +kernel) rfl (by decide +kernel)
  have hnot : ¬ MarksPegin earlyParams plainChain unmarkedBlock := by
    rintro ⟨-, -, tx, htx, hmarked, -⟩
    have hall : unmarkedBlock.vtx.all (fun tx => !tx.isHogEx) = true := by decide +kernel
    have := List.all_eq_true.mp hall tx htx
    simp [hmarked] at this
  refine ⟨by decide +kernel, by decide +kernel, hiff.1.mpr ?_, hiff.2.mpr ?_⟩
  · exact fun h => hnot h.2.2
  · exact fun h => hnot h.2.2

/-- Marking the peg-in transaction as HogEx marks the header of the valid block as failed. -/
theorem poisonedBlock_marks :
    checkBlock lenientEnv earlyParams peginBlock = .ok () ∧
      contextualCheckBlock earlyParams plainChain peginBlock = .ok () ∧
      poisonedBlock.header = peginBlock.header ∧
      poisonedBlock.vtx.map CTransaction.getHash = peginBlock.vtx.map CTransaction.getHash ∧
      poisonedBlock.mwebBlock = peginBlock.mwebBlock ∧
      isMarked (processNewBlock lenientEnv earlyParams plainChain poisonedBlock
        ⟨.ok (), true, true, false, false⟩ none).1 = true := by
  refine ⟨?_, ?_, rfl, ?_, rfl, ?_⟩
  all_goals decide +kernel

end Example

end Aegisum
