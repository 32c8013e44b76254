import Aegisum.Chain.VersionBits
import Aegisum.Mweb.CoinsView
import Aegisum.Node.State

/-!
# MWEB checks of a block

`MWEB::Node::CheckBlock`, `ContextualCheckBlock` and `ConnectBlock`: how an extension block is
tied to the canonical block that carries it.  The link is the integrating transaction (HogEx),
the last one of the block: its inputs collect the peg-ins, its first output holds the new MWEB
balance and the hash of the extension block, and its other outputs pay the peg-outs.
-/

namespace Aegisum

open List

open Mw (PegInCoin PegOutCoin)

variable {P : Primitives} [NodeCrypto P]

/-! ### Peg-in outputs of a block -/

/-- The output has a peg-in script. -/
def CTxOut.isPegin (out : CTxOut P) : Bool := out.scriptPubKey.isMWEBPegin.isSome

/-- The transaction has a peg-in output. -/
def CTransaction.hasPegin (tx : CTransaction P) : Bool := tx.vout.any CTxOut.isPegin

/-- The transactions between the coinbase and the HogEx. -/
def CBlock.middleTxs (b : CBlock P) : List (CTransaction P) := b.vtx.tail.dropLast

/-- The references of a transaction's peg-in outputs, in order. -/
def CTransaction.peginOutPoints (tx : CTransaction P) : List (COutPoint P) :=
  tx.vout.zipIdx.filterMap fun (out, nOut) => if out.isPegin then some ⟨tx.getHash, nOut⟩ else none

lemma CTransaction.mem_peginOutPoints {tx : CTransaction P} {o : COutPoint P} :
    o ∈ tx.peginOutPoints ↔
      o.hash = tx.getHash ∧ ∃ out, tx.vout[o.n]? = some out ∧ out.isPegin = true := by
  unfold peginOutPoints
  rw [mem_filterMap]
  constructor
  · rintro ⟨⟨out, n⟩, hmem, hsome⟩
    dsimp only at hsome
    split at hsome
    case isTrue hpegin =>
      obtain rfl := Option.some.inj hsome
      exact ⟨rfl, out, mem_zipIdx_iff_getElem?.mp hmem, hpegin⟩
    case isFalse => cases hsome
  · rintro ⟨hhash, out, hout, hpegin⟩
    refine ⟨(out, o.n), mem_zipIdx_iff_getElem?.mpr hout, ?_⟩
    cases o
    simp_all

/-- A transaction without peg-in outputs has no references to any. -/
lemma CTransaction.peginOutPoints_eq_nil {tx : CTransaction P} (h : tx.hasPegin = false) :
    tx.peginOutPoints = [] := by
  refine eq_nil_iff_forall_not_mem.mpr fun o ho => ?_
  obtain ⟨-, out, hout, hpegin⟩ := mem_peginOutPoints.mp ho
  have hall := any_eq_false.mp h out (mem_of_getElem? hout)
  exact hall hpegin

/-- The references of the block's peg-in outputs, in block order. -/
def CBlock.peginOutPoints (b : CBlock P) : List (COutPoint P) :=
  b.middleTxs.flatMap CTransaction.peginOutPoints

/-- The block's peg-in outputs, in block order. -/
def CBlock.peginOutputs (b : CBlock P) : List (CTxOut P) :=
  b.middleTxs.flatMap fun tx => tx.vout.filter CTxOut.isPegin

/-- The block's peg-ins with the kernel ids they name. -/
def CBlock.blockPegins (b : CBlock P) : List (PegInCoin P) :=
  b.middleTxs.flatMap fun tx =>
    tx.vout.filterMap fun out => out.scriptPubKey.isMWEBPegin.map fun id => ⟨out.nValue, id⟩

/-- The peg-outs a HogEx pays. -/
def CTransaction.hogexPegouts (hogex : CTransaction P) : List (PegOutCoin P) :=
  hogex.vout.tail.map fun out => ⟨out.nValue, out.scriptPubKey⟩

namespace MwebNode

/-! ### Checks without context -/

/-- Transactions of a block carry no MWEB data of their own. -/
def checkBlock (b : CBlock P) : Except BlockFailure Unit :=
  forM b.vtx fun tx => rejectIf tx.hasMWEBTx (.invalid .blockMutated "unexpected-mweb-data")

/-! ### Checks in the context of the previous block -/

/-- One step of matching the HogEx inputs with the peg-ins: the input at the running index must
spend the peg-in. -/
def matchPegin (hogex : CTransaction P) (nextPeginIdx : ℕ) (pegin : COutPoint P) :
    Except BlockFailure ℕ :=
  match hogex.vin[nextPeginIdx]? with
  | none => .error (.invalid .blockConsensus "pegins-missing")
  | some hogexInput =>
    if hogexInput.prevout ≠ pegin then .error (.invalid .blockConsensus "pegin-mismatch")
    else .ok (nextPeginIdx + 1)

/-- The extension block is valid, and its peg-ins and peg-outs are those of the block. -/
def validateMWEBBlock (b : CBlock P) (hogex : CTransaction P) (mwebBlock : Mw.Block P) : Bool :=
  Mw.validateBlock mwebBlock b.blockPegins hogex.hogexPegouts

/-- The first HogEx of the chain has no predecessor to spend. -/
def isFirstHogex (params : ConsensusParams P) (prev : Chain P) : Bool :=
  !params.isMWEBEnabled prev.tail

/-- The extension block hash that the first HogEx output commits to. -/
def hogAddrHash (hogAddr : CTxOut P) : Except BlockFailure P.Hash :=
  match hogAddr.scriptPubKey.isMWEBHogAddr with
  | none => .error (.invalid .blockConsensus "bad-hogex")
  | some mwebHash => .ok mwebHash

/-- The checks of a block with an extension block, when MWEB is active. -/
def checkIntegration (params : ConsensusParams P) (prev : Chain P) (b : CBlock P)
    (mwebBlock : Mw.Block P) : Except BlockFailure Unit := do
  forM b.vtx fun tx => rejectIf ((tx.isCoinBase || tx.isHogEx) && tx.hasPegin)
    (.invalid .blockConsensus "bad-tx-unexpected-pegin")
  let hogex ← orThrow b.vtx.getLast?
  rejectIf (!hogex.isHogEx) (.invalid .blockMutated "hogex-missing")
  rejectIf (b.vtx.dropLast.any CTransaction.isHogEx)
    (.invalid .blockMutated "bad-hogex-position")
  let hogAddr ← orThrow hogex.vout.head?
  let mwebHash ← hogAddrHash hogAddr
  rejectIf (mwebHash ≠ mwebBlock.header.getHash) (.invalid .blockMutated "mweb-hash-mismatch")
  rejectIf (mwebBlock.header.height ≠ prev.nHeight + 1)
    (.invalid .blockConsensus "mweb-height-mismatch")
  let nextPeginIdx ← b.peginOutPoints.foldlM (matchPegin hogex)
    (if isFirstHogex params prev then 0 else 1)
  rejectIf (nextPeginIdx ≠ hogex.vin.length) (.invalid .blockConsensus "extra-hogex-input")
  rejectIf (!validateMWEBBlock b hogex mwebBlock) (.invalid .blockMutated "bad-blk-mweb")

/-- An extension block is attached exactly when MWEB is active, and then fits the block. -/
def contextualCheckBlock (params : ConsensusParams P) (prev : Chain P) (b : CBlock P) :
    Except BlockFailure Unit :=
  if params.isMWEBEnabled prev then
    match b.mwebBlock with
    | none => .error (.invalid .blockMutated "mweb-missing")
    | some mwebBlock => checkIntegration params prev b mwebBlock
  else rejectIf b.mwebBlock.isSome (.invalid .blockMutated "unexpected-mweb-data")

/-! ### Connecting -/

/-- One step of adding up the HogEx inputs. -/
def addPegin (hogexInputAmount : CAmount) (out : CTxOut P) : Except BlockFailure CAmount := do
  rejectIf (¬ MoneyRange (hogexInputAmount + out.nValue))
    (.invalid .blockConsensus "accumulated-pegin-outofrange")
  pure (hogexInputAmount + out.nValue)

/-- The first input of the HogEx spends the first output of the previous HogEx. -/
def checkPrevHogex (params : ConsensusParams P) (prev : Chain P) (prevIndex : CBlockIndex P)
    (hogex : CTransaction P) : Except BlockFailure Unit :=
  if isFirstHogex params prev then .ok ()
  else do
    let prevHogexOut ← orThrow hogex.vin.head?
    rejectIf (prevHogexOut.prevout ≠ ⟨prevIndex.hogexHash, 0⟩)
      (.invalid .blockConsensus "invalid-hogex-input")

/-- Apply the extension block to the view; a failure of libmw marks the block as mutated. -/
def applyMwebBlock (view : Mw.CoinsView P) (mwebBlock : Mw.Block P) :
    Except BlockFailure (Option (Mw.BlockUndo P) × Mw.CoinsView P) :=
  match view.applyBlock mwebBlock with
  | .ok (undo, view') => .ok (some undo, view')
  | .error _ => .error (.invalid .blockMutated "mweb-connect-failed")

/-- Connect the extension block of a block, if it has one. -/
def connectBlock (params : ConsensusParams P) (prev : Chain P) (b : CBlock P)
    (view : Mw.CoinsView P) : Except BlockFailure (Option (Mw.BlockUndo P) × Mw.CoinsView P) :=
  match b.mwebBlock with
  | none => .ok (none, view)
  | some mwebBlock => do
    let hogex ← orThrow b.vtx.getLast?
    let prevIndex ← orThrow prev.head?
    checkPrevHogex params prev prevIndex hogex
    let hogexInputAmount ← b.peginOutputs.foldlM addPegin prevIndex.mwebAmount
    let valueOut ← orThrow hogex.getValueOut
    rejectIf (¬ MoneyRange (hogexInputAmount - valueOut) ∨
        hogexInputAmount - valueOut ≠ mwebBlock.body.getTotalFee)
      (.invalid .blockMutated "bad-txns-mweb-fee-mismatch")
    let hogAddr ← orThrow hogex.vout.head?
    rejectIf (prevIndex.mwebAmount + mwebBlock.body.getSupplyChange ≠ hogAddr.nValue)
      (.invalid .blockMutated "mweb-amount-mismatch")
    applyMwebBlock view mwebBlock

/-! ### What the checks establish -/

/-- The index of the first HogEx input that spends a peg-in. -/
def firstPeginIdx (params : ConsensusParams P) (prev : Chain P) : ℕ :=
  if isFirstHogex params prev then 0 else 1

/-- What `ContextualCheckBlock` establishes for a block with an extension block. -/
structure Integrated (params : ConsensusParams P) (prev : Chain P) (b : CBlock P)
    (hogex : CTransaction P) (mwebBlock : Mw.Block P) : Prop where
  enabled : params.isMWEBEnabled prev = true
  attached : b.mwebBlock = some mwebBlock
  last : b.vtx.getLast? = some hogex
  isHogEx : hogex.isHogEx = true
  only_last : ∀ tx ∈ b.vtx.dropLast, tx.isHogEx = false
  no_pegin : ∀ tx ∈ b.vtx, (tx.isCoinBase || tx.isHogEx) = true → tx.hasPegin = false
  hogAddr : ∃ out, hogex.vout.head? = some out ∧
    out.scriptPubKey = .mwebHogAddr mwebBlock.header.getHash
  height : mwebBlock.header.height = prev.nHeight + 1
  firstPeginIdx_le : firstPeginIdx params prev ≤ hogex.vin.length
  pegins : (hogex.vin.drop (firstPeginIdx params prev)).map CTxIn.prevout = b.peginOutPoints
  valid : validateMWEBBlock b hogex mwebBlock = true

variable {hogex : CTransaction P} {idx : ℕ}

omit [NodeCrypto P] in
private lemma matchPegin_eq_ok {idx' : ℕ} {pegin : COutPoint P}
    (h : matchPegin hogex idx pegin = .ok idx') :
    idx' = idx + 1 ∧ ∃ txin, hogex.vin[idx]? = some txin ∧ txin.prevout = pegin := by
  unfold matchPegin at h
  split at h
  case h_1 => cases h
  case h_2 txin hget =>
    split at h
    case isTrue => cases h
    case isFalse heq =>
      cases h
      exact ⟨rfl, txin, hget, not_not.mp heq⟩

omit [NodeCrypto P] in
/-- The loop over the peg-ins walks along the HogEx inputs. -/
private lemma matchPegin_loop {pegins : List (COutPoint P)} {idx' : ℕ}
    (h : pegins.foldlM (matchPegin hogex) idx = .ok idx') :
    idx' = idx + pegins.length ∧
      ((hogex.vin.drop idx).take pegins.length).map CTxIn.prevout = pegins := by
  induction pegins generalizing idx with
  | nil =>
    obtain rfl := Except.ok.inj h
    simp
  | cons p ps ih =>
    obtain ⟨idx₁, hp, hps⟩ := foldlM_cons_eq_ok.mp h
    obtain ⟨rfl, txin, hget, rfl⟩ := matchPegin_eq_ok hp
    obtain ⟨rfl, hrest⟩ := ih hps
    obtain ⟨hlt, hget⟩ := List.getElem?_eq_some_iff.mp hget
    refine ⟨by rw [List.length_cons]; omega, ?_⟩
    rw [List.drop_eq_getElem_cons hlt, List.length_cons, List.take_succ_cons, List.map_cons,
      hrest, hget]

variable {b : CBlock P} {prev : Chain P} {params : ConsensusParams P} {mwebBlock : Mw.Block P}

lemma integrated_of_contextualCheckBlock (hattached : b.mwebBlock = some mwebBlock)
    (h : contextualCheckBlock params prev b = .ok ()) :
    ∃ hogex, Integrated params prev b hogex mwebBlock := by
  unfold contextualCheckBlock at h
  split at h
  case isFalse => simp [hattached] at h
  case isTrue henabled =>
    rw [hattached] at h
    obtain ⟨_, hpegin, h⟩ := bind_eq_ok.mp h
    obtain ⟨hogex, hlast, h⟩ := bind_eq_ok.mp h
    obtain ⟨hmark, h⟩ := rejectIf_bind_eq_ok.mp h
    obtain ⟨honly, h⟩ := rejectIf_bind_eq_ok.mp h
    obtain ⟨out, hout, h⟩ := bind_eq_ok.mp h
    obtain ⟨hash, hhash, h⟩ := bind_eq_ok.mp h
    obtain ⟨hhash', h⟩ := rejectIf_bind_eq_ok.mp h
    obtain ⟨hheight, h⟩ := rejectIf_bind_eq_ok.mp h
    obtain ⟨idx, hloop, h⟩ := bind_eq_ok.mp h
    obtain ⟨hidx, h⟩ := rejectIf_bind_eq_ok.mp h
    have hvalid := rejectIf_eq_ok.mp h
    obtain ⟨hlen, hpegins⟩ := matchPegin_loop hloop
    have hscript : out.scriptPubKey = .mwebHogAddr hash := by
      unfold hogAddrHash at hhash
      split at hhash
      case h_1 => cases hhash
      case h_2 hsome =>
        cases hhash
        exact CScript.isMWEBHogAddr_eq_some.mp hsome
    have hvin : hogex.vin.length = firstPeginIdx params prev + b.peginOutPoints.length := by
      rw [← not_not.mp hidx]
      exact hlen
    refine ⟨hogex, henabled, hattached, orThrow_eq_ok.mp hlast, by simpa using hmark, ?_, ?_,
      ⟨out, orThrow_eq_ok.mp hout, ?_⟩, not_not.mp hheight, by omega, ?_, by simpa using hvalid⟩
    · simpa using honly
    · intro tx htx hkind
      have := rejectIf_eq_ok.mp (forM_eq_ok.mp hpegin tx htx)
      simpa [hkind] using this
    · rw [hscript, not_not.mp hhash']
    · -- the loop has used up all inputs, so nothing is cut off
      rw [← hpegins]
      refine congrArg _ (take_of_length_le ?_).symm
      rw [length_drop]
      exact Nat.le_of_eq (by omega)

omit [NodeCrypto P] in
/-- The loop over the peg-ins runs through if they are the HogEx inputs from the index on. -/
private lemma matchPegin_loop_eq_ok {pegins : List (COutPoint P)}
    (h : (hogex.vin.drop idx).map CTxIn.prevout = pegins) :
    pegins.foldlM (matchPegin hogex) idx = .ok (idx + pegins.length) := by
  induction pegins generalizing idx with
  | nil => rfl
  | cons p ps ih =>
    obtain ⟨txin, rest, hdrop, rfl, hrest⟩ := map_eq_cons_iff.mp h
    have hget : hogex.vin[idx]? = some txin := by
      rw [← head?_drop, hdrop, head?_cons]
    have hnext : hogex.vin.drop (idx + 1) = rest := by
      rw [← tail_drop, hdrop, tail_cons]
    have hstep : matchPegin hogex idx txin.prevout = .ok (idx + 1) := by
      simp [matchPegin, hget]
    rw [length_cons, ← Nat.add_assoc, Nat.add_right_comm]
    exact foldlM_cons_eq_ok.mpr ⟨idx + 1, hstep, ih (hnext ▸ hrest)⟩

/-- A block that is integrated with its extension block passes `ContextualCheckBlock`. -/
lemma contextualCheckBlock_of_integrated (h : Integrated params prev b hogex mwebBlock) :
    contextualCheckBlock params prev b = .ok () := by
  obtain ⟨out, hout, hscript⟩ := h.hogAddr
  have hpegin : forM b.vtx (fun tx => rejectIf ((tx.isCoinBase || tx.isHogEx) && tx.hasPegin)
      (.invalid .blockConsensus "bad-tx-unexpected-pegin")) =
        (.ok () : Except BlockFailure Unit) := by
    refine forM_eq_ok.mpr fun tx htx => rejectIf_eq_ok.mpr ?_
    rw [Bool.and_eq_true]
    rintro ⟨hkind, hhas⟩
    rw [h.no_pegin tx htx hkind] at hhas
    cases hhas
  have hhash : hogAddrHash out = .ok mwebBlock.header.getHash := by
    simp [hogAddrHash, hscript, CScript.isMWEBHogAddr]
  have hloop := matchPegin_loop_eq_ok h.pegins
  have hlength : firstPeginIdx params prev + b.peginOutPoints.length = hogex.vin.length := by
    have hle := h.firstPeginIdx_le
    rw [← h.pegins, length_map, length_drop]
    omega
  rw [contextualCheckBlock, if_pos h.enabled, h.attached]
  refine bind_eq_ok.mpr ⟨(), hpegin, bind_eq_ok.mpr ⟨hogex, orThrow_eq_ok.mpr h.last, ?_⟩⟩
  refine rejectIf_bind_eq_ok.mpr ⟨by simp [h.isHogEx], rejectIf_bind_eq_ok.mpr ⟨?_, ?_⟩⟩
  · simpa using h.only_last
  refine bind_eq_ok.mpr ⟨out, orThrow_eq_ok.mpr hout, bind_eq_ok.mpr ⟨_, hhash, ?_⟩⟩
  refine rejectIf_bind_eq_ok.mpr ⟨not_not.mpr rfl, ?_⟩
  refine rejectIf_bind_eq_ok.mpr ⟨not_not.mpr h.height, bind_eq_ok.mpr ⟨_, hloop, ?_⟩⟩
  refine rejectIf_bind_eq_ok.mpr ⟨not_not.mpr hlength, rejectIf_eq_ok.mpr ?_⟩
  simp [h.valid]

/-- What `ConnectBlock` establishes for a block with an extension block. -/
structure MwebConnected (params : ConsensusParams P) (prev : Chain P) (b : CBlock P)
    (view : Mw.CoinsView P) (hogex : CTransaction P) (mwebBlock : Mw.Block P)
    (prevIndex : CBlockIndex P) (hogexInputAmount valueOut : CAmount) (hogAddr : CTxOut P)
    (undo : Mw.BlockUndo P) (view' : Mw.CoinsView P) : Prop where
  last : b.vtx.getLast? = some hogex
  prev_eq : prev.head? = some prevIndex
  prev_hogex : isFirstHogex params prev = false →
    ∃ txin, hogex.vin.head? = some txin ∧ txin.prevout = ⟨prevIndex.hogexHash, 0⟩
  inputAmount : b.peginOutputs.foldlM addPegin prevIndex.mwebAmount = .ok hogexInputAmount
  valueOut_eq : hogex.getValueOut = some valueOut
  fee_range : MoneyRange (hogexInputAmount - valueOut)
  fee : hogexInputAmount - valueOut = mwebBlock.body.getTotalFee
  hogAddr_eq : hogex.vout.head? = some hogAddr
  amount : prevIndex.mwebAmount + mwebBlock.body.getSupplyChange = hogAddr.nValue
  applied : view.applyBlock mwebBlock = .ok (undo, view')

lemma connected_of_connectBlock {view view' : Mw.CoinsView P} {undo : Option (Mw.BlockUndo P)}
    (hattached : b.mwebBlock = some mwebBlock)
    (h : connectBlock params prev b view = .ok (undo, view')) :
    ∃ hogex prevIndex hogexInputAmount valueOut hogAddr mwundo, undo = some mwundo ∧
      MwebConnected params prev b view hogex mwebBlock prevIndex hogexInputAmount valueOut
        hogAddr mwundo view' := by
  unfold connectBlock at h
  rw [hattached] at h
  obtain ⟨hogex, hlast, h⟩ := bind_eq_ok.mp h
  obtain ⟨prevIndex, hprev, h⟩ := bind_eq_ok.mp h
  obtain ⟨_, hinput, h⟩ := bind_eq_ok.mp h
  obtain ⟨amount, hamount, h⟩ := bind_eq_ok.mp h
  obtain ⟨valueOut, hvalue, h⟩ := bind_eq_ok.mp h
  obtain ⟨hfee, h⟩ := rejectIf_bind_eq_ok.mp h
  obtain ⟨hogAddr, haddr, h⟩ := bind_eq_ok.mp h
  obtain ⟨hsupply, h⟩ := rejectIf_bind_eq_ok.mp h
  rw [not_or, not_not, not_not] at hfee
  unfold applyMwebBlock at h
  split at h
  case h_2 => cases h
  case h_1 mwundo view₁ happly =>
    obtain ⟨rfl, rfl⟩ := Prod.mk.inj (Except.ok.inj h)
    refine ⟨hogex, prevIndex, amount, valueOut, hogAddr, mwundo, rfl, orThrow_eq_ok.mp hlast,
      orThrow_eq_ok.mp hprev, fun hfirst => ?_, hamount, orThrow_eq_ok.mp hvalue, hfee.1, hfee.2,
      orThrow_eq_ok.mp haddr, not_not.mp hsupply, happly⟩
    rw [checkPrevHogex, hfirst] at hinput
    obtain ⟨txin, htxin, hout⟩ := bind_eq_ok.mp hinput
    exact ⟨txin, orThrow_eq_ok.mp htxin, not_not.mp (rejectIf_eq_ok.mp hout)⟩

/-- If all amounts are right, connecting is left to `ApplyBlock`. -/
lemma connectBlock_eq_applyMwebBlock {prevIndex : CBlockIndex P}
    {hogexInputAmount valueOut : CAmount} {hogAddr : CTxOut P}
    (hattached : b.mwebBlock = some mwebBlock) (hlast : b.vtx.getLast? = some hogex)
    (hprev : prev.head? = some prevIndex)
    (hprevHogex : isFirstHogex params prev = false →
      ∃ txin, hogex.vin.head? = some txin ∧ txin.prevout = ⟨prevIndex.hogexHash, 0⟩)
    (hinput : b.peginOutputs.foldlM addPegin prevIndex.mwebAmount = .ok hogexInputAmount)
    (hvalue : hogex.getValueOut = some valueOut) (hrange : MoneyRange (hogexInputAmount - valueOut))
    (hfee : hogexInputAmount - valueOut = mwebBlock.body.getTotalFee)
    (hhogAddr : hogex.vout.head? = some hogAddr)
    (hamount : prevIndex.mwebAmount + mwebBlock.body.getSupplyChange = hogAddr.nValue)
    (view : Mw.CoinsView P) : connectBlock params prev b view = applyMwebBlock view mwebBlock := by
  have hcheck : checkPrevHogex params prev prevIndex hogex = .ok () := by
    unfold checkPrevHogex
    split
    case isTrue => rfl
    case isFalse hfirst =>
      obtain ⟨txin, htxin, hprevout⟩ := hprevHogex (by simpa using hfirst)
      exact bind_eq_ok.mpr ⟨txin, orThrow_eq_ok.mpr htxin,
        rejectIf_eq_ok.mpr (not_not.mpr hprevout)⟩
  unfold connectBlock
  rw [hattached]
  refine (bind_of_eq_ok (orThrow_eq_ok.mpr hlast) _).trans ?_
  refine (bind_of_eq_ok (orThrow_eq_ok.mpr hprev) _).trans ?_
  refine (bind_of_eq_ok hcheck _).trans ((bind_of_eq_ok hinput _).trans ?_)
  refine (bind_of_eq_ok (orThrow_eq_ok.mpr hvalue) _).trans ?_
  rw [rejectIf_bind_of_not (not_or.mpr ⟨not_not.mpr hrange, not_not.mpr hfee⟩)]
  refine (bind_of_eq_ok (orThrow_eq_ok.mpr hhogAddr) _).trans ?_
  rw [rejectIf_bind_of_not (not_not.mpr hamount)]

omit [NodeCrypto P] in
/-- The HogEx inputs add up to the previous MWEB amount plus the peg-ins, modulo `2 ^ 64`. -/
lemma addPegin_loop {outs : List (CTxOut P)} {acc total : CAmount}
    (h : outs.foldlM addPegin acc = .ok total) : total = accumulate CTxOut.nValue acc outs := by
  induction outs generalizing acc with
  | nil => simpa [pure, Except.pure, eq_comm] using h
  | cons out outs ih =>
    obtain ⟨acc', hout, hrest⟩ := foldlM_cons_eq_ok.mp h
    replace hout := of_rejectIf hout
    cases hout
    exact ih hrest

end MwebNode

end Aegisum
