import Aegisum.Node.BlockAssembler

/-!
# The HogEx of a template and the checks of a block

The miner writes the HogEx from running lists and a running amount; `ContextualCheckBlock` and
`ConnectBlock` compute the same things again from the transactions of the block and from its
extension block.  Two things are not compared on the way: the script of a peg-out may be that of a
peg-in, and the miner takes the HogEx marker of the previous block where the checks ask whether
MWEB was active for it.
-/

namespace Aegisum

open List

open Mw (PegInCoin PegOutCoin)

namespace BlockAssembler

variable {P : Primitives} [NodeCrypto P] {params : ConsensusParams P} {prev : Chain P}
  {view : Mw.CoinsView P} {nHeight : ℤ} {a : BlockAssembler P} {mwebBlock : Mw.Block P}
  {header : CBlockHeader P} {coinbase hogex : CTransaction P}
  {prevOut : Option (COutPoint P × CAmount)}

/-! ### The parts of the block -/

section Parts

omit [NodeCrypto P]

variable (a : BlockAssembler P) (header : CBlockHeader P) (coinbase hogex : CTransaction P)
  (mwebBlock : Mw.Block P)

lemma vtx_blockWith : (a.blockWith header coinbase hogex mwebBlock).vtx =
    (coinbase :: a.vtx) ++ [hogex] := rfl

lemma getLast?_blockWith :
    (a.blockWith header coinbase hogex mwebBlock).vtx.getLast? = some hogex := by
  rw [vtx_blockWith, getLast?_concat]

lemma middleTxs_blockWith : (a.blockWith header coinbase hogex mwebBlock).middleTxs = a.vtx := by
  rw [CBlock.middleTxs, blockWith, tail_cons, dropLast_concat]

end Parts

variable (ha : Assembled view nHeight a) (hbuild : a.mwebMiner.builder.buildBlock = .ok mwebBlock)
  (hhogex : a.mwebMiner.Integrates prevOut mwebBlock hogex)

include ha hbuild in
/-- The extension block has the height for which the builder was made. -/
lemma Assembled.height_of_buildBlock : mwebBlock.header.height = nHeight := by
  rw [Mw.BlockBuilder.buildBlock] at hbuild
  obtain ⟨_, _, _, -, -, rfl⟩ := Mw.CoinsView.buildNextBlock_eq_ok.mp hbuild
  exact ha.height_eq

include hbuild in
/-- The extension block has the parts of the staged transactions. -/
lemma sameParts_of_buildBlock :
    mwebBlock.body.SameParts (Mw.TxBody.together a.mwebMiner.builder.stagedTxs) := by
  rw [Mw.BlockBuilder.buildBlock] at hbuild
  obtain ⟨_, _, _, -, -, rfl⟩ := Mw.CoinsView.buildNextBlock_eq_ok.mp hbuild
  exact Mw.sameParts_aggregate _

include ha hbuild hhogex in
/-- The extension block is valid with the peg-ins of the block and the peg-outs of the HogEx. -/
lemma Assembled.validateMWEBBlock (hvalidate : mwebBlock.validate = .ok ()) :
    MwebNode.validateMWEBBlock (a.blockWith header coinbase hogex mwebBlock) hogex mwebBlock =
      true := by
  have hparts := sameParts_of_buildBlock hbuild
  have hpegins := hparts.getPegIns
  have hpegouts := hparts.getPegOuts
  rw [Mw.TxBody.getPegIns_together] at hpegins
  rw [Mw.TxBody.getPegOuts_together] at hpegouts
  refine Mw.validateBlock_of_perm hvalidate ?_ ?_
  · rw [CBlock.blockPegins, middleTxs_blockWith]
    exact ha.txPegins_perm.trans hpegins.symm
  · rw [CTransaction.hogexPegouts, hhogex.vout_eq, tail_cons, ha.hogexOutputs_eq, map_map]
    simpa [Function.comp_def] using hpegouts.symm

/-! ### The checks of `ContextualCheckBlock` -/

/-- What the block needs apart from its HogEx. -/
structure Coinbase (coinbase : CTransaction P) : Prop where
  isCoinBase : coinbase.isCoinBase = true
  not_hogEx : coinbase.isHogEx = false
  no_pegin : coinbase.hasPegin = false

/-- No staged transaction has a peg-out with the script of a peg-in. -/
def PegoutScriptsAllowed (a : BlockAssembler P) : Prop :=
  ∀ mwtx ∈ a.mwebMiner.builder.stagedTxs, ∀ pegout ∈ mwtx.body.getPegOuts,
    pegout.scriptPubKey.isMWEBPegin = none

instance (a : BlockAssembler P) : Decidable a.PegoutScriptsAllowed :=
  inferInstanceAs (Decidable (∀ _ ∈ _, ∀ _ ∈ _, _ = _))

include ha hhogex in
/-- The HogEx has no peg-in output exactly if no peg-out has such a script. -/
lemma Assembled.hasPegin_hogex_iff : hogex.hasPegin = false ↔ a.PegoutScriptsAllowed := by
  rw [CTransaction.hasPegin, hhogex.vout_eq, ha.hogexOutputs_eq]
  simp [PegoutScriptsAllowed, CTxOut.isPegin, CScript.isMWEBPegin]

include ha in
/-- The transactions between coinbase and HogEx are neither. -/
lemma Assembled.middle_kind {tx : CTransaction P} (htx : tx ∈ a.vtx) :
    tx.isCoinBase = false ∧ tx.isHogEx = false := by
  obtain ⟨entry, hentry, -, rfl⟩ := ha.exists_entry htx
  have hpooled := ha.pooled entry hentry
  exact ⟨hpooled.not_coinBase, hpooled.not_hogEx⟩

include hhogex in
/-- The HogEx inputs from an index on are the peg-ins exactly if the index is the number of
inputs before them. -/
lemma pegins_drop_iff (idx : ℕ) :
    (idx ≤ hogex.vin.length ∧
        (hogex.vin.drop idx).map CTxIn.prevout = a.mwebMiner.hogexInputs) ↔
      idx = (prevOut.map Prod.fst).toList.length := by
  have hlength : hogex.vin.length =
      (prevOut.map Prod.fst).toList.length + a.mwebMiner.hogexInputs.length := by
    rw [← length_map CTxIn.prevout, hhogex.prevouts, length_append]
  constructor
  · rintro ⟨hle, hdrop⟩
    have hcount := congrArg length hdrop
    rw [length_map, length_drop] at hcount
    omega
  · rintro rfl
    refine ⟨by omega, ?_⟩
    rw [map_drop, hhogex.prevouts, drop_left]

include hbuild hhogex in
/-- The block of a template passes `ContextualCheckBlock` exactly if no peg-out has a peg-in
script and the HogEx spends a previous one exactly if it is not the first. -/
lemma contextualCheckBlock_template_iff (ha : Assembled view (prev.nHeight + 1) a)
    (henabled : params.isMWEBEnabled prev = true) (hvalidate : mwebBlock.validate = .ok ())
    (hcoinbase : Coinbase coinbase) :
    MwebNode.contextualCheckBlock params prev (a.blockWith header coinbase hogex mwebBlock) =
        .ok () ↔
      a.PegoutScriptsAllowed ∧
        MwebNode.firstPeginIdx params prev = (prevOut.map Prod.fst).toList.length := by
  have hpegins : (a.blockWith header coinbase hogex mwebBlock).peginOutPoints =
      a.mwebMiner.hogexInputs := by
    rw [CBlock.peginOutPoints, middleTxs_blockWith, ha.peginOutPoints_eq]
  have hlast := getLast?_blockWith a header coinbase hogex mwebBlock
  constructor
  · intro hcheck
    obtain ⟨hogex', hint⟩ := MwebNode.integrated_of_contextualCheckBlock rfl hcheck
    obtain rfl : hogex' = hogex := Option.some.inj (hint.last.symm.trans hlast)
    refine ⟨(ha.hasPegin_hogex_iff hhogex).mp ?_, (pegins_drop_iff hhogex _).mp ?_⟩
    · exact hint.no_pegin hogex' (mem_of_getLast? hlast) (by simp [hint.isHogEx])
    · exact ⟨hint.firstPeginIdx_le, hint.pegins.trans hpegins⟩
  · rintro ⟨hscripts, hidx⟩
    obtain ⟨hle, hdrop⟩ := (pegins_drop_iff hhogex _).mpr hidx
    suffices hint : MwebNode.Integrated params prev (a.blockWith header coinbase hogex mwebBlock)
        hogex mwebBlock from MwebNode.contextualCheckBlock_of_integrated hint
    constructor
    · exact henabled
    · rfl
    · exact hlast
    · exact hhogex.isHogEx
    · intro tx htx
      rw [vtx_blockWith, dropLast_concat] at htx
      obtain rfl | htx := mem_cons.mp htx
      · exact hcoinbase.not_hogEx
      · exact (ha.middle_kind htx).2
    · intro tx htx hkind
      rw [vtx_blockWith, mem_append, mem_cons, mem_singleton] at htx
      obtain (rfl | htx) | rfl := htx
      · exact hcoinbase.no_pegin
      · simp [ha.middle_kind htx] at hkind
      · exact (ha.hasPegin_hogex_iff hhogex).mpr hscripts
    · exact ⟨_, by rw [hhogex.vout_eq]; rfl, rfl⟩
    · exact ha.height_of_buildBlock hbuild
    · exact hle
    · rw [hpegins]
      exact hdrop
    · exact ha.validateMWEBBlock hbuild hhogex hvalidate

/-! ### The amounts of `ConnectBlock` -/

section Totals

omit [NodeCrypto P]

/-- The peg-ins of transactions, as unbounded integers. -/
def peginTotal (txs : List (Mw.Transaction P)) : ℤ := (txs.map (·.body.pegInSum)).sum

/-- The peg-outs of transactions. -/
def pegoutTotal (txs : List (Mw.Transaction P)) : ℤ := (txs.map (·.body.pegOutSum)).sum

/-- The fees of transactions. -/
def feeTotal (txs : List (Mw.Transaction P)) : ℤ := (txs.map (·.body.getTotalFee.toInt)).sum

/-- The amounts stay in the money range: the MWEB balance before the block together with its
peg-ins does not exceed it, and the peg-outs and fees do not exceed that. -/
structure InRange (mwebAmount : CAmount) (txs : List (Mw.Transaction P)) : Prop where
  nonneg : 0 ≤ mwebAmount.toInt
  pegins_le : mwebAmount.toInt + peginTotal txs ≤ 10 ^ 16
  spent_le : pegoutTotal txs + feeTotal txs ≤ mwebAmount.toInt + peginTotal txs

/-- The supply changes of transactions, by what makes them up. -/
lemma sum_supplySum_modEq (txs : List (Mw.Transaction P)) :
    (txs.map (·.body.supplySum)).sum ≡ peginTotal txs - pegoutTotal txs - feeTotal txs
      [ZMOD 2 ^ 64] := by
  unfold peginTotal pegoutTotal feeTotal
  induction txs with
  | nil => rfl
  | cons tx txs ih =>
    have hfee := tx.body.getTotalFee_modEq.symm
    have hhead : tx.body.supplySum ≡
        tx.body.pegInSum - tx.body.pegOutSum - tx.body.getTotalFee.toInt [ZMOD 2 ^ 64] := by
      rw [tx.body.supplySum_eq, sub_right_comm]
      exact hfee.sub_left _
    have hsum := hhead.add ih
    simp only [map_cons, sum_cons]
    convert hsum using 1
    omega

end Totals

section Amounts

variable {mwebAmount : CAmount}

section

include ha

lemma Assembled.totals_nonneg :
    0 ≤ peginTotal a.mwebMiner.builder.stagedTxs ∧ 0 ≤ pegoutTotal a.mwebMiner.builder.stagedTxs ∧
      0 ≤ feeTotal a.mwebMiner.builder.stagedTxs := by
  refine ⟨sum_nonneg ?_, sum_nonneg ?_, sum_nonneg ?_⟩ <;> rw [forall_mem_map]
  · exact fun mwtx _ => mwtx.body.pegInSum_nonneg
  · exact fun mwtx _ => mwtx.body.pegOutSum_nonneg
  · exact fun mwtx hmwtx => (ha.fees_range mwtx hmwtx).nonneg

lemma Assembled.intSum_hogexOutputs :
    intSum CTxOut.nValue a.mwebMiner.hogexOutputs =
      pegoutTotal a.mwebMiner.builder.stagedTxs := by
  rw [ha.hogexOutputs_eq, intSum, map_map]
  exact intSum_flatMap PegOutCoin.amount (fun tx : Mw.Transaction P => tx.body.getPegOuts) _

include hhogex in
/-- The outputs of the HogEx are in the money range. -/
lemma Assembled.hogex_outputs_range
    (hhogAddr : MoneyRange ((prevOut.map Prod.snd).getD 0 + a.mwebMiner.mwebAmountChange)) :
    ∀ out ∈ hogex.vout, MoneyRange out.nValue := by
  rw [hhogex.vout_eq, ha.hogexOutputs_eq]
  refine forall_mem_cons.mpr ⟨hhogAddr, fun out hout => ?_⟩
  obtain ⟨pegout, hpegout, rfl⟩ := mem_map.mp hout
  obtain ⟨mwtx, hmwtx, hpegout⟩ := mem_flatMap.mp hpegout
  exact ha.pegouts_range mwtx hmwtx pegout hpegout

section Range

variable (hrange : InRange mwebAmount a.mwebMiner.builder.stagedTxs)

include hrange

/-- The balance of the MWEB after the block. -/
lemma Assembled.toInt_hogAddr : (mwebAmount + a.mwebMiner.mwebAmountChange).toInt =
      mwebAmount.toInt + peginTotal a.mwebMiner.builder.stagedTxs -
        pegoutTotal a.mwebMiner.builder.stagedTxs - feeTotal a.mwebMiner.builder.stagedTxs := by
  obtain ⟨hnonneg, hpegins, hspent⟩ := hrange
  obtain ⟨hpos, hpos', hpos''⟩ := ha.totals_nonneg
  have hmod := (toInt_add_modEq mwebAmount a.mwebMiner.mwebAmountChange).trans
    ((ha.amountTracked.trans (sum_supplySum_modEq _)).add_left mwebAmount.toInt)
  rw [← add_sub_assoc, ← add_sub_assoc] at hmod
  refine eq_of_modEq_of_fits (fitsInt64_toInt _) ?_ hmod
  exact ⟨by omega, by omega⟩

/-- The new balance is in the money range. -/
lemma Assembled.moneyRange_hogAddr : MoneyRange (mwebAmount + a.mwebMiner.mwebAmountChange) := by
  have hvalue := ha.toInt_hogAddr hrange
  obtain ⟨hnonneg, hpegins, hspent⟩ := hrange
  obtain ⟨hpos, hpos', hpos''⟩ := ha.totals_nonneg
  exact moneyRange_iff.mpr ⟨by omega, by omega⟩

/-- The inputs of the HogEx add up to the old balance and the peg-ins. -/
lemma Assembled.exists_inputAmount :
    ∃ amount, (a.vtx.flatMap fun tx => tx.vout.filter CTxOut.isPegin).foldlM MwebNode.addPegin
        mwebAmount = .ok amount ∧
      amount.toInt = mwebAmount.toInt + peginTotal a.mwebMiner.builder.stagedTxs := by
  have hsum := ha.intSum_pegins
  obtain ⟨hnonneg, hpegins, -⟩ := hrange
  have hpos := ha.totals_nonneg.1
  have hstep : ∀ (s : CAmount) (out : CTxOut P), MoneyRange out.nValue →
      MoneyRange (s + out.nValue) → MwebNode.addPegin s out = .ok (s + out.nValue) :=
    fun s out _ hs => rejectIf_bind_of_not (not_not.mpr hs) _
  have houts : ∀ out ∈ a.vtx.flatMap (fun tx => tx.vout.filter CTxOut.isPegin),
      MoneyRange out.nValue := by
    intro out hout
    obtain ⟨tx, htx, hout⟩ := mem_flatMap.mp hout
    obtain ⟨entry, hentry, -, rfl⟩ := ha.exists_entry htx
    have hpooled := ha.pooled entry hentry
    have hchecked := checkedTx_of_checkTransaction hpooled.accepted.checkTransaction
    exact hchecked.outputs_range out (mem_of_mem_filter hout)
  rw [peginTotal, ← hsum]
  exact exists_foldlM_eq_pure hstep (moneyRange_iff.mpr ⟨hnonneg, by omega⟩) houts
    (by rw [hsum]; exact hpegins)

include hhogex in
/-- The outputs of the HogEx add up to what is left after the fees. -/
lemma Assembled.exists_valueOut (hamount : (prevOut.map Prod.snd).getD 0 = mwebAmount) :
    ∃ valueOut, hogex.getValueOut = some valueOut ∧
      valueOut.toInt = mwebAmount.toInt + peginTotal a.mwebMiner.builder.stagedTxs -
        feeTotal a.mwebMiner.builder.stagedTxs := by
  have hvalue := ha.toInt_hogAddr hrange
  have hhogAddr := ha.moneyRange_hogAddr hrange
  obtain ⟨hnonneg, hpegins, hspent⟩ := hrange
  obtain ⟨hpos, hpos', hpos''⟩ := ha.totals_nonneg
  have houts := ha.hogex_outputs_range hhogex (hamount ▸ hhogAddr)
  have hsum : intSum CTxOut.nValue hogex.vout =
      mwebAmount.toInt + peginTotal a.mwebMiner.builder.stagedTxs -
        feeTotal a.mwebMiner.builder.stagedTxs := by
    rw [hhogex.vout_eq, intSum_cons, hamount, hvalue, ha.intSum_hogexOutputs]
    omega
  have hstep : ∀ (s : CAmount) (out : CTxOut P), MoneyRange out.nValue →
      MoneyRange (s + out.nValue) →
      (if ¬ MoneyRange out.nValue ∨ ¬ MoneyRange (s + out.nValue) then none
        else some (s + out.nValue)) = pure (s + out.nValue) :=
    fun s out hout hs => if_neg (by simp [hout, hs])
  obtain ⟨valueOut, hloop, htoInt⟩ := exists_foldlM_eq_pure hstep moneyRange_zero houts
    (by rw [hsum, Int64.toInt_zero]; omega)
  refine ⟨valueOut, hloop, ?_⟩
  rw [htoInt, hsum, Int64.toInt_zero, zero_add]

include hbuild in
/-- The fee of the extension block is what the HogEx leaves. -/
lemma Assembled.totalFee_eq :
    mwebBlock.body.getTotalFee.toInt = feeTotal a.mwebMiner.builder.stagedTxs := by
  obtain ⟨hnonneg, hpegins, hspent⟩ := hrange
  obtain ⟨-, hpos', hpos''⟩ := ha.totals_nonneg
  refine eq_of_modEq_of_fits (fitsInt64_toInt _) ⟨by omega, by omega⟩ ?_
  have hfees : (a.mwebMiner.builder.stagedTxs.map (·.body.feeSum)).sum ≡
      feeTotal a.mwebMiner.builder.stagedTxs [ZMOD 2 ^ 64] :=
    Int.ModEq.listSum_map fun mwtx _ => mwtx.body.getTotalFee_modEq.symm
  rw [← Mw.TxBody.feeSum_together, ← (sameParts_of_buildBlock hbuild).feeSum_eq] at hfees
  exact mwebBlock.body.getTotalFee_modEq.trans hfees

end Range

include hbuild in
/-- The balance that the HogEx declares is the one that `ConnectBlock` computes. -/
lemma Assembled.supplyChange_eq :
    mwebBlock.body.getSupplyChange = a.mwebMiner.mwebAmountChange := by
  apply eq_of_toInt_modEq
  have hsupply := mwebBlock.body.getSupplyChange_modEq
  rw [(sameParts_of_buildBlock hbuild).supplySum_eq, Mw.TxBody.supplySum_together] at hsupply
  exact hsupply.trans ha.amountTracked.symm

include hbuild hhogex in
/-- All that is left of `ConnectBlock` is to apply the extension block. -/
lemma Assembled.connectBlock_eq {prevIndex : CBlockIndex P} (hprev : prev.head? = some prevIndex)
    (hrange : InRange prevIndex.mwebAmount a.mwebMiner.builder.stagedTxs)
    (hamount : (prevOut.map Prod.snd).getD 0 = prevIndex.mwebAmount)
    (hprevOut : MwebNode.isFirstHogex params prev = false →
      prevOut.map Prod.fst = some ⟨prevIndex.hogexHash, 0⟩) (v : Mw.CoinsView P) :
    MwebNode.connectBlock params prev (a.blockWith header coinbase hogex mwebBlock) v =
      MwebNode.applyMwebBlock v mwebBlock := by
  obtain ⟨inputAmount, hinput, hinputAmount⟩ := ha.exists_inputAmount hrange
  rw [← middleTxs_blockWith a header coinbase hogex mwebBlock] at hinput
  obtain ⟨valueOut, hvalue, hvalueOut⟩ := ha.exists_valueOut hhogex hrange hamount
  have hfee := ha.totalFee_eq hbuild hrange
  obtain ⟨hpos, hpos', hpos''⟩ := ha.totals_nonneg
  obtain ⟨hnonneg, hpegins, hspent⟩ := hrange
  have hinputRange : MoneyRange inputAmount := moneyRange_iff.mpr ⟨by omega, by omega⟩
  have hvalueRange : MoneyRange valueOut := moneyRange_iff.mpr ⟨by omega, by omega⟩
  have hdiff : inputAmount - valueOut = mwebBlock.body.getTotalFee := by
    apply Int64.toInt_inj.mp
    rw [hinputRange.toInt_sub hvalueRange, hinputAmount, hvalueOut, hfee]
    omega
  refine MwebNode.connectBlock_eq_applyMwebBlock rfl (getLast?_blockWith _ _ _ _ _) hprev ?_ hinput
    hvalue ?_ hdiff (by rw [hhogex.vout_eq]; rfl) ?_ v
  · intro hfirst
    have hprevouts := hhogex.prevouts
    rw [hprevOut hfirst, Option.toList_some, singleton_append] at hprevouts
    obtain ⟨txin, rest, hvin, hprevout, -⟩ := map_eq_cons_iff.mp hprevouts
    exact ⟨txin, by rw [hvin]; rfl, hprevout⟩
  · rw [hdiff]
    exact moneyRange_iff.mpr ⟨by omega, by omega⟩
  · rw [ha.supplyChange_eq hbuild, hamount]

end

end Amounts

/-! ### The previous block -/

section PrevBlock

variable {rest : Chain P} {prevIndex : CBlockIndex P} {prevBlock : CBlock P}

section

variable (hcheck : MwebNode.contextualCheckBlock params rest prevBlock = .ok ())
  (hentry : newEntry prevBlock = .ok prevIndex)

include hcheck hentry

/-- A previous block for which MWEB was active has the HogEx that its index entry describes. -/
lemma prevHogAddr_of_enabled (henabled : params.isMWEBEnabled rest = true) :
    Miner.prevHogAddr prevBlock =
      .ok (some (⟨prevIndex.hogexHash, 0⟩, prevIndex.mwebAmount)) := by
  cases hattached : prevBlock.mwebBlock with
  | none => simp [MwebNode.contextualCheckBlock, henabled, hattached] at hcheck
  | some mwebBlock =>
    obtain ⟨hogex, hint⟩ := MwebNode.integrated_of_contextualCheckBlock hattached hcheck
    obtain ⟨hogex', hogAddr, hlength, hlast, hhead, rfl⟩ := newEntry_of_some hattached hentry
    obtain rfl : hogex' = hogex := Option.some.inj (hlast.symm.trans hint.last)
    have hget : prevBlock.getHogEx = some hogex' := by
      rw [CBlock.getHogEx, if_pos hlength, hlast]
      simp [Option.filter, hint.isHogEx]
    obtain ⟨outs, hvout⟩ : ∃ outs, hogex'.vout = hogAddr :: outs := by
      cases hout : hogex'.vout with
      | nil => simp [hout] at hhead
      | cons out outs =>
        rw [hout] at hhead
        exact ⟨outs, by rw [Option.some.inj hhead]⟩
    simp [Miner.prevHogAddr, hget, hvout]

/-- A previous block for which MWEB was not active leaves no MWEB balance. -/
lemma mwebAmount_of_not_enabled (henabled : params.isMWEBEnabled rest = false) :
    prevIndex.mwebAmount = 0 := by
  have hnone : prevBlock.mwebBlock = none := by
    simpa [MwebNode.contextualCheckBlock, henabled] using hcheck
  obtain rfl := Except.ok.inj ((newEntry_of_none hnone).symm.trans hentry)
  rfl

omit hcheck hentry in
/-- The HogEx marker is on the last transaction of the previous block only if MWEB was active
for it. -/
def MarkerAllowed (params : ConsensusParams P) (rest : Chain P) (prevBlock : CBlock P) : Prop :=
  params.isMWEBEnabled rest = false → prevBlock.getHogEx = none

omit hcheck hentry in
lemma prevHogAddr_eq_none_iff {prevOut : Option (COutPoint P × CAmount)}
    (hprevOut : Miner.prevHogAddr prevBlock = .ok prevOut) :
    prevOut = none ↔ prevBlock.getHogEx = none := by
  unfold Miner.prevHogAddr at hprevOut
  cases hget : prevBlock.getHogEx with
  | none =>
    rw [hget] at hprevOut
    simpa using (Except.ok.inj hprevOut).symm
  | some hogex =>
    rw [hget] at hprevOut
    dsimp only at hprevOut
    split at hprevOut
    · cases hprevOut
    · obtain rfl := Except.ok.inj hprevOut
      simp

/-- The HogEx spends a previous one exactly if it is not the first, as far as the marker of the
previous block is right. -/
lemma firstPeginIdx_iff {prevOut : Option (COutPoint P × CAmount)}
    (hprevOut : Miner.prevHogAddr prevBlock = .ok prevOut) :
    MwebNode.firstPeginIdx params (prevIndex :: rest) = (prevOut.map Prod.fst).toList.length ↔
      MarkerAllowed params rest prevBlock := by
  unfold MwebNode.firstPeginIdx MwebNode.isFirstHogex MarkerAllowed
  rw [tail_cons]
  cases henabled : params.isMWEBEnabled rest with
  | true =>
    have hsome := prevHogAddr_of_enabled hcheck hentry henabled
    obtain rfl := Except.ok.inj (hprevOut.symm.trans hsome)
    simp
  | false =>
    rw [← prevHogAddr_eq_none_iff hprevOut]
    cases prevOut with
    | none => simp
    | some out => simp

end

end PrevBlock

end BlockAssembler

end Aegisum
