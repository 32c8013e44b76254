import Aegisum.Model.Symbolic
import Aegisum.Mweb.Amounts
import Aegisum.Mweb.Build
import Aegisum.Node.MwebNode

/-!
# Peg conservation

What a block that passes `MWEB::Node::ContextualCheckBlock` and `ConnectBlock` moves across
the peg.  The map of peg-in amounts drops coins that repeat a kernel id, so the peg-in equation
does not follow from the map check; it is a consequence of the fee equation, the amount
equation and the peg-out multiset together, in arithmetic modulo `2 ^ 64`.
-/

namespace Aegisum

open Mw (PegInCoin PegOutCoin)

variable {P : Primitives} [NodeCrypto P]

namespace MwebNode

variable {b : CBlock P} {prev : Chain P} {params : ConsensusParams P}

/-- The facts of both checks for one accepted block. -/
lemma accepted_facts {view view' : Mw.CoinsView P} {undo : Option (Mw.BlockUndo P)}
    (hcheck : contextualCheckBlock params prev b = .ok ())
    (hconnect : connectBlock params prev b view = .ok (undo, view')) {mwebBlock : Mw.Block P}
    (hattached : b.mwebBlock = some mwebBlock) :
    ∃ hogex prevIndex hogexInputAmount valueOut hogAddr mwundo, undo = some mwundo ∧
      Integrated params prev b hogex mwebBlock ∧
      MwebConnected params prev b view hogex mwebBlock prevIndex hogexInputAmount valueOut
        hogAddr mwundo view' := by
  obtain ⟨hogex, hint⟩ := integrated_of_contextualCheckBlock hattached hcheck
  obtain ⟨hogex', prevIndex, amount, valueOut, hogAddr, mwundo, hundo, hcon⟩ :=
    connected_of_connectBlock hattached hconnect
  obtain rfl : hogex = hogex' := Option.some.inj (hint.last.symm.trans hcon.last)
  exact ⟨hogex, prevIndex, amount, valueOut, hogAddr, mwundo, hundo, hint, hcon⟩

/-- Without MWEB no extension block is attached. -/
lemma mwebBlock_eq_none (hcheck : contextualCheckBlock params prev b = .ok ())
    (hdisabled : params.isMWEBEnabled prev = false) : b.mwebBlock = none := by
  simpa [contextualCheckBlock, hdisabled] using hcheck

/-- With MWEB an extension block is attached. -/
lemma exists_mwebBlock (hcheck : contextualCheckBlock params prev b = .ok ())
    (henabled : params.isMWEBEnabled prev = true) : ∃ mwebBlock, b.mwebBlock = some mwebBlock := by
  cases hb : b.mwebBlock with
  | none => simp [contextualCheckBlock, henabled, hb] at hcheck
  | some mwebBlock => exact ⟨mwebBlock, rfl⟩

/-! ### The two amount equations -/

section

variable {params : ConsensusParams P} {prev : Chain P} {b : CBlock P}
  {view view' : Mw.CoinsView P} {hogex : CTransaction P} {mwebBlock : Mw.Block P}
  {prevIndex : CBlockIndex P} {amount valueOut : CAmount} {hogAddr : CTxOut P}
  {undo : Mw.BlockUndo P}

/-- The value of the HogEx outputs is the reserve plus the peg-outs. -/
lemma valueOut_eq (hint : Integrated params prev b hogex mwebBlock)
    (hcon : MwebConnected params prev b view hogex mwebBlock prevIndex amount valueOut hogAddr
      undo view') : valueOut.toInt = hogAddr.nValue.toInt + mwebBlock.body.pegOutSum := by
  obtain ⟨hvalue, -, -⟩ := getValueOut_eq_some hcon.valueOut_eq
  obtain ⟨-, -, hpegouts⟩ := Mw.validateBlock_eq_true.mp hint.valid
  have hperm := Mw.perm_of_validatePegOutCoins hpegouts
  obtain ⟨rest, hvout⟩ : ∃ rest, hogex.vout = hogAddr :: rest := by
    have haddr := hcon.hogAddr_eq
    cases hout : hogex.vout with
    | nil => simp [hout] at haddr
    | cons out rest =>
      rw [hout, List.head?_cons] at haddr
      exact ⟨rest, by rw [Option.some.inj haddr]⟩
  have hrest : intSum PegOutCoin.amount hogex.hogexPegouts = outputsValue rest := by
    simp [CTransaction.hogexPegouts, hvout, intSum, outputsValue, Function.comp_def]
  rw [hvalue, hvout, outputsValue, intSum_cons, Mw.TxBody.pegOutSum, ← intSum_perm _ hperm,
    hrest, outputsValue]

/-- The peg-in outputs carry what the kernels' peg-ins credit, modulo `2 ^ 64`. -/
lemma pegins_modEq (hint : Integrated params prev b hogex mwebBlock)
    (hcon : MwebConnected params prev b view hogex mwebBlock prevIndex amount valueOut hogAddr
      undo view') :
    intSum CTxOut.nValue b.peginOutputs ≡ mwebBlock.body.pegInSum [ZMOD 2 ^ 64] := by
  have hvalue := valueOut_eq hint hcon
  have hamount := toInt_accumulate_modEq CTxOut.nValue prevIndex.mwebAmount b.peginOutputs
  rw [← addPegin_loop hcon.inputAmount] at hamount
  -- the fee equation and the amount equation, over the unbounded integers
  have hfee : amount.toInt - valueOut.toInt ≡ mwebBlock.body.feeSum [ZMOD 2 ^ 64] := by
    refine (toInt_sub_modEq amount valueOut).symm.trans ?_
    rw [hcon.fee]
    exact mwebBlock.body.getTotalFee_modEq
  have hsupply : prevIndex.mwebAmount.toInt + mwebBlock.body.supplySum ≡
      hogAddr.nValue.toInt [ZMOD 2 ^ 64] := by
    rw [← hcon.amount]
    exact ((toInt_add_modEq _ _).trans
      (mwebBlock.body.getSupplyChange_modEq.add_left _)).symm
  rw [mwebBlock.body.supplySum_eq] at hsupply
  rw [hvalue] at hfee
  obtain ⟨x, hx⟩ := hamount.dvd
  obtain ⟨y, hy⟩ := hfee.dvd
  obtain ⟨z, hz⟩ := hsupply.dvd
  exact Int.modEq_iff_dvd.mpr ⟨y - z - x, by omega⟩

end

/-! ### Conservation -/

/-- The peg accounting of a block with an extension block. -/
structure PegConserved (params : ConsensusParams P) (prev : Chain P) (b : CBlock P)
    (hogex : CTransaction P) (mwebBlock : Mw.Block P) (prevIndex : CBlockIndex P) : Prop where
  /-- The peg-in outputs are worth the kernels' peg-ins. -/
  pegins : intSum CTxOut.nValue b.peginOutputs ≡ mwebBlock.body.pegInSum [ZMOD 2 ^ 64]
  /-- The HogEx spends the previous reserve, then the peg-in outputs in block order. -/
  inputs : hogex.vin.map CTxIn.prevout =
    (if isFirstHogex params prev then [] else [⟨prevIndex.hogexHash, 0⟩]) ++ b.peginOutPoints
  /-- The HogEx outputs after the first are the kernels' peg-outs. -/
  pegouts : hogex.hogexPegouts.Perm mwebBlock.body.getPegOuts
  /-- The first HogEx output is the previous amount plus the supply change. -/
  reserve : ∃ out, hogex.vout.head? = some out ∧
    out.nValue.toInt ≡ prevIndex.mwebAmount.toInt + mwebBlock.body.supplySum [ZMOD 2 ^ 64]
  /-- The HogEx pays the fee of the extension block. -/
  fee : ∃ valueOut, hogex.getValueOut = some valueOut ∧
    accumulate CTxOut.nValue prevIndex.mwebAmount b.peginOutputs - valueOut =
      mwebBlock.body.getTotalFee
  /-- Every peg-in output names a kernel of the extension block that declares a peg-in. -/
  credited : ∀ coin ∈ b.blockPegins, ∃ k ∈ mwebBlock.body.kernels,
    k.hasPegIn = true ∧ k.getKernelID = coin.kernelID

private lemma exists_kernel_of_getPegIns {body : Mw.TxBody P} {id : P.Hash}
    (h : id ∈ body.getPegIns.map PegInCoin.kernelID) :
    ∃ k ∈ body.kernels, k.hasPegIn = true ∧ k.getKernelID = id := by
  obtain ⟨coin, hcoin, rfl⟩ := List.mem_map.mp h
  obtain ⟨k, hk, hsome⟩ := List.mem_filterMap.mp hcoin
  split at hsome
  case isTrue hpegin =>
    cases hsome
    exact ⟨k, hk, hpegin, rfl⟩
  case isFalse => cases hsome

/-- Peg conservation: a block accepted on any previous index either has no extension block,
because MWEB is not active for it, or its peg accounting balances. -/
theorem peg_conservation (params : ConsensusParams P) (prev : Chain P) (b : CBlock P)
    (view view' : Mw.CoinsView P) (undo : Option (Mw.BlockUndo P))
    (hcheck : contextualCheckBlock params prev b = .ok ())
    (hconnect : connectBlock params prev b view = .ok (undo, view')) :
    (params.isMWEBEnabled prev = false ∧ b.mwebBlock = none) ∨
      ∃ hogex mwebBlock prevIndex, b.vtx.getLast? = some hogex ∧
        b.mwebBlock = some mwebBlock ∧ prev.head? = some prevIndex ∧
          PegConserved params prev b hogex mwebBlock prevIndex := by
  cases henabled : params.isMWEBEnabled prev with
  | false => exact Or.inl ⟨rfl, mwebBlock_eq_none hcheck henabled⟩
  | true =>
    obtain ⟨mwebBlock, hattached⟩ := exists_mwebBlock hcheck henabled
    obtain ⟨hogex, prevIndex, amount, valueOut, hogAddr, mwundo, -, hint, hcon⟩ :=
      accepted_facts hcheck hconnect hattached
    obtain ⟨hvalid, hpegins, hpegouts⟩ := Mw.validateBlock_eq_true.mp hint.valid
    refine Or.inr ⟨hogex, mwebBlock, prevIndex, hint.last, hattached, hcon.prev_eq, ?_⟩
    refine ⟨pegins_modEq hint hcon, ?_, Mw.perm_of_validatePegOutCoins hpegouts,
      ⟨hogAddr, hcon.hogAddr_eq, ?_⟩, ⟨valueOut, hcon.valueOut_eq, ?_⟩, fun coin hcoin => ?_⟩
    · -- the inputs before the peg-ins are none, or the one that `ConnectBlock` has compared
      rw [← hint.pegins]
      have hle := hint.firstPeginIdx_le
      unfold firstPeginIdx at hle ⊢
      cases hfirst : isFirstHogex params prev with
      | true => simp
      | false =>
        obtain ⟨txin, hhead, hout⟩ := hcon.prev_hogex hfirst
        cases hvin : hogex.vin with
        | nil => simp [hvin] at hhead
        | cons i is =>
          rw [hvin, List.head?_cons] at hhead
          simp [← hout, Option.some.inj hhead]
    · rw [← hcon.amount]
      exact (toInt_add_modEq _ _).trans (mwebBlock.body.getSupplyChange_modEq.add_left _)
    · rw [← addPegin_loop hcon.inputAmount]
      exact hcon.fee
    · have hnodup := (Mw.Block.valid_of_validate hvalid).nodup_kernels
      have hid := (Mw.pegIn_kernelIDs_of_validate hnodup hpegins coin.kernelID).mp
        (List.mem_map_of_mem hcoin)
      exact exists_kernel_of_getPegIns hid

/-! ### A block that repeats a kernel id -/

section Example

open Symbolic

/-- An extension block that mints ten units from one peg-in kernel. -/
def mintBlock : Mw.Block sym :=
  (Mw.CoinsView.empty.buildNextBlock 3 [mintTx]).toOption.get (by decide +kernel)

/-- A transaction with two peg-in outputs that name the same kernel; the second is worth
nothing. -/
def repeatedPegin : CTransaction sym :=
  let id := mintKernel.getKernelID
  spend [⟨.word 1, 0⟩] [⟨10, .mwebPegin id⟩, ⟨0, .mwebPegin id⟩]

/-- The HogEx that spends both peg-in outputs. -/
def peginHogex : CTransaction sym :=
  markHogEx
    (spend [⟨repeatedPegin.getHash, 0⟩, ⟨repeatedPegin.getHash, 1⟩]
      [⟨10, .mwebHogAddr mintBlock.header.getHash⟩])
    ⟨rfl, by simp [spend]⟩

/-- The first block with an extension block, which spends both peg-in outputs. -/
def repeatedPeginBlock : CBlock sym where
  header := ⟨0, .word 0, .word 0, 3, 0, 0⟩
  vtx := [coinbase [1] [⟨0, opTrue⟩], repeatedPegin, peginHogex]
  mwebBlock := some mintBlock

/-- The block is accepted, and its peg accounting balances although the map of peg-in amounts
holds only one of its two peg-in outputs. -/
theorem peg_conservation_repeatedPegin :
    repeatedPeginBlock.blockPegins.length = 2 ∧
      (Mw.pegInAmounts repeatedPeginBlock.blockPegins).length = 1 ∧
      ∃ undo view', connectBlock earlyParams plainChain repeatedPeginBlock .empty =
          .ok (undo, view') ∧
        ((earlyParams.isMWEBEnabled plainChain = false ∧ repeatedPeginBlock.mwebBlock = none) ∨
          ∃ hogex mwebBlock prevIndex, repeatedPeginBlock.vtx.getLast? = some hogex ∧
            repeatedPeginBlock.mwebBlock = some mwebBlock ∧
            plainChain.head? = some prevIndex ∧
            PegConserved earlyParams plainChain repeatedPeginBlock hogex mwebBlock prevIndex) := by
  refine ⟨by decide +kernel, by decide +kernel, ?_⟩
  have hok : (connectBlock earlyParams plainChain repeatedPeginBlock .empty).isOk = true := by
    decide +kernel
  obtain ⟨⟨undo, view'⟩, hconnect⟩ := exists_eq_ok_of_isOk hok
  exact ⟨undo, view', hconnect,
    peg_conservation _ _ _ _ _ _ (by decide +kernel) hconnect⟩

end Example

end MwebNode

end Aegisum
