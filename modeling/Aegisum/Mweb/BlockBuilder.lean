import Aegisum.Mweb.Aggregation
import Aegisum.Mweb.ViewState
import Aegisum.Model.Symbolic

/-!
# What the block builder accepts

`BlockBuilder::AddTransaction` compares a transaction with the view and with what is staged before
it: the weight, the peg-ins, that its inputs exist and that its outputs are new.  It does not
compare the inputs and kernels of different transactions with each other, and a transaction that
fails its own validation is staged all the same.  The theorem says which conditions are left to
the caller.
-/

namespace Aegisum

open List

namespace Mw

open TxBody CoinsView

variable {P : Primitives} [MwCrypto P]

namespace BlockBuilder

/-- A builder without transactions. -/
def new (height : ℤ) (v : CoinsView P) : BlockBuilder P := ⟨height, v, [], [], 0⟩

/-- `AddTransaction` with its answer.  That the ids of the outputs are new is asserted when they
are inserted; the tests before compared them with those of other transactions only. -/
def addTransaction (builder : BlockBuilder P) (tx : Transaction P) (pegins : List (PegInCoin P)) :
    Option (Bool × BlockBuilder P) :=
  if !builder.accepts tx pegins then some (false, builder)
  else if ¬ tx.body.getOutputIDs.Nodup then none
  else some (true, builder.stage tx)

/-- A sequence of calls that all return, on a new builder.  The last argument lists the
transactions that were accepted, with the peg-ins that were supplied for them. -/
inductive Calls (height : ℤ) (v : CoinsView P) :
    BlockBuilder P → List (Transaction P × List (PegInCoin P)) → Prop
  | new : Calls height v (new height v) []
  | accepted {builder builder' : BlockBuilder P}
    {calls : List (Transaction P × List (PegInCoin P))} {tx : Transaction P}
    {pegins : List (PegInCoin P)} : Calls height v builder calls →
      builder.addTransaction tx pegins = some (true, builder') →
      Calls height v builder' (calls ++ [(tx, pegins)])
  | refused {builder builder' : BlockBuilder P}
    {calls : List (Transaction P × List (PegInCoin P))} {tx : Transaction P}
    {pegins : List (PegInCoin P)} : Calls height v builder calls →
      builder.addTransaction tx pegins = some (false, builder') → Calls height v builder' calls

variable {builder : BlockBuilder P} {v : CoinsView P} {pegins : List (PegInCoin P)}
  {calls : List (Transaction P × List (PegInCoin P))} {tx : Transaction P} {height : ℤ}

lemma Calls.stage (h : Calls height v builder calls) (haccepts : builder.accepts tx pegins = true)
    (hnodup : tx.body.getOutputIDs.Nodup) :
    Calls height v (builder.stage tx) (calls ++ [(tx, pegins)]) :=
  h.accepted (by simp [addTransaction, haccepts, hnodup])

/-! ### What is known of the accepted transactions -/

/-- Every peg-in of the kernels has its supplied coin, apart from the amount. -/
structure PegInsNamed (tx : Transaction P) (pegins : List (PegInCoin P)) : Prop where
  nodup : (pegins.map PegInCoin.kernelID).Nodup
  length_eq : tx.body.getPegIns.length = pegins.length
  named : tx.body.getPegIns.map PegInCoin.kernelID ⊆ pegins.map PegInCoin.kernelID

/-- What the tests of `AddTransaction` establish. -/
structure Accepts (builder : BlockBuilder P) (tx : Transaction P) (pegins : List (PegInCoin P)) :
    Prop where
  weight_le : tx.body.calculateWeight + builder.weight ≤ TxBody.maxBlockWeight
  pegins : PegInsNamed tx pegins
  inputs : ∀ id ∈ tx.body.getSpentIDs,
    (builder.coinsView.utxos.get id).isSome = true ∨ id ∈ builder.stagedOutputs
  outputs : ∀ id ∈ tx.body.getOutputIDs,
    builder.coinsView.utxos.get id = none ∧ id ∉ builder.stagedOutputs

lemma accepts_of_eq_true (h : builder.accepts tx pegins = true) : builder.Accepts tx pegins := by
  simp only [accepts, Bool.and_eq_true, decide_eq_true_eq, all_eq_true, Bool.or_eq_true,
    Bool.not_eq_true', Option.isSome_eq_false_iff, Option.isNone_iff_eq_none] at h
  obtain ⟨⟨⟨⟨⟨⟨hweight, -⟩, hnodup⟩, hlength⟩, hnamed⟩, hinputs⟩, houtputs⟩ := h
  refine ⟨hweight, ⟨hnodup, hlength, ?_⟩, ?_, ?_⟩
  · intro id hid
    obtain ⟨pegin, hpegin, rfl⟩ := mem_map.mp hid
    exact hnamed pegin hpegin
  · intro id hid
    obtain ⟨input, hinput, rfl⟩ := mem_map.mp hid
    exact hinputs input hinput
  · intro id hid
    obtain ⟨output, houtput, rfl⟩ := mem_map.mp hid
    exact houtputs output houtput

/-- What is known of a builder with accepted transactions. -/
structure Staged (height : ℤ) (v : CoinsView P) (builder : BlockBuilder P)
    (calls : List (Transaction P × List (PegInCoin P))) : Prop where
  height_eq : builder.height = height
  coinsView_eq : builder.coinsView = v
  stagedTxs_eq : builder.stagedTxs = calls.map Prod.fst
  stagedOutputs_eq : builder.stagedOutputs = (TxBody.together (calls.map Prod.fst)).getOutputIDs
  weight_eq : builder.weight = (TxBody.together (calls.map Prod.fst)).calculateWeight
  weight_le : builder.weight ≤ TxBody.maxBlockWeight
  nodup_outputs : builder.stagedOutputs.Nodup
  fresh : ∀ id ∈ builder.stagedOutputs, v.utxos.get id = none
  inputs : ∀ id ∈ (TxBody.together (calls.map Prod.fst)).getSpentIDs,
    (v.utxos.get id).isSome = true ∨ id ∈ builder.stagedOutputs
  pegins : ∀ call ∈ calls, PegInsNamed call.1 call.2

lemma staged_new (height : ℤ) (v : CoinsView P) : Staged height v (new height v) [] where
  height_eq := rfl
  coinsView_eq := rfl
  stagedTxs_eq := rfl
  stagedOutputs_eq := rfl
  weight_eq := rfl
  weight_le := Nat.zero_le _
  nodup_outputs := .nil
  fresh _ h := by cases h
  inputs _ h := by cases h
  pegins _ h := by cases h

/-- One more accepted transaction. -/
lemma Staged.stage (h : Staged height v builder calls) (haccepts : builder.Accepts tx pegins)
    (hnodup : tx.body.getOutputIDs.Nodup) :
    Staged height v (builder.stage tx) (calls ++ [(tx, pegins)]) := by
  have hcalls : (calls ++ [(tx, pegins)]).map Prod.fst = calls.map Prod.fst ++ [tx] := by simp
  obtain ⟨hweight, hpegins, hinputs, houtputs⟩ := haccepts
  rw [h.coinsView_eq] at hinputs houtputs
  have hdisjoint : builder.stagedOutputs.Disjoint tx.body.getOutputIDs :=
    fun id hstaged hnew => (houtputs id hnew).2 hstaged
  constructor
  · exact h.height_eq
  · exact h.coinsView_eq
  · rw [hcalls, ← h.stagedTxs_eq]
    rfl
  · rw [hcalls, getOutputIDs_together_concat, ← h.stagedOutputs_eq]
    rfl
  · rw [hcalls, calculateWeight_together_concat, ← h.weight_eq]
    rfl
  · change builder.weight + tx.body.calculateWeight ≤ _
    omega
  · exact h.nodup_outputs.append hnodup hdisjoint
  · intro id hid
    rcases mem_append.mp hid with hold | hnew
    · exact h.fresh id hold
    · exact (houtputs id hnew).1
  · intro id hid
    rw [hcalls, getSpentIDs_together_concat] at hid
    rcases mem_append.mp hid with hold | hnew
    · exact (h.inputs id hold).imp_right (mem_append_left _)
    · exact (hinputs id hnew).imp_right (mem_append_left _)
  · intro call hcall
    rcases mem_append.mp hcall with hold | hnew
    · exact h.pegins call hold
    · obtain rfl := mem_singleton.mp hnew
      exact hpegins

/-- Whatever is called, the accepted transactions are staged. -/
lemma Calls.staged (h : Calls height v builder calls) : Staged height v builder calls := by
  induction h with
  | new => exact staged_new height v
  | @accepted builder builder' calls tx pegins _ hcall ih =>
    rw [addTransaction] at hcall
    split at hcall
    · cases hcall
    case isFalse haccepts =>
      split at hcall
      · cases hcall
      case isFalse hnodup =>
        obtain ⟨-, rfl⟩ := Prod.mk.inj (Option.some.inj hcall)
        exact ih.stage (accepts_of_eq_true (by simpa using haccepts)) (not_not.mp hnodup)
  | @refused builder builder' calls tx pegins _ hcall ih =>
    rw [addTransaction] at hcall
    split at hcall
    · obtain ⟨-, rfl⟩ := Prod.mk.inj (Option.some.inj hcall)
      exact ih
    · split at hcall
      · cases hcall
      · cases hcall

end BlockBuilder

/-! ### Building and connecting -/

namespace CoinsView

variable {v v₁ v₂ : CoinsView P} {height : ℤ} {outputs : List (Output P)} {ids : List P.Hash}
  {coins : List (UTXO P)}

/-- Outputs with new, different ids can be added. -/
lemma exists_addOutputs_eq (hfresh : ∀ o ∈ outputs, v.utxos.get o.getOutputID = none)
    (hnodup : (outputs.map Output.getOutputID).Nodup) :
    ∃ v', v.addOutputs height outputs = .ok v' := by
  induction outputs generalizing v with
  | nil => exact ⟨v, rfl⟩
  | cons o os ih =>
    obtain ⟨hnotin, hnodup⟩ := nodup_cons.mp hnodup
    obtain ⟨v₁, hadd⟩ : ∃ v₁, v.addUTXO height o = .ok v₁ :=
      ⟨_, addUTXO_eq_ok.mpr ⟨hfresh o mem_cons_self, rfl⟩⟩
    have hfresh₁ : ∀ o' ∈ os, v₁.utxos.get o'.getOutputID = none := by
      intro o' ho'
      have hne : o'.getOutputID ≠ o.getOutputID := by
        intro heq
        exact hnotin (heq ▸ mem_map_of_mem ho')
      rw [(addUTXO_eq_ok.mp hadd).2]
      exact (FiniteMap.get_set_of_ne _ _ hne).trans (hfresh o' (mem_cons_of_mem _ ho'))
    obtain ⟨v', hv'⟩ := ih hfresh₁ hnodup
    exact ⟨v', foldlM_cons_eq_ok.mpr ⟨v₁, hadd, hv'⟩⟩

/-- Different unspent outputs can be spent. -/
lemma Consistent.exists_spendInputs_eq (hv : v.Consistent)
    (hpresent : ∀ id ∈ ids, (v.utxos.get id).isSome = true) (hnodup : ids.Nodup) :
    ∃ coins v', v.spendInputs ids = .ok (coins, v') := by
  induction ids generalizing v with
  | nil => exact ⟨[], v, rfl⟩
  | cons id ids ih =>
    obtain ⟨hnotin, hnodup⟩ := nodup_cons.mp hnodup
    obtain ⟨u, hu⟩ := Option.isSome_iff_exists.mp (hpresent id mem_cons_self)
    have hspend := spendUTXO_eq_ok.mpr ⟨hu, hv.unspent id u hu, rfl⟩
    obtain ⟨coins, v', hrest⟩ := ih (hv.spendUTXO hspend).consistent
      (fun id' hid' => by
        have hne : id' ≠ id := by
          rintro rfl
          exact hnotin hid'
        dsimp only
        rw [FiniteMap.get_set_of_ne _ _ hne]
        exact hpresent id' (mem_cons_of_mem _ hid'))
      hnodup
    exact ⟨u :: coins, v', (bind_of_eq_ok hspend _).trans (bind_of_eq_ok hrest _)⟩

/-- The best header has no part in adding outputs. -/
lemma addOutputs_setBestHeader (hadd : v.addOutputs height outputs = .ok v₁)
    (hdr : Option (Header P)) :
    { v with bestHeader := hdr }.addOutputs height outputs =
      .ok { v₁ with bestHeader := hdr } := by
  unfold addOutputs at hadd ⊢
  induction outputs generalizing v with
  | nil =>
    obtain rfl := Except.ok.inj hadd
    rfl
  | cons o os ih =>
    obtain ⟨v', ho, hos⟩ := foldlM_cons_eq_ok.mp hadd
    obtain ⟨hnone, rfl⟩ := addUTXO_eq_ok.mp ho
    exact foldlM_cons_eq_ok.mpr ⟨_, addUTXO_eq_ok.mpr ⟨hnone, rfl⟩, ih hos⟩

omit [MwCrypto P] in
/-- The best header has no part in spending outputs. -/
lemma spendInputs_setBestHeader (hspend : v.spendInputs ids = .ok (coins, v₁))
    (hdr : Option (Header P)) :
    { v with bestHeader := hdr }.spendInputs ids = .ok (coins, { v₁ with bestHeader := hdr }) := by
  induction ids generalizing v coins with
  | nil =>
    obtain ⟨rfl, rfl⟩ : [] = coins ∧ v = v₁ := by simpa [spendInputs] using hspend
    rfl
  | cons id ids ih =>
    obtain ⟨⟨u, v'⟩, hid, hspend⟩ := bind_eq_ok.mp hspend
    obtain ⟨⟨us, v''⟩, hids, hspend⟩ := bind_eq_ok.mp hspend
    obtain ⟨rfl, rfl⟩ : u :: us = coins ∧ v'' = v₁ := by simpa [pure, Except.pure] using hspend
    obtain ⟨hu, hset, rfl⟩ := spendUTXO_eq_ok.mp hid
    have hid' : { v with bestHeader := hdr }.spendUTXO id = .ok _ :=
      spendUTXO_eq_ok.mpr ⟨hu, hset, rfl⟩
    exact (bind_of_eq_ok hid' _).trans (bind_of_eq_ok (ih hids) _)

/-- The header of the next block over a body, for the view after its outputs and inputs. -/
def nextHeader (v after : CoinsView P) (height : ℤ) (tx : Aggregate P) : Header P where
  height := height
  outputRoot := after.outputPMMR.root (outputMmrHasher P)
  kernelRoot := (kernelMmr tx.body.kernels).root (kernelMmrHasher P)
  leafsetRoot := MwCrypto.leafSetHash after.leafSet.toBytes
  kernelOffset := v.kernelOffset + tx.kernelOffset
  stealthOffset := tx.stealthOffset
  numTXOs := after.outputPMMR.getNumLeaves
  numKernels := tx.body.kernels.length

lemma buildNextBlock_eq_ok {txs : List (Transaction P)} {b : Block P} :
    v.buildNextBlock height txs = .ok b ↔
      ∃ v₁ coins v₂, v.addOutputs height (aggregate txs).body.outputs = .ok v₁ ∧
        v₁.spendInputs (aggregate txs).body.getSpentIDs = .ok (coins, v₂) ∧
        b = ⟨v.nextHeader v₂ height (aggregate txs), (aggregate txs).body⟩ := by
  rw [buildNextBlock, bind_eq_ok]
  constructor
  · rintro ⟨v₁, hadd, h⟩
    obtain ⟨⟨coins, v₂⟩, hspend, h⟩ := bind_eq_ok.mp h
    exact ⟨v₁, coins, v₂, hadd, hspend, (Except.ok.inj h).symm⟩
  · rintro ⟨v₁, coins, v₂, hadd, hspend, rfl⟩
    exact ⟨v₁, hadd, bind_of_eq_ok hspend _⟩

/-- The block that was built on a view connects to it exactly if the kernel sums are right. -/
lemma exists_applyBlock_iff {txs : List (Transaction P)} {b : Block P}
    (hbuild : v.buildNextBlock height txs = .ok b) :
    (∃ undo v', v.applyBlock b = .ok (undo, v')) ↔
      validateForBlock b.body b.header.kernelOffset v.kernelOffset = .ok () := by
  obtain ⟨v₁, coins, v₂, hadd, hspend, rfl⟩ := buildNextBlock_eq_ok.mp hbuild
  constructor
  · rintro ⟨undo, v', happly⟩
    obtain ⟨mid, happ⟩ := applied_of_applyBlock happly
    exact happ.balance
  · intro hbalance
    refine ⟨⟨v.bestHeader, coins, (aggregate txs).body.getOutputIDs⟩,
      { v₂ with bestHeader := some (v.nextHeader v₂ height (aggregate txs)) }, ?_⟩
    rw [applyBlock, bind_of_eq_ok hbalance]
    refine (bind_of_eq_ok (addOutputs_setBestHeader hadd _) _).trans ?_
    refine (bind_of_eq_ok (spendInputs_setBestHeader hspend _) _).trans ?_
    exact rejectIf_bind_eq_ok.mpr ⟨not_not.mpr ⟨rfl, rfl, rfl⟩, rfl⟩

end CoinsView

namespace BlockBuilder

/-! ### What is left to the caller -/

/-- What `AddTransaction` does not ensure: the number of inputs, the order inside a single
transaction, that outputs are spent and kernels appear only once, signatures and range proofs, the
amount of each peg-in, and the sums. -/
structure Compatible (txs : List (Transaction P)) (pegins : List (PegInCoin P)) : Prop where
  inputs_le : (TxBody.together txs).inputs.length ≤ TxBody.maxNumInputs
  sorted : ∀ tx, txs = [tx] → tx.body.Sorted
  nodup_spent : (TxBody.together txs).getSpentIDs.Nodup
  nodup_kernels : (TxBody.together txs).getKernelIDs.Nodup
  signatures : ∀ tx ∈ txs, ∀ m ∈ tx.body.signedMessages, MwCrypto.schnorrVerify m = true
  proofs : ∀ tx ∈ txs, ∀ o ∈ tx.body.outputs, MwCrypto.bulletproofVerify o.buildProofData = true
  pegins : (TxBody.together txs).getPegIns ⊆ pegins
  kernelSums : validateSums (TxBody.together txs).getInputCommits
    (TxBody.together txs).getOutputCommits (TxBody.together txs).getKernelCommits
    (txs.map Transaction.kernelOffset).sum (TxBody.together txs).getSupplyChange = .ok ()
  stealthSums : stealthSumValidate (txs.map Transaction.stealthOffset).sum
    (TxBody.together txs) = .ok ()

variable {height : ℤ} {v : CoinsView P} {builder : BlockBuilder P} {txs : List (Transaction P)}
  {calls : List (Transaction P × List (PegInCoin P))}

lemma mem_signedMessages_together {m : SignedMessage P} :
    m ∈ (together txs).signedMessages ↔ ∃ tx ∈ txs, m ∈ tx.body.signedMessages := by
  simp only [signedMessages, together, mem_append, mem_map, mem_flatMap]
  constructor
  · rintro ((⟨k, ⟨tx, htx, hk⟩, rfl⟩ | ⟨i, ⟨tx, htx, hi⟩, rfl⟩) | ⟨o, ⟨tx, htx, ho⟩, rfl⟩)
    · exact ⟨tx, htx, .inl (.inl ⟨k, hk, rfl⟩)⟩
    · exact ⟨tx, htx, .inl (.inr ⟨i, hi, rfl⟩)⟩
    · exact ⟨tx, htx, .inr ⟨o, ho, rfl⟩⟩
  · rintro ⟨tx, htx, (⟨k, hk, rfl⟩ | ⟨i, hi, rfl⟩) | ⟨o, ho, rfl⟩⟩
    · exact .inl (.inl ⟨k, ⟨tx, htx, hk⟩, rfl⟩)
    · exact .inl (.inr ⟨i, ⟨tx, htx, hi⟩, rfl⟩)
    · exact .inr ⟨o, ⟨tx, htx, ho⟩, rfl⟩

/-- The validity of the aggregated body, in terms of the transactions. -/
lemma valid_aggregate_iff (hless : StrictWeak P.hashLt)
    (hweight : (together txs).calculateWeight ≤ maxBlockWeight)
    (houtputs : (together txs).getOutputIDs.Nodup) :
    (aggregate txs).body.Valid ↔
      (together txs).inputs.length ≤ maxNumInputs ∧
      (∀ tx, txs = [tx] → tx.body.Sorted) ∧ (together txs).getSpentIDs.Nodup ∧
      (together txs).getKernelIDs.Nodup ∧
      (∀ tx ∈ txs, ∀ m ∈ tx.body.signedMessages, MwCrypto.schnorrVerify m = true) ∧
      ∀ tx ∈ txs, ∀ o ∈ tx.body.outputs,
        MwCrypto.bulletproofVerify o.buildProofData = true := by
  have hparts := sameParts_aggregate txs
  have hexceeds : (aggregate txs).body.exceedsMaximum = false ↔
      (together txs).inputs.length ≤ maxNumInputs := by
    rw [exceedsMaximum, tooHeavy, hparts.calculateWeight_eq, hparts.inputs.length_eq,
      Bool.or_eq_false_iff, decide_eq_false_iff_not, decide_eq_false_iff_not, Nat.not_lt,
      Nat.not_lt]
    exact and_iff_left hweight
  have hsigned : (∀ m ∈ (aggregate txs).body.signedMessages, MwCrypto.schnorrVerify m = true) ↔
      ∀ tx ∈ txs, ∀ m ∈ tx.body.signedMessages, MwCrypto.schnorrVerify m = true := by
    simp only [hparts.signedMessages.mem_iff, mem_signedMessages_together]
    constructor
    · intro h tx htx m hm
      exact h m ⟨tx, htx, hm⟩
    · rintro h m ⟨tx, htx, hm⟩
      exact h tx htx m hm
  have hproofs : (∀ d ∈ (aggregate txs).body.outputs.map Output.buildProofData,
        MwCrypto.bulletproofVerify d = true) ↔
      ∀ tx ∈ txs, ∀ o ∈ tx.body.outputs,
        MwCrypto.bulletproofVerify o.buildProofData = true := by
    simp only [forall_mem_map, hparts.outputs.mem_iff, together, mem_flatMap]
    constructor
    · intro h tx htx o ho
      exact h o ⟨tx, htx, ho⟩
    · rintro h o ⟨tx, htx, ho⟩
      exact h tx htx o ho
  constructor
  · rintro ⟨hw, hi, ho, hk, hspent, -, hkernels, hsig, hproof⟩
    exact ⟨hexceeds.mp hw, (sorted_aggregate_iff hless txs).mp ⟨hi, ho, hk⟩,
      hparts.getSpentIDs.nodup_iff.mp hspent, hparts.getKernelIDs.nodup_iff.mp hkernels,
      hsigned.mp hsig, hproofs.mp hproof⟩
  · rintro ⟨hw, hsorted, hspent, hkernels, hsig, hproof⟩
    obtain ⟨hi, ho, hk⟩ := (sorted_aggregate_iff hless txs).mpr hsorted
    exact ⟨hexceeds.mpr hw, hi, ho, hk, hparts.getSpentIDs.nodup_iff.mpr hspent,
      hparts.getOutputIDs.nodup_iff.mpr houtputs, hparts.getKernelIDs.nodup_iff.mpr hkernels,
      hsigned.mpr hsig, hproofs.mpr hproof⟩

/-- The supplied peg-ins name the kernels with peg-ins, each once. -/
lemma perm_kernelIDs (hpegins : ∀ call ∈ calls, PegInsNamed call.1 call.2)
    (hkernels : (together (calls.map Prod.fst)).getKernelIDs.Nodup) :
    ((together (calls.map Prod.fst)).getPegIns.map PegInCoin.kernelID).Perm
      ((calls.flatMap Prod.snd).map PegInCoin.kernelID) := by
  induction calls with
  | nil => exact .refl _
  | cons call calls ih =>
    have hids : (together ((call :: calls).map Prod.fst)).getKernelIDs =
        call.1.body.getKernelIDs ++ (together (calls.map Prod.fst)).getKernelIDs := by
      simp [together, getKernelIDs]
    rw [hids] at hkernels
    have hcall := hpegins call mem_cons_self
    have hnodup : (call.1.body.getPegIns.map PegInCoin.kernelID).Nodup :=
      hkernels.of_append_left.sublist (getPegIns_kernelIDs_sublist _)
    have hfirst : (call.1.body.getPegIns.map PegInCoin.kernelID).Perm
        (call.2.map PegInCoin.kernelID) :=
      (subperm_of_subset hnodup hcall.named).perm_of_length_le
        (by simp [hcall.length_eq])
    have hrest := ih (fun c hc => hpegins c (mem_cons_of_mem _ hc)) hkernels.of_append_right
    rw [getPegIns_together] at hrest ⊢
    simp only [map_cons, flatMap_cons, map_append]
    exact hfirst.append hrest

/-- The staged transactions can be built into a block exactly if they spend every output at most
once. -/
lemma Staged.exists_buildBlock_iff (h : Staged height v builder calls) (hv : v.Consistent) :
    (∃ b, builder.buildBlock = .ok b) ↔
      (together (calls.map Prod.fst)).getSpentIDs.Nodup := by
  have hparts := sameParts_aggregate (calls.map Prod.fst)
  have houtputs := h.stagedOutputs_eq
  rw [buildBlock, h.coinsView_eq, h.height_eq, h.stagedTxs_eq]
  simp only [buildNextBlock_eq_ok]
  constructor
  · rintro ⟨-, v₁, coins, v₂, -, hspend, -⟩
    exact hparts.getSpentIDs.nodup_iff.mp (spent_of_spendInputs hspend).nodup
  · intro hnodup
    have hfresh : ∀ o ∈ (aggregate (calls.map Prod.fst)).body.outputs,
        v.utxos.get o.getOutputID = none := by
      intro o ho
      apply h.fresh
      rw [houtputs, ← hparts.getOutputIDs.mem_iff]
      exact mem_map_of_mem ho
    have hnodupOutputs : (aggregate (calls.map Prod.fst)).body.getOutputIDs.Nodup :=
      hparts.getOutputIDs.nodup_iff.mpr (houtputs ▸ h.nodup_outputs)
    obtain ⟨v₁, hadd⟩ : ∃ v₁,
        v.addOutputs height (aggregate (calls.map Prod.fst)).body.outputs = .ok v₁ :=
      exists_addOutputs_eq hfresh hnodupOutputs
    have hadded := added_of_addOutputs hadd
    have hpresent : ∀ id ∈ (aggregate (calls.map Prod.fst)).body.getSpentIDs,
        (v₁.utxos.get id).isSome = true := by
      intro id hid
      by_cases hnew : id ∈ (aggregate (calls.map Prod.fst)).body.outputs.map Output.getOutputID
      · obtain ⟨o, ho, rfl⟩ := mem_map.mp hnew
        obtain ⟨leafIdx, hget⟩ := hadded.created o ho
        rw [hget]
        rfl
      · rw [hadded.others id hnew]
        refine (h.inputs id (hparts.getSpentIDs.mem_iff.mp hid)).resolve_right fun hstaged => ?_
        rw [houtputs, ← hparts.getOutputIDs.mem_iff] at hstaged
        exact hnew hstaged
    obtain ⟨coins, v₂, hspend⟩ := (hv.addOutputs hadd).1.exists_spendInputs_eq hpresent
      (hparts.getSpentIDs.nodup_iff.mpr hnodup)
    exact ⟨_, v₁, coins, v₂, hadd, hspend, rfl⟩

/-- The kernel sums of the next block are those of its transactions. -/
lemma validateForBlock_nextHeader (after : CoinsView P) (tx : Aggregate P) :
    validateForBlock tx.body (v.nextHeader after height tx).kernelOffset v.kernelOffset =
      validateSums tx.body.getInputCommits tx.body.getOutputCommits tx.body.getKernelCommits
        tx.kernelOffset tx.body.getSupplyChange := by
  have hoffset : (if v.kernelOffset ≠ 0 then v.kernelOffset + tx.kernelOffset - v.kernelOffset
      else v.kernelOffset + tx.kernelOffset) = tx.kernelOffset := by
    split
    · exact add_sub_cancel_left _ _
    case isFalse hzero => rw [not_not.mp hzero, zero_add]
  rw [validateForBlock]
  exact congrArg (validateSums _ _ _ · _) hoffset

/-- The context-free checks of the block that is built. -/
lemma validate_nextHeader_iff (after : CoinsView P) (tx : Aggregate P) :
    Block.validate ⟨v.nextHeader after height tx, tx.body⟩ = .ok () ↔
      tx.body.Valid ∧ stealthSumValidate tx.stealthOffset tx.body = .ok () := by
  rw [Block.validate, rejectIf_bind_eq_ok, ← validate_eq_ok]
  constructor
  · rintro ⟨-, h⟩
    obtain ⟨_, hvalid, h⟩ := bind_eq_ok.mp h
    obtain ⟨_, hstealth, -⟩ := bind_eq_ok.mp h
    exact ⟨hvalid, hstealth⟩
  · rintro ⟨hvalid, hstealth⟩
    refine ⟨not_not.mpr rfl, ?_⟩
    refine (bind_of_eq_ok hvalid _).trans ((bind_of_eq_ok hstealth _).trans ?_)
    exact rejectIf_eq_ok.mpr (not_not.mpr rfl)

namespace Staged

variable {b : Block P}

section

variable (h : Staged height v builder calls) (hbuild : builder.buildBlock = .ok b)

include h hbuild

/-- The block that is built has the aggregated body, and the header over it. -/
lemma exists_nextHeader :
    ∃ after, b = ⟨v.nextHeader after height (aggregate (calls.map Prod.fst)),
      (aggregate (calls.map Prod.fst)).body⟩ := by
  rw [buildBlock, h.coinsView_eq, h.height_eq, h.stagedTxs_eq] at hbuild
  obtain ⟨v₁, coins, after, -, -, rfl⟩ := buildNextBlock_eq_ok.mp hbuild
  exact ⟨after, rfl⟩

lemma validate_iff :
    b.validate = .ok () ↔ (aggregate (calls.map Prod.fst)).body.Valid ∧
      stealthSumValidate ((calls.map Prod.fst).map Transaction.stealthOffset).sum
        (together (calls.map Prod.fst)) = .ok () := by
  obtain ⟨after, rfl⟩ := h.exists_nextHeader hbuild
  rw [validate_nextHeader_iff, (sameParts_aggregate _).stealthSumValidate_eq,
    stealthOffset_aggregate]

lemma validatePegInCoins_iff (hkernels : (together (calls.map Prod.fst)).getKernelIDs.Nodup) :
    validatePegInCoins b (calls.flatMap Prod.snd) = .ok () ↔
      (together (calls.map Prod.fst)).getPegIns ⊆ calls.flatMap Prod.snd := by
  obtain ⟨after, rfl⟩ := h.exists_nextHeader hbuild
  have hpegins := (sameParts_aggregate (calls.map Prod.fst)).getPegIns
  have hperm := perm_kernelIDs h.pegins hkernels
  have hnodup : ((calls.flatMap Prod.snd).map PegInCoin.kernelID).Nodup :=
    hperm.nodup_iff.mp (hkernels.sublist (getPegIns_kernelIDs_sublist _))
  have hlength : (aggregate (calls.map Prod.fst)).body.getPegIns.length =
      (calls.flatMap Prod.snd).length := by
    rw [hpegins.length_eq]
    simpa using hperm.length_eq
  rw [validatePegInCoins_eq_ok_iff hnodup hlength]
  exact ⟨fun hsub pegin hpegin => hsub (hpegins.mem_iff.mpr hpegin),
    fun hsub pegin hpegin => hsub (hpegins.mem_iff.mp hpegin)⟩

/-- The peg-outs of the block are those of the transactions. -/
lemma validatePegOutCoins :
    validatePegOutCoins b (calls.flatMap (·.1.body.getPegOuts)) = .ok () := by
  obtain ⟨after, rfl⟩ := h.exists_nextHeader hbuild
  apply validatePegOutCoins_of_perm
  have hpegouts := (sameParts_aggregate (calls.map Prod.fst)).getPegOuts
  rw [getPegOuts_together, flatMap_map] at hpegouts
  exact hpegouts.symm

/-- The block connects to the view that it was built on exactly if the kernel sums are right. -/
lemma exists_applyBlock_iff :
    (∃ undo v', v.applyBlock b = .ok (undo, v')) ↔
      validateSums (together (calls.map Prod.fst)).getInputCommits
        (together (calls.map Prod.fst)).getOutputCommits
        (together (calls.map Prod.fst)).getKernelCommits
        ((calls.map Prod.fst).map Transaction.kernelOffset).sum
        (together (calls.map Prod.fst)).getSupplyChange = .ok () := by
  have hbuild' := hbuild
  rw [buildBlock, h.coinsView_eq, h.height_eq, h.stagedTxs_eq] at hbuild'
  rw [CoinsView.exists_applyBlock_iff hbuild']
  obtain ⟨after, rfl⟩ := h.exists_nextHeader hbuild
  rw [validateForBlock_nextHeader, (sameParts_aggregate _).validateSums_eq, kernelOffset_aggregate]

end

end Staged

/-- On every consistent view and for every sequence of calls that return: the accepted transactions
can be built into a block that is valid with the supplied peg-ins and the peg-outs of the
transactions and connects to the view, exactly if they are compatible. -/
theorem buildBlock_sound_iff (hless : StrictWeak P.hashLt) (hv : v.Consistent)
    (h : Calls height v builder calls) :
    (∃ b, builder.buildBlock = .ok b ∧
      validateBlock b (calls.flatMap Prod.snd) (calls.flatMap (·.1.body.getPegOuts)) = true ∧
      ∃ undo v', v.applyBlock b = .ok (undo, v')) ↔
      Compatible (calls.map Prod.fst) (calls.flatMap Prod.snd) := by
  have hstaged := h.staged
  have hvalid := valid_aggregate_iff hless (hstaged.weight_eq ▸ hstaged.weight_le)
    (hstaged.stagedOutputs_eq ▸ hstaged.nodup_outputs)
  constructor
  · rintro ⟨b, hbuild, hblock, happly⟩
    obtain ⟨hvalidate, hpegins, -⟩ := validateBlock_eq_true.mp hblock
    obtain ⟨hbody, hstealth⟩ := (hstaged.validate_iff hbuild).mp hvalidate
    obtain ⟨hinputs, hsorted, hspent, hkernels, hsignatures, hproofs⟩ := hvalid.mp hbody
    exact ⟨hinputs, hsorted, hspent, hkernels, hsignatures, hproofs,
      (hstaged.validatePegInCoins_iff hbuild hkernels).mp hpegins,
      (hstaged.exists_applyBlock_iff hbuild).mp happly, hstealth⟩
  · rintro ⟨hinputs, hsorted, hspent, hkernels, hsignatures, hproofs, hpegins, hsums, hstealth⟩
    obtain ⟨b, hbuild⟩ := (hstaged.exists_buildBlock_iff hv).mpr hspent
    have hbody := hvalid.mpr ⟨hinputs, hsorted, hspent, hkernels, hsignatures, hproofs⟩
    refine ⟨b, hbuild, validateBlock_eq_true.mpr ⟨?_, ?_, ?_⟩, ?_⟩
    · exact (hstaged.validate_iff hbuild).mpr ⟨hbody, hstealth⟩
    · exact (hstaged.validatePegInCoins_iff hbuild hkernels).mpr hpegins
    · exact hstaged.validatePegOutCoins hbuild
    · exact (hstaged.exists_applyBlock_iff hbuild).mpr hsums

section Example

open Symbolic

lemma lt_or_eq_or_lt (a b : Digest) : a.lt b = true ∨ a = b ∨ b.lt a = true := by
  induction a generalizing b with
  | word m =>
    match b with
    | .word n => simpa [Digest.lt] using lt_trichotomy m n
    | .pair _ _ => simp [Digest.lt]
  | pair a₁ a₂ ih₁ ih₂ =>
    match b with
    | .word _ => simp [Digest.lt]
    | .pair b₁ b₂ => grind [Digest.lt]

/-- Symbolic digests are ordered as `std::sort` requires. -/
lemma strictWeak_lt : StrictWeak Digest.lt where
  asymm a b := by
    induction a generalizing b with
    | word m =>
      match b with
      | .word n => simpa [Digest.lt] using le_of_lt
      | .pair _ _ => simp [Digest.lt]
    | pair a₁ a₂ ih₁ ih₂ =>
      match b with
      | .word _ => simp [Digest.lt]
      | .pair b₁ b₂ => grind [Digest.lt]
  cotrans a b c := by
    induction a generalizing b c with
    | word m =>
      match b, c with
      | .word n, .word k => grind [Digest.lt]
      | .word _, .pair _ _ => simp [Digest.lt]
      | .pair _ _, .word _ => simp [Digest.lt]
      | .pair _ _, .pair _ _ => simp [Digest.lt]
    | pair a₁ a₂ ih₁ ih₂ =>
      match b, c with
      | _, .word _ => simp [Digest.lt]
      | .word _, .pair _ _ => simp [Digest.lt]
      | .pair b₁ b₂, .pair c₁ c₂ =>
        have hfirst := ih₁ b₁ c₁
        have hsecond := ih₂ b₂ c₂
        have htri := lt_or_eq_or_lt a₁ b₁
        clear ih₁ ih₂
        grind [Digest.lt]

/-- A transaction that pegs in 10 units, with its peg-in. -/
def mintCall : Transaction sym × List (PegInCoin sym) :=
  (mintTx, [⟨10, mintKernel.getKernelID⟩])

/-- A kernel that pegs out 4 units. -/
def payKernel (r : ℤ) : Kernel sym := kernel none none [⟨4, opTrue⟩] r

/-- A transaction that spends the 10 units, pegs out 4 of them and keeps the rest under the
blinding factor `r`. -/
def payCall (r : ℤ) : Transaction sym × List (PegInCoin sym) :=
  (⟨0, -4, ⟨[input (output 10 7 5 9).getOutputID 10 7 9], [output 6 r 5 11],
    [payKernel (r - 7)]⟩, by simp⟩, [])

/-- The builder after the two transactions. -/
def mintAndPay : BlockBuilder sym :=
  ((new 3 CoinsView.empty).stage mintCall.1).stage (payCall 8).1

lemma calls_mintAndPay : Calls 3 empty mintAndPay [mintCall, payCall 8] :=
  (Calls.new.stage (by decide +kernel) (by decide +kernel)).stage (by decide +kernel)
    (by decide +kernel)

/-- A block that mints 10 units and pays them to a new output can be built. -/
theorem buildBlock_mintAndPay :
    Calls 3 CoinsView.empty mintAndPay [mintCall, payCall 8] ∧
      ∃ b, mintAndPay.buildBlock = .ok b ∧
        validateBlock b mintCall.2 [⟨4, opTrue⟩] = true ∧
        ∃ undo v', CoinsView.empty.applyBlock b = .ok (undo, v') := by
  refine ⟨calls_mintAndPay, (buildBlock_sound_iff strictWeak_lt CoinsView.consistent_empty
    calls_mintAndPay).mpr ?_⟩
  constructor
  · decide +kernel
  · intro tx htx
    cases htx
  · decide +kernel
  · decide +kernel
  · decide +kernel
  · decide +kernel
  · decide +kernel
  · decide +kernel
  · decide +kernel

/-- A third transaction that spends the same output as the second is accepted, and nothing can be
built any more. -/
theorem buildBlock_doubleSpend :
    Calls 3 CoinsView.empty (mintAndPay.stage (payCall 9).1)
        [mintCall, payCall 8, payCall 9] ∧
      (mintAndPay.stage (payCall 9).1).buildBlock = .error .utxoMissing :=
  ⟨calls_mintAndPay.stage (by decide +kernel) (by decide +kernel), by decide +kernel⟩

end Example

end BlockBuilder

end Mw

end Aegisum
