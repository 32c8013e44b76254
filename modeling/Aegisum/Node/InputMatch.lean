import Aegisum.Mweb.History
import Aegisum.Node.CheckTx
import Aegisum.Node.PegConservation

/-!
# What the inputs of an extension block consume

An input names the output it spends by its id, and repeats the commitment and the receiver key
of that output.  `Consensus::CheckTxInputs` compares all three for a loose transaction.  The
block path removes the output with the given id and uses the repeated values in the sums, but
does not compare them.
-/

namespace Aegisum

open List

variable {P : Primitives} [NodeCrypto P]

namespace Mw

/-- The outputs a block on top of the view can spend: those of the view and its own. -/
def spendableView (view : CoinsView P) (b : Block P) : CCoinsView P where
  getCoin _ := none
  getMWEBCoin id :=
    ((view.getUTXO id).map UTXO.output).or (b.body.outputs.find? (·.getOutputID = id))

/-- The coins removed for the inputs of a block, one for each input and in their order. -/
structure Consumed (view : CoinsView P) (b : Block P) (coins : List (UTXO P))
    (view' : CoinsView P) : Prop where
  /-- Every input removes one coin, which was unspent in the view or created by the block, and
  never both. -/
  source : List.Forall₂
    (fun input coin => coin.getOutputID = input.outputID ∧
      Xor (view.getUTXO input.outputID = some coin) (coin.output ∈ b.body.outputs))
    b.body.inputs coins
  /-- The coin is gone afterwards. -/
  removed : ∀ input ∈ b.body.inputs, view'.getUTXO input.outputID = none
  /-- No coin is removed twice. -/
  nodup : coins.Nodup

/-- The inputs repeat commitment and receiver key of the coins removed for them. -/
def Matched (b : Block P) (coins : List (UTXO P)) : Prop :=
  List.Forall₂
    (fun input coin => input.commitment = coin.output.commitment ∧
      input.outputPubKey = coin.output.receiverPubKey)
    b.body.inputs coins

namespace CoinsView

variable {ok : Condition P} {v v' mid : CoinsView P} {s : Connected P} {b : Block P}
  {undo : BlockUndo P}

/-- The view between the two loops of `ApplyBlock` holds what the block can spend. -/
lemma Applied.spendable (h : Applied v b undo mid v') (id : P.Hash) :
    (spendableView v b).getMWEBCoin id = (mid.getUTXO id).map UTXO.output := by
  unfold spendableView getUTXO
  by_cases hid : id ∈ b.body.getOutputIDs
  · obtain ⟨o, ho, rfl⟩ := mem_map.mp hid
    obtain ⟨leafIdx, hcreated⟩ := h.added.created o ho
    have hfresh : v.utxos.get o.getOutputID = none := h.added.fresh o ho
    -- ids are distinct, so the search finds this very output
    have hfind : b.body.outputs.find? (·.getOutputID = o.getOutputID) = some o := by
      cases hf : b.body.outputs.find? (·.getOutputID = o.getOutputID) with
      | none =>
        have := find?_eq_none.mp hf o ho
        simp at this
      | some o' =>
        have hid' : o'.getOutputID = o.getOutputID := by simpa using find?_some hf
        rw [inj_on_of_nodup_map h.added.nodup (mem_of_find?_eq_some hf) ho hid']
    simp [hfresh, hfind, hcreated]
  · have hfind : b.body.outputs.find? (·.getOutputID = id) = none := by
      refine find?_eq_none.mpr fun o ho => ?_
      simp only [decide_eq_true_eq]
      rintro rfl
      exact hid (mem_map_of_mem ho)
    have hmid : mid.utxos.get id = v.utxos.get id := h.added.others id hid
    simp [hfind, hmid]

/-- The coins are, input by input, those of the view between the two loops. -/
lemma Applied.forall₂_coins (h : Applied v b undo mid v') :
    List.Forall₂ (fun input coin => mid.getUTXO input.outputID = some coin)
      b.body.inputs undo.coinsSpent := by
  have hcoins := h.spent.coins
  rw [TxBody.getSpentIDs, map_map] at hcoins
  have := forall₂_eq_eq_eq ▸ hcoins
  rw [forall₂_map_left_iff, forall₂_map_right_iff] at this
  exact this

lemma Applied.consumed (h : Applied v b undo mid v') (hkeyed : KeyedByID v.utxos) :
    Consumed v b undo.coinsSpent v' := by
  have hids := h.spent.coins_getOutputID (h.added.keyedByID hkeyed)
  refine ⟨?_, fun input hinput => h.spent.removed _ (mem_map_of_mem hinput), ?_⟩
  · refine h.forall₂_coins.imp fun input coin hget => ?_
    have hid := h.added.keyedByID hkeyed _ _ hget
    refine ⟨hid, ?_⟩
    by_cases hadded : input.outputID ∈ b.body.getOutputIDs
    · obtain ⟨o, ho, hoid⟩ := mem_map.mp hadded
      obtain ⟨leafIdx, hcreated⟩ := h.added.created o ho
      have hfresh : v.utxos.get o.getOutputID = none := h.added.fresh o ho
      rw [hoid] at hcreated hfresh
      obtain rfl := Option.some.inj (hcreated.symm.trans hget)
      exact Or.inr ⟨ho, by simp [getUTXO, hfresh]⟩
    · have hmid : mid.utxos.get input.outputID = v.utxos.get input.outputID :=
        h.added.others _ hadded
      refine Or.inl ⟨hmid.symm.trans hget, fun hmem => hadded ?_⟩
      rw [← hid]
      exact mem_map_of_mem hmem
  · have hnodup := h.spent.nodup
    rw [← hids] at hnodup
    exact hnodup.of_map _

/-- The inputs match exactly when they pass the comparison that loose transactions undergo. -/
lemma Applied.matched_iff (h : Applied v b undo mid v') :
    Matched b undo.coinsSpent ↔
      ∀ input ∈ b.body.inputs, (spendableView v b).checkMwebInput input = .ok () := by
  have hcheck : ∀ input coin, mid.getUTXO input.outputID = some coin →
      ((spendableView v b).checkMwebInput input = .ok () ↔
        input.commitment = coin.output.commitment ∧
          input.outputPubKey = coin.output.receiverPubKey) := by
    intro input coin hget
    rw [CCoinsView.checkMwebInput, h.spendable, hget, Option.map_some]
    simp only [rejectIf_eq_ok, not_or, not_not]
    constructor
    · rintro ⟨h1, h2⟩
      exact ⟨h2.symm, h1.symm⟩
    · rintro ⟨h1, h2⟩
      exact ⟨h2.symm, h1.symm⟩
  have hcoins := h.forall₂_coins
  unfold Matched
  generalize b.body.inputs = inputs at hcoins ⊢
  generalize undo.coinsSpent = coins at hcoins ⊢
  induction hcoins with
  | nil => simp
  | cons hget _ ih =>
    rw [forall₂_cons, forall_mem_cons]
    exact and_congr (hcheck _ _ hget).symm ih

end CoinsView

end Mw

namespace MwebNode

/-- In every accepted block each input removes one unspent output and no output is removed
twice.  The inputs repeat commitment and receiver key of these outputs exactly when every
input passes the comparison of `CheckTxInputs`, made against the view before the block together
with the block's own outputs. -/
theorem inputs_match_iff (params : ConsensusParams P) (prev : Chain P) (b : CBlock P)
    (view view' : Mw.CoinsView P) (s : Mw.CoinsView.Connected P) (undo : Option (Mw.BlockUndo P))
    (mwebBlock : Mw.Block P) (hrun : Mw.CoinsView.Run (fun _ _ _ => True) view s)
    (hattached : b.mwebBlock = some mwebBlock)
    (hcheck : contextualCheckBlock params prev b = .ok ())
    (hconnect : connectBlock params prev b view = .ok (undo, view')) :
    ∃ mwundo, undo = some mwundo ∧ Mw.Consumed view mwebBlock mwundo.coinsSpent view' ∧
      (Mw.Matched mwebBlock mwundo.coinsSpent ↔
        ∀ input ∈ mwebBlock.body.inputs,
          (Mw.spendableView view mwebBlock).checkMwebInput input = .ok ()) := by
  obtain ⟨hogex, prevIndex, amount, valueOut, hogAddr, mwundo, hundo, -, hcon⟩ :=
    accepted_facts hcheck hconnect hattached
  obtain ⟨mid, happ⟩ := Mw.CoinsView.applied_of_applyBlock hcon.applied
  exact ⟨mwundo, hundo, happ.consumed hrun.ledger.keyedByID, happ.matched_iff⟩

section Example

open Symbolic

/-- The result of connecting the block that mints 10 units. -/
def afterMintBlock : Option (Mw.BlockUndo sym) × Mw.CoinsView sym :=
  (connectBlock earlyParams plainChain repeatedPeginBlock .empty).toOption.get (by decide +kernel)

/-- The chain up to the block that mints 10 units. -/
def mintChain : Chain sym :=
  { header := repeatedPeginBlock.header
    mwebHeader := some mintBlock.header
    hogexHash := (repeatedPeginBlock.vtx.getLast (by simp [repeatedPeginBlock])).getHash
    mwebAmount := 10 } :: plainChain

/-- An extension block that spends the minted output, declares the value `v` for it and creates
an output of the same value. -/
def declareBlock (v : ℤ) : Except Mw.MwError (Mw.Block sym) :=
  afterMintBlock.2.buildNextBlock 4
    [⟨0, -4, ⟨[input (output 10 7 5 9).getOutputID v 7 9], [output v 11 5 9],
      [kernel none none [] 4]⟩, by simp⟩]

/-- A block around an extension block that neither pegs in nor out. -/
def transferBlock (mwebBlock : Mw.Block sym) : CBlock sym where
  header := ⟨0, .word 0, .word 0, 4, 0, 0⟩
  vtx :=
    [coinbase [2] [⟨0, opTrue⟩],
      markHogEx
        (spend [⟨(repeatedPeginBlock.vtx.getLast (by simp [repeatedPeginBlock])).getHash, 0⟩]
          [⟨10, .mwebHogAddr mwebBlock.header.getHash⟩])
        ⟨rfl, by simp [spend]⟩]
  mwebBlock := some mwebBlock

/-- The extension block that declares the true value. -/
def honestBlock : Mw.Block sym := (declareBlock 10).toOption.get (by decide +kernel)

/-- The extension block that declares a value of 1000 for the output of value 10. -/
def inflatingBlock : Mw.Block sym := (declareBlock 1000).toOption.get (by decide +kernel)

/-- The view after the minting block is reached by a run. -/
lemma afterMintBlock_run : ∃ s, Mw.CoinsView.Run (fun _ _ _ => True) afterMintBlock.2 s := by
  have hconnect : connectBlock earlyParams plainChain repeatedPeginBlock .empty =
      .ok (afterMintBlock.1, afterMintBlock.2) := eq_ok_toOption_get (by decide +kernel)
  obtain ⟨_, _, _, _, _, mwundo, -, hcon⟩ :=
    connected_of_connectBlock (show repeatedPeginBlock.mwebBlock = some mintBlock from rfl) hconnect
  exact ⟨[(mintBlock, mwundo)], .applyBlock .empty trivial hcon.applied⟩

/-- The honest block spends the minted output and repeats its values. -/
theorem inputs_match_iff_honestBlock :
    ∃ mwundo view', connectBlock earlyParams mintChain (transferBlock honestBlock)
        afterMintBlock.2 = .ok (some mwundo, view') ∧ honestBlock.body.inputs.length = 1 ∧
      Mw.Consumed afterMintBlock.2 honestBlock mwundo.coinsSpent view' ∧
        Mw.Matched honestBlock mwundo.coinsSpent := by
  obtain ⟨s, hrun⟩ := afterMintBlock_run
  have hok : (connectBlock earlyParams mintChain (transferBlock honestBlock)
      afterMintBlock.2).isOk = true := by decide +kernel
  obtain ⟨⟨undo, view'⟩, hconnect⟩ := exists_eq_ok_of_isOk hok
  obtain ⟨mwundo, rfl, hconsumed, hiff⟩ := inputs_match_iff earlyParams mintChain _ _ view' s
    undo honestBlock hrun rfl (by decide +kernel) hconnect
  exact ⟨mwundo, view', hconnect, by decide +kernel, hconsumed, hiff.mpr (by decide +kernel)⟩

/-- The inflating block is accepted on a reachable view, although its input declares another
commitment than the output it removes. -/
theorem inflatingBlock_accepted :
    (∃ s, Mw.CoinsView.Run (fun _ _ _ => True) afterMintBlock.2 s) ∧
      contextualCheckBlock earlyParams mintChain (transferBlock inflatingBlock) = .ok () ∧
      ∃ mwundo view', connectBlock earlyParams mintChain (transferBlock inflatingBlock)
          afterMintBlock.2 = .ok (some mwundo, view') ∧
        ¬ Mw.Matched inflatingBlock mwundo.coinsSpent := by
  refine ⟨afterMintBlock_run, by decide +kernel, ?_⟩
  have hok : (connectBlock earlyParams mintChain (transferBlock inflatingBlock)
      afterMintBlock.2).isOk = true := by decide +kernel
  obtain ⟨⟨undo, view'⟩, hconnect⟩ := exists_eq_ok_of_isOk hok
  obtain ⟨_, _, _, _, _, mwundo, rfl, hcon⟩ :=
    connected_of_connectBlock
      (show (transferBlock inflatingBlock).mwebBlock = some inflatingBlock from rfl) hconnect
  obtain ⟨mid, happ⟩ := Mw.CoinsView.applied_of_applyBlock hcon.applied
  refine ⟨mwundo, view', hconnect, ?_⟩
  rw [happ.matched_iff]
  decide +kernel

end Example

end MwebNode

end Aegisum
