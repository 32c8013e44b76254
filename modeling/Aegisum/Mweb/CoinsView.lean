import Aegisum.Foundations.FiniteMap
import Aegisum.Mweb.BlockValidator
import Aegisum.Mweb.LeafSet

/-!
# The MWEB coins view

`CoinsViewCache`: the unspent outputs by id, the leaf set, the output MMR and the best header,
with the two operations that move the view along the chain, `ApplyBlock` and `UndoBlock`.

A view is modelled by the answers it gives: `utxos` is what `GetUTXO` returns.  Whether an
entry is stored in a cache or in the view below it makes no difference to these operations.
-/

namespace Aegisum

open List

namespace Mw

/-- A view of the unspent MWEB outputs. -/
@[ext] structure CoinsView (P : Primitives) where
  utxos : FiniteMap P.Hash (UTXO P)
  leafSet : LeafSet
  outputPMMR : Mmr P.Hash P.Hash
  bestHeader : Option (Header P)

/-- What is needed to disconnect a block again. -/
structure BlockUndo (P : Primitives) where
  prevHeader : Option (Header P)
  coinsSpent : List (UTXO P)
  coinsAdded : List P.Hash
deriving DecidableEq

namespace CoinsView

variable {P : Primitives}

/-- The view before any extension block. -/
def empty : CoinsView P := ⟨FiniteMap.empty, LeafSet.empty, Mmr.empty, none⟩

/-- The unspent output with the given id. -/
def getUTXO (v : CoinsView P) (outputID : P.Hash) : Option (UTXO P) := v.utxos.get outputID

/-- The kernel offset accumulated up to the best header. -/
def kernelOffset (v : CoinsView P) : P.Scalar := (v.bestHeader.map Header.kernelOffset).getD 0

variable [MwCrypto P]

/-- The three comparisons of a header with the state of the view. -/
def matchesHeader (v : CoinsView P) (hdr : Header P) : Prop :=
  hdr.outputRoot = v.outputPMMR.root (outputMmrHasher P) ∧
    hdr.numTXOs = v.outputPMMR.getNumLeaves ∧
      hdr.leafsetRoot = MwCrypto.leafSetHash v.leafSet.toBytes

instance (v : CoinsView P) (hdr : Header P) : Decidable (v.matchesHeader hdr) :=
  inferInstanceAs (Decidable (_ ∧ _ ∧ _))

/-- Add an output as the next leaf. -/
def addUTXO (v : CoinsView P) (headerHeight : ℤ) (output : Output P) :
    Except MwError (CoinsView P) := do
  rejectIf (v.getUTXO output.getOutputID).isSome .duplicates
  let leafIdx := v.outputPMMR.getNumLeaves
  pure
    { v with
      outputPMMR := v.outputPMMR.addLeaf (outputMmrHasher P) output.getOutputID
      leafSet := v.leafSet.add leafIdx
      utxos := v.utxos.set output.getOutputID (some ⟨headerHeight, leafIdx, output⟩) }

/-- Remove the unspent output with the given id and return it. -/
def spendUTXO (v : CoinsView P) (outputID : P.Hash) : Except MwError (UTXO P × CoinsView P) :=
  match v.getUTXO outputID with
  | none => .error .utxoMissing
  | some utxo =>
    if v.leafSet.contains utxo.leafIndex then
      .ok (utxo,
        { v with
          leafSet := v.leafSet.remove utxo.leafIndex
          utxos := v.utxos.set outputID none })
    else .error .utxoMissing

/-- Add all outputs of a block. -/
def addOutputs (v : CoinsView P) (headerHeight : ℤ) (outputs : List (Output P)) :
    Except MwError (CoinsView P) :=
  outputs.foldlM (fun v output => v.addUTXO headerHeight output) v

/-- Spend the outputs with the given ids, collecting what was spent. -/
def spendInputs (v : CoinsView P) : List P.Hash → Except MwError (List (UTXO P) × CoinsView P)
  | [] => .ok ([], v)
  | outputID :: rest => do
    let (utxo, v') ← v.spendUTXO outputID
    let (coinsSpent, v'') ← v'.spendInputs rest
    pure (utxo :: coinsSpent, v'')

/-- Connect an extension block.  An input is looked up by its output id alone. -/
def applyBlock (v : CoinsView P) (b : Block P) : Except MwError (BlockUndo P × CoinsView P) := do
  validateForBlock b.body b.header.kernelOffset v.kernelOffset
  let v₁ ← { v with bestHeader := some b.header }.addOutputs b.header.height b.body.outputs
  let (coinsSpent, v₂) ← v₁.spendInputs b.body.getSpentIDs
  rejectIf (¬ v₂.matchesHeader b.header) .mmrMismatch
  pure (⟨v.bestHeader, coinsSpent, b.body.getOutputIDs⟩, v₂)

/-- Put spent outputs back. -/
def restoreCoins (utxos : FiniteMap P.Hash (UTXO P)) (coinsSpent : List (UTXO P)) :
    FiniteMap P.Hash (UTXO P) :=
  coinsSpent.foldl (fun m utxo => m.set utxo.getOutputID (some utxo)) utxos

/-- Take added outputs out. -/
def removeCoins (utxos : FiniteMap P.Hash (UTXO P)) (coinsAdded : List P.Hash) :
    FiniteMap P.Hash (UTXO P) :=
  coinsAdded.foldl (fun m outputID => m.set outputID none) utxos

/-- Disconnect the block the undo data belongs to. -/
def undoBlock (v : CoinsView P) (undo : BlockUndo P) : Except MwError (CoinsView P) :=
  let utxos := removeCoins (restoreCoins v.utxos undo.coinsSpent) undo.coinsAdded
  match undo.prevHeader with
  | none =>
    .ok
      { utxos := utxos
        leafSet := v.leafSet.rewind 0 []
        outputPMMR := v.outputPMMR.rewind 0
        bestHeader := none }
  | some hdr => do
    let v' : CoinsView P :=
      { utxos := utxos
        leafSet := v.leafSet.rewind hdr.numTXOs (undo.coinsSpent.map UTXO.leafIndex)
        outputPMMR := v.outputPMMR.rewind hdr.numTXOs
        bestHeader := some hdr }
    rejectIf (¬ v'.matchesHeader hdr) .mmrMismatch
    pure v'

/-! ### What one step does -/

variable {v v' : CoinsView P}

lemma addUTXO_eq_ok {height : ℤ} {o : Output P} :
    v.addUTXO height o = .ok v' ↔
      v.utxos.get o.getOutputID = none ∧
        v' = { v with
          outputPMMR := v.outputPMMR.addLeaf (outputMmrHasher P) o.getOutputID
          leafSet := v.leafSet.add v.outputPMMR.getNumLeaves
          utxos := v.utxos.set o.getOutputID
            (some ⟨height, v.outputPMMR.getNumLeaves, o⟩) } := by
  rw [addUTXO, rejectIf_bind_eq_ok, getUTXO, Option.not_isSome_iff_eq_none]
  exact and_congr_right fun _ => ⟨fun h => (Except.ok.inj h).symm, fun h => congrArg _ h.symm⟩

omit [MwCrypto P] in
lemma spendUTXO_eq_ok {id : P.Hash} {u : UTXO P} :
    v.spendUTXO id = .ok (u, v') ↔
      v.utxos.get id = some u ∧ v.leafSet.contains u.leafIndex = true ∧
        v' = { v with
          leafSet := v.leafSet.remove u.leafIndex
          utxos := v.utxos.set id none } := by
  unfold spendUTXO getUTXO
  cases hget : v.utxos.get id with
  | none => simp
  | some utxo =>
    by_cases hleaf : v.leafSet.contains utxo.leafIndex
    · simp only [hleaf, if_true, Except.ok.injEq, Prod.mk.injEq, Option.some.injEq]
      constructor
      · rintro ⟨rfl, rfl⟩
        exact ⟨rfl, hleaf, rfl⟩
      · rintro ⟨rfl, -, rfl⟩
        exact ⟨rfl, rfl⟩
    · simp only [hleaf, Bool.false_eq_true, if_false, reduceCtorEq, Option.some.injEq, false_iff,
        not_and]
      rintro rfl h
      exact absurd h hleaf

/-! ### What the two loops of a block do -/

/-- Adding outputs: their ids were unused, every other entry stays, and the best header is not
touched. -/
structure Added (v : CoinsView P) (height : ℤ) (outputs : List (Output P)) (v' : CoinsView P) :
    Prop where
  fresh : ∀ o ∈ outputs, v.utxos.get o.getOutputID = none
  created : ∀ o ∈ outputs, ∃ leafIdx,
    v'.utxos.get o.getOutputID = some ⟨height, leafIdx, o⟩
  others : ∀ id, id ∉ outputs.map Output.getOutputID → v'.utxos.get id = v.utxos.get id
  nodup : (outputs.map Output.getOutputID).Nodup
  bestHeader : v'.bestHeader = v.bestHeader

lemma added_of_addOutputs {height : ℤ} {outputs : List (Output P)}
    (h : v.addOutputs height outputs = .ok v') : Added v height outputs v' := by
  unfold addOutputs at h
  induction outputs generalizing v with
  | nil =>
    obtain rfl := Except.ok.inj h
    exact ⟨by simp, by simp, by simp, by simp, rfl⟩
  | cons o os ih =>
    obtain ⟨v₁, ho, hos⟩ := foldlM_cons_eq_ok.mp h
    obtain ⟨hnone, rfl⟩ := addUTXO_eq_ok.mp ho
    have hrec := ih hos
    -- the id of the first output is bound after the first step, so no later output has it
    have hnotin : o.getOutputID ∉ os.map Output.getOutputID := by
      intro hmem
      obtain ⟨o', ho', heq⟩ := mem_map.mp hmem
      have := hrec.fresh o' ho'
      simp [heq] at this
    refine ⟨?_, ?_, ?_, ?_, hrec.bestHeader⟩
    · intro x hx
      rcases mem_cons.mp hx with rfl | hx
      · exact hnone
      · have hne : x.getOutputID ≠ o.getOutputID := fun heq =>
          hnotin (heq ▸ mem_map_of_mem hx)
        simpa [hne] using hrec.fresh x hx
    · intro x hx
      rcases mem_cons.mp hx with rfl | hx
      · exact ⟨_, by rw [hrec.others _ hnotin]; exact FiniteMap.get_set_self _ _ _⟩
      · exact hrec.created x hx
    · intro id hid
      rw [map_cons, mem_cons, not_or] at hid
      rw [hrec.others id hid.2]
      exact FiniteMap.get_set_of_ne _ _ hid.1
    · rw [map_cons, nodup_cons]
      exact ⟨hnotin, hrec.nodup⟩

/-- Spending inputs: the coins returned are the ones the ids were bound to, no id occurs
twice, and exactly these ids are unbound afterwards. -/
structure Spent (v : CoinsView P) (ids : List P.Hash) (coinsSpent : List (UTXO P))
    (v' : CoinsView P) : Prop where
  coins : ids.map v.utxos.get = coinsSpent.map some
  nodup : ids.Nodup
  removed : ∀ id ∈ ids, v'.utxos.get id = none
  others : ∀ id, id ∉ ids → v'.utxos.get id = v.utxos.get id
  bestHeader : v'.bestHeader = v.bestHeader
  outputPMMR : v'.outputPMMR = v.outputPMMR

omit [MwCrypto P] in
lemma spent_of_spendInputs {ids : List P.Hash} {coins : List (UTXO P)}
    (h : v.spendInputs ids = .ok (coins, v')) : Spent v ids coins v' := by
  induction ids generalizing v coins with
  | nil =>
    obtain ⟨rfl, rfl⟩ : [] = coins ∧ v = v' := by simpa [spendInputs] using h
    exact ⟨rfl, by simp, by simp, by simp, rfl, rfl⟩
  | cons id ids ih =>
    obtain ⟨⟨u, v₁⟩, hid, h⟩ := bind_eq_ok.mp h
    obtain ⟨⟨us, v₂⟩, hids, h⟩ := bind_eq_ok.mp h
    obtain ⟨rfl, rfl⟩ : u :: us = coins ∧ v₂ = v' := by simpa [pure, Except.pure] using h
    obtain ⟨hget, -, rfl⟩ := spendUTXO_eq_ok.mp hid
    have hrec := ih hids
    -- the first id is unbound after the first step, so no later input can name it
    have hnotin : id ∉ ids := by
      intro hmem
      have hsome := mem_map_of_mem (f := (v.utxos.set id none).get) hmem
      rw [hrec.coins, FiniteMap.get_set_self] at hsome
      simp at hsome
    refine ⟨?_, nodup_cons.mpr ⟨hnotin, hrec.nodup⟩, ?_, ?_, hrec.bestHeader,
      hrec.outputPMMR⟩
    · rw [map_cons, map_cons, hget, ← hrec.coins]
      refine congrArg _ (map_congr_left fun x hx => ?_)
      have hne : x ≠ id := fun heq => hnotin (heq ▸ hx)
      exact (FiniteMap.get_set_of_ne _ _ hne).symm
    · intro x hx
      rcases mem_cons.mp hx with rfl | hx
      · rw [hrec.others _ hnotin]
        exact FiniteMap.get_set_self _ _ _
      · exact hrec.removed x hx
    · intro x hx
      rw [mem_cons, not_or] at hx
      rw [hrec.others x hx.2]
      exact FiniteMap.get_set_of_ne _ _ hx.1

/-- Everything a successful `ApplyBlock` has checked and done: `mid` is the view between the
two loops. -/
structure Applied (v : CoinsView P) (b : Block P) (undo : BlockUndo P) (mid v' : CoinsView P) :
    Prop where
  balance : validateForBlock b.body b.header.kernelOffset v.kernelOffset = .ok ()
  added : Added { v with bestHeader := some b.header } b.header.height b.body.outputs mid
  spent : Spent mid b.body.getSpentIDs undo.coinsSpent v'
  matches_header : v'.matchesHeader b.header
  undo_prevHeader : undo.prevHeader = v.bestHeader
  undo_coinsAdded : undo.coinsAdded = b.body.getOutputIDs

lemma applied_of_applyBlock {b : Block P} {undo : BlockUndo P}
    (h : v.applyBlock b = .ok (undo, v')) : ∃ mid, Applied v b undo mid v' := by
  obtain ⟨_, hbal, h⟩ := bind_eq_ok.mp h
  obtain ⟨mid, hadd, h⟩ := bind_eq_ok.mp h
  obtain ⟨⟨coins, v₂⟩, hspend, h⟩ := bind_eq_ok.mp h
  obtain ⟨hmatch, h⟩ := rejectIf_bind_eq_ok.mp h
  obtain ⟨rfl, rfl⟩ := Prod.mk.inj (Except.ok.inj h)
  exact ⟨mid, hbal, added_of_addOutputs hadd, spent_of_spendInputs hspend, not_not.mp hmatch,
    rfl, rfl⟩

lemma Applied.bestHeader {mid : CoinsView P} {b : Block P} {undo : BlockUndo P}
    (h : Applied v b undo mid v') : v'.bestHeader = some b.header := by
  rw [h.spent.bestHeader, h.added.bestHeader]

end CoinsView

end Mw

end Aegisum
