import Aegisum.Mweb.History
import Aegisum.Mweb.ViewState

/-!
# Disconnecting is the inverse of connecting

On a view whose leaf set marks exactly the unspent outputs and whose roots are those of the best
header, `UndoBlock` takes back what `ApplyBlock` did: the unspent outputs, the leaf set, the
output MMR and the best header are the same as before.  Hence the view after any sequence of the
two operations is the one that connecting the current blocks one after the other gives.
-/

namespace Aegisum

namespace Mw

namespace CoinsView

variable {P : Primitives} [MwCrypto P]

/-- The leaf set marks the unspent outputs, and the roots are those of the best header. -/
structure Synced (v : CoinsView P) : Prop where
  consistent : v.Consistent
  keyed : KeyedByID v.utxos
  bits : ∀ i, v.leafSet.contains i = true → ∃ id u, v.utxos.get id = some u ∧ u.leafIndex = i
  header : ∀ hdr, v.bestHeader = some hdr → v.matchesHeader hdr
  noHeader : v.bestHeader = none → v.outputPMMR.leaves = []

lemma synced_empty : (empty : CoinsView P).Synced where
  consistent := consistent_empty
  keyed _ _ h := by cases h
  bits i h := by simp [empty, LeafSet.empty, LeafSet.contains] at h
  header _ h := by cases h
  noHeader _ := rfl

variable {v v' mid : CoinsView P} {b : Block P} {undo : BlockUndo P}

lemma Synced.inRange (h : v.Synced) : v.leafSet.InRange := by
  intro i hi
  obtain ⟨id, u, hu, rfl⟩ := h.bits i hi
  rw [h.consistent.next]
  exact (List.getElem?_eq_some_iff.mp (h.consistent.leaf id u hu)).1

/-! ### Connecting keeps the view in sync -/

/-- Marked leaves stay unspent outputs when an output is added. -/
lemma bits_addUTXO {height : ℤ} {o : Output P}
    (h : ∀ i, v.leafSet.contains i = true → ∃ id u, v.utxos.get id = some u ∧ u.leafIndex = i)
    (hadd : v.addUTXO height o = .ok v') (i : ℕ) (hi : v'.leafSet.contains i = true) :
    ∃ id u, v'.utxos.get id = some u ∧ u.leafIndex = i := by
  obtain ⟨hfresh, rfl⟩ := addUTXO_eq_ok.mp hadd
  dsimp only at hi ⊢
  rcases (LeafSet.contains_add _ _ _).mp hi with rfl | hi
  · exact ⟨o.getOutputID, _, FiniteMap.get_set_self _ _ _, rfl⟩
  · obtain ⟨id, u, hu, hidx⟩ := h i hi
    have hne : id ≠ o.getOutputID := by
      rintro rfl
      rw [hfresh] at hu
      cases hu
    exact ⟨id, u, by rw [FiniteMap.get_set_of_ne _ _ hne, hu], hidx⟩

lemma bits_addOutputs {height : ℤ} {outputs : List (Output P)}
    (h : ∀ i, v.leafSet.contains i = true → ∃ id u, v.utxos.get id = some u ∧ u.leafIndex = i)
    (hadd : v.addOutputs height outputs = .ok v') (i : ℕ) (hi : v'.leafSet.contains i = true) :
    ∃ id u, v'.utxos.get id = some u ∧ u.leafIndex = i := by
  revert i
  exact foldlM_keeps (fun o _ v v' h ho => bits_addUTXO h ho) hadd h

lemma Synced.applyBlock (h : v.Synced) (happly : v.applyBlock b = .ok (undo, v')) : v'.Synced := by
  obtain ⟨mid, hadd, -, hleft, hmatch⟩ := h.consistent.applyBlock happly
  obtain ⟨mid', happ⟩ := applied_of_applyBlock happly
  have hheader : v'.bestHeader = some b.header := happ.bestHeader
  refine ⟨hleft.consistent, happ.spent.keyedByID (happ.added.keyedByID h.keyed), ?_, ?_, ?_⟩
  · intro i hi
    obtain ⟨id, u, hu, rfl⟩ :=
      bits_addOutputs (v := { v with bestHeader := some b.header }) h.bits hadd i
        (hleft.subset i hi)
    exact ⟨id, u, by simp [hleft.get_eq id, hu, Option.filter, hi], rfl⟩
  · intro hdr hhdr
    rw [hheader] at hhdr
    obtain rfl := Option.some.inj hhdr
    exact hmatch
  · intro hnone
    rw [hheader] at hnone
    cases hnone

/-! ### The leaf set after a block -/

lemma contains_addOutputs {height : ℤ} {outputs : List (Output P)} (h : v.Consistent)
    (hadd : v.addOutputs height outputs = .ok v') {i : ℕ} (hi : i < v.outputPMMR.leaves.length) :
    v'.leafSet.contains i = true ↔ v.leafSet.contains i = true := by
  unfold addOutputs at hadd
  induction outputs generalizing v with
  | nil =>
    obtain rfl := Except.ok.inj hadd
    rfl
  | cons o os ih =>
    obtain ⟨v₁, ho, hos⟩ := foldlM_cons_eq_ok.mp hadd
    have hstep := h.addUTXO ho
    obtain ⟨-, rfl⟩ := addUTXO_eq_ok.mp ho
    rw [ih hstep hos (by rw [Mmr.addLeaf_leaves, List.length_append]; omega)]
    dsimp only
    rw [LeafSet.contains_add, Mmr.getNumLeaves]
    exact or_iff_right (by omega)

omit [MwCrypto P] in
/-- Spending clears the bits of the coins spent, which were set. -/
lemma contains_spendInputs {ids : List P.Hash} {coins : List (UTXO P)}
    (h : v.spendInputs ids = .ok (coins, v')) :
    (∀ i, v'.leafSet.contains i = true ↔
      i ∉ coins.map UTXO.leafIndex ∧ v.leafSet.contains i = true) ∧
    ∀ u ∈ coins, v.leafSet.contains u.leafIndex = true := by
  induction ids generalizing v coins with
  | nil =>
    obtain ⟨rfl, rfl⟩ : [] = coins ∧ v = v' := by simpa [spendInputs] using h
    simp
  | cons id ids ih =>
    obtain ⟨⟨u, v₁⟩, hid, h⟩ := bind_eq_ok.mp h
    obtain ⟨⟨us, v₂⟩, hids, h⟩ := bind_eq_ok.mp h
    obtain ⟨rfl, rfl⟩ : u :: us = coins ∧ v₂ = v' := by simpa [pure, Except.pure] using h
    obtain ⟨-, hset, rfl⟩ := spendUTXO_eq_ok.mp hid
    obtain ⟨hbits, hcoins⟩ := ih hids
    constructor
    · intro i
      rw [hbits i]
      dsimp only
      rw [LeafSet.contains_remove, List.map_cons, List.mem_cons]
      tauto
    · intro w hw
      rcases List.mem_cons.mp hw with rfl | hw
      · exact hset
      · exact ((LeafSet.contains_remove _ _ _).mp (hcoins w hw)).2

/-! ### Disconnecting -/

/-- A view without a header is empty. -/
lemma Synced.eq_empty (h : v.Synced) (hnone : v.bestHeader = none) : v = .empty := by
  have hleaves := h.noHeader hnone
  refine CoinsView.ext (FiniteMap.ext fun id => ?_) ?_ ?_ hnone
  · cases hget : v.utxos.get id with
    | none => rfl
    | some u =>
      have := h.consistent.leaf id u hget
      simp [hleaves] at this
  · have hnext : v.leafSet.nextLeafIdx = 0 := by rw [h.consistent.next, hleaves]; rfl
    refine LeafSet.ext (funext fun i => ?_) hnext
    exact h.consistent.bounded i (by omega)
  · rw [h.consistent.range, hleaves]
    rfl

/-- Rewinding the leaf set takes back what a block did to it. -/
lemma Synced.rewind_leafSet (h : v.Synced) (happly : v.applyBlock b = .ok (undo, v')) :
    v'.leafSet.rewind v.outputPMMR.leaves.length (undo.coinsSpent.map UTXO.leafIndex) =
      v.leafSet := by
  have hsynced := h.applyBlock happly
  obtain ⟨_, -, happly⟩ := bind_eq_ok.mp happly
  obtain ⟨mid, hadd, happly⟩ := bind_eq_ok.mp happly
  obtain ⟨⟨coins, v₂⟩, hspend, happly⟩ := bind_eq_ok.mp happly
  replace happly := of_rejectIf happly
  obtain ⟨rfl, rfl⟩ := Prod.mk.inj (Except.ok.inj happly)
  obtain ⟨hbits, hcoins⟩ := contains_spendInputs hspend
  have hadded : ∀ i, i < v.outputPMMR.leaves.length →
      (mid.leafSet.contains i = true ↔ v.leafSet.contains i = true) := fun i hi =>
    contains_addOutputs (h.consistent.setBestHeader _) hadd hi
  refine LeafSet.ext_contains h.consistent.next.symm fun i => ?_
  dsimp only
  rw [LeafSet.contains_rewind hsynced.inRange, hbits i]
  constructor
  · rintro ⟨hlt, hspent | ⟨-, hset⟩⟩
    · obtain ⟨u, hu, rfl⟩ := List.mem_map.mp hspent
      exact (hadded _ hlt).mp (hcoins u hu)
    · exact (hadded i hlt).mp hset
  · intro hset
    have hlt : i < v.outputPMMR.leaves.length := h.consistent.next ▸ h.inRange i hset
    refine ⟨hlt, ?_⟩
    by_cases hspent : i ∈ coins.map UTXO.leafIndex
    · exact .inl hspent
    · exact .inr ⟨hspent, (hadded i hlt).mpr hset⟩

/-- Rewinding the output MMR takes back what a block did to it. -/
lemma Synced.rewind_outputPMMR (h : v.Synced) (happly : v.applyBlock b = .ok (undo, v')) :
    v'.outputPMMR.rewind v.outputPMMR.leaves.length = v.outputPMMR := by
  obtain ⟨mid, -, hleaves, hleft, -⟩ := h.consistent.applyBlock happly
  rw [hleft.consistent.range, hleft.outputPMMR, hleaves, Mmr.rewind_ofLeaves _ _ (by simp),
    List.take_left, ← h.consistent.range]

/-- `UndoBlock` with the data that `ApplyBlock` returned succeeds and gives the view before. -/
lemma Synced.undoBlock (h : v.Synced) (happly : v.applyBlock b = .ok (undo, v')) :
    v'.undoBlock undo = .ok v := by
  obtain ⟨mid, happ⟩ := applied_of_applyBlock happly
  have hutxos := happ.undo_utxos h.keyed
  unfold CoinsView.undoBlock
  rw [happ.undo_prevHeader, hutxos]
  cases hprev : v.bestHeader with
  | none =>
    have hempty := h.eq_empty hprev
    have hleafSet : v'.leafSet.rewind 0 [] = v.leafSet := by
      refine LeafSet.ext_contains ?_ fun i => ?_
      · rw [LeafSet.rewind_nextLeafIdx, h.consistent.next, h.noHeader hprev]
        rfl
      · rw [LeafSet.contains_rewind (h.applyBlock happly).inRange, hempty]
        simp [empty, LeafSet.empty, LeafSet.contains]
    have hpmmr := h.rewind_outputPMMR happly
    rw [h.noHeader hprev, List.length_nil] at hpmmr
    dsimp only
    rw [hleafSet, hpmmr, ← hprev]
  | some hdr =>
    have hmatch := h.header hdr hprev
    have hnum : hdr.numTXOs = v.outputPMMR.leaves.length := hmatch.2.1
    dsimp only
    rw [hnum, h.rewind_leafSet happly, h.rewind_outputPMMR happly, ← hprev,
      rejectIf_bind_of_not (not_not.mpr hmatch)]
    rfl

/-! ### Sequences of the two operations -/

/-- The views that connecting blocks one after the other gives. -/
inductive Built : CoinsView P → Connected P → Prop
  | empty : Built .empty []
  | applyBlock {v v' : CoinsView P} {s : Connected P} {b : Block P} {undo : BlockUndo P} :
    Built v s → v.applyBlock b = .ok (undo, v') → Built v' ((b, undo) :: s)

lemma Built.synced {s : Connected P} (h : Built v s) : v.Synced := by
  induction h with
  | empty => exact synced_empty
  | applyBlock _ happly ih => exact ih.applyBlock happly

end CoinsView

end Mw

end Aegisum
