import Aegisum.Mweb.CoinsView
import Aegisum.Mweb.MmrRoot

/-!
# A header determines the view

The parts of a coins view fit together: every unspent output is a leaf of the output MMR whose
bit is set in the leaf set.  On a view of this kind two extension blocks with the same header
have the same effect, although inputs and signatures are not part of what a header commits to:
the output root gives the outputs that were added, the leaf set root the outputs that are left.
-/

namespace Aegisum

namespace Mw

variable {P : Primitives} [MwCrypto P]

/-- Nobody finds two values with the same hash, or one with the hash zero. -/
structure IdealHashes (P : Primitives) [MwCrypto P] : Prop where
  header : Function.Injective (MwCrypto.headerHash (P := P))
  outputMessage : Function.Injective (MwCrypto.outputMessageHash (P := P))
  rangeProof : Function.Injective (MwCrypto.rangeProofHash (P := P))
  output : ∀ {c c' s s' r r' : P.Point} {m m' p p' : P.Hash} {sig sig' : Signature},
    MwCrypto.outputHash c s r m p sig = MwCrypto.outputHash c' s' r' m' p' sig' →
      c = c' ∧ s = s' ∧ r = r' ∧ m = m' ∧ p = p' ∧ sig = sig'
  outputLeaf : ∀ position, Function.Injective (MwCrypto.outputLeafHash (P := P) position)
  outputLeaf_ne_zero : ∀ position id, MwCrypto.outputLeafHash (P := P) position id ≠ P.zeroHash
  parent : ∀ position, Function.Injective2 (MwCrypto.parentHash (P := P) position)
  parent_ne_zero : ∀ position left right,
    MwCrypto.parentHash (P := P) position left right ≠ P.zeroHash
  leafSet : Function.Injective (MwCrypto.leafSetHash (P := P))

/-- The id of an output commits to all of it. -/
lemma IdealHashes.getOutputID_injective (h : IdealHashes P) :
    Function.Injective (Output.getOutputID (P := P)) := by
  intro o o' heq
  obtain ⟨h1, h2, h3, h4, h5, h6⟩ := h.output heq
  have hmessage := h.outputMessage h4
  have hproof := h.rangeProof h5
  cases o
  cases o'
  simp only at h1 h2 h3 h6 hmessage hproof
  rw [h1, h2, h3, hmessage, hproof, h6]

namespace CoinsView

/-- The parts of a view fit together. -/
structure Consistent (v : CoinsView P) : Prop where
  range : v.outputPMMR = Mmr.ofLeaves (outputMmrHasher P) v.outputPMMR.leaves
  next : v.leafSet.nextLeafIdx = v.outputPMMR.leaves.length
  bounded : v.leafSet.Bounded
  leaf : ∀ id u, v.utxos.get id = some u → v.outputPMMR.leaves[u.leafIndex]? = some id
  unspent : ∀ id u, v.utxos.get id = some u → v.leafSet.contains u.leafIndex = true

lemma consistent_empty : (empty : CoinsView P).Consistent where
  range := rfl
  next := rfl
  bounded := LeafSet.bounded_empty
  leaf _ _ h := by cases h
  unspent _ _ h := by cases h

variable {v v' : CoinsView P}

/-- The best header has no part in it. -/
lemma Consistent.setBestHeader (h : v.Consistent) (bestHeader : Option (Header P)) :
    { v with bestHeader := bestHeader }.Consistent :=
  ⟨h.range, h.next, h.bounded, h.leaf, h.unspent⟩

lemma Consistent.addUTXO {height : ℤ} {o : Output P} (h : v.Consistent)
    (hadd : v.addUTXO height o = .ok v') : v'.Consistent := by
  obtain ⟨-, rfl⟩ := addUTXO_eq_ok.mp hadd
  refine ⟨?_, ?_, h.bounded.add, ?_, ?_⟩
  · have hrange := h.range
    dsimp only
    rw [Mmr.addLeaf_leaves, Mmr.ofLeaves_concat, ← hrange]
  · simp [LeafSet.add, LeafSet.setByte, h.next, Mmr.getNumLeaves]
  · intro id u hu
    dsimp only at hu ⊢
    rw [Mmr.addLeaf_leaves]
    by_cases hid : id = o.getOutputID
    · subst hid
      rw [FiniteMap.get_set_self] at hu
      obtain rfl := Option.some.inj hu
      simp [Mmr.getNumLeaves]
    · rw [FiniteMap.get_set_of_ne _ _ hid] at hu
      have hleaf := h.leaf id u hu
      rwa [List.getElem?_append_left (List.getElem?_eq_some_iff.mp hleaf).1]
  · intro id u hu
    dsimp only at hu ⊢
    rw [LeafSet.contains_add]
    by_cases hid : id = o.getOutputID
    · subst hid
      rw [FiniteMap.get_set_self] at hu
      obtain rfl := Option.some.inj hu
      exact .inl rfl
    · rw [FiniteMap.get_set_of_ne _ _ hid] at hu
      exact .inr (h.unspent id u hu)

/-- Adding outputs appends their ids to the leaves. -/
lemma Consistent.addOutputs {height : ℤ} {outputs : List (Output P)} (h : v.Consistent)
    (hadd : v.addOutputs height outputs = .ok v') :
    v'.Consistent ∧
      v'.outputPMMR.leaves = v.outputPMMR.leaves ++ outputs.map Output.getOutputID := by
  unfold CoinsView.addOutputs at hadd
  induction outputs generalizing v with
  | nil =>
    obtain rfl := Except.ok.inj hadd
    exact ⟨h, by simp⟩
  | cons o os ih =>
    obtain ⟨v₁, ho, hos⟩ := foldlM_cons_eq_ok.mp hadd
    obtain ⟨hv', hleaves⟩ := ih (h.addUTXO ho) hos
    obtain ⟨-, rfl⟩ := addUTXO_eq_ok.mp ho
    refine ⟨hv', ?_⟩
    rw [hleaves, Mmr.addLeaf_leaves]
    simp

/-- What is left after spending: the outputs whose bit is still set. -/
structure LeftOver (v v' : CoinsView P) : Prop where
  consistent : v'.Consistent
  outputPMMR : v'.outputPMMR = v.outputPMMR
  bestHeader : v'.bestHeader = v.bestHeader
  subset : ∀ i, v'.leafSet.contains i = true → v.leafSet.contains i = true
  get_eq : ∀ id, v'.utxos.get id =
    (v.utxos.get id).filter fun u => v'.leafSet.contains u.leafIndex

lemma Consistent.leftOver_self (h : v.Consistent) : LeftOver v v := by
  refine ⟨h, rfl, rfl, fun _ hi => hi, fun id => ?_⟩
  cases hget : v.utxos.get id with
  | none => rfl
  | some u => simp [Option.filter, h.unspent id u hget]

lemma LeftOver.trans {v₁ : CoinsView P} (h : LeftOver v v₁) (h' : LeftOver v₁ v') :
    LeftOver v v' := by
  refine ⟨h'.consistent, h'.outputPMMR.trans h.outputPMMR, h'.bestHeader.trans h.bestHeader,
    fun i hi => h.subset i (h'.subset i hi), fun id => ?_⟩
  rw [h'.get_eq id, h.get_eq id, Option.filter_filter]
  refine congrArg (Option.filter · _) (funext fun u => ?_)
  cases hu : v'.leafSet.contains u.leafIndex with
  | false => simp
  | true => simp [h'.subset _ hu]

lemma Consistent.spendUTXO {id : P.Hash} {u : UTXO P} (h : v.Consistent)
    (hspend : v.spendUTXO id = .ok (u, v')) : LeftOver v v' := by
  obtain ⟨hget, -, rfl⟩ := spendUTXO_eq_ok.mp hspend
  -- unspent outputs with different ids are different leaves
  have hother : ∀ id' u', id' ≠ id → v.utxos.get id' = some u' → u'.leafIndex ≠ u.leafIndex := by
    intro id' u' hne hget' heq
    have hleaf := h.leaf id' u' hget'
    rw [heq, h.leaf id u hget] at hleaf
    exact hne (Option.some.inj hleaf).symm
  have hset : ∀ id' u', (v.utxos.set id none).get id' = some u' →
      id' ≠ id ∧ v.utxos.get id' = some u' := by
    intro id' u' hu'
    by_cases hid : id' = id
    · subst hid
      simp at hu'
    · exact ⟨hid, by rwa [FiniteMap.get_set_of_ne _ _ hid] at hu'⟩
  refine ⟨⟨h.range, h.next, h.bounded.remove, ?_, ?_⟩, rfl, rfl, ?_, ?_⟩
  · intro id' u' hu'
    exact h.leaf id' u' (hset id' u' hu').2
  · intro id' u' hu'
    obtain ⟨hne, hold⟩ := hset id' u' hu'
    exact (LeafSet.contains_remove _ _ _).mpr ⟨hother id' u' hne hold, h.unspent id' u' hold⟩
  · intro i hi
    exact ((LeafSet.contains_remove _ _ _).mp hi).2
  · intro id'
    dsimp only
    by_cases hid : id' = id
    · subst hid
      have hcleared : (v.leafSet.remove u.leafIndex).contains u.leafIndex = false := by
        rw [Bool.eq_false_iff, ne_eq, LeafSet.contains_remove]
        simp
      simp [hget, Option.filter, hcleared]
    · rw [FiniteMap.get_set_of_ne _ _ hid]
      cases hold : v.utxos.get id' with
      | none => rfl
      | some u' =>
        have hkept : (v.leafSet.remove u.leafIndex).contains u'.leafIndex = true :=
          (LeafSet.contains_remove _ _ _).mpr ⟨hother id' u' hid hold, h.unspent id' u' hold⟩
        simp [Option.filter, hkept]

lemma Consistent.spendInputs {ids : List P.Hash} {coins : List (UTXO P)} (h : v.Consistent)
    (hspend : v.spendInputs ids = .ok (coins, v')) : LeftOver v v' := by
  induction ids generalizing v coins with
  | nil =>
    obtain ⟨-, rfl⟩ : [] = coins ∧ v = v' := by simpa [CoinsView.spendInputs] using hspend
    exact h.leftOver_self
  | cons id ids ih =>
    obtain ⟨⟨u, v₁⟩, hid, hspend⟩ := bind_eq_ok.mp hspend
    obtain ⟨⟨us, v₂⟩, hids, hspend⟩ := bind_eq_ok.mp hspend
    obtain ⟨-, rfl⟩ : u :: us = coins ∧ v₂ = v' := by simpa [pure, Except.pure] using hspend
    have hstep := h.spendUTXO hid
    exact hstep.trans (ih hstep.consistent hids)

/-- A successful `ApplyBlock` adds the outputs, leaves the outputs with a set bit, and ends in a
view that matches the header. -/
lemma Consistent.applyBlock {b : Block P} {undo : BlockUndo P} (h : v.Consistent)
    (happly : v.applyBlock b = .ok (undo, v')) :
    ∃ mid, { v with bestHeader := some b.header }.addOutputs b.header.height b.body.outputs =
        .ok mid ∧
      mid.outputPMMR.leaves = v.outputPMMR.leaves ++ b.body.outputs.map Output.getOutputID ∧
      LeftOver mid v' ∧ v'.matchesHeader b.header := by
  obtain ⟨_, -, happly⟩ := bind_eq_ok.mp happly
  obtain ⟨mid, hadd, happly⟩ := bind_eq_ok.mp happly
  obtain ⟨⟨coins, v₂⟩, hspend, happly⟩ := bind_eq_ok.mp happly
  obtain ⟨hmatch, happly⟩ := rejectIf_bind_eq_ok.mp happly
  obtain ⟨rfl, rfl⟩ := Prod.mk.inj (Except.ok.inj happly)
  obtain ⟨hmid, hleaves⟩ := (h.setBestHeader _).addOutputs hadd
  exact ⟨mid, hadd, hleaves, hmid.spendInputs hspend, not_not.mp hmatch⟩

/-- The header determines the view after the block. -/
lemma Consistent.applyBlock_eq (hideal : IdealHashes P) {v₁ v₂ : CoinsView P} {b₁ b₂ : Block P}
    {undo₁ undo₂ : BlockUndo P} (h : v.Consistent) (hheader : b₁.header = b₂.header)
    (h₁ : v.applyBlock b₁ = .ok (undo₁, v₁)) (h₂ : v.applyBlock b₂ = .ok (undo₂, v₂)) :
    v₁ = v₂ := by
  obtain ⟨mid₁, hadd₁, hleaves₁, hleft₁, hroot₁, hnum₁, hbits₁⟩ := h.applyBlock h₁
  obtain ⟨mid₂, hadd₂, hleaves₂, hleft₂, hroot₂, hnum₂, hbits₂⟩ := h.applyBlock h₂
  rw [hheader] at hroot₁ hnum₁ hbits₁ hadd₁
  -- the output root gives the leaves
  have hleaves : v₁.outputPMMR.leaves = v₂.outputPMMR.leaves := by
    have hroot := hroot₁.symm.trans hroot₂
    rw [hleft₁.consistent.range, hleft₂.consistent.range] at hroot
    exact Mmr.root_ofLeaves_injective (outputMmrHasher P) hideal.outputLeaf hideal.parent
      hideal.outputLeaf_ne_zero hideal.parent_ne_zero (hnum₁.symm.trans hnum₂) hroot
  -- and these give the outputs
  have houtputs : b₁.body.outputs = b₂.body.outputs := by
    rw [hleft₁.outputPMMR, hleft₂.outputPMMR, hleaves₁, hleaves₂] at hleaves
    exact List.map_injective_iff.mpr hideal.getOutputID_injective
      (List.append_cancel_left hleaves)
  obtain rfl : mid₁ = mid₂ := by
    rw [houtputs, hadd₂] at hadd₁
    exact (Except.ok.inj hadd₁).symm
  have hleafSet : v₁.leafSet = v₂.leafSet := by
    refine LeafSet.eq_of_toBytes_eq hleft₁.consistent.bounded hleft₂.consistent.bounded ?_
      (hideal.leafSet (hbits₁.symm.trans hbits₂))
    rw [hleft₁.consistent.next, hleft₂.consistent.next, hleaves]
  refine CoinsView.ext (FiniteMap.ext fun id => ?_) hleafSet ?_ ?_
  · rw [hleft₁.get_eq, hleft₂.get_eq, hleafSet]
  · rw [hleft₁.outputPMMR, hleft₂.outputPMMR]
  · rw [hleft₁.bestHeader, hleft₂.bestHeader]

end CoinsView

end Mw

end Aegisum
