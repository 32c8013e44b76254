import Aegisum.Mweb.ViewCache
import Aegisum.Mweb.ViewUndo

/-!
# Cached views behave like views

A cache on top of a base stands for a view, and connecting a block in the cache is connecting it
in that view.  With this the result that `UndoBlock` is the inverse of `ApplyBlock` holds for
caches over any base, for every question that can be asked of them.
-/

namespace Aegisum

namespace Mw

open CoinsViewCache

variable {P : Primitives} [MwCrypto P]

/-! ### What caches and their bases stand for -/

/-- The view gives the answers of the given abstract view. -/
structure ICoinsView.Answers (i : ICoinsView P) (v : CoinsView P) : Prop where
  bestHeader : i.bestHeader = v.bestHeader
  getUTXO : ∀ id, i.getUTXO id = .ok (v.utxos.get id)
  leafSet : i.leafSet = v.leafSet
  outputPMMR : i.outputPMMR.Holds (outputMmrHasher P) v.outputPMMR.leaves

/-- The recorded actions turn the coins of the base into the given ones. -/
structure CoinsViewUpdates.Turns (u : CoinsViewUpdates P)
    (baseCoins coins : FiniteMap P.Hash (UTXO P)) : Prop where
  replay : ∀ id, (u.getActions id).foldlM replayAction (baseCoins.get id) = .ok (coins.get id)
  keyed : ∀ id utxo, some utxo ∈ u.getActions id → utxo.getOutputID = id

/-- On top of a base that answers as `vb`, the cache stands for `v`. -/
structure CoinsViewCache.StandsFor (vb : CoinsView P) (c : CoinsViewCache P) (v : CoinsView P) :
    Prop where
  bestHeader : c.bestHeader = v.bestHeader
  coins : c.updates.Turns vb.utxos v.utxos
  leafSet : c.leafSet.toLeafSet vb.leafSet = v.leafSet
  outputPMMR : c.outputPMMR.Extends (outputMmrHasher P) vb.outputPMMR.leaves v.outputPMMR.leaves

namespace CoinsViewUpdates

variable {u : CoinsViewUpdates P} {baseCoins coins : FiniteMap P.Hash (UTXO P)}

lemma turns_empty (coins : FiniteMap P.Hash (UTXO P)) :
    (empty : CoinsViewUpdates P).Turns coins coins where
  replay _ := rfl
  keyed _ _ h := by cases h

/-- One more action, if it fits the coin of its id. -/
lemma Turns.addAction (h : u.Turns baseCoins coins) {id : P.Hash} {action : CoinAction P}
    (hreplay : replayAction (coins.get id) action = .ok action)
    (hkeyed : ∀ utxo, action = some utxo → utxo.getOutputID = id) :
    (u.addAction id action).Turns baseCoins (coins.set id action) := by
  constructor
  · intro x
    rw [getActions_addAction]
    by_cases hx : x = id
    · subst hx
      rw [if_pos rfl, FiniteMap.get_set_self, foldlM_append_eq_ok]
      exact ⟨_, h.replay x, by simp [hreplay]⟩
    · rw [if_neg hx, FiniteMap.get_set_of_ne _ _ hx]
      exact h.replay x
  · intro x utxo hmem
    rw [getActions_addAction] at hmem
    by_cases hx : x = id
    · rw [if_pos hx, List.mem_append, List.mem_singleton] at hmem
      rcases hmem with hmem | hmem
      · rw [hx]
        exact h.keyed id utxo hmem
      · rw [hx]
        exact hkeyed utxo hmem.symm
    · rw [if_neg hx] at hmem
      exact h.keyed x utxo hmem

lemma Turns.addUTXO (h : u.Turns baseCoins coins) (utxo : UTXO P)
    (hfresh : coins.get utxo.getOutputID = none) :
    (u.addUTXO utxo).Turns baseCoins (coins.set utxo.getOutputID (some utxo)) := by
  apply h.addAction
  · rw [hfresh]
    rfl
  · rintro utxo' ⟨⟩
    rfl

lemma Turns.spendUTXO (h : u.Turns baseCoins coins) {id : P.Hash} (hbound : coins.get id ≠ none) :
    (u.spendUTXO id).Turns baseCoins (coins.set id none) := by
  apply h.addAction
  · obtain ⟨utxo, hutxo⟩ := Option.ne_none_iff_exists'.mp hbound
    rw [hutxo]
    rfl
  · rintro utxo ⟨⟩

end CoinsViewUpdates

namespace CoinsViewCache

variable {base : ICoinsView P} {vb v v' : CoinsView P} {c c' : CoinsViewCache P}

lemma StandsFor.getUTXO (hc : c.StandsFor vb v) (hbase : base.Answers vb) (id : P.Hash) :
    c.getUTXO base id = .ok (v.utxos.get id) := by
  rw [CoinsViewCache.getUTXO, bind_of_eq_ok (hbase.getUTXO id)]
  exact hc.coins.replay id

/-- A cache that stands for a view gives its answers. -/
lemma StandsFor.answers (hc : c.StandsFor vb v) (hbase : base.Answers vb) :
    (c.toView base).Answers v where
  bestHeader := hc.bestHeader
  getUTXO := hc.getUTXO hbase
  leafSet := by
    rw [← hc.leafSet, ← hbase.leafSet]
    rfl
  outputPMMR := hc.outputPMMR.holds hbase.outputPMMR

/-- A new cache stands for the view of its base. -/
lemma standsFor_new (hbase : base.Answers vb) : (new base).StandsFor vb vb where
  bestHeader := hbase.bestHeader
  coins := CoinsViewUpdates.turns_empty _
  leafSet := by
    change (LeafSetCache.new base.leafSet).toLeafSet vb.leafSet = vb.leafSet
    rw [hbase.leafSet, LeafSetCache.toLeafSet_new]
  outputPMMR := PMMRCache.extends_new hbase.outputPMMR

/-! ### Connecting a block in step with the view -/

/-- The cache stands for a view whose parts fit together. -/
def InStepWith (vb : CoinsView P) (v : CoinsView P) (c : CoinsViewCache P) : Prop :=
  c.StandsFor vb v ∧ v.Consistent

section

variable (hbase : base.Answers vb) (h : InStepWith vb v c)

include hbase h

lemma inStep_addUTXO (height : ℤ) (o : Output P) :
    InStep ViewError.validation (InStepWith vb) (v.addUTXO height o) (c.addUTXO base height o) := by
  obtain ⟨hc, hv⟩ := h
  unfold CoinsView.addUTXO addUTXO
  rw [bind_of_eq_ok (hc.getUTXO hbase o.getOutputID)]
  apply (inStep_rejectIf (by rfl) MwError.duplicates).bind
  intro _ _ hfresh _
  rw [rejectIf_eq_ok, CoinsView.getUTXO, Option.not_isSome_iff_eq_none] at hfresh
  obtain ⟨pmmr, hadd, hpmmr⟩ := hc.outputPMMR.add hbase.outputPMMR o.getOutputID
  rw [hc.outputPMMR.next, bind_of_eq_ok hadd]
  refine ⟨⟨hc.bestHeader, ?_, ?_, ?_⟩, hv.addUTXO
    (show v.addUTXO height o = _ from CoinsView.addUTXO_eq_ok.mpr ⟨hfresh, rfl⟩)⟩
  · exact hc.coins.addUTXO ⟨height, v.outputPMMR.leaves.length, o⟩ hfresh
  · dsimp only
    rw [hbase.leafSet, (LeafSetCache.represents vb.leafSet).add, hc.leafSet]
    rfl
  · exact hpmmr

lemma inStep_addOutputs (height : ℤ) (outputs : List (Output P)) :
    InStep ViewError.validation (InStepWith vb) (v.addOutputs height outputs)
      (c.addOutputs base height outputs) := by
  unfold CoinsView.addOutputs addOutputs
  induction outputs generalizing v c with
  | nil => exact h
  | cons o os ih =>
    rw [List.foldlM_cons, List.foldlM_cons]
    apply (inStep_addUTXO hbase h height o).bind
    intro v₁ c₁ _ h₁
    exact ih h₁

lemma inStep_spendUTXO (id : P.Hash) :
    InStep ViewError.validation (fun r r' => r'.1 = r.1 ∧ InStepWith vb r.2 r'.2)
      (v.spendUTXO id) (c.spendUTXO base id) := by
  obtain ⟨hc, hv⟩ := h
  unfold spendUTXO
  rw [bind_of_eq_ok (hc.getUTXO hbase id)]
  have hrep := LeafSetCache.represents vb.leafSet
  cases hget : v.utxos.get id with
  | none =>
    rw [CoinsView.spendUTXO, CoinsView.getUTXO, hget]
    exact rfl
  | some u =>
    dsimp only
    rw [hbase.leafSet, ← hrep.contains, hc.leafSet]
    by_cases hset : v.leafSet.contains u.leafIndex = true
    · have hspend := CoinsView.spendUTXO_eq_ok.mpr ⟨hget, hset, rfl⟩
      rw [if_pos hset, hspend]
      refine ⟨rfl, ⟨hc.bestHeader, ?_, ?_, hc.outputPMMR⟩, (hv.spendUTXO hspend).consistent⟩
      · exact hc.coins.spendUTXO (by rw [hget]; simp)
      · dsimp only
        rw [hrep.remove, hc.leafSet]
    · rw [if_neg hset, CoinsView.spendUTXO, CoinsView.getUTXO, hget]
      dsimp only
      rw [if_neg hset]
      exact rfl

lemma inStep_spendInputs (ids : List P.Hash) :
    InStep ViewError.validation (fun r r' => r'.1 = r.1 ∧ InStepWith vb r.2 r'.2)
      (v.spendInputs ids) (c.spendInputs base ids) := by
  induction ids generalizing v c with
  | nil => exact ⟨rfl, h⟩
  | cons id ids ih =>
    rw [CoinsView.spendInputs, spendInputs]
    apply (inStep_spendUTXO hbase h id).bind
    rintro ⟨u, v₁⟩ ⟨u', c₁⟩ - ⟨rfl, h₁⟩
    apply (ih h₁).bind
    rintro ⟨us, v₂⟩ ⟨us', c₂⟩ - ⟨rfl, h₂⟩
    exact ⟨rfl, h₂⟩

/-- The cache compares a header with the roots of the view. -/
lemma inStep_checkHeader (hdr : Header P) :
    InStep ViewError.validation (fun _ _ : Unit => True)
      (rejectIf (¬ v.matchesHeader hdr) .mmrMismatch) (c.checkHeader base hdr) := by
  obtain ⟨hc, hv⟩ := h
  have hanswers := hc.answers hbase
  have hroot := hanswers.outputPMMR.root (outputMmrHasher P)
  rw [← hv.range] at hroot
  rw [checkHeader, bind_of_eq_ok hroot]
  apply inStep_rejectIf
  rw [hc.outputPMMR.next, hanswers.leafSet]
  rfl

/-- Connecting a block in the cache is connecting it in the view it stands for. -/
lemma inStep_applyBlock (b : Block P) :
    InStep ViewError.validation (fun r r' => r'.1 = r.1 ∧ InStepWith vb r.2 r'.2)
      (v.applyBlock b) (c.applyBlock base b) := by
  unfold CoinsView.applyBlock applyBlock
  rw [h.1.bestHeader, CoinsView.kernelOffset]
  apply (inStep_mapError _).bind
  intro _ _ _ _
  have hstart : InStepWith vb { v with bestHeader := some b.header }
      { c with bestHeader := some b.header } :=
    ⟨⟨rfl, h.1.coins, h.1.leafSet, h.1.outputPMMR⟩, h.2.setBestHeader _⟩
  apply (inStep_addOutputs hbase hstart _ _).bind
  intro v₁ c₁ _ h₁
  apply (inStep_spendInputs hbase h₁ _).bind
  rintro ⟨us, v₂⟩ ⟨us', c₂⟩ - ⟨rfl, h₂⟩
  apply (inStep_checkHeader hbase h₂ _).bind
  intro _ _ _ _
  exact ⟨rfl, h₂⟩

end

/-! ### Disconnecting a block -/

/-- Recording that spent coins are put back. -/
lemma turns_restoreCoins {u : CoinsViewUpdates P} {baseCoins coins : FiniteMap P.Hash (UTXO P)}
    (h : u.Turns baseCoins coins) {spent : List (UTXO P)}
    (hnodup : (spent.map UTXO.getOutputID).Nodup)
    (hfresh : ∀ x ∈ spent, coins.get x.getOutputID = none) :
    (spent.foldl CoinsViewUpdates.addUTXO u).Turns baseCoins
      (CoinsView.restoreCoins coins spent) := by
  unfold CoinsView.restoreCoins
  induction spent generalizing u coins with
  | nil => exact h
  | cons x xs ih =>
    rw [List.map_cons, List.nodup_cons] at hnodup
    apply ih (h.addUTXO x (hfresh x (by simp))) hnodup.2
    intro y hy
    have hne : y.getOutputID ≠ x.getOutputID := fun heq =>
      hnodup.1 (heq ▸ List.mem_map_of_mem hy)
    rw [FiniteMap.get_set_of_ne _ _ hne]
    exact hfresh y (by simp [hy])

omit [MwCrypto P] in
/-- Recording that added coins are taken out. -/
lemma turns_removeCoins [MwCrypto P] {u : CoinsViewUpdates P}
    {baseCoins coins : FiniteMap P.Hash (UTXO P)} (h : u.Turns baseCoins coins)
    {added : List P.Hash} (hnodup : added.Nodup) (hbound : ∀ id ∈ added, coins.get id ≠ none) :
    (added.foldl CoinsViewUpdates.spendUTXO u).Turns baseCoins
      (CoinsView.removeCoins coins added) := by
  unfold CoinsView.removeCoins
  induction added generalizing u coins with
  | nil => exact h
  | cons id ids ih =>
    rw [List.nodup_cons] at hnodup
    apply ih (h.spendUTXO (hbound id (by simp))) hnodup.2
    intro id' hid'
    have hne : id' ≠ id := by
      rintro rfl
      exact hnodup.1 hid'
    rw [FiniteMap.get_set_of_ne _ _ hne]
    exact hbound id' (by simp [hid'])

/-- Disconnecting the last block in a cache succeeds, and the cache then stands for the view
before the block. -/
lemma StandsFor.undoBlock (hbase : base.Answers vb) (hv : v.Synced) {b : Block P}
    {undo : BlockUndo P} (happly : v.applyBlock b = .ok (undo, v')) (hc : c.StandsFor vb v') :
    ∃ c', c.undoBlock base undo = .ok c' ∧ c'.StandsFor vb v := by
  obtain ⟨mid, happ⟩ := CoinsView.applied_of_applyBlock happly
  have hids := happ.spent.coins_getOutputID (happ.added.keyedByID hv.keyed)
  have hrep := LeafSetCache.represents vb.leafSet
  -- the actions alternate: spent coins are absent, and added coins are present after that
  have hcoins : (undo.coinsAdded.foldl CoinsViewUpdates.spendUTXO
      (undo.coinsSpent.foldl CoinsViewUpdates.addUTXO c.updates)).Turns vb.utxos v.utxos := by
    have hnodup : (undo.coinsSpent.map UTXO.getOutputID).Nodup := by
      rw [hids]
      exact happ.spent.nodup
    rw [← happ.undo_utxos hv.keyed]
    apply turns_removeCoins
    · apply turns_restoreCoins hc.coins hnodup
      intro x hx
      apply happ.spent.removed
      rw [← hids]
      exact List.mem_map_of_mem hx
    · rw [happ.undo_coinsAdded]
      exact happ.added.nodup
    · intro id hid
      rw [happ.undo_coinsAdded] at hid
      by_cases hspent : id ∈ undo.coinsSpent.map UTXO.getOutputID
      · obtain ⟨x, hx, rfl⟩ := List.mem_map.mp hspent
        rw [CoinsView.get_restoreCoins_of_mem hnodup hx]
        simp
      · obtain ⟨o, ho, rfl⟩ := List.mem_map.mp hid
        obtain ⟨leafIdx, hcreated⟩ := happ.added.created o ho
        rw [CoinsView.get_restoreCoins_of_notMem hspent,
          happ.spent.others _ (by rwa [← hids]), hcreated]
        simp
  have hpmmr := congrArg Mmr.leaves (hv.rewind_outputPMMR happly)
  have hlen : v.outputPMMR.leaves.length ≤ v'.outputPMMR.leaves.length := by
    rw [← hpmmr]
    simp [Mmr.rewind]
  have hextends := hc.outputPMMR.rewind hlen
  rw [show v'.outputPMMR.leaves.take v.outputPMMR.leaves.length = v.outputPMMR.leaves from hpmmr]
    at hextends
  unfold CoinsViewCache.undoBlock
  rw [happ.undo_prevHeader]
  cases hprev : v.bestHeader with
  | none =>
    refine ⟨_, rfl, hprev.symm, hcoins, ?_, ?_⟩
    · have hundo := hv.undoBlock happly
      rw [CoinsView.undoBlock, happ.undo_prevHeader, hprev] at hundo
      dsimp only at hundo ⊢
      rw [hbase.leafSet, hrep.rewind, hc.leafSet]
      exact congrArg CoinsView.leafSet (Except.ok.inj hundo)
    · rw [hv.noHeader hprev, List.length_nil] at hextends
      rw [hv.noHeader hprev]
      exact hextends
  | some hdr =>
    have hmatch := hv.header hdr hprev
    have hnum : hdr.numTXOs = v.outputPMMR.leaves.length := hmatch.2.1
    dsimp only
    rw [hnum]
    generalize hgen : CoinsViewCache.mk (some hdr) _ _ _ = c'
    have hc' : c'.StandsFor vb v := by
      rw [← hgen]
      refine ⟨hprev.symm, hcoins, ?_, hextends⟩
      dsimp only
      rw [hbase.leafSet, hrep.rewind, hc.leafSet]
      exact hv.rewind_leafSet happly
    obtain ⟨_, hcheck, -⟩ := (inStep_checkHeader hbase ⟨hc', hv.consistent⟩ hdr).exists_of_ok
      (a := ()) (rejectIf_eq_ok.mpr (not_not.mpr hmatch))
    exact ⟨c', by rw [bind_of_eq_ok hcheck]; rfl, hc'⟩

end CoinsViewCache

end Mw

end Aegisum
