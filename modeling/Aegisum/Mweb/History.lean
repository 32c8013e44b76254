import Aegisum.Mweb.CoinsView

/-!
# Histories of a coins view

A node connects and disconnects extension blocks in any order.  `Run` describes the views that
arise in this way from the empty view, together with the blocks that are connected at the
moment.  The main lemma, `Run.ledger`, says that disconnecting leaves no trace in the unspent
outputs and in the best header: these are always what connecting the current blocks, one after
the other, has produced.
-/

namespace Aegisum

open List

namespace Mw

namespace CoinsView

variable {P : Primitives} [MwCrypto P]

/-- The connected blocks with their undo data, the newest first. -/
abbrev Connected (P : Primitives) := List (Block P × BlockUndo P)

/-- A condition on connecting a block on top of the connected ones. -/
abbrev Condition (P : Primitives) := Connected P → Block P → BlockUndo P → Prop

/-- The views reached by successful `ApplyBlock` and `UndoBlock` calls from the empty view, where
every block that is connected meets the condition. -/
inductive Run (ok : Condition P) : CoinsView P → Connected P → Prop
  | empty : Run ok .empty []
  | applyBlock {v v' : CoinsView P} {s : Connected P} {b : Block P} {undo : BlockUndo P} :
    Run ok v s → ok s b undo → v.applyBlock b = .ok (undo, v') → Run ok v' ((b, undo) :: s)
  | undoBlock {v v' : CoinsView P} {s : Connected P} {b : Block P} {undo : BlockUndo P} :
    Run ok v ((b, undo) :: s) → v.undoBlock undo = .ok v' → Run ok v' s

/-- The unspent outputs and the best header of the view result from connecting the blocks one
after the other. -/
inductive Ledger (ok : Condition P) : CoinsView P → Connected P → Prop
  | empty {v : CoinsView P} : v.utxos = .empty → v.bestHeader = none → Ledger ok v []
  | block {v mid v' w : CoinsView P} {s : Connected P} {b : Block P} {undo : BlockUndo P} :
    Ledger ok v s → ok s b undo → Applied v b undo mid v' → w.utxos = v'.utxos →
      w.bestHeader = v'.bestHeader → Ledger ok w ((b, undo) :: s)

/-- Every entry is stored under the id of its own output. -/
def KeyedByID (utxos : FiniteMap P.Hash (UTXO P)) : Prop :=
  ∀ id u, utxos.get id = some u → u.getOutputID = id

variable {ok : Condition P} {v v' mid w : CoinsView P} {s : Connected P} {b : Block P}
  {undo : BlockUndo P}

/-- The ledger does not depend on the leaf set and the MMR of the view. -/
lemma Ledger.congr (h : Ledger ok v s) (hutxos : w.utxos = v.utxos)
    (hheader : w.bestHeader = v.bestHeader) : Ledger ok w s := by
  cases h with
  | empty h1 h2 => exact .empty (hutxos.trans h1) (hheader.trans h2)
  | block hrec hok happ h1 h2 => exact .block hrec hok happ (hutxos.trans h1) (hheader.trans h2)

/-! ### Entries are stored under their own ids -/

lemma Added.keyedByID {height : ℤ} {outputs : List (Output P)} (h : Added v height outputs v')
    (hkeyed : KeyedByID v.utxos) : KeyedByID v'.utxos := by
  intro id u hu
  by_cases hid : id ∈ outputs.map Output.getOutputID
  · obtain ⟨o, ho, rfl⟩ := mem_map.mp hid
    obtain ⟨leafIdx, hcreated⟩ := h.created o ho
    obtain rfl := Option.some.inj (hcreated.symm.trans hu)
    rfl
  · rw [h.others id hid] at hu
    exact hkeyed id u hu

variable {coins : List (UTXO P)}

lemma Spent.keyedByID {ids : List P.Hash} (h : Spent v ids coins v') (hkeyed : KeyedByID v.utxos) :
    KeyedByID v'.utxos := by
  intro id u hu
  by_cases hid : id ∈ ids
  · rw [h.removed id hid] at hu
    cases hu
  · rw [h.others id hid] at hu
    exact hkeyed id u hu

lemma Ledger.keyedByID (h : Ledger ok v s) : KeyedByID v.utxos := by
  induction h with
  | empty h1 _ =>
    intro id u hu
    simp [h1] at hu
  | block _ _ happ h1 _ ih =>
    rw [h1]
    exact happ.spent.keyedByID (happ.added.keyedByID ih)

/-- The coins an accepted block spends, by id. -/
lemma Spent.coins_getOutputID {ids : List P.Hash} (h : Spent v ids coins v')
    (hkeyed : KeyedByID v.utxos) : coins.map UTXO.getOutputID = ids := by
  have hcoins := h.coins
  clear h
  induction ids generalizing coins with
  | nil =>
    obtain rfl : coins = [] := by simpa using hcoins.symm
    rfl
  | cons id ids ih =>
    cases coins with
    | nil => simp at hcoins
    | cons u coins =>
      rw [map_cons, map_cons, cons.injEq] at hcoins
      rw [map_cons, hkeyed id u hcoins.1, ih hcoins.2]

/-! ### Disconnecting a block -/

omit [MwCrypto P] in
lemma get_removeCoins (utxos : FiniteMap P.Hash (UTXO P)) (coinsAdded : List P.Hash) (id : P.Hash) :
    (removeCoins utxos coinsAdded).get id = if id ∈ coinsAdded then none else utxos.get id := by
  unfold removeCoins
  induction coinsAdded generalizing utxos with
  | nil => simp
  | cons a as ih =>
    rw [foldl_cons, ih]
    by_cases hmem : id ∈ as
    · simp [hmem]
    · by_cases hid : id = a <;> simp [hmem, hid]

lemma get_restoreCoins_of_notMem {utxos : FiniteMap P.Hash (UTXO P)} {id : P.Hash}
    (h : id ∉ coins.map UTXO.getOutputID) : (restoreCoins utxos coins).get id = utxos.get id := by
  unfold restoreCoins
  induction coins generalizing utxos with
  | nil => rfl
  | cons u coins ih =>
    rw [map_cons, mem_cons, not_or] at h
    rw [foldl_cons, ih h.2, FiniteMap.get_set_of_ne _ _ h.1]

lemma get_restoreCoins_of_mem {utxos : FiniteMap P.Hash (UTXO P)}
    (hnodup : (coins.map UTXO.getOutputID).Nodup) {u : UTXO P} (hu : u ∈ coins) :
    (restoreCoins utxos coins).get u.getOutputID = some u := by
  unfold restoreCoins
  induction coins generalizing utxos with
  | nil => cases hu
  | cons c coins ih =>
    rw [map_cons, nodup_cons] at hnodup
    rcases mem_cons.mp hu with rfl | hu
    · -- no later coin rebinds the id of the first one
      exact (get_restoreCoins_of_notMem hnodup.1).trans (FiniteMap.get_set_self _ _ _)
    · exact ih hnodup.2 hu

/-- Putting the spent coins back and taking the added ones out gives the unspent outputs before
the block, also for outputs the block both created and spent. -/
lemma Applied.undo_utxos (h : Applied v b undo mid v') (hkeyed : KeyedByID v.utxos) :
    removeCoins (restoreCoins v'.utxos undo.coinsSpent) undo.coinsAdded = v.utxos := by
  have hids := h.spent.coins_getOutputID (h.added.keyedByID hkeyed)
  ext1 id
  rw [get_removeCoins, h.undo_coinsAdded]
  by_cases hadded : id ∈ b.body.getOutputIDs
  · obtain ⟨o, ho, rfl⟩ := mem_map.mp hadded
    rw [if_pos hadded]
    exact (h.added.fresh o ho).symm
  · rw [if_neg hadded]
    have hmid : mid.utxos.get id = v.utxos.get id := h.added.others id hadded
    by_cases hspent : id ∈ b.body.getSpentIDs
    · rw [← hids] at hspent
      obtain ⟨u, hu, rfl⟩ := mem_map.mp hspent
      have hnodup := h.spent.nodup
      rw [← hids] at hnodup
      rw [get_restoreCoins_of_mem hnodup hu, ← hmid]
      -- the coin came from the view between the two loops
      have hsome : some u ∈ b.body.getSpentIDs.map mid.utxos.get := by
        rw [h.spent.coins]
        exact mem_map_of_mem hu
      obtain ⟨id, -, hget⟩ := mem_map.mp hsome
      rw [h.added.keyedByID hkeyed id u hget, hget]
    · rw [get_restoreCoins_of_notMem (by rwa [hids]), h.spent.others id hspent, hmid]

lemma undoBlock_eq_ok (h : v.undoBlock undo = .ok w) :
    w.utxos = removeCoins (restoreCoins v.utxos undo.coinsSpent) undo.coinsAdded ∧
      w.bestHeader = undo.prevHeader := by
  unfold undoBlock at h
  cases hprev : undo.prevHeader with
  | none =>
    rw [hprev] at h
    obtain rfl := Except.ok.inj h
    exact ⟨rfl, rfl⟩
  | some hdr =>
    rw [hprev] at h
    replace h := of_rejectIf h
    obtain rfl := Except.ok.inj h
    exact ⟨rfl, rfl⟩

/-- In every run the unspent outputs and the best header are those of the connected blocks. -/
lemma Run.ledger (h : Run ok v s) : Ledger ok v s := by
  induction h with
  | empty => exact .empty rfl rfl
  | applyBlock _ hok happly ih =>
    obtain ⟨mid, happ⟩ := applied_of_applyBlock happly
    exact .block ih hok happ rfl rfl
  | undoBlock _ hundo ih =>
    cases ih with
    | block hrec _ happ hutxos _ =>
      obtain ⟨h1, h2⟩ := undoBlock_eq_ok hundo
      rw [hutxos, happ.undo_utxos hrec.keyedByID] at h1
      exact hrec.congr h1 (h2.trans happ.undo_prevHeader)

end CoinsView

end Mw

end Aegisum
