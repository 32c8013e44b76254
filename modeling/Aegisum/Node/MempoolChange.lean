import Aegisum.Node.MempoolLinks

/-!
# Adding and removing entries

What `addUnchecked` and `RemoveStaged` do to the entries, their links and the indexes of the pool,
apart from the statistics.  A removal leaves the links between the entries that stay; an addition
links the new entry to the entries whose outputs it spends.
-/

namespace Aegisum

open MemPoolEntry List

variable {P : Primitives}

namespace CTxMemPool

/-! ### Removing entries -/

section Remove

variable {pool : CTxMemPool P}

/-- An entry without some of its children. -/
def withoutChildren (removed : List P.Hash) (e : MemPoolEntry P) : MemPoolEntry P :=
  { e with mChildren := e.mChildren.filter (· ∉ removed) }

/-- An entry without some of its parents. -/
def withoutParents (removed : List P.Hash) (e : MemPoolEntry P) : MemPoolEntry P :=
  { e with mParents := e.mParents.filter (· ∉ removed) }

lemma withoutChildren_nil (e : MemPoolEntry P) : withoutChildren [] e = e := by
  simp [withoutChildren]

lemma withoutParents_nil (e : MemPoolEntry P) : withoutParents [] e = e := by
  simp [withoutParents]

lemma withoutChildren_withoutChildren (hs hs' : List P.Hash) (e : MemPoolEntry P) :
    withoutChildren hs' (withoutChildren hs e) = withoutChildren (hs ++ hs') e := by
  simp [withoutChildren, filter_filter, not_or, Bool.and_comm]

lemma withoutParents_withoutParents (hs hs' : List P.Hash) (e : MemPoolEntry P) :
    withoutParents hs' (withoutParents hs e) = withoutParents (hs ++ hs') e := by
  simp [withoutParents, filter_filter, not_or, Bool.and_comm]

lemma coreEntry_foldl_removeFromDescendants (hs : List P.Hash) (x : P.Hash) (pool : CTxMemPool P) :
    (hs.foldl (fun pool h => pool.removeFromDescendants h) pool).coreEntry x =
      pool.coreEntry x := by
  induction hs generalizing pool with
  | nil => rfl
  | cons h hs ih =>
    rw [foldl_cons, ih]
    unfold removeFromDescendants
    split
    · rfl
    · exact coreEntry_modifyAll (core_updateAncestorState _ _ _ _ _) _ x _ pool

lemma coreEntry_removeFromAncestors (h x : P.Hash) (pool : CTxMemPool P) :
    (pool.removeFromAncestors h).coreEntry x =
      if x ∈ pool.parents h then (pool.coreEntry x).map (withoutChildren [h])
      else pool.coreEntry x := by
  unfold removeFromAncestors
  match he : pool.entry h with
  | none =>
    dsimp only
    rw [parents, he, if_neg (by simp)]
    rfl
  | some e =>
    dsimp only
    unfold updateAncestorsOf
    rw [he, parents_of_entry he]
    dsimp only
    rw [coreEntry_modifyAll (core_updateDescendantState _ _ _ _)]
    unfold updateChild
    refine coreEntry_foldl_modify (g := withoutChildren [h]) (fun e => ?_) (fun e => ?_) e.mParents
      x _ pool
    · simp [withoutChildren, insertOrErase, core]
    · simp [withoutChildren]

/-- Every child of an entry records it as a parent, for the children in a set. -/
def Recorded (pool : CTxMemPool P) (hs : List P.Hash) : Prop :=
  ∀ h ∈ hs, ∀ x, h ∈ pool.children x → x ∈ pool.parents h

lemma coreEntry_removeFromAncestors_of_recorded {h : P.Hash} {pool : CTxMemPool P}
    (hrec : ∀ x, h ∈ pool.children x → x ∈ pool.parents h) (x : P.Hash) :
    (pool.removeFromAncestors h).coreEntry x = (pool.coreEntry x).map (withoutChildren [h]) := by
  rw [coreEntry_removeFromAncestors]
  split
  · rfl
  · next hx =>
    -- the entry is not among the children, so that nothing is erased
    have hnot : h ∉ (pool.coreEntry x).elim [] mChildren := by
      rw [← children_eq_core]
      exact fun hmem => hx (hrec x hmem)
    match hcore : pool.coreEntry x with
    | none => rfl
    | some e =>
      rw [hcore] at hnot
      have hfilter : e.mChildren.filter (· ∉ [h]) = e.mChildren :=
        filter_eq_self.mpr fun c hc => by
          simpa using fun heq : c = h => hnot (heq ▸ hc)
      rw [Option.map_some, withoutChildren, hfilter]

lemma coreEntry_foldl_removeFromAncestors {hs : List P.Hash} {pool : CTxMemPool P}
    (hrec : pool.Recorded hs) (x : P.Hash) :
    (hs.foldl (fun pool h => pool.removeFromAncestors h) pool).coreEntry x =
      (pool.coreEntry x).map (withoutChildren hs) := by
  induction hs generalizing pool with
  | nil =>
    rw [foldl_nil, funext withoutChildren_nil, Option.map_id_fun']
    rfl
  | cons h hs ih =>
    have hone := coreEntry_removeFromAncestors_of_recorded (hrec h mem_cons_self)
    have hrec' : (pool.removeFromAncestors h).Recorded hs := by
      intro r hr y hy
      have hparents : (pool.removeFromAncestors h).parents r = pool.parents r := by
        rw [parents_eq_core, parents_eq_core, hone, Option.elim_map]
        rfl
      rw [hparents]
      refine hrec r (mem_cons_of_mem h hr) y ?_
      rw [children_eq_core, hone] at hy
      rw [children_eq_core]
      match hcore : pool.coreEntry y with
      | none => rw [hcore] at hy; exact hy
      | some e => rw [hcore] at hy; exact mem_of_mem_filter hy
    rw [foldl_cons, ih hrec', hone, Option.map_map]
    exact congrArg (Option.map · _) (funext (withoutChildren_withoutChildren [h] hs))

lemma coreEntry_updateChildrenForRemoval (h x : P.Hash) (pool : CTxMemPool P) :
    (pool.updateChildrenForRemoval h).coreEntry x =
      if x ∈ pool.children h then (pool.coreEntry x).map (withoutParents [h])
      else pool.coreEntry x := by
  refine coreEntry_foldl_modify (g := withoutParents [h]) (fun e => ?_) (fun e => ?_)
    (pool.children h) x _ pool
  · simp [withoutParents, insertOrErase, core]
  · simp [withoutParents]

lemma coreEntry_foldl_updateChildrenForRemoval (hs : List P.Hash) (x : P.Hash)
    (pool : CTxMemPool P) :
    (hs.foldl (fun pool h => pool.updateChildrenForRemoval h) pool).coreEntry x =
      (pool.coreEntry x).map (withoutParents (hs.filter (x ∈ pool.children ·))) := by
  induction hs generalizing pool with
  | nil =>
    rw [foldl_nil, filter_nil, funext withoutParents_nil, Option.map_id_fun']
    rfl
  | cons h hs ih =>
    have hchildren : (pool.updateChildrenForRemoval h).children = pool.children := by
      funext y
      rw [children_eq_core, children_eq_core, coreEntry_updateChildrenForRemoval]
      split
      · rw [Option.elim_map]
        rfl
      · rfl
    rw [foldl_cons, ih, hchildren, coreEntry_updateChildrenForRemoval, filter_cons]
    split
    · next hx =>
      rw [if_pos (by simpa using hx), Option.map_map]
      exact congrArg (Option.map · _) (funext (withoutParents_withoutParents [h] _))
    · next hx => rw [if_neg (by simpa using hx)]

/-- The links after the statistics have been updated for a removal: what is removed is among the
children of no entry, and among the parents of no entry that stays. -/
lemma coreEntry_updateForRemoveFromMempool (hpool : pool.Linked) (removed : List P.Hash)
    (updateDescendants : Bool) {x : P.Hash} (hx : x ∉ removed) :
    (pool.updateForRemoveFromMempool removed updateDescendants).coreEntry x =
      (pool.coreEntry x).map fun e => withoutParents removed (withoutChildren removed e) := by
  unfold updateForRemoveFromMempool
  dsimp only
  generalize hpool₁ : (if updateDescendants then
    removed.foldl (fun pool h => pool.removeFromDescendants h) pool else pool) = pool₁
  have hcore : ∀ y, pool₁.coreEntry y = pool.coreEntry y := by
    intro y
    rw [← hpool₁]
    split
    · exact coreEntry_foldl_removeFromDescendants removed y pool
    · rfl
  have hchildren : ∀ y, pool₁.children y = pool.children y := fun y => by
    rw [children_eq_core, children_eq_core, hcore]
  have hparents : ∀ y, pool₁.parents y = pool.parents y := fun y => by
    rw [parents_eq_core, parents_eq_core, hcore]
  have hrec : pool₁.Recorded removed := by
    intro h _ y hy
    rw [hparents]
    exact (hpool.inverse y h).mp (hchildren y ▸ hy)
  rw [coreEntry_foldl_updateChildrenForRemoval, coreEntry_foldl_removeFromAncestors hrec, hcore,
    Option.map_map]
  match he : pool.coreEntry x with
  | none => rfl
  | some e =>
    -- what is removed and recorded as a parent of `x` still has `x` among its children
    have hpar : e.mParents = pool.parents x := by rw [parents_eq_core, he]; rfl
    refine congrArg some ?_
    unfold Function.comp withoutParents withoutChildren
    dsimp only
    congr 1
    refine filter_congr fun p hp => decide_eq_decide.mpr (not_congr ?_)
    rw [mem_filter, decide_eq_true_eq, children_eq_core,
      coreEntry_foldl_removeFromAncestors hrec, hcore]
    refine ⟨And.left, fun hmem => ⟨hmem, ?_⟩⟩
    have hlink : x ∈ pool.children p := (hpool.inverse p x).mpr (hpar ▸ hp)
    rw [children_eq_core] at hlink
    match hp : pool.coreEntry p with
    | none => rw [hp] at hlink; exact hlink
    | some ep =>
      rw [hp] at hlink
      exact mem_filter.mpr ⟨hlink, by simpa using hx⟩

lemma framed_updateParent (entry parent : P.Hash) (add : Bool) (pool : CTxMemPool P) :
    Framed pool (pool.updateParent entry parent add) := by
  refine .modify ?_ entry _ pool
  exact fun e => ⟨rfl, rfl⟩

lemma framed_updateAncestorsOf (add : Bool) (h : P.Hash) (setAncestors : List P.Hash)
    (pool : CTxMemPool P) : Framed pool (pool.updateAncestorsOf add h setAncestors) := by
  unfold updateAncestorsOf
  split
  · exact .assertThat _ pool
  · refine .trans (.foldl (fun pool p => .modify ?_ p _ pool) _ pool) (.modifyAll ?_ _ _ _)
    · exact fun e => ⟨rfl, rfl⟩
    · exact fun e => ⟨rfl, rfl⟩

lemma framed_updateForRemoveFromMempool (removed : List P.Hash) (updateDescendants : Bool)
    (pool : CTxMemPool P) :
    Framed pool (pool.updateForRemoveFromMempool removed updateDescendants) := by
  unfold updateForRemoveFromMempool
  dsimp only
  have hdesc : Framed pool (if updateDescendants then
      removed.foldl (fun pool h => pool.removeFromDescendants h) pool else pool) := by
    split
    · refine .foldl (fun pool h => ?_) removed pool
      unfold removeFromDescendants
      split
      · exact .assertThat _ pool
      · refine .modifyAll ?_ _ _ pool
        exact fun e => ⟨rfl, rfl⟩
    · exact .refl pool
  refine hdesc.trans (.trans (.foldl (fun pool h => ?_) removed _)
    (.foldl (fun pool h => ?_) removed _))
  · unfold removeFromAncestors
    split
    · exact .assertThat _ pool
    · exact framed_updateAncestorsOf _ _ _ pool
  · exact .foldl (fun pool c => framed_updateParent c h false pool) _ pool

variable [NodeCrypto P]

lemma entry_removeUnchecked (h x : P.Hash) (pool : CTxMemPool P) :
    (pool.removeUnchecked h).entry x = if x = h then none else pool.entry x := by
  unfold removeUnchecked
  split
  · next hnone =>
    split
    · next heq => rw [heq]; exact hnone
    · rfl
  · split
    · next heq => rw [heq]; exact AList.lookup_erase h pool.mapTx
    · next hne => exact AList.lookup_erase_ne hne

lemma entry_foldl_removeUnchecked (hs : List P.Hash) (x : P.Hash) (pool : CTxMemPool P) :
    (hs.foldl (fun pool h => pool.removeUnchecked h) pool).entry x =
      if x ∈ hs then none else pool.entry x := by
  induction hs generalizing pool with
  | nil => rfl
  | cons h hs ih =>
    rw [foldl_cons, ih, entry_removeUnchecked]
    by_cases hx : x = h
    · rw [if_pos hx, ite_self, if_pos (mem_cons.mpr (Or.inl hx))]
    · simp only [hx, if_false, mem_cons, false_or]

/-- The indexes lose what the removed entries spend and create. -/
lemma indexes_foldl_removeUnchecked (hs : List P.Hash) (pool : CTxMemPool P) :
    let pool' := hs.foldl (fun pool h => pool.removeUnchecked h) pool
    (∀ i h, pool'.mapNextTx i = some h ↔ pool.mapNextTx i = some h ∧
        ∀ r ∈ hs, ∀ e, pool.entry r = some e → i ∉ e.tx.getInputs) ∧
      (∀ id h, pool'.mapTxOutputsMWEB id = some h ↔ pool.mapTxOutputsMWEB id = some h ∧
        ∀ r ∈ hs, ∀ e, pool.entry r = some e → id ∉ e.tx.mwebOutputIDs) ∧
      pool'.mapDeltas = pool.mapDeltas := by
  induction hs generalizing pool with
  | nil => simp
  | cons r hs ih =>
    obtain ⟨hnext, houtputs, hdeltas⟩ := ih (pool.removeUnchecked r)
    have hentry := entry_removeUnchecked r
    have hrest : ∀ Q : MemPoolEntry P → Prop,
        (∀ e, pool.entry r = some e → Q e) →
        ((∀ s ∈ hs, ∀ e, (pool.removeUnchecked r).entry s = some e → Q e) ↔
          ∀ s ∈ hs, ∀ e, pool.entry s = some e → Q e) := by
      intro Q hr
      refine forall₂_congr fun s _ => forall_congr' fun e => ?_
      rw [hentry]
      split
      · next heq => exact ⟨fun _ he => hr e (heq ▸ he), fun _ he => absurd he (by simp)⟩
      · rfl
    rw [foldl_cons]
    match he : pool.entry r with
    | none =>
      have hindexes : Framed pool (pool.removeUnchecked r) := by
        rw [removeUnchecked, he]
        exact .assertThat _ pool
      refine ⟨fun i h => ?_, fun id h => ?_, hdeltas.trans hindexes.mapDeltas⟩
      · rw [hnext, hindexes.mapNextTx, hrest (i ∉ ·.tx.getInputs) (by simp [he])]
        simp [he]
      · rw [houtputs, hindexes.mapTxOutputsMWEB, hrest (id ∉ ·.tx.mwebOutputIDs) (by simp [he])]
        simp [he]
    | some e =>
      have hnext' : ∀ i, (pool.removeUnchecked r).mapNextTx i =
          if i ∈ e.tx.getInputs then none else pool.mapNextTx i := by
        intro i; rw [removeUnchecked, he]
      have houtputs' : ∀ id, (pool.removeUnchecked r).mapTxOutputsMWEB id =
          if id ∈ e.tx.mwebOutputIDs then none else pool.mapTxOutputsMWEB id := by
        intro id; rw [removeUnchecked, he]
      have hdeltas' : (pool.removeUnchecked r).mapDeltas = pool.mapDeltas := by
        rw [removeUnchecked, he]
      refine ⟨fun i h => ?_, fun id h => ?_, hdeltas.trans hdeltas'⟩
      · rw [hnext, hnext']
        by_cases hi : i ∈ e.tx.getInputs
        · simp [hi, he]
        · rw [hrest (i ∉ ·.tx.getInputs) (by simp [he, hi])]
          simp [hi, he]
      · rw [houtputs, houtputs']
        by_cases hid : id ∈ e.tx.mwebOutputIDs
        · simp [hid, he]
        · rw [hrest (id ∉ ·.tx.mwebOutputIDs) (by simp [he, hid])]
          simp [hid, he]

/-- The pool after a removal, apart from statistics. -/
structure Removed (pool : CTxMemPool P) (removed : List P.Hash) (pool' : CTxMemPool P) : Prop where
  core : ∀ x, pool'.coreEntry x = if x ∈ removed then none else
    (pool.coreEntry x).map fun e => withoutParents removed (withoutChildren removed e)
  nextTx : ∀ i h, pool'.mapNextTx i = some h ↔ pool.mapNextTx i = some h ∧
    ∀ r ∈ removed, ∀ e, pool.entry r = some e → i ∉ e.tx.getInputs
  outputs : ∀ id h, pool'.mapTxOutputsMWEB id = some h ↔ pool.mapTxOutputsMWEB id = some h ∧
    ∀ r ∈ removed, ∀ e, pool.entry r = some e → id ∉ e.tx.mwebOutputIDs

lemma removed_removeStaged (hpool : pool.Linked) (removed : List P.Hash)
    (updateDescendants : Bool) :
    Removed pool removed (pool.removeStaged removed updateDescendants) := by
  have hframed := framed_updateForRemoveFromMempool removed updateDescendants pool
  obtain ⟨hnext, houtputs, -⟩ := indexes_foldl_removeUnchecked removed
    (pool.updateForRemoveFromMempool removed updateDescendants)
  -- the transactions of the entries that are erased are still the ones they had
  have htx : ∀ Q : CTransaction P → Prop,
      (∀ r ∈ removed, ∀ e,
        (pool.updateForRemoveFromMempool removed updateDescendants).entry r = some e → Q e.tx) ↔
      ∀ r ∈ removed, ∀ e, pool.entry r = some e → Q e.tx := by
    refine fun Q => forall₂_congr fun r _ => ⟨fun h e he => ?_, fun h e he => ?_⟩
    · obtain ⟨e', he', heq, -⟩ := hframed.exists_entry he
      exact heq ▸ h e' he'
    · obtain ⟨e', he', heq, -⟩ := hframed.symm.exists_entry he
      exact heq ▸ h e' he'
  refine ⟨fun x => ?_, fun i h => ?_, fun id h => ?_⟩
  · unfold removeStaged
    rw [coreEntry, entry_foldl_removeUnchecked]
    split
    · rfl
    · next hx => exact coreEntry_updateForRemoveFromMempool hpool removed updateDescendants hx
  · exact (hnext i h).trans (by rw [hframed.mapNextTx, htx (i ∉ ·.getInputs)])
  · exact (houtputs id h).trans (by rw [hframed.mapTxOutputsMWEB, htx (id ∉ ·.mwebOutputIDs)])

namespace Removed

variable {removed : List P.Hash} {pool' : CTxMemPool P} (h : Removed pool removed pool')

include h

lemma children_eq (a : P.Hash) :
    pool'.children a = if a ∈ removed then [] else (pool.children a).filter (· ∉ removed) := by
  rw [children_eq_core, children_eq_core, h.core]
  split
  · rfl
  · match pool.coreEntry a with
    | none => rfl
    | some e => rfl

lemma parents_eq (a : P.Hash) :
    pool'.parents a = if a ∈ removed then [] else (pool.parents a).filter (· ∉ removed) := by
  rw [parents_eq_core, parents_eq_core, h.core]
  split
  · rfl
  · match pool.coreEntry a with
    | none => rfl
    | some e => rfl

lemma base_eq (a : P.Hash) : pool'.base a = if a ∈ removed then none else pool.base a := by
  rw [base_eq_core, base_eq_core, h.core]
  split
  · rfl
  · rw [Option.map_map]
    rfl

lemma mem_iff {a : P.Hash} : a ∈ pool'.mapTx ↔ a ∈ pool.mapTx ∧ a ∉ removed := by
  rw [mem_mapTx_iff_core, mem_mapTx_iff_core, h.core]
  split
  · next ha => simp [ha]
  · next ha => simp [ha]

/-- What is true of the transaction of an entry that is left was true before. -/
lemma exists_entry_iff {a : P.Hash} (Q : CTransaction P → Prop) :
    (∃ e, pool'.entry a = some e ∧ Q e.tx) ↔
      a ∉ removed ∧ ∃ e, pool.entry a = some e ∧ Q e.tx := by
  rw [exists_entry_tx_iff, h.base_eq, exists_entry_tx_iff]
  split
  · next ha => simp [ha]
  · next ha => simp [ha]

/-- The entries that are left have the transactions they had. -/
lemma entry_tx {a : P.Hash} {tx : CTransaction P} :
    (∃ e, pool'.entry a = some e ∧ e.tx = tx) ↔
      a ∉ removed ∧ ∃ e, pool.entry a = some e ∧ e.tx = tx := h.exists_entry_iff (· = tx)

/-- The links that are left are those between entries that are left. -/
lemma link_iff {a b : P.Hash} : pool'.Link a b ↔ pool.Link a b ∧ a ∉ removed ∧ b ∉ removed := by
  unfold Link
  rw [h.children_eq]
  split
  · next ha => simp [ha]
  · next ha => simp [ha]

lemma linked (hpool : pool.Linked) : pool'.Linked := by
  refine ⟨fun a => ?_, fun a => ?_, fun a b => ?_⟩
  · rw [h.parents_eq]
    split
    · exact nodup_nil
    · exact (hpool.nodup_parents a).filter _
  · rw [h.children_eq]
    split
    · exact nodup_nil
    · exact (hpool.nodup_children a).filter _
  · rw [h.children_eq, h.parents_eq]
    have hinverse := hpool.inverse a b
    split <;> split <;> simp_all

end Removed

end Remove

/-! ### Adding an entry -/

section Add

variable [NodeCrypto P] {pool : CTxMemPool P} {e : CTxMemPoolEntry P}

/-- The transaction of an entry is new to the pool: it has no entry, no MWEB output is recorded as
its own, and it does not spend its own outputs. -/
structure New (pool : CTxMemPool P) (tx : CTransaction P) : Prop where
  not_mem : tx.getHash ∉ pool.mapTx
  not_output : ∀ id, pool.mapTxOutputsMWEB id ≠ some tx.getHash
  not_self : ∀ txin ∈ tx.vin, txin.prevout.hash ≠ tx.getHash

/-- An entry with one more child. -/
def withChild (h : P.Hash) (e : MemPoolEntry P) : MemPoolEntry P :=
  { e with mChildren := e.mChildren.insert h }

/-- The pool after an entry has been added, apart from statistics. -/
structure Added (pool : CTxMemPool P) (e : CTxMemPoolEntry P) (pool' : CTxMemPool P) : Prop where
  new : ∃ e', pool'.entry e.tx.getHash = some e' ∧ e'.toCTxMemPoolEntry = e ∧
    e'.feeDelta = pool.mapDeltas e.tx.getHash ∧ e'.mChildren = [] ∧ e'.mParents.Nodup ∧
    ∀ p, p ∈ e'.mParents ↔ p ∈ pool.parentsOf e.tx
  core : ∀ x ≠ e.tx.getHash, pool'.coreEntry x =
    if x ∈ pool.parentsOf e.tx then (pool.coreEntry x).map (withChild e.tx.getHash)
    else pool.coreEntry x
  nextTx : ∀ i, pool'.mapNextTx i = if i ∈ e.tx.getInputs then
    (pool.mapNextTx i).or (some e.tx.getHash) else pool.mapNextTx i
  outputs : ∀ id, pool'.mapTxOutputsMWEB id = if id ∈ e.tx.mwebOutputIDs then
    (pool.mapTxOutputsMWEB id).or (some e.tx.getHash) else pool.mapTxOutputsMWEB id
  mapDeltas : pool'.mapDeltas = pool.mapDeltas

/-- The pool when the entry is in it and its fee is set, before it is linked. -/
def unlinked (pool : CTxMemPool P) (e : CTxMemPoolEntry P) : CTxMemPool P :=
  let h := e.tx.getHash
  let pool := if h ∈ pool.mapTx then pool
    else { pool with mapTx := pool.mapTx.insert h (.new e) }
  if pool.mapDeltas h = 0 then pool
  else pool.modify h (.updateFeeDelta (pool.mapDeltas h)) fun _ => true

lemma unlinked_eq (hnew : e.tx.getHash ∉ pool.mapTx) :
    (∀ x, (pool.unlinked e).entry x = if x = e.tx.getHash then
        some ((new e).updateFeeDelta (pool.mapDeltas e.tx.getHash))
      else pool.entry x) ∧ (pool.unlinked e).aborted = pool.aborted ∧
      (pool.unlinked e).mapNextTx = pool.mapNextTx ∧
      (pool.unlinked e).mapTxOutputsMWEB = pool.mapTxOutputsMWEB ∧
      (pool.unlinked e).mapDeltas = pool.mapDeltas := by
  unfold unlinked
  dsimp only
  rw [if_neg hnew]
  split
  · next hzero =>
    refine ⟨fun x => ?_, rfl, rfl, rfl, rfl⟩
    rw [entry_insert]
    change pool.mapDeltas e.tx.getHash = 0 at hzero
    rw [hzero]
    split
    · simp [updateFeeDelta, new]
    · rfl
  · refine ⟨fun x => ?_, ?_, by simp, by simp, by simp⟩
    · rw [entry_modify, entry_insert]
      split <;> rfl
    · rw [aborted_modify, entry_insert, if_pos rfl]
      simp

lemma parentsOf_unlinked (hnew : pool.New e.tx) :
    (pool.unlinked e).parentsOf e.tx = pool.parentsOf e.tx := by
  obtain ⟨hentry, -, -, houtputs, -⟩ := unlinked_eq hnew.not_mem
  have hmem : ∀ x, x ≠ e.tx.getHash → (x ∈ (pool.unlinked e).mapTx ↔ x ∈ pool.mapTx) := by
    intro x hx
    rw [mem_mapTx_iff, mem_mapTx_iff, hentry, if_neg hx]
  unfold parentsOf
  refine congrArg dedup (filterMap_congr fun i hi => ?_)
  match i with
  | .canonical prevout =>
    have hne : prevout.hash ≠ e.tx.getHash := by
      rcases mem_append.mp hi with hi | hi
      · obtain ⟨txin, htxin, heq⟩ := mem_map.mp hi
        obtain rfl := OutputIndex.canonical.inj heq
        exact hnew.not_self txin htxin
      · obtain ⟨id, -, heq⟩ := mem_map.mp hi
        exact absurd heq (by simp)
    simp only [getIter, hmem _ hne]
  | .mweb id =>
    simp only [getIter, houtputs]
    match hid : pool.mapTxOutputsMWEB id with
    | none => rfl
    | some x =>
      have hne : x ≠ e.tx.getHash := fun heq => hnew.not_output id (heq ▸ hid)
      simp only [Option.bind_some, hmem x hne]

/-- The pool when the new entry is linked to its parents and indexed. -/
def linkedTo (pool : CTxMemPool P) (e : CTxMemPoolEntry P) : CTxMemPool P :=
  let h := e.tx.getHash
  let pool' := pool.unlinked e
  ((pool.unlinked e).parentsOf e.tx).foldl (fun pool parent => pool.updateParent h parent true)
    { pool' with
      mapNextTx := fun i => if i ∈ e.tx.getInputs then (pool'.mapNextTx i).or (some h)
        else pool'.mapNextTx i
      mapTxOutputsMWEB := fun id => if id ∈ e.tx.mwebOutputIDs then
        (pool'.mapTxOutputsMWEB id).or (some h) else pool'.mapTxOutputsMWEB id }

lemma addUnchecked_eq (setAncestors : List P.Hash) :
    pool.addUnchecked (.new e) setAncestors =
      ((pool.linkedTo e).updateAncestorsOf true e.tx.getHash setAncestors).updateEntryForAncestors
        e.tx.getHash setAncestors := rfl

omit [NodeCrypto P] in
/-- The parents of an entry are added to it one by one. -/
lemma entry_foldl_updateParent (h : P.Hash) (ps : List P.Hash) (pool : CTxMemPool P) (x : P.Hash) :
    (ps.foldl (fun pool parent => pool.updateParent h parent true) pool).entry x =
      if x = h then (pool.entry x).map fun e =>
        { e with mParents := ps.foldl (fun l p => l.insert p) e.mParents }
      else pool.entry x := by
  induction ps generalizing pool with
  | nil =>
    rw [foldl_nil]
    split
    · match pool.entry x with
      | none => rfl
      | some e => rfl
    · rfl
  | cons p ps ih =>
    rw [foldl_cons, ih, updateParent, entry_modify]
    split
    · rw [Option.map_map]
      rfl
    · rfl

omit [NodeCrypto P] in
lemma mem_foldl_insert (ps l : List P.Hash) :
    (l.Nodup → (ps.foldl (fun l p => l.insert p) l).Nodup) ∧
      ∀ x, x ∈ ps.foldl (fun l p => l.insert p) l ↔ x ∈ l ∨ x ∈ ps := by
  induction ps generalizing l with
  | nil => simp
  | cons p ps ih =>
    obtain ⟨hnodup, hmem⟩ := ih (l.insert p)
    refine ⟨fun h => hnodup h.insert, fun x => ?_⟩
    rw [foldl_cons, hmem, mem_insert_iff, mem_cons]
    tauto

/-- The new entry, linked to its parents; other entries are as they were. -/
lemma linkedTo_eq (hnew : pool.New e.tx) :
    (∃ parents : List P.Hash, parents.Nodup ∧ (∀ p, p ∈ parents ↔ p ∈ pool.parentsOf e.tx) ∧
      ∀ x, (pool.linkedTo e).entry x = if x = e.tx.getHash then
        some { (new e).updateFeeDelta (pool.mapDeltas e.tx.getHash) with
          mParents := parents } else pool.entry x) ∧
      (∀ i, (pool.linkedTo e).mapNextTx i = if i ∈ e.tx.getInputs then
        (pool.mapNextTx i).or (some e.tx.getHash) else pool.mapNextTx i) ∧
      (∀ id, (pool.linkedTo e).mapTxOutputsMWEB id = if id ∈ e.tx.mwebOutputIDs then
        (pool.mapTxOutputsMWEB id).or (some e.tx.getHash) else pool.mapTxOutputsMWEB id) ∧
      (pool.linkedTo e).mapDeltas = pool.mapDeltas := by
  obtain ⟨hentry, -, hnext, houtputs, hdeltas⟩ := unlinked_eq hnew.not_mem
  obtain ⟨hnodup, hmem⟩ := mem_foldl_insert (pool.parentsOf e.tx) []
  have hframed : Framed _ (pool.linkedTo e) :=
    .foldl (fun pool p => framed_updateParent e.tx.getHash p true pool) _ _
  refine ⟨⟨_, hnodup nodup_nil, by simpa using hmem, fun x => ?_⟩, fun i => ?_, fun id => ?_, ?_⟩
  · unfold linkedTo
    dsimp only
    rw [entry_foldl_updateParent, parentsOf_unlinked hnew]
    change (if x = e.tx.getHash then ((pool.unlinked e).entry x).map _
      else (pool.unlinked e).entry x) = _
    rw [hentry]
    split <;> rfl
  · rw [hframed.mapNextTx]
    change (if i ∈ e.tx.getInputs then ((pool.unlinked e).mapNextTx i).or _
      else (pool.unlinked e).mapNextTx i) = _
    rw [hnext]
  · rw [hframed.mapTxOutputsMWEB]
    change (if id ∈ e.tx.mwebOutputIDs then ((pool.unlinked e).mapTxOutputsMWEB id).or _
      else (pool.unlinked e).mapTxOutputsMWEB id) = _
    rw [houtputs]
  · rw [hframed.mapDeltas]
    exact hdeltas

omit [NodeCrypto P] in
lemma coreEntry_updateAncestorsOf_add {h : P.Hash} {e : MemPoolEntry P}
    (he : pool.entry h = some e) (setAncestors : List P.Hash) (x : P.Hash) :
    (pool.updateAncestorsOf true h setAncestors).coreEntry x =
      if x ∈ e.mParents then (pool.coreEntry x).map (withChild h) else pool.coreEntry x := by
  unfold updateAncestorsOf
  rw [he]
  dsimp only
  rw [coreEntry_modifyAll (core_updateDescendantState _ _ _ _)]
  unfold updateChild
  refine coreEntry_foldl_modify (g := withChild h) (fun e => ?_) (fun e => ?_) e.mParents x _ pool
  · simp [withChild, insertOrErase, core]
  · simp [withChild]

omit [NodeCrypto P] in
lemma parentsOf_subset {tx : CTransaction P} {p : P.Hash} (h : p ∈ pool.parentsOf tx) :
    p ∈ pool.mapTx := by
  rw [parentsOf, mem_dedup] at h
  obtain ⟨i, -, hi⟩ := mem_filterMap.mp h
  exact mem_of_getIter hi

/-- What an addition does apart from statistics. -/
lemma added_addUnchecked (hnew : pool.New e.tx) (setAncestors : List P.Hash) :
    Added pool e (pool.addUnchecked (.new e) setAncestors) := by
  obtain ⟨⟨parents, hnodup, hmem, hentry⟩, hnext, houtputs, hdeltas⟩ := linkedTo_eq hnew
  have hself : e.tx.getHash ∉ parents := fun h =>
    hnew.not_mem (parentsOf_subset ((hmem _).mp h))
  have hframed : Framed (pool.linkedTo e) (pool.addUnchecked (.new e) setAncestors) := by
    rw [addUnchecked_eq]
    refine (framed_updateAncestorsOf true e.tx.getHash setAncestors (pool.linkedTo e)).trans ?_
    refine .modify ?_ e.tx.getHash _ _
    exact fun e => ⟨rfl, rfl⟩
  have hcore : ∀ x, (pool.addUnchecked (.new e) setAncestors).coreEntry x =
      if x ∈ parents then ((pool.linkedTo e).coreEntry x).map (withChild e.tx.getHash)
      else (pool.linkedTo e).coreEntry x := by
    intro x
    rw [addUnchecked_eq, updateEntryForAncestors,
      coreEntry_modify (g := id) (core_updateAncestorState _ _ _ _ _),
      Option.map_id, id, ite_self]
    refine coreEntry_updateAncestorsOf_add (e := { (new e).updateFeeDelta
      (pool.mapDeltas e.tx.getHash) with mParents := parents }) ?_ setAncestors x
    rw [hentry, if_pos rfl]
  refine ⟨?_, fun x hx => ?_, fun i => ?_, fun id => ?_, hframed.mapDeltas.trans hdeltas⟩
  · have hcore' := hcore e.tx.getHash
    rw [if_neg hself, coreEntry, coreEntry, hentry, if_pos rfl, Option.map_some,
      Option.map_eq_some_iff] at hcore'
    obtain ⟨e', he', heq⟩ := hcore'
    have hbase : e'.toCTxMemPoolEntry = e := congrArg toCTxMemPoolEntry heq
    have hdelta : e'.feeDelta = pool.mapDeltas e.tx.getHash := congrArg feeDelta heq
    have hchildren : e'.mChildren = [] := congrArg mChildren heq
    have hparents : e'.mParents = parents := congrArg mParents heq
    exact ⟨e', he', hbase, hdelta, hchildren, hparents ▸ hnodup, fun p => hparents ▸ hmem p⟩
  · rw [hcore]
    simp only [hmem]
    rw [coreEntry, hentry, if_neg hx]
    rfl
  · rw [hframed.mapNextTx, hnext]
  · rw [hframed.mapTxOutputsMWEB, houtputs]

namespace Added

variable {pool' : CTxMemPool P} (h : Added pool e pool')

include h

lemma mem_iff {x : P.Hash} : x ∈ pool'.mapTx ↔ x = e.tx.getHash ∨ x ∈ pool.mapTx := by
  by_cases hx : x = e.tx.getHash
  · obtain ⟨e', he', -⟩ := h.new
    exact ⟨fun _ => Or.inl hx, fun _ => mem_mapTx_iff.mpr ⟨e', hx ▸ he'⟩⟩
  · rw [mem_mapTx_iff_core, mem_mapTx_iff_core, h.core x hx]
    split <;> simp [hx]

lemma children_eq (a : P.Hash) :
    pool'.children a = if a = e.tx.getHash then [] else if a ∈ pool.parentsOf e.tx then
      (pool.children a).insert e.tx.getHash else pool.children a := by
  split
  · next ha =>
    obtain ⟨e', he', -, -, hchildren, -⟩ := h.new
    rw [ha, children_of_entry he', hchildren]
  · next ha =>
    rw [children_eq_core, children_eq_core, h.core a ha]
    split
    · next hmem =>
      obtain ⟨ea, hea⟩ := Option.isSome_iff_exists.mp
        (mem_mapTx_iff_core.mp (parentsOf_subset hmem))
      rw [hea]
      rfl
    · rfl

lemma parents_eq {a : P.Hash} (ha : a ≠ e.tx.getHash) : pool'.parents a = pool.parents a := by
  rw [parents_eq_core, parents_eq_core, h.core a ha]
  split
  · rw [Option.elim_map]
    rfl
  · rfl

lemma base_eq {a : P.Hash} (ha : a ≠ e.tx.getHash) : pool'.base a = pool.base a := by
  rw [base_eq_core, base_eq_core, h.core a ha]
  split
  · rw [Option.map_map]
    rfl
  · rfl

/-- What is true of the transaction of an entry. -/
lemma exists_entry_iff (hnew : pool.New e.tx) {a : P.Hash} (Q : CTransaction P → Prop) :
    (∃ e', pool'.entry a = some e' ∧ Q e'.tx) ↔
      (a = e.tx.getHash ∧ Q e.tx) ∨ ∃ e', pool.entry a = some e' ∧ Q e'.tx := by
  by_cases ha : a = e.tx.getHash
  · obtain ⟨e', he', hbase, -⟩ := h.new
    have hnone : pool.entry a = none := entry_eq_none_iff.mpr (ha ▸ hnew.not_mem)
    rw [hnone, ha, he']
    simp [hbase]
  · rw [exists_entry_tx_iff, h.base_eq ha, ← exists_entry_tx_iff]
    simp [ha]

/-- The transactions of the entries. -/
lemma entry_tx (hnew : pool.New e.tx) {a : P.Hash} {tx : CTransaction P} :
    (∃ e', pool'.entry a = some e' ∧ e'.tx = tx) ↔
      (a = e.tx.getHash ∧ e.tx = tx) ∨ ∃ e', pool.entry a = some e' ∧ e'.tx = tx :=
  h.exists_entry_iff hnew (· = tx)

lemma link_iff (hnew : pool.New e.tx) {a b : P.Hash} :
    pool'.Link a b ↔ pool.Link a b ∨ (b = e.tx.getHash ∧ a ∈ pool.parentsOf e.tx) := by
  unfold Link
  rw [h.children_eq]
  by_cases ha : a = e.tx.getHash
  · subst ha
    have hnone : pool.children e.tx.getHash = [] := by
      rw [children, entry_eq_none_iff.mpr hnew.not_mem]
      rfl
    have hnot : e.tx.getHash ∉ pool.parentsOf e.tx := fun hmem =>
      hnew.not_mem (parentsOf_subset hmem)
    rw [if_pos rfl, hnone]
    simp [hnot]
  · rw [if_neg ha]
    split
    · next hmem => simp [hmem, or_comm]
    · next hmem => simp [hmem]

lemma linked (hpool : pool.Linked) (hnew : pool.New e.tx) : pool'.Linked := by
  obtain ⟨e', he', -, -, -, hnodup, hmem⟩ := h.new
  refine ⟨fun a => ?_, fun a => ?_, fun a b => ?_⟩
  · by_cases ha : a = e.tx.getHash
    · rw [ha, parents_of_entry he']
      exact hnodup
    · rw [h.parents_eq ha]
      exact hpool.nodup_parents a
  · rw [h.children_eq]
    split
    · exact nodup_nil
    split
    · exact (hpool.nodup_children a).insert
    · exact hpool.nodup_children a
  · refine (h.link_iff hnew).trans ?_
    by_cases hb : b = e.tx.getHash
    · rw [hb, parents_of_entry he', hmem]
      have hnot : ¬ pool.Link a e.tx.getHash := fun hlink => hnew.not_mem (hpool.mem_children hlink)
      simp [hnot]
    · rw [h.parents_eq hb, ← hpool.inverse]
      simp only [hb, false_and, or_false]
      rfl

end Added

end Add

end CTxMemPool

end Aegisum
