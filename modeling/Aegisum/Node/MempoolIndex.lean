import Aegisum.Node.MempoolBlock

/-!
# The indexes of the memory pool

Runs of additions and removals.  The index of MWEB outputs holds one transaction for an output, the
first one that was added with it, and it loses the output when any transaction with it is removed.
As long as no transaction brings an output that the pool knows already, the indexes and the links
are exactly the relations between what the entries create and what they spend.
-/

namespace Aegisum

namespace CTxMemPool

variable {P : Primitives} [NodeCrypto P]

/-- An entry creates an output. -/
def Creates (pool : CTxMemPool P) (h : P.Hash) (i : OutputIndex P) : Prop :=
  ∃ e, pool.entry h = some e ∧ i ∈ e.tx.getOutputs

variable {tx : CTransaction P}

omit [NodeCrypto P] in
@[simp] lemma mem_getInputs_canonical {prevout : COutPoint P} :
    OutputIndex.canonical prevout ∈ tx.getInputs ↔ ∃ txin ∈ tx.vin, txin.prevout = prevout := by
  simp [CTransaction.getInputs]

lemma mem_getOutputs_canonical {prevout : COutPoint P} :
    OutputIndex.canonical prevout ∈ tx.getOutputs ↔
      prevout.n < tx.vout.length ∧ prevout.hash = tx.getHash := by
  obtain ⟨hash, n⟩ := prevout
  simp [CTransaction.getOutputs, eq_comm]

lemma mem_getOutputs_mweb {id : P.Hash} :
    OutputIndex.mweb id ∈ tx.getOutputs ↔ id ∈ tx.mwebOutputIDs := by
  simp [CTransaction.getOutputs]

/-! ### Runs -/

/-- What `AcceptToMemoryPool` has established when it adds a transaction: it passes the checks
without context, it is not in the pool, what was in conflict with it has been removed, and its
canonical inputs refer to outputs that exist.  No transaction refers to its own id. -/
structure Accepts (pool : CTxMemPool P) (tx : CTransaction P) : Prop where
  checked : checkTransaction tx = .ok ()
  mweb_checked : MwebNode.checkTransaction tx = .ok ()
  not_mem : tx.getHash ∉ pool.mapTx
  no_conflict : ∀ i ∈ tx.getInputs, pool.mapNextTx i = none
  have_coin : ∀ txin ∈ tx.vin, ∀ e, pool.entry txin.prevout.hash = some e →
    txin.prevout.n < e.tx.vout.length
  not_self : ∀ txin ∈ tx.vin, txin.prevout.hash ≠ tx.getHash

/-- The pools that are reached by additions and removals, where every addition is admissible. -/
inductive Run (Admissible : CTxMemPool P → CTransaction P → Prop) : CTxMemPool P → Prop
  | empty : Run Admissible empty
  | add {pool : CTxMemPool P} {e : CTxMemPoolEntry P} {setAncestors : List P.Hash}
      (limits : Limits) : Run Admissible pool → pool.Accepts e.tx →
      Admissible pool e.tx →
      pool.calculateMemPoolAncestors (.new e) limits true = .ok setAncestors →
      Run Admissible (pool.addUnchecked (.new e) setAncestors)
  | removeStaged {pool : CTxMemPool P} {stage : List P.Hash} (updateDescendants : Bool) :
      Run Admissible pool → (∀ h ∈ stage, h ∈ pool.mapTx) →
      Run Admissible (pool.removeStaged stage updateDescendants)
  | removeRecursive {pool : CTxMemPool P} (tx : CTransaction P) : Run Admissible pool →
      Run Admissible (pool.removeRecursive tx)
  | removeForBlock {pool : CTxMemPool P} (block : CBlock P) : Run Admissible pool →
      Run Admissible (pool.removeForBlock block)

/-- The indexes and links match what the entries spend and create. -/
structure Matches (pool : CTxMemPool P) : Prop where
  outputs : ∀ id, (∃ h ∈ pool.mapTx, pool.mapTxOutputsMWEB id = some h) ↔
    ∃ h, pool.Creates h (.mweb id)
  parents : ∀ t c, t ∈ pool.mapTx → c ∈ pool.mapTx →
    (t ∈ pool.parents c ↔ ∃ i, pool.Spends c i ∧ pool.Creates t i)

/-- A transaction brings only outputs that no entry creates and that neither an entry nor the
transaction spends. -/
def Fresh (pool : CTxMemPool P) (tx : CTransaction P) : Prop :=
  ∀ i ∈ tx.getOutputs, i ∉ tx.getInputs ∧ ∀ h, ¬ pool.Creates h i ∧ ¬ pool.Spends h i

instance (pool : CTxMemPool P) (tx : CTransaction P) : Decidable (pool.Accepts tx) :=
  decidable_of_iff (checkTransaction tx = .ok () ∧ MwebNode.checkTransaction tx = .ok () ∧
      tx.getHash ∉ pool.mapTx ∧ (∀ i ∈ tx.getInputs, pool.mapNextTx i = none) ∧
      (∀ txin ∈ tx.vin, ∀ e ∈ pool.entry txin.prevout.hash,
        txin.prevout.n < e.tx.vout.length) ∧
      ∀ txin ∈ tx.vin, txin.prevout.hash ≠ tx.getHash)
    ⟨fun ⟨h1, h2, h3, h4, h5, h6⟩ => ⟨h1, h2, h3, h4, h5, h6⟩,
      fun ⟨h1, h2, h3, h4, h5, h6⟩ => ⟨h1, h2, h3, h4, h5, h6⟩⟩

/-- What entries create and spend is found under the keys of the pool. -/
lemma fresh_iff {pool : CTxMemPool P} : pool.Fresh tx ↔ ∀ i ∈ tx.getOutputs, i ∉ tx.getInputs ∧
    ∀ h ∈ pool.mapTx.keys, ∀ e ∈ pool.entry h, i ∉ e.tx.getOutputs ∧ i ∉ e.tx.getInputs := by
  refine forall₂_congr fun i _ => and_congr_right fun _ => ⟨fun hnone h _ e he => ?_,
    fun hnone h => ⟨?_, ?_⟩⟩
  · exact ⟨fun hi => (hnone h).1 ⟨e, he, hi⟩, fun hi => (hnone h).2 ⟨e, he, hi⟩⟩
  · rintro ⟨e, he, hi⟩
    exact (hnone h (AList.mem_keys.mp (mem_mapTx_iff.mpr ⟨e, he⟩)) e he).1 hi
  · rintro ⟨e, he, hi⟩
    exact (hnone h (AList.mem_keys.mp (mem_mapTx_iff.mpr ⟨e, he⟩)) e he).2 hi

instance (pool : CTxMemPool P) (tx : CTransaction P) : Decidable (pool.Fresh tx) :=
  decidable_of_iff' _ fresh_iff

/-! ### The invariant -/

/-- The index of MWEB outputs is exact, and so are the links. -/
structure Tracked (pool : CTxMemPool P) : Prop where
  indexed : pool.Indexed
  outputs : ∀ id h, pool.mapTxOutputsMWEB id = some h ↔ pool.Creates h (.mweb id)
  parents : ∀ t c, t ∈ pool.parents c ↔ ∃ i, pool.Spends c i ∧ pool.Creates t i

variable {pool pool' : CTxMemPool P} {i : OutputIndex P}

lemma Creates.mem {h : P.Hash} (hc : pool.Creates h i) : h ∈ pool.mapTx := by
  obtain ⟨e, he, -⟩ := hc
  exact mem_mapTx_iff.mpr ⟨e, he⟩

lemma Tracked.matches (hpool : pool.Tracked) : pool.Matches := by
  refine ⟨fun id => ?_, fun t c _ _ => hpool.parents t c⟩
  simp only [hpool.outputs]
  exact ⟨fun ⟨h, _, hc⟩ => ⟨h, hc⟩, fun ⟨h, hc⟩ => ⟨h, hc.mem, hc⟩⟩

lemma tracked_empty : (empty : CTxMemPool P).Tracked := by
  have hentry : ∀ h, (empty : CTxMemPool P).entry h = none := fun h => by simp [entry, empty]
  refine ⟨indexed_empty, fun id h => ?_, fun t c => ?_⟩
  · have hnone : (empty : CTxMemPool P).mapTxOutputsMWEB id = none := rfl
    simp [Creates, hentry, hnone]
  · simp [Creates, hentry, parents]

variable {removed : List P.Hash}

lemma Removed.creates_iff (h : Removed pool removed pool') {t : P.Hash} :
    pool'.Creates t i ↔ t ∉ removed ∧ pool.Creates t i := h.exists_entry_iff (i ∈ ·.getOutputs)

/-- Removals keep the invariant, since an output is created by one entry only. -/
lemma Removed.tracked (h : Removed pool removed pool') (hpool : pool.Tracked) : pool'.Tracked := by
  refine ⟨h.indexed hpool.indexed, fun id t => ?_, fun t c => ?_⟩
  · rw [h.outputs, h.creates_iff, hpool.outputs]
    constructor
    · rintro ⟨⟨e, he, hid⟩, hnot⟩
      exact ⟨fun hrem => hnot t hrem e he (mem_getOutputs_mweb.mp hid), e, he, hid⟩
    · rintro ⟨hrem, hcreates⟩
      refine ⟨hcreates, fun r hr e he hid => hrem ?_⟩
      have hr' := (hpool.outputs id r).mpr ⟨e, he, mem_getOutputs_mweb.mpr hid⟩
      rw [(hpool.outputs id t).mpr hcreates] at hr'
      exact Option.some.inj hr' ▸ hr
  · rw [h.parents_eq]
    simp only [h.spends_iff, h.creates_iff]
    split
    · next hc => simp [hc]
    · next hc =>
      rw [List.mem_filter, hpool.parents]
      simp only [hc, not_false_eq_true, true_and, decide_eq_true_eq]
      constructor
      · rintro ⟨⟨i, hspends, hcreates⟩, ht⟩
        exact ⟨i, hspends, ht, hcreates⟩
      · rintro ⟨i, hspends, ht, hcreates⟩
        exact ⟨⟨i, hspends, hcreates⟩, ht⟩

/-- An accepted transaction is new to a pool with exact indexes. -/
lemma Accepts.new (haccepts : pool.Accepts tx) (hpool : pool.Tracked) : pool.New tx :=
  ⟨haccepts.not_mem, fun id hid => haccepts.not_mem ((hpool.outputs id _).mp hid).mem,
    haccepts.not_self⟩

/-- The entry that an input of an accepted transaction refers to is the one that creates what the
input spends. -/
lemma Tracked.getIter_eq_some_iff (hpool : pool.Tracked) (haccepts : pool.Accepts tx)
    (hi : i ∈ tx.getInputs) {t : P.Hash} : pool.getIter i = some t ↔ pool.Creates t i := by
  match i with
  | .canonical prevout =>
    obtain ⟨txin, htxin, rfl⟩ := mem_getInputs_canonical.mp hi
    unfold getIter Creates
    dsimp only
    constructor
    · intro h
      obtain ⟨hmem, ht⟩ := Option.ite_none_right_eq_some.mp h
      obtain rfl := Option.some.inj ht
      obtain ⟨e, he⟩ := mem_mapTx_iff.mp hmem
      exact ⟨e, he, mem_getOutputs_canonical.mpr
        ⟨haccepts.have_coin txin htxin e he, (hpool.indexed.key _ e he).symm⟩⟩
    · rintro ⟨e, he, hout⟩
      obtain rfl : txin.prevout.hash = t :=
        (mem_getOutputs_canonical.mp hout).2.trans (hpool.indexed.key t e he)
      exact if_pos (mem_mapTx_iff.mpr ⟨e, he⟩)
  | .mweb id =>
    rw [← hpool.outputs]
    refine ⟨fun h => ?_, fun h => ?_⟩
    · obtain ⟨t', ht', h⟩ := Option.bind_eq_some_iff.mp h
      obtain ⟨-, heq⟩ := Option.ite_none_right_eq_some.mp h
      rw [ht', Option.some.inj heq]
    · have hmem : t ∈ pool.mapTx := ((hpool.outputs id t).mp h).mem
      simp [getIter, h, hmem]

/-- An addition keeps the invariant when the outputs of the transaction are new. -/
lemma Added.tracked {e : CTxMemPoolEntry P} (h : Added pool e pool') (hpool : pool.Tracked)
    (haccepts : pool.Accepts e.tx) (hfresh : pool.Fresh e.tx) : pool'.Tracked := by
  have hnew := haccepts.new hpool
  have hspends : ∀ c i, pool'.Spends c i ↔
      (c = e.tx.getHash ∧ i ∈ e.tx.getInputs) ∨ pool.Spends c i := fun c i =>
    h.exists_entry_iff hnew (i ∈ ·.getInputs)
  have hcreates : ∀ t i, pool'.Creates t i ↔
      (t = e.tx.getHash ∧ i ∈ e.tx.getOutputs) ∨ pool.Creates t i := fun t i =>
    h.exists_entry_iff hnew (i ∈ ·.getOutputs)
  have hnoCreates : ∀ i, ¬ pool.Creates e.tx.getHash i := fun i hc => hnew.not_mem hc.mem
  have hnoSpends : ∀ i, ¬ pool.Spends e.tx.getHash i := by
    rintro i ⟨e', he', -⟩
    exact hnew.not_mem (mem_mapTx_iff.mpr ⟨e', he'⟩)
  refine ⟨h.indexed hpool.indexed hnew haccepts.no_conflict, fun id t => ?_, fun t c => ?_⟩
  · rw [h.outputs, hcreates, ← hpool.outputs, mem_getOutputs_mweb]
    split
    · next hid =>
      have hnone : pool.mapTxOutputsMWEB id = none := by
        refine Option.eq_none_iff_forall_ne_some.mpr fun t ht => ?_
        exact ((hfresh _ (mem_getOutputs_mweb.mpr hid)).2 t).1 ((hpool.outputs id t).mp ht)
      simp [hnone, hid, eq_comm]
    · next hid => simp [hid]
  · simp only [hspends, hcreates]
    by_cases hc : c = e.tx.getHash
    · -- the parents of the new entry are the creators of its inputs, and it is not one of them
      obtain ⟨e', he', -, -, -, -, hparentsOf⟩ := h.new
      subst hc
      rw [parents_of_entry he', hparentsOf, parentsOf, List.mem_dedup, List.mem_filterMap]
      constructor
      · rintro ⟨i, hi, hiter⟩
        exact ⟨i, .inl ⟨rfl, hi⟩, .inr ((hpool.getIter_eq_some_iff haccepts hi).mp hiter)⟩
      · rintro ⟨i, hi, hcreates⟩
        have hi := (hi.resolve_right (hnoSpends i)).2
        refine ⟨i, hi, (hpool.getIter_eq_some_iff haccepts hi).mpr ?_⟩
        exact hcreates.resolve_left fun hself => (hfresh i hself.2).1 hi
    · -- no entry spends what the new one creates
      rw [h.parents_eq hc, hpool.parents]
      simp only [hc, false_and, false_or]
      refine exists_congr fun i => and_congr_right fun hspends => ?_
      exact ⟨.inr, fun hcreates => hcreates.resolve_left
        fun hself => ((hfresh i hself.2).2 c).2 hspends⟩

/-- The invariant of runs. -/
lemma Run.tracked (hrun : Run Fresh pool) : pool.Tracked := by
  induction hrun with
  | empty => exact tracked_empty
  | add limits _ haccepts hfresh _ ih =>
    exact (added_addUnchecked (haccepts.new ih) _).tracked ih haccepts hfresh
  | removeStaged updateDescendants _ _ ih =>
    exact (removed_removeStaged ih.indexed.linked _ updateDescendants).tracked ih
  | removeRecursive tx _ ih =>
    exact (removed_removeRecursive ih.indexed.linked tx).tracked ih
  | @removeForBlock pool block _ ih =>
    obtain ⟨removed, hremoved, -⟩ :=
      exists_removed_foldl_removeBlockTx ih.indexed (pool.blockTxs block)
    exact hremoved.tracked ih

/-- Whatever is added and removed, the indexes match what the entries spend and create, as long as
every transaction that is added has outputs that are new to the pool. -/
theorem matches_of_fresh_run {pool : CTxMemPool P} (hrun : Run Fresh pool) : pool.Matches :=
  hrun.tracked.matches

/-- An entry spends an output of another one. -/
def SpendsFrom (pool : CTxMemPool P) (t c : P.Hash) : Prop :=
  ∃ i, pool.Spends c i ∧ pool.Creates t i

/-- What goes first with a transaction: its entry, or what spends its outputs if it has none. -/
def GoesFirst (pool : CTxMemPool P) (tx : CTransaction P) (r : P.Hash) : Prop :=
  if tx.getHash ∈ pool.mapTx then r = tx.getHash else ∃ i ∈ tx.getOutputs, pool.Spends r i

lemma Tracked.mem_removalRoots (hpool : pool.Tracked) {r : P.Hash} :
    r ∈ pool.removalRoots tx ↔ pool.GoesFirst tx r := by
  unfold removalRoots GoesFirst
  split
  · exact List.mem_singleton
  · rw [List.mem_dedup, List.mem_filterMap]
    simp only [hpool.indexed.nextTx]

/-- In every pool that a run reaches, `removeRecursive` removes exactly the transaction and what
spends its outputs, directly or through other entries.  Nothing that is left spends an output of an
entry that was removed, and everything that is left spends what it did before. -/
theorem removeRecursive_exact {pool : CTxMemPool P} (hrun : Run Fresh pool) (tx : CTransaction P) :
    (∀ x, x ∈ (pool.removeRecursive tx).mapTx ↔ x ∈ pool.mapTx ∧
      ¬ ∃ r, pool.GoesFirst tx r ∧ Relation.ReflTransGen pool.SpendsFrom r x) ∧
    ∀ x i, (pool.removeRecursive tx).Spends x i ↔ x ∈ (pool.removeRecursive tx).mapTx ∧
      pool.Spends x i ∧ ∀ t, pool.Creates t i → t ∈ (pool.removeRecursive tx).mapTx := by
  have hpool := hrun.tracked
  have hlink : pool.Link = pool.SpendsFrom := by
    ext a b
    exact (hpool.indexed.linked.inverse a b).trans (hpool.parents a b)
  have hroots : ∀ r ∈ pool.removalRoots tx, r ∈ pool.mapTx := by
    intro r hr
    have hfirst := hpool.mem_removalRoots.mp hr
    unfold GoesFirst at hfirst
    split at hfirst
    · exact hfirst ▸ ‹_›
    · obtain ⟨i, -, e, he, -⟩ := hfirst
      exact mem_mapTx_iff.mpr ⟨e, he⟩
  have hgone := (hpool.indexed.linked.mem_descendantsOfAll hroots).2
  simp only [hpool.mem_removalRoots, hlink] at hgone
  have hremoved := removed_removeRecursive hpool.indexed.linked tx
  refine ⟨fun x => by rw [hremoved.mem_iff, hgone], fun x i => ?_⟩
  rw [hremoved.spends_iff]
  constructor
  · rintro ⟨hx, hspends⟩
    obtain ⟨e, he, -⟩ := id hspends
    refine ⟨hremoved.mem_iff.mpr ⟨mem_mapTx_iff.mpr ⟨e, he⟩, hx⟩, hspends, fun t ht => ?_⟩
    refine hremoved.mem_iff.mpr ⟨ht.mem, fun hgone_t => hx ?_⟩
    obtain ⟨r, hr, hpath⟩ := (hgone t).mp hgone_t
    exact (hgone x).mpr ⟨r, hr, hpath.tail ⟨i, hspends, ht⟩⟩
  · rintro ⟨hx, hspends, -⟩
    exact ⟨(hremoved.mem_iff.mp hx).2, hspends⟩

section Example

open Symbolic

/-- A transaction that spends a coin of the given value.  Two of these have the same output when the
values are equal less the fees. -/
def twin (value : ℤ) (fee : CAmount) (hfee : 0 ≤ fee) : CTxMemPoolEntry sym :=
  ⟨mwebOnly value fee hfee, fee, 0, 0, 20⟩

/-- The first of two transactions with an output of value 4. -/
def firstTwin : CTxMemPoolEntry sym := twin 5 1 nonneg_one

/-- The second one. -/
def secondTwin : CTxMemPoolEntry sym := twin 6 2 (by decide)

/-- Their output. -/
def twinOutput : Mw.Output sym := output 4 0 2 3

/-- The pool with the first one. -/
def onePool : CTxMemPool sym := empty.addUnchecked (.new firstTwin) []

/-- The pool with both. -/
def twinPool : CTxMemPool sym := onePool.addUnchecked (.new secondTwin) []

lemma run_onePool {Admissible : CTxMemPool sym → CTransaction sym → Prop}
    (h : Admissible empty firstTwin.tx) : Run Admissible onePool :=
  .add noLimits .empty (by decide +kernel) h (eq_ok_of_toOption_eq_some (by decide +kernel))

/-- A transaction that spends the output of the first one. -/
def childTx : CTransaction sym :=
  { spend [] [] with
    mwebTx := some ⟨0, -1, ⟨[input twinOutput.getOutputID 4 0 3], [output 3 1 2 3],
      [kernel (some 1) none [] 1 nonneg_one]⟩, by simp⟩
    hogEx_wf := by simp [spend] }

/-- A transaction that has nothing to do with them. -/
def strangerTx : CTransaction sym := spend [⟨.word 7, 0⟩] [⟨4, opTrue⟩]

/-- The pool with a parent, its child and a stranger. -/
def familyPool : CTxMemPool sym :=
  (onePool.addUnchecked (.new ⟨childTx, 1, 0, 0, 20⟩) [firstTwin.tx.getHash]).addUnchecked
    (.new ⟨strangerTx, 1, 0, 0, 20⟩) []

lemma run_familyPool : Run Fresh familyPool :=
  .add noLimits
    (.add noLimits (run_onePool (by decide +kernel)) (by decide +kernel) (by decide +kernel)
      (eq_ok_of_toOption_eq_some (by decide +kernel)))
    (by decide +kernel) (by decide +kernel) (eq_ok_of_toOption_eq_some (by decide +kernel))

/-- After the stranger has left, the parent is linked to the child and its output is indexed. -/
theorem matches_family :
    firstTwin.tx.getHash ∈ (familyPool.removeRecursive strangerTx).parents childTx.getHash ∧
      (familyPool.removeRecursive strangerTx).mapTxOutputsMWEB twinOutput.getOutputID =
        some firstTwin.tx.getHash ∧
      (familyPool.removeRecursive strangerTx).Matches :=
  ⟨by decide +kernel, by decide +kernel,
    matches_of_fresh_run (.removeRecursive strangerTx run_familyPool)⟩

/-- The child is removed with its parent, and the stranger stays. -/
theorem removeRecursive_exact_family :
    (familyPool.removeRecursive firstTwin.tx).mapTx.keys = [strangerTx.getHash] ∧
      (∃ r, familyPool.GoesFirst firstTwin.tx r ∧
        Relation.ReflTransGen familyPool.SpendsFrom r childTx.getHash) ∧
      ¬ ∃ r, familyPool.GoesFirst firstTwin.tx r ∧
        Relation.ReflTransGen familyPool.SpendsFrom r strangerTx.getHash := by
  have hexact := (removeRecursive_exact run_familyPool firstTwin.tx).1
  have hchild : childTx.getHash ∈ familyPool.mapTx := by decide +kernel
  have hgone : childTx.getHash ∉ (familyPool.removeRecursive firstTwin.tx).mapTx := by
    decide +kernel
  refine ⟨by decide +kernel, ?_, ((hexact _).mp (by decide +kernel)).2⟩
  by_contra hnone
  exact hgone ((hexact _).mpr ⟨hchild, hnone⟩)

/-- When one of two transactions with the same output is removed, the output is not indexed any
more, though the other one creates it. -/
theorem not_matches_twin :
    Run (fun _ _ => True) (twinPool.removeStaged [firstTwin.tx.getHash] false) ∧
      ¬ (twinPool.removeStaged [firstTwin.tx.getHash] false).Matches := by
  constructor
  · refine .removeStaged false (.add noLimits (run_onePool trivial)
      (by decide +kernel) trivial (eq_ok_of_toOption_eq_some (by decide +kernel))) ?_
    decide +kernel
  · intro hmatches
    have hcreates : ((twinPool.removeStaged [firstTwin.tx.getHash] false).entry
        secondTwin.tx.getHash).any
        (fun e => OutputIndex.mweb twinOutput.getOutputID ∈ e.tx.getOutputs) = true := by
      decide +kernel
    have hnone : (twinPool.removeStaged [firstTwin.tx.getHash] false).mapTxOutputsMWEB
        twinOutput.getOutputID = none := by
      decide +kernel
    match he : (twinPool.removeStaged [firstTwin.tx.getHash] false).entry
        secondTwin.tx.getHash with
    | none => simp [he] at hcreates
    | some e =>
      rw [he, Option.any_some, decide_eq_true_eq] at hcreates
      obtain ⟨h, -, hsome⟩ := (hmatches.outputs twinOutput.getOutputID).mpr
        ⟨_, e, he, hcreates⟩
      rw [hnone] at hsome
      exact absurd hsome (by simp)

end Example

end CTxMemPool

end Aegisum
