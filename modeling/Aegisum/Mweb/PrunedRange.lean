import Aegisum.Mweb.MmrLayers
import Aegisum.Mweb.PrunableMmr
import Aegisum.Mweb.Pruning

/-!
# Pruned ranges

A `PMMR` whose hash file was written without the nodes of `BuildCompactBitSet`, next to one with all
nodes.  Leaves are added to both, and both are rewound to sizes at which all compacted nodes are
still nodes.
-/

namespace Aegisum

namespace Mw

variable {D α : Type} (f : RecordFormat D) (h : MmrHasher D α)

/-! ### Operations -/

/-- Operations on a range. -/
inductive PmmrOp (α : Type)
  | add (data : α)
  | rewind (numLeaves : ℕ)

/-- One operation. -/
def ListPMMR.exec (m : ListPMMR D α) : PmmrOp α → Except ViewError (ListPMMR D α)
  | .add data => m.add f h data
  | .rewind numLeaves => m.rewind f numLeaves

/-- The operation on the leaves.  It is not rewound below a compacted node. -/
def PmmrOp.exec (compacted : BitSet) (leaves : List α) : PmmrOp α → Option (List α)
  | .add data => some (leaves ++ [data])
  | .rewind numLeaves =>
    if numLeaves ≤ leaves.length ∧
        ∀ i < compacted.size, compacted.test i = true → i < leafPosition numLeaves then
      some (leaves.take numLeaves)
    else none

/-! ### Nodes that stay -/

/-- The parents of all compacted nodes are nodes over the leaves. -/
def ParentsThere (compacted : BitSet) (n : ℕ) : Prop :=
  ∀ e k, compacted.test (nodePos e k) = true → nodePos (e + 1) (k / 2) < leafPosition n

lemma parentsThere_buildCompactBitSet (n : ℕ) (unspent : BitSet) :
    ParentsThere (buildCompactBitSet n unspent) n := by
  intro e k hset
  rw [leafPosition_eq_nodePos, nodePos_lt_iff]
  exact ((test_buildCompactBitSet n unspent e k).mp hset).1

/-- Siblings are compacted together, so the parent of compacted nodes is there if they are. -/
lemma parentsThere_of_lt {n n' : ℕ} {unspent : BitSet}
    (hlt : ∀ i < (buildCompactBitSet n unspent).size,
      (buildCompactBitSet n unspent).test i = true → i < leafPosition n') :
    ParentsThere (buildCompactBitSet n unspent) n' := by
  intro e k hset
  have hall := (test_buildCompactBitSet n unspent e k).mp hset
  have hright : (buildCompactBitSet n unspent).test (nodePos e (2 * (k / 2) + 1)) = true := by
    rw [test_buildCompactBitSet, show (2 * (k / 2) + 1) / 2 = k / 2 by omega]
    exact hall
  have hpos := hlt _ (BitSet.lt_size_of_test hright) hright
  rw [leafPosition_eq_nodePos, nodePos_lt_iff] at hpos ⊢
  rw [Nat.pow_succ', ← Nat.mul_assoc, Nat.mul_comm (k / 2 + 1), Nat.mul_add]
  exact hpos

variable {f h}

variable {m : ListPMMR D α} {leaves : List α}

/-! ### Every operation -/

namespace ListPMMR

lemma marked_congr {m' : ListPMMR D α} (hprune : m'.pruneList = m.pruneList) :
    m'.marked = m.marked := by
  rw [marked, marked, hprune]

/-- An operation does to a range what it does to its leaves. -/
lemma Stores.step (hm : m.Stores f h leaves) (n : ℕ) (unspent : BitSet)
    (hmarked : ∀ i, m.marked i = true → (buildCompactBitSet n unspent).test i = true)
    (op : PmmrOp α) {leaves' : List α}
    (hop : op.exec (buildCompactBitSet n unspent) leaves = some leaves') :
    ∃ m', m.exec f h op = .ok m' ∧ m'.Stores f h leaves' ∧ m'.pruneList = m.pruneList := by
  cases op with
  | add data =>
    obtain rfl := Option.some.inj hop
    obtain ⟨nodes, hadd, hnodes⟩ := hm.addLeaf_eq data
    rw [← hm.getNumLeaves] at hadd
    exact ⟨_, hadd, hm.append _ hnodes rfl rfl, rfl⟩
  | rewind numLeaves =>
    obtain ⟨⟨hle, hkept⟩, hop⟩ := Option.ite_none_right_eq_some.mp hop
    obtain rfl := Option.some.inj hop
    obtain ⟨m', hrewind, hstores, hprune, -⟩ := hm.rewind hle fun e k hset =>
      parentsThere_of_lt hkept e k (hmarked _ hset)
    exact ⟨m', hrewind, hstores, hprune⟩

/-- A run does to a range what it does to its leaves. -/
lemma Stores.run (hm : m.Stores f h leaves) (n : ℕ) (unspent : BitSet)
    (hmarked : ∀ i, m.marked i = true → (buildCompactBitSet n unspent).test i = true)
    (ops : List (PmmrOp α)) {leaves' : List α}
    (hops : ops.foldlM (PmmrOp.exec (buildCompactBitSet n unspent)) leaves = some leaves') :
    ∃ m', ops.foldlM (exec f h) m = .ok m' ∧ m'.Stores f h leaves' ∧
      m'.pruneList = m.pruneList := by
  induction ops generalizing m leaves with
  | nil =>
    obtain rfl := Option.some.inj hops
    exact ⟨m, rfl, hm, rfl⟩
  | cons op ops ih =>
    obtain ⟨leaves₁, hop, hops⟩ := Option.bind_eq_some_iff.mp hops
    obtain ⟨m₁, hstep, hm₁, hprune₁⟩ := hm.step n unspent hmarked op hop
    obtain ⟨m', hrun, hm', hprune⟩ := ih hm₁ (by rwa [marked_congr hprune₁]) hops
    exact ⟨m', foldlM_cons_eq_ok.mpr ⟨m₁, hstep, hrun⟩, hm', hprune.trans hprune₁⟩

/-! ### Answers -/

lemma Stores.getHash (hm : m.Stores f h leaves) {pos : ℕ} (hpos : pos < leafPosition leaves.length)
    (hmarked : m.marked pos = false) :
    m.getHash f pos = .ok ((Mmr.ofLeaves h leaves).hashes.getD pos h.zero) := by
  rw [← Mmr.length_hashes_ofLeaves h leaves] at hpos
  rw [getHash_eq hm.hashFile hpos hmarked, List.getD_eq_getElem _ _ hpos]

/-- The root is the one over the leaves: peaks are never compacted. -/
lemma Stores.root [DecidableEq D] (hm : m.Stores f h leaves) :
    (m.toIMMR f).root h = .ok ((Mmr.ofLeaves h leaves).root h) := by
  have hnext : (m.toIMMR f).nextLeafIdx = leaves.length := hm.getNumLeaves
  refine IMMR.root_eq h hnext fun p hp => ?_
  rw [IMMR.getNumNodes, hnext, calcPeakIndices_leafPosition] at hp
  obtain ⟨⟨e, k⟩, hmem, rfl⟩ := List.mem_map.mp hp
  rw [List.mem_reverse] at hmem
  refine hm.getHash ?_ ?_
  · rw [leafPosition_eq_nodePos, nodePos_lt_iff]
    exact le_of_mem_peaks hmem
  · rw [Bool.eq_false_iff]
    intro hset
    have hparent := hm.parents e k hset
    rw [leafPosition_eq_nodePos, nodePos_lt_iff] at hparent
    exact not_allLeaves_of_mem_peaks (P := fun _ => True) hmem ⟨hparent, fun _ _ _ => trivial⟩

end ListPMMR

/-! ### Pruned and unpruned ranges -/

/-- The prune list after writing the compacted nodes, or after reading them again. -/
def PruneList.Holds (pruneList : PruneList) (compacted : BitSet) : Prop :=
  pruneList = (PruneList.commit compacted).1 ∨
    pruneList = PruneList.open (some (PruneList.commit compacted).2)

lemma PruneList.Holds.spec {pruneList : PruneList} {compacted : BitSet}
    (hlist : pruneList.Holds compacted) :
    pruneList.compacted.test = compacted.test ∧ pruneList.totalShift = compacted.count := by
  rcases hlist with rfl | rfl
  · exact ⟨rfl, rfl⟩
  · exact ⟨funext compacted.test_from_bytes, compacted.count_from_bytes⟩

/-- The hash file without the compacted nodes. -/
def prunedFile (f : RecordFormat D) (h : MmrHasher D α) (leaves : List α) (unspent : BitSet) :
    List UInt8 :=
  f.file (dropMarked (buildCompactBitSet leaves.length unspent).test 0
    (Mmr.ofLeaves h leaves).hashes)

lemma stores_pruned (leaves : List α) (unspent : BitSet) (leafDB : ℕ → Option α)
    {pruneList : PruneList} (hlist : pruneList.Holds (buildCompactBitSet leaves.length unspent)) :
    (ListPMMR.open (prunedFile f h leaves unspent) leafDB (some pruneList)).Stores f h leaves := by
  obtain ⟨htest, hshift⟩ := hlist.spec
  have hmarked : (ListPMMR.open (D := D) (prunedFile f h leaves unspent) leafDB
      (some pruneList)).marked = (buildCompactBitSet leaves.length unspent).test := htest
  have hparents := parentsThere_buildCompactBitSet leaves.length unspent
  refine ⟨?_, ?_, ?_⟩
  · rw [hmarked]
    rfl
  · rw [hmarked]
    refine hshift.trans (BitSet.count_eq_count _ fun i hi => ?_)
    obtain ⟨e, k, rfl⟩ := exists_nodePos_eq i
    exact Nat.lt_trans (nodePos_lt_parent e k) (hparents e k hi)
  · rw [hmarked]
    exact hparents

lemma stores_unpruned (leaves : List α) (leafDB : ℕ → Option α) :
    (ListPMMR.open (f.file (Mmr.ofLeaves h leaves).hashes) leafDB none).Stores f h leaves := by
  refine ⟨?_, ?_, fun e k hset => by cases hset⟩
  · exact congrArg f.file (dropMarked_eq_self _ (fun j hj => by cases hj) _).symm
  · exact (Nat.count_iff_forall_not.mpr fun _ _ => Bool.false_ne_true).symm

/-- A pruned range and the unpruned one give the same hash of every node that is not compacted, the
same number of leaves and the same root, after any additions and any rewinds to sizes at which the
compacted nodes are still nodes. -/
theorem ListPMMR.pruned_agrees [DecidableEq D] (leaves : List α) (unspent : BitSet)
    (leafDB : ℕ → Option α) (pruneList : PruneList)
    (hlist : pruneList.Holds (buildCompactBitSet leaves.length unspent)) (ops : List (PmmrOp α))
    (leaves' : List α)
    (hops : ops.foldlM (PmmrOp.exec (buildCompactBitSet leaves.length unspent)) leaves =
      some leaves') :
    ∃ pruned unpruned,
      ops.foldlM (exec f h) (.open (prunedFile f h leaves unspent) leafDB (some pruneList)) =
        .ok pruned ∧
      ops.foldlM (exec f h) (.open (f.file (Mmr.ofLeaves h leaves).hashes) leafDB none) =
        .ok unpruned ∧
      (∀ pos < leafPosition leaves'.length,
        (buildCompactBitSet leaves.length unspent).test pos = false →
          pruned.getHash f pos = unpruned.getHash f pos ∧
          unpruned.getHash f pos = .ok ((Mmr.ofLeaves h leaves').hashes.getD pos h.zero)) ∧
      pruned.getNumLeaves f = unpruned.getNumLeaves f ∧
      unpruned.getNumLeaves f = leaves'.length ∧
      (pruned.toIMMR f).root h = (unpruned.toIMMR f).root h ∧
      (unpruned.toIMMR f).root h = .ok ((Mmr.ofLeaves h leaves').root h) := by
  have htest := hlist.spec.1
  obtain ⟨pruned, hrun, hpruned, hprune⟩ := (stores_pruned leaves unspent leafDB hlist).run
    leaves.length unspent (fun i hi => htest ▸ hi) ops hops
  obtain ⟨unpruned, hrun', hunpruned, hprune'⟩ := (stores_unpruned leaves leafDB).run
    leaves.length unspent (fun i hi => by cases hi) ops hops
  refine ⟨pruned, unpruned, hrun, hrun', fun pos hpos hkept => ?_, ?_, hunpruned.getNumLeaves, ?_,
    hunpruned.root⟩
  · have hmarked : pruned.marked pos = false := by
      rw [marked_congr hprune]
      exact (congrFun htest pos).trans hkept
    have hmarked' : unpruned.marked pos = false := by
      rw [marked_congr hprune']
      rfl
    rw [hpruned.getHash hpos hmarked, hunpruned.getHash hpos hmarked']
    exact ⟨rfl, rfl⟩
  · rw [hpruned.getNumLeaves, hunpruned.getNumLeaves]
  · rw [hpruned.root, hunpruned.root]

/-- Five leaves of which the first three are spent; a sixth leaf is added, and the last two leaves
are cut off again. -/
theorem ListPMMR.pruned_agrees_fiveLeaves :
    let unspent : BitSet := ⟨[false, false, false, true, true]⟩
    let leaves : List UInt8 := [1, 2, 3, 4, 5]
    let ops : List (PmmrOp UInt8) := [.add 6, .rewind 4]
    ∃ pruned unpruned,
      ops.foldlM (exec firstByte sumHasher) (.open (prunedFile firstByte sumHasher leaves unspent)
        (fun _ => none) (some (PruneList.commit (buildCompactBitSet 5 unspent)).1)) = .ok pruned ∧
      ops.foldlM (exec firstByte sumHasher)
        (.open (firstByte.file (Mmr.ofLeaves sumHasher leaves).hashes) (fun _ => none) none) =
          .ok unpruned ∧
      (buildCompactBitSet 5 unspent).test 0 = true ∧
      pruned.getNumLeaves firstByte = 4 ∧
      (pruned.toIMMR firstByte).root sumHasher = (unpruned.toIMMR firstByte).root sumHasher := by
  intro unspent leaves ops
  obtain ⟨pruned, unpruned, hrun, hrun', -, hnum, hnum', hroot, -⟩ :=
    pruned_agrees (f := firstByte) (h := sumHasher) leaves unspent (fun _ => none) _ (.inl rfl) ops
      [1, 2, 3, 4] (by decide +kernel)
  exact ⟨pruned, unpruned, hrun, hrun', by decide +kernel, hnum.trans hnum', hroot⟩

end Mw

end Aegisum
