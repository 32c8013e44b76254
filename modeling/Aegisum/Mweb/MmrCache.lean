import Aegisum.Foundations.Checked
import Aegisum.Mweb.AppendOnlyFile
import Aegisum.Mweb.MmrRoot
import Aegisum.Mweb.TxBody

/-!
# Cached Merkle mountain ranges

`PMMRCache` holds the leaves and nodes that were added on top of another range, its base, from
some first leaf on.  Everything before the first leaf is asked of the base, and rewinding below
the first leaf moves the first leaf down.

`Holds` says which leaves a range stands for by the answers it gives, and `PMMRCache.Extends`
what a cache must store to stand for its leaves on top of a base.
-/

namespace Aegisum

open List

namespace Mw

open Mmr

/-- How an operation on a view or one of its parts can fail. -/
inductive ViewError
  | validation (e : MwError)
  | assertionFailure
  | outOfRange
  | notFound
  | file (e : FileError)
  /-- A read past the end of a vector: nothing is reported. -/
  | undefinedBehaviour
deriving DecidableEq

/-- What can be asked of a Merkle mountain range. -/
structure IMMR (D α : Type) where
  getHash : ℕ → Except ViewError D
  getLeaf : ℕ → Except ViewError α
  nextLeafIdx : ℕ

/-- A leaf with its index and hash. -/
structure Leaf (D α : Type) where
  leafIndex : ℕ
  hash : D
  data : α

variable {D α : Type} (h : MmrHasher D α)

/-- The leaf with the given index and data. -/
def Leaf.create (leafIndex : ℕ) (data : α) : Leaf D α :=
  ⟨leafIndex, h.leafHash (leafPosition leafIndex) data, data⟩

/-- The places of the leaves that are in memory, by their index.  Of leaves with the same index the
last one counts. -/
def leafMap (leaves : List (Leaf D α)) : ℕ → Option ℕ :=
  leaves.zipIdx.foldl (fun places p => Function.update places p.1.leafIndex (some p.2))
    fun _ => none

lemma leafMap_nil (idx : ℕ) : leafMap ([] : List (Leaf D α)) idx = none := rfl

/-- The last leaf of an index counts. -/
lemma leafMap_append (leaves : List (Leaf D α)) (leaf : Leaf D α) :
    leafMap (leaves ++ [leaf]) =
      Function.update (leafMap leaves) leaf.leafIndex (some leaves.length) := by
  simp [leafMap, List.zipIdx_append]

namespace IMMR

/-- The number of nodes. -/
def getNumNodes (m : IMMR D α) : ℕ := leafPosition m.nextLeafIdx

/-- The root, bagged from the hashes the range answers with. -/
def root [DecidableEq D] (m : IMMR D α) : Except ViewError D :=
  (calcPeakIndices m.getNumNodes).reverse.foldlM
    (fun hash peak => do
      let peakHash ← m.getHash peak
      pure (if hash = h.zero then peakHash else h.parentHash m.getNumNodes peakHash hash))
    h.zero

/-- The range answers as the range over the given leaves does. -/
structure Holds (m : IMMR D α) (leaves : List α) : Prop where
  next : m.nextLeafIdx = leaves.length
  hash : ∀ pos d, (Mmr.ofLeaves h leaves).hashes[pos]? = some d → m.getHash pos = .ok d
  leaf : ∀ i a, leaves[i]? = some a → m.getLeaf i = .ok a

/-- The root depends on the hashes of the peaks only. -/
lemma root_eq [DecidableEq D] {m : IMMR D α} {leaves : List α}
    (hnext : m.nextLeafIdx = leaves.length) (hpeaks : ∀ p ∈ calcPeakIndices m.getNumNodes,
      m.getHash p = .ok ((Mmr.ofLeaves h leaves).hashes.getD p h.zero)) :
    m.root h = .ok ((Mmr.ofLeaves h leaves).root h) := by
  rw [IMMR.root, Mmr.root, Mmr.bagPeaks, Mmr.getNumNodes, Mmr.getNumLeaves, Mmr.ofLeaves_leaves,
    ← hnext, ← getNumNodes]
  apply foldlM_eq_ok_foldl
  intro p hp hash
  rw [bind_of_eq_ok (hpeaks p (mem_reverse.mp hp))]
  rfl

/-- The root is the one of the range over the leaves. -/
lemma Holds.root [DecidableEq D] {m : IMMR D α} {leaves : List α} (hm : m.Holds h leaves) :
    m.root h = .ok ((ofLeaves h leaves).root h) := by
  refine root_eq h hm.next fun p hp => ?_
  have hlt : p < (ofLeaves h leaves).hashes.length := by
    rw [getNumNodes, hm.next, calcPeakIndices_leafPosition] at hp
    obtain ⟨t, ht, rfl⟩ := mem_map.mp hp
    rw [length_hashes_ofLeaves, leafPosition_eq_nodePos, nodePos_lt_iff]
    exact le_of_mem_peaks (mem_reverse.mp ht)
  apply hm.hash
  rw [getElem?_eq_getElem hlt, getD_eq_getElem _ _ hlt]

end IMMR

/-! ### The cache -/

/-- The leaves and nodes from the first leaf on. -/
structure PMMRCache (D α : Type) where
  firstLeaf : ℕ
  leaves : List (Leaf D α)
  nodes : List D

namespace PMMRCache

/-- A cache that holds nothing yet. -/
def new (base : IMMR D α) : PMMRCache D α := ⟨base.nextLeafIdx, [], []⟩

/-- The index of the next leaf. -/
def getNextLeafIdx (c : PMMRCache D α) : ℕ :=
  match c.leaves.getLast? with
  | none => c.firstLeaf
  | some leaf => leaf.leafIndex + 1

/-- The hash of a node: of the base before the first leaf, of the cache from there on. -/
def getHash (base : IMMR D α) (c : PMMRCache D α) (position : ℕ) : Except ViewError D :=
  if position < leafPosition c.firstLeaf then base.getHash position
  else
    match c.nodes[position - leafPosition c.firstLeaf]? with
    | none => .error .assertionFailure
    | some d => .ok d

/-- The data of a leaf.  The bound is off by one: the index after the last leaf is let through and
read past the end of the vector. -/
def getLeaf (base : IMMR D α) (c : PMMRCache D α) (leafIdx : ℕ) : Except ViewError α :=
  if leafIdx < c.firstLeaf then base.getLeaf leafIdx
  else if leafIdx - c.firstLeaf > c.leaves.length then .error .outOfRange
  else
    match c.leaves[leafIdx - c.firstLeaf]? with
    | none => .error .undefinedBehaviour
    | some leaf => .ok leaf.data

/-- The cache as a range. -/
def toIMMR (base : IMMR D α) (c : PMMRCache D α) : IMMR D α :=
  ⟨c.getHash base, c.getLeaf base, c.getNextLeafIdx⟩

/-- Append the parents that a new leaf completes. -/
def addParents (base : IMMR D α) : ℕ → PMMRCache D α → D → Index → Except ViewError (PMMRCache D α)
  | 0, c, _, _ => .ok c
  | fuel + 1, c, rightHash, nextIdx =>
    if nextIdx.isLeaf then .ok c
    else do
      let leftHash ← c.getHash base nextIdx.getLeftChild.position
      let parent := h.parentHash nextIdx.position leftHash rightHash
      addParents base fuel { c with nodes := c.nodes ++ [parent] } parent nextIdx.getNext

/-- Append a leaf. -/
def addLeaf (base : IMMR D α) (c : PMMRCache D α) (leaf : Leaf D α) :
    Except ViewError (PMMRCache D α) := do
  let c' ← { c with nodes := c.nodes ++ [leaf.hash] }.addParents h base (leaf.leafIndex + 1)
    leaf.hash (Index.ofPosition (leafPosition leaf.leafIndex + 1))
  pure { c' with leaves := c'.leaves ++ [leaf] }

/-- Append a leaf with the given data. -/
def add (base : IMMR D α) (c : PMMRCache D α) (data : α) : Except ViewError (PMMRCache D α) :=
  c.addLeaf h base (Leaf.create h c.getNextLeafIdx data)

/-- Shrink the range to its first leaves. -/
def rewind (c : PMMRCache D α) (numLeaves : ℕ) : PMMRCache D α :=
  if numLeaves ≤ c.firstLeaf then ⟨numLeaves, [], []⟩
  else if c.leaves.isEmpty then c
  else
    let c' := { c with leaves := c.leaves.takeWhile (·.leafIndex < numLeaves) }
    { c' with
      nodes := c'.nodes.take (leafPosition c'.getNextLeafIdx - leafPosition c'.firstLeaf) }

/-- Take over the changes of a cache on top of this one. -/
def batchWrite (base : IMMR D α) (c : PMMRCache D α) (firstLeafIdx : ℕ)
    (leaves : List (Leaf D α)) : Except ViewError (PMMRCache D α) :=
  leaves.foldlM (fun c leaf => c.add h base leaf.data) (c.rewind firstLeafIdx)

/-- What a cache stores on top of a base over `baseLeaves` to stand for `leaves`. -/
structure Extends (baseLeaves : List α) (c : PMMRCache D α) (leaves : List α) : Prop where
  first_le : c.firstLeaf ≤ baseLeaves.length
  leaves_eq : leaves = baseLeaves.take c.firstLeaf ++ c.leaves.map Leaf.data
  created : ∀ i leaf, c.leaves[i]? = some leaf →
    leaf = Leaf.create h (c.firstLeaf + i) leaf.data
  nodes_eq : c.nodes = (Mmr.ofLeaves h leaves).hashes.drop (leafPosition c.firstLeaf)

variable {h} {base : IMMR D α} {c : PMMRCache D α} {baseLeaves leaves : List α}

/-- The next index after leaves with consecutive indices. -/
lemma getNextLeafIdx_eq
    (hc : ∀ i leaf, c.leaves[i]? = some leaf → leaf.leafIndex = c.firstLeaf + i) :
    c.getNextLeafIdx = c.firstLeaf + c.leaves.length := by
  unfold getNextLeafIdx
  rw [List.getLast?_eq_getElem?]
  cases hlast : c.leaves[c.leaves.length - 1]? with
  | none =>
    have := List.getElem?_eq_none_iff.mp hlast
    dsimp only
    omega
  | some leaf =>
    have hlt := (List.getElem?_eq_some_iff.mp hlast).1
    dsimp only
    rw [hc _ leaf hlast]
    omega

namespace Extends

section

variable (hc : c.Extends h baseLeaves leaves)

include hc

lemma leafIndex (i : ℕ) (leaf : Leaf D α) (hleaf : c.leaves[i]? = some leaf) :
    leaf.leafIndex = c.firstLeaf + i := by
  rw [hc.created i leaf hleaf]
  rfl

lemma length_eq : leaves.length = c.firstLeaf + c.leaves.length := by
  rw [hc.leaves_eq, length_append, length_take, length_map, Nat.min_eq_left hc.first_le]

lemma next : c.getNextLeafIdx = leaves.length := by
  rw [getNextLeafIdx_eq hc.leafIndex, hc.length_eq]

/-- The leaves before the first leaf are those of the base. -/
lemma take_firstLeaf : leaves.take c.firstLeaf = baseLeaves.take c.firstLeaf := by
  have hlen : (baseLeaves.take c.firstLeaf).length = c.firstLeaf := by
    rw [length_take, Nat.min_eq_left hc.first_le]
  rw [hc.leaves_eq, take_append_of_le_length (Nat.le_of_eq hlen.symm),
    take_of_length_le (Nat.le_of_eq hlen)]

/-- The nodes before the first leaf are those of the base. -/
lemma getElem?_hashes {pos : ℕ} (hpos : pos < leafPosition c.firstLeaf) :
    (ofLeaves h leaves).hashes[pos]? = (ofLeaves h baseLeaves).hashes[pos]? := by
  have hpre : ∀ l : List α, c.firstLeaf ≤ l.length →
      (ofLeaves h l).hashes[pos]? = (ofLeaves h (l.take c.firstLeaf)).hashes[pos]? := by
    intro l hl
    have := prefix_hashes_ofLeaves h (l.take c.firstLeaf) (l.drop c.firstLeaf)
    rw [take_append_drop] at this
    obtain ⟨rest, hrest⟩ := this
    rw [← hrest, getElem?_append_left]
    rwa [length_hashes_ofLeaves, length_take, Nat.min_eq_left hl]
  rw [hpre leaves (by rw [hc.length_eq]; omega), hpre baseLeaves hc.first_le, hc.take_firstLeaf]

lemma leafPosition_firstLeaf_le :
    leafPosition c.firstLeaf ≤ (ofLeaves h leaves).hashes.length := by
  rw [length_hashes_ofLeaves, hc.length_eq]
  exact leafPosition_mono (Nat.le_add_right _ _)

/-- A cache on top of a base answers as the range over its leaves. -/
lemma holds (hbase : base.Holds h baseLeaves) : (c.toIMMR base).Holds h leaves := by
  constructor
  case next => exact hc.next
  case hash =>
    intro pos d hd
    change c.getHash base pos = .ok d
    unfold getHash
    by_cases hpos : pos < leafPosition c.firstLeaf
    · rw [if_pos hpos]
      apply hbase.hash
      rw [← hc.getElem?_hashes hpos, hd]
    · rw [if_neg hpos, hc.nodes_eq, List.getElem?_drop,
        show leafPosition c.firstLeaf + (pos - leafPosition c.firstLeaf) = pos by omega, hd]
  case leaf =>
    intro i a ha
    change c.getLeaf base i = .ok a
    unfold getLeaf
    by_cases hi : i < c.firstLeaf
    · rw [if_pos hi]
      apply hbase.leaf
      rw [← ha, ← List.getElem?_take_of_lt hi, ← hc.take_firstLeaf, List.getElem?_take_of_lt hi]
    · rw [if_neg hi]
      have hlen : (baseLeaves.take c.firstLeaf).length = c.firstLeaf := by
        rw [List.length_take, Nat.min_eq_left hc.first_le]
      rw [hc.leaves_eq, List.getElem?_append_right (by omega), hlen, List.getElem?_map] at ha
      obtain ⟨leaf, hleaf, rfl⟩ := Option.map_eq_some_iff.mp ha
      have hlt := (List.getElem?_eq_some_iff.mp hleaf).1
      rw [if_neg (by omega), hleaf]

end

end Extends

/-- A cache that holds nothing stands for the leaves of its base. -/
lemma extends_new (hbase : base.Holds h baseLeaves) :
    (new base).Extends h baseLeaves baseLeaves := by
  constructor
  · exact Nat.le_of_eq hbase.next
  · simp [new, hbase.next]
  · simp [new]
  · rw [show (new base).firstLeaf = baseLeaves.length from hbase.next,
      ← length_hashes_ofLeaves h baseLeaves, drop_length]
    rfl

/-! ### Adding leaves -/

/-- The cache stands for a list of hashes: the base has those before the first leaf. -/
def Serves (base : IMMR D α) (c : PMMRCache D α) (hashes : List D) : Prop :=
  (∀ pos x, pos < leafPosition c.firstLeaf → hashes[pos]? = some x → base.getHash pos = .ok x) ∧
    leafPosition c.firstLeaf ≤ hashes.length ∧ c.nodes = hashes.drop (leafPosition c.firstLeaf)

/-- The loop over the parents does the same in the cache as in a range that holds all nodes. -/
lemma runsParents (h : MmrHasher D α) (base : IMMR D α) :
    RunsParents h (getHash base) (fun c l => { c with nodes := c.nodes ++ l })
      (addParents h base) (Serves base) where
  zero _ _ _ := rfl
  succ _ _ _ _ := rfl
  push_nil c := by rw [append_nil]
  push_push c l l' := by rw [append_assoc]
  stands := by
    rintro c hashes d ⟨hbase, hle, hnodes⟩
    refine ⟨fun pos x hpos hx => ?_, ?_, ?_⟩
    · rw [getElem?_append_left (Nat.lt_of_lt_of_le hpos hle)] at hx
      exact hbase pos x hpos hx
    · rw [length_append]
      exact Nat.le_add_right_of_le hle
    · rw [drop_append_of_le_length hle, hnodes]
  get_eq := by
    rintro c hashes e q d ⟨hbase, hle, hnodes⟩ - hd
    generalize nodePos e (2 * q) = left at hd
    unfold getHash
    by_cases hfirst : left < leafPosition c.firstLeaf
    · rw [if_pos hfirst, hbase left d hfirst hd]
    · rw [if_neg hfirst, hnodes, getElem?_drop,
        show leafPosition c.firstLeaf + (left - leafPosition c.firstLeaf) = left by omega, hd]

/-- Adding data to a cache appends a leaf. -/
lemma Extends.add (hc : c.Extends h baseLeaves leaves) (hbase : base.Holds h baseLeaves)
    (data : α) : ∃ c', c.add h base data = .ok c' ∧ c'.Extends h baseLeaves (leaves ++ [data]) := by
  have hle := hc.leafPosition_firstLeaf_le
  have hserves : c.Serves base (ofLeaves h leaves).hashes := by
    refine ⟨fun pos x hfirst hx => ?_, hle, hc.nodes_eq⟩
    rw [hc.getElem?_hashes hfirst] at hx
    exact hbase.hash pos x hx
  obtain ⟨nodes, hloop, hnodes⟩ := (runsParents h base).exists_addLeaf_eq hserves data rfl
  have hadd : c.add h base data = .ok
      { firstLeaf := c.firstLeaf
        leaves := c.leaves ++ [Leaf.create h leaves.length data]
        nodes := (ofLeaves h (leaves ++ [data])).hashes.drop (leafPosition c.firstLeaf) } := by
    rw [PMMRCache.add, hc.next, addLeaf, hnodes, drop_append_of_le_length hle, ← hc.nodes_eq]
    exact bind_of_eq_ok hloop _
  refine ⟨_, hadd, hc.first_le, ?_, ?_, rfl⟩
  · simp [hc.leaves_eq, Leaf.create]
  · intro i leaf hleaf
    dsimp only at hleaf ⊢
    rw [getElem?_append] at hleaf
    split at hleaf
    · exact hc.created i leaf hleaf
    · obtain ⟨hzero, rfl⟩ : i - c.leaves.length = 0 ∧ Leaf.create h leaves.length data = leaf := by
        cases hi : i - c.leaves.length with
        | zero => simpa [hi] using hleaf
        | succ n => simp [hi] at hleaf
      rw [show c.firstLeaf + i = leaves.length by rw [hc.length_eq]; omega]
      rfl

/-! ### Rewinding -/

/-- Leaves with consecutive indices before a limit. -/
lemma takeWhile_leafIndex (first : ℕ) (ls : List (Leaf D α)) (n : ℕ)
    (hc : ∀ i leaf, ls[i]? = some leaf → leaf.leafIndex = first + i) :
    ls.takeWhile (·.leafIndex < n) = ls.take (n - first) := by
  induction ls generalizing first with
  | nil => simp
  | cons leaf ls ih =>
    have hfirst : leaf.leafIndex = first := hc 0 leaf rfl
    by_cases hlt : first < n
    · have hsub : n - first = (n - (first + 1)) + 1 := by omega
      rw [takeWhile_cons_of_pos (by simpa [hfirst] using hlt), hsub, take_succ_cons, ih (first + 1)]
      intro i leaf' hleaf'
      rw [hc (i + 1) leaf' hleaf']
      omega
    · rw [takeWhile_cons_of_neg (by simpa [hfirst] using hlt),
        show n - first = 0 by omega, take_zero]

/-- Rewinding a cache leaves the first leaves, also below the first leaf of the cache. -/
lemma Extends.rewind (hc : c.Extends h baseLeaves leaves) {n : ℕ} (hn : n ≤ leaves.length) :
    (c.rewind n).Extends h baseLeaves (leaves.take n) := by
  have hfirst := hc.first_le
  have hlen := hc.length_eq
  unfold PMMRCache.rewind
  by_cases hle : n ≤ c.firstLeaf
  · rw [if_pos hle]
    have htake : leaves.take n = baseLeaves.take n := by
      have := congrArg (List.take n) hc.take_firstLeaf
      rwa [List.take_take, List.take_take, Nat.min_eq_left hle] at this
    constructor
    · exact Nat.le_trans hle hfirst
    · simp [htake]
    · simp
    · rw [List.drop_of_length_le]
      rw [Mmr.length_hashes_ofLeaves, List.length_take, Nat.min_eq_left hn]
  · have hempty : c.leaves.isEmpty = false := by
      rw [Bool.eq_false_iff]
      intro hnil
      rw [List.isEmpty_iff] at hnil
      simp [hnil] at hlen
      omega
    rw [if_neg hle, hempty]
    simp only [Bool.false_eq_true, if_false]
    rw [takeWhile_leafIndex c.firstLeaf c.leaves n hc.leafIndex]
    have hcut : ∀ (i : ℕ) leaf, (c.leaves.take (n - c.firstLeaf))[i]? = some leaf →
        c.leaves[i]? = some leaf := by
      intro i leaf hleaf
      rw [List.getElem?_take] at hleaf
      split at hleaf
      · exact hleaf
      · cases hleaf
    have hnext : getNextLeafIdx { c with leaves := c.leaves.take (n - c.firstLeaf) } = n := by
      rw [getNextLeafIdx_eq (c := { c with leaves := c.leaves.take (n - c.firstLeaf) })
        fun i leaf hleaf => hc.leafIndex i leaf (hcut i leaf hleaf)]
      dsimp only
      rw [List.length_take]
      omega
    rw [hnext]
    constructor
    · exact hfirst
    · rw [hc.leaves_eq, List.take_append, List.length_take, Nat.min_eq_left hfirst,
        List.take_of_length_le (by rw [List.length_take]; omega), List.map_take]
    · intro i leaf hleaf
      exact hc.created i leaf (hcut i leaf hleaf)
    · have hrange := congrArg Mmr.hashes (Mmr.rewind_ofLeaves h leaves hn)
      dsimp only at hrange ⊢
      rw [← hrange, hc.nodes_eq, Mmr.rewind, List.drop_take]

/-! ### Flushing into a cache -/

/-- A cache takes over the leaves of the cache on top of it. -/
lemma Extends.batchWrite {top : PMMRCache D α} {leaves' : List α}
    (hc : c.Extends h baseLeaves leaves) (hbase : base.Holds h baseLeaves)
    (htop : top.Extends h leaves leaves') :
    ∃ c', c.batchWrite h base top.firstLeaf top.leaves = .ok c' ∧
      c'.Extends h baseLeaves leaves' := by
  have hloop (ls : List (Leaf D α)) : ∀ {c : PMMRCache D α} {leaves : List α},
      c.Extends h baseLeaves leaves →
        ∃ c', ls.foldlM (fun c leaf => c.add h base leaf.data) c = .ok c' ∧
          c'.Extends h baseLeaves (leaves ++ ls.map Leaf.data) := by
    induction ls with
    | nil => exact fun hc => ⟨_, rfl, by simpa using hc⟩
    | cons leaf ls ih =>
      intro c leaves hc
      obtain ⟨c₁, hadd, hc₁⟩ := hc.add hbase leaf.data
      obtain ⟨c', hrest, hc'⟩ := ih hc₁
      refine ⟨c', foldlM_cons_eq_ok.mpr ⟨c₁, hadd, hrest⟩, ?_⟩
      simpa using hc'
  obtain ⟨c', hwrite, hc'⟩ := hloop top.leaves (hc.rewind htop.first_le)
  refine ⟨c', hwrite, ?_⟩
  rwa [htop.leaves_eq]

end PMMRCache

end Mw

end Aegisum
