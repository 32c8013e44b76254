import Mathlib.Algebra.Group.Nat.Defs
import Mathlib.Data.List.Basic

/-!
# Merkle mountain ranges

The append-only hash structure over outputs and kernels: `mmr::Index`, `MMRUtil` and the
`AddLeaf`, `Rewind` and `Root` of the MMR classes.  The nodes of all trees are stored in one
list in postorder, and a node's place in its tree is recovered from its position alone.

A memory MMR, a cached one and a file-backed one store the same hashes; only the hashes are
modelled here.
-/

namespace Aegisum

namespace Mw

/-! ### Positions -/

/-- Count set bits among the lowest `bits` bits. -/
def countBitsSetLoop : ℕ → ℕ → ℕ
  | 0, _ => 0
  | bits + 1, n => n % 2 + countBitsSetLoop bits (n / 2)

/-- The number of set bits. -/
def countBitsSet (input : ℕ) : ℕ := countBitsSetLoop (input.log2 + 1) input

/-- The highest set bit of a 64-bit number and all bits right of it. -/
def fillOnesToRight (input : ℕ) : ℕ :=
  let x := input ||| input >>> 1
  let x := x ||| x >>> 2
  let x := x ||| x >>> 4
  let x := x ||| x >>> 8
  let x := x ||| x >>> 16
  x ||| x >>> 32

/-- The number `k` for which `FillOnesToRight` is `2 ^ k - 1`: the highest set bit and all
bits right of it.  The loops below halve such a peak size until it is zero. -/
def peakBits (input : ℕ) : ℕ := if input = 0 then 0 else input.log2 + 1

/-- The loop of `CalculateHeight`, for the peak sizes `2 ^ k - 1, …, 3, 1`. -/
def calculateHeightLoop : ℕ → ℕ → ℕ
  | 0, height => height
  | k + 1, height =>
    calculateHeightLoop k
      (if height ≥ 2 ^ (k + 1) - 1 then height - (2 ^ (k + 1) - 1) else height)

/-- The height of the node at a position. -/
def calculateHeight (position : ℕ) : ℕ := calculateHeightLoop (peakBits position) position

/-- The loop of `CalculateLeafIndex`, for the peak sizes `2 ^ k - 1, …, 3, 1`. -/
def calculateLeafIndexLoop : ℕ → ℕ → ℕ → ℕ
  | 0, leafIndex, _ => leafIndex
  | k + 1, leafIndex, numLeft =>
    if numLeft ≥ 2 ^ (k + 1) - 1 then
      calculateLeafIndexLoop k (leafIndex + (2 ^ (k + 1) - 1 + 1) / 2) (numLeft - (2 ^ (k + 1) - 1))
    else calculateLeafIndexLoop k leafIndex numLeft

/-- The number of leaves before a position. -/
def calculateLeafIndex (position : ℕ) : ℕ :=
  calculateLeafIndexLoop (peakBits position) 0 position

/-- A node of the range: its postorder position and its height. -/
structure Index where
  position : ℕ
  height : ℕ
deriving DecidableEq

namespace Index

/-- The node at a position. -/
def ofPosition (position : ℕ) : Index := ⟨position, calculateHeight position⟩

/-- The node is a leaf. -/
def isLeaf (i : Index) : Bool := i.height == 0

/-- The node after this one. -/
def getNext (i : Index) : Index := ofPosition (i.position + 1)

/-- The parent of a node.  It follows a right child directly, and a left child after the nodes of
the right one. -/
def getParent (i : Index) : Index :=
  if calculateHeight (i.position + 1) = i.height + 1 then ⟨i.position + 1, i.height + 1⟩
  else ⟨i.position + 2 ^ (i.height + 1), i.height + 1⟩

/-- The other child of the parent. -/
def getSibling (i : Index) : Index :=
  if calculateHeight (i.position + 1) = i.height + 1 then
    ⟨i.position + 1 - 2 ^ (i.height + 1), i.height⟩
  else ⟨i.position + 2 ^ (i.height + 1) - 1, i.height⟩

/-- The left child of an inner node. -/
def getLeftChild (i : Index) : Index := ⟨i.position - 2 ^ i.height, i.height - 1⟩

/-- The right child of an inner node. -/
def getRightChild (i : Index) : Index := ⟨i.position - 1, i.height - 1⟩

lemma getNext_ofPosition_length {D : Type} (hashes : List D) (d : D) :
    (ofPosition hashes.length).getNext = ofPosition (hashes ++ [d]).length := by
  simp [getNext, ofPosition]

end Index

/-- The position of the leaf with the given index. -/
def leafPosition (leafIndex : ℕ) : ℕ := 2 * leafIndex - countBitsSet leafIndex

/-- The loop of `CalcPeakIndices`, for the peak sizes `2 ^ k - 1, …, 3, 1`. -/
def calcPeakIndicesLoop : ℕ → ℕ → ℕ → List ℕ
  | 0, _, _ => []
  | k + 1, sumPrevPeaks, numLeft =>
    if numLeft ≥ 2 ^ (k + 1) - 1 then
      (sumPrevPeaks + (2 ^ (k + 1) - 1) - 1) ::
        calcPeakIndicesLoop k (sumPrevPeaks + (2 ^ (k + 1) - 1)) (numLeft - (2 ^ (k + 1) - 1))
    else calcPeakIndicesLoop k sumPrevPeaks numLeft

/-- The positions of the peaks of a range with the given number of nodes. -/
def calcPeakIndices (numNodes : ℕ) : List ℕ :=
  calcPeakIndicesLoop (peakBits numNodes) 0 numNodes

/-! ### The range -/

/-- How leaves and inner nodes are hashed. -/
structure MmrHasher (D α : Type) where
  leafHash : ℕ → α → D
  parentHash : ℕ → D → D → D
  zero : D

/-- A Merkle mountain range: all node hashes by position, and the leaf data by leaf index. -/
structure Mmr (D α : Type) where
  hashes : List D
  leaves : List α
deriving DecidableEq

namespace Mmr

variable {D α : Type} (h : MmrHasher D α)

/-- The range without leaves. -/
def empty : Mmr D α := ⟨[], []⟩

/-- The number of leaves. -/
def getNumLeaves (m : Mmr D α) : ℕ := m.leaves.length

/-- The number of nodes. -/
def getNumNodes (m : Mmr D α) : ℕ := leafPosition m.getNumLeaves

/-- Append the parents that a new leaf completes.  `rightHash` is the hash appended last. -/
def addParents : ℕ → List D → D → Index → List D
  | 0, hashes, _, _ => hashes
  | fuel + 1, hashes, rightHash, nextIdx =>
    if nextIdx.isLeaf then hashes
    else
      let leftHash := hashes.getD nextIdx.getLeftChild.position h.zero
      let parent := h.parentHash nextIdx.position leftHash rightHash
      addParents fuel (hashes ++ [parent]) parent nextIdx.getNext

/-- Append a leaf. -/
def addLeaf (m : Mmr D α) (data : α) : Mmr D α :=
  let position := leafPosition m.leaves.length
  let leafHash := h.leafHash position data
  { hashes := addParents h (m.leaves.length + 1) (m.hashes ++ [leafHash]) leafHash
      (Index.ofPosition (position + 1))
    leaves := m.leaves ++ [data] }

/-- Shrink the range to its first leaves. -/
def rewind (m : Mmr D α) (numLeaves : ℕ) : Mmr D α :=
  { hashes := m.hashes.take (leafPosition numLeaves)
    leaves := m.leaves.take numLeaves }

/-- Bag the peaks from the right.  A zero hash counts as "nothing bagged yet". -/
def bagPeaks [DecidableEq D] (numNodes : ℕ) (hashes : List D) (peaks : List ℕ) : D :=
  peaks.reverse.foldl
    (fun hash peak =>
      let peakHash := hashes.getD peak h.zero
      if hash = h.zero then peakHash else h.parentHash numNodes peakHash hash)
    h.zero

/-- The root of the range. -/
def root [DecidableEq D] (m : Mmr D α) : D :=
  bagPeaks h m.getNumNodes m.hashes (calcPeakIndices m.getNumNodes)

@[simp] lemma addLeaf_leaves (m : Mmr D α) (data : α) :
    (m.addLeaf h data).leaves = m.leaves ++ [data] := rfl

end Mmr

end Mw

end Aegisum
