import Aegisum.Mweb.BitSet
import Aegisum.Mweb.MmrCache
import Aegisum.Mweb.MmrRoot

/-!
# Pruned nodes

`BuildCompactBitSet`, `DiffCompactBitSet` and `CalcPrunedParents`.  They go through the nodes of an
MMR height by height, from left to right, and mark a node when both its children are marked.  What
they return is described by the leaves under a node.
-/

namespace Aegisum

namespace Mw

open BitSet

/-! ### Nodes of one height -/

/-- The loop of `CountRightmostZeros`. -/
def countRightmostZerosLoop : ℕ → ℕ → ℕ
  | 0, _ => 0
  | fuel + 1, n => if n % 2 = 0 then countRightmostZerosLoop fuel (n / 2) + 1 else 0

/-- The number of zeros after the last set bit. -/
def countRightmostZeros (input : ℕ) : ℕ := countRightmostZerosLoop input input

/-- The iterator over the nodes of one height. -/
structure SiblingIter where
  height : ℕ
  lastNode : ℕ
  baseInc : ℕ
  siblingNum : ℕ
  position : ℕ

namespace SiblingIter

/-- Start before the first node. -/
def new (height lastNode : ℕ) : SiblingIter := ⟨height, lastNode, 2 * 2 ^ height - 1, 0, 0⟩

/-- Go to the next node, and say whether it is there. -/
def next (it : SiblingIter) : Bool × SiblingIter :=
  let position :=
    if it.siblingNum = 0 then it.baseInc - 1
    else it.position + (it.baseInc + countRightmostZeros it.siblingNum)
  (decide (position ≤ it.lastNode),
    { it with
      siblingNum := it.siblingNum + 1
      position := position })

end SiblingIter

section Loops

variable {σ : Type} (visit : σ → Index → σ)

/-- Visit the nodes of one height. -/
def forSiblings : ℕ → SiblingIter → σ → σ
  | 0, _, s => s
  | fuel + 1, it, s =>
    let (found, it') := it.next
    if found then forSiblings fuel it' (visit s ⟨it'.position, it'.height⟩) else s

/-- Visit the inner nodes height by height.  There are at most as many nodes as positions. -/
def forHeights (limit lastNode : ℕ) : ℕ → ℕ → σ → σ
  | 0, _, s => s
  | fuel + 1, height, s =>
    if 2 * 2 ^ height - 2 ≤ limit then
      forHeights limit lastNode fuel (height + 1)
        (forSiblings visit (lastNode + 2) (.new height lastNode) s)
    else s

end Loops

/-! ### The functions -/

/-- Set the bits of the leaves with a property. -/
def markLeaves (spent : ℕ → Bool) (numLeaves : ℕ) (bits : BitSet) : BitSet :=
  (List.range numLeaves).foldl
    (fun bits leafIdx => if spent leafIdx then bits.set (leafPosition leafIdx) true else bits) bits

/-- If both children of a node can be pruned, so can the node, and the children are not needed. -/
def visitPrunable (s : BitSet × BitSet) (node : Index) : BitSet × BitSet :=
  if s.1.test node.getRightChild.position && s.1.test node.getLeftChild.position then
    (s.1.set node.position true,
      (s.2.set node.getRightChild.position true).set node.getLeftChild.position true)
  else s

/-- The nodes that need not be kept for the given unspent leaves. -/
def buildCompactBitSet (numLeaves : ℕ) (unspentLeafIndices : BitSet) : BitSet :=
  let spent leafIdx :=
    decide (unspentLeafIndices.size > leafIdx) && !unspentLeafIndices.test leafIdx
  let prunableNodes := markLeaves spent numLeaves (.ofSize (numLeaves * 2))
  let nextLeaf := leafPosition numLeaves
  (forHeights visitPrunable nextLeaf (nextLeaf - 1) (nextLeaf + 1) 1
    (prunableNodes, .ofSize (numLeaves * 2))).2

/-- One node of `DiffCompactBitSet`. -/
def diffStep (prevCompact newCompact diff : BitSet) (i : ℕ) : Except ViewError BitSet :=
  if prevCompact.test i then
    if newCompact.test i then .ok diff else .error .assertionFailure
  else .ok ⟨diff.bits ++ [newCompact.test i]⟩

/-- The bits of the nodes that were not compacted before. -/
def diffCompactBitSet (prevCompact newCompact : BitSet) : Except ViewError BitSet :=
  (List.range newCompact.size).foldlM (diffStep prevCompact newCompact) ⟨[]⟩

/-- If both children of a node are pruned, the node takes their place. -/
def visitPruned (ret : BitSet) (node : Index) : BitSet :=
  if ret.test node.getRightChild.position && ret.test node.getLeftChild.position then
    ((ret.set node.getRightChild.position false).set node.getLeftChild.position false).set
      node.position true
  else ret

/-- The nodes from which, with the unspent leaves, all nodes can be computed. -/
def calcPrunedParents (unspentLeafIndices : BitSet) : BitSet :=
  let numLeaves := unspentLeafIndices.size
  let leaves := markLeaves (fun leafIdx => !unspentLeafIndices.test leafIdx) numLeaves
    (.ofSize (numLeaves * 2))
  let lastNode := leafPosition numLeaves
  forHeights visitPruned lastNode lastNode (lastNode + 1) 1 leaves

/-! ### What the loops visit -/

lemma setBits_add_countRightmostZerosLoop (fuel n : ℕ) (hn : n + 1 ≤ fuel) :
    setBits (n + 1) + countRightmostZerosLoop fuel (n + 1) = setBits n + 1 := by
  induction fuel generalizing n with
  | zero => omega
  | succ fuel ih =>
    rw [countRightmostZerosLoop]
    obtain ⟨m, rfl | rfl⟩ : ∃ m, n = 2 * m ∨ n = 2 * m + 1 := ⟨n / 2, by omega⟩
    · rw [if_neg (by omega), setBits_two_mul_add_one, setBits_two_mul]
    · rw [if_pos (by omega), show 2 * m + 1 + 1 = 2 * (m + 1) by omega, setBits_two_mul,
        setBits_two_mul_add_one, Nat.mul_div_cancel_left _ (by decide), ← Nat.add_assoc,
        ih m (by omega)]

/-- The step of the iterator. -/
lemma nodePos_succ (h k : ℕ) :
    nodePos h (k + 1) = nodePos h k + (2 * 2 ^ h - 1 + countRightmostZeros (k + 1)) := by
  have hbits := setBits_add_countRightmostZerosLoop (k + 1) k (Nat.le_refl _)
  have hstep := nodePos_succ_add h k
  rw [Nat.pow_succ'] at hstep
  rw [countRightmostZeros]
  omega

lemma nodePos_zero_right (h : ℕ) : nodePos h 0 = 2 * 2 ^ h - 2 := by
  rw [nodePos, setBits_zero, Nat.pow_succ']
  omega

/-- The iterator before the `k`-th node. -/
structure SiblingIter.Before (it : SiblingIter) (h last k : ℕ) : Prop where
  height : it.height = h
  lastNode : it.lastNode = last
  baseInc : it.baseInc = 2 * 2 ^ h - 1
  siblingNum : it.siblingNum = k
  position : ∀ j, k = j + 1 → it.position = nodePos h j

lemma SiblingIter.Before.next {it : SiblingIter} {h last k : ℕ} (hit : it.Before h last k) :
    it.next.1 = decide (nodePos h k ≤ last) ∧ it.next.2.Before h last (k + 1) ∧
      it.next.2.position = nodePos h k := by
  have hpos : (if it.siblingNum = 0 then it.baseInc - 1
      else it.position + (it.baseInc + countRightmostZeros it.siblingNum)) = nodePos h k := by
    rw [hit.siblingNum, hit.baseInc]
    cases k with
    | zero =>
      rw [if_pos rfl, nodePos_zero_right]
      omega
    | succ k => rw [if_neg (Nat.succ_ne_zero k), hit.position k rfl, nodePos_succ]
  rw [SiblingIter.next, hpos, hit.lastNode]
  refine ⟨rfl, ⟨hit.height, rfl, hit.baseInc, ?_, fun j hj => ?_⟩, rfl⟩
  · dsimp only
    rw [hit.siblingNum]
  · rw [Nat.succ_injective hj]

section Rules

variable {σ : Type} {visit : σ → Index → σ}

/-- Whatever every visit keeps holds after all nodes of a height were visited. -/
lemma forSiblings_rule {h last count : ℕ} (hcount : ∀ k, nodePos h k ≤ last ↔ k < count)
    (I : ℕ → σ → Prop) (hvisit : ∀ k s, k < count → I k s → I (k + 1) (visit s ⟨nodePos h k, h⟩))
    (fuel : ℕ) {it : SiblingIter} {k : ℕ} (hit : it.Before h last k) (hk : k ≤ count)
    (hfuel : count < k + fuel) {s : σ} (hs : I k s) : I count (forSiblings visit fuel it s) := by
  induction fuel generalizing it k s with
  | zero => omega
  | succ fuel ih =>
    obtain ⟨hfound, hnext, hpos⟩ := hit.next
    rw [forSiblings]
    simp only [hfound, hpos, hnext.height]
    by_cases hlast : nodePos h k ≤ last
    · have hlt := (hcount k).mp hlast
      rw [decide_eq_true hlast, if_pos rfl]
      exact ih hnext hlt (by omega) (hvisit k s hlt hs)
    · rw [decide_eq_false hlast, if_neg Bool.false_ne_true]
      have hend := mt (hcount k).mpr hlast
      obtain rfl : k = count := by omega
      exact hs

/-- Whatever every visit keeps holds after all inner nodes over `n` leaves were visited.  `I h k` is
for the state after the first `k` nodes of height `h`. -/
lemma forHeights_rule {n limit last : ℕ} (hlimit : ∀ h, 1 ≤ h → (2 * 2 ^ h - 2 ≤ limit ↔ 2 ^ h ≤ n))
    (hlast : ∀ h k, 1 ≤ h → (nodePos h k ≤ last ↔ k < n / 2 ^ h)) (I : ℕ → ℕ → σ → Prop)
    (hvisit : ∀ h k s, k < n / 2 ^ (h + 1) → I (h + 1) k s →
      I (h + 1) (k + 1) (visit s ⟨nodePos (h + 1) k, h + 1⟩))
    (hnext : ∀ h s, I h (n / 2 ^ h) s → I (h + 1) 0 s) (fuel : ℕ) {h : ℕ} (hh : 1 ≤ h)
    (hfuel : n < 2 ^ (h + fuel)) {s : σ} (hs : I h 0 s) :
    ∃ h', n < 2 ^ h' ∧ I h' 0 (forHeights visit limit last fuel h s) := by
  induction fuel generalizing h s with
  | zero => exact ⟨h, hfuel, hs⟩
  | succ fuel ih =>
    rw [forHeights]
    by_cases hle : 2 ^ h ≤ n
    · rw [if_pos ((hlimit h hh).mpr hle)]
      have hcount : n / 2 ^ h ≤ last + 1 := by
        by_contra hlt
        have hpos := (hlast h (last + 1) hh).mpr (by omega)
        have hmono : ∀ k, k ≤ nodePos h k := by
          intro k
          induction k with
          | zero => exact Nat.zero_le _
          | succ k ihk =>
            have := nodePos_succ h k
            have := Nat.two_pow_pos h
            omega
        have := hmono (last + 1)
        omega
      have hnew : (SiblingIter.new h last).Before h last 0 :=
        ⟨rfl, rfl, rfl, rfl, fun j hj => by omega⟩
      refine ih (Nat.le_succ_of_le hh) (by rw [Nat.succ_add]; exact hfuel) (hnext h _ ?_)
      obtain ⟨h, rfl⟩ := Nat.exists_eq_add_of_le' hh
      exact forSiblings_rule (fun k => hlast _ k hh) (I _) (hvisit h) (last + 2) hnew
        (Nat.zero_le _) (by omega) hs
    · rw [if_neg (mt (hlimit h hh).mp hle)]
      exact ⟨h, Nat.lt_of_not_le hle, hs⟩

end Rules

lemma nodePos_ne_leafPosition {h : ℕ} (hh : 1 ≤ h) (k n : ℕ) : nodePos h k ≠ leafPosition n := by
  rw [leafPosition_eq_nodePos]
  intro heq
  have := (nodePos_inj heq).1
  omega

lemma nodePos_le_leafPosition_iff {h : ℕ} (hh : 1 ≤ h) (k n : ℕ) :
    nodePos h k ≤ leafPosition n ↔ k < n / 2 ^ h := by
  have hne := nodePos_ne_leafPosition hh k n
  rw [← nodePos_lt_iff_lt_div, ← leafPosition_eq_nodePos]
  omega

lemma le_leafPosition_iff {h : ℕ} (hh : 1 ≤ h) (n : ℕ) :
    2 * 2 ^ h - 2 ≤ leafPosition n ↔ 2 ^ h ≤ n := by
  rw [← nodePos_zero_right, nodePos_le_leafPosition_iff hh, Nat.div_pos_iff]
  exact and_iff_right (Nat.two_pow_pos h)

lemma lt_two_pow_leafPosition (n : ℕ) : n < 2 ^ (1 + (leafPosition n + 1)) := by
  have hle : n ≤ leafPosition n := by
    have := nodePos_zero_add n
    have := setBits_le n
    rw [leafPosition_eq_nodePos]
    omega
  calc n < 2 ^ n := Nat.lt_two_pow_self
    _ ≤ 2 ^ (1 + (leafPosition n + 1)) := Nat.pow_le_pow_right (by decide) (by omega)

/-- Positions of nodes fit into two bits for every leaf. -/
lemma nodePos_lt_mul_two {h k n : ℕ} (hlt : k < n / 2 ^ h) : nodePos h k < n * 2 := by
  have hpos := (nodePos_lt_iff_lt_div h k n).mpr hlt
  have := nodePos_zero_add n
  omega

/-! ### Leaves -/

lemma markLeaves_spec (spent : ℕ → Bool) (n : ℕ) :
    (markLeaves spent n (.ofSize (n * 2))).size = n * 2 ∧
      ∀ e k, (markLeaves spent n (.ofSize (n * 2))).test (nodePos e k) = true ↔
        e = 0 ∧ k < n ∧ spent k = true := by
  have hloop : ∀ m ≤ n, (markLeaves spent m (.ofSize (n * 2))).size = n * 2 ∧
      ∀ e k, (markLeaves spent m (.ofSize (n * 2))).test (nodePos e k) = true ↔
        e = 0 ∧ k < m ∧ spent k = true := by
    intro m hm
    induction m with
    | zero => exact ⟨size_ofSize _, fun e k => by simp [markLeaves]⟩
    | succ m ih =>
      obtain ⟨hsize, htest⟩ := ih (Nat.le_of_succ_le hm)
      have hsucc : markLeaves spent (m + 1) (.ofSize (n * 2)) =
          if spent m then (markLeaves spent m (.ofSize (n * 2))).set (leafPosition m) true
          else markLeaves spent m (.ofSize (n * 2)) := by
        rw [markLeaves, List.range_succ, List.foldl_append, List.foldl_cons, List.foldl_nil]
        rfl
      have hlt : leafPosition m < n * 2 := by
        rw [leafPosition_eq_nodePos]
        exact nodePos_lt_mul_two (by rw [Nat.pow_zero, Nat.div_one]; omega)
      rw [hsucc]
      split
      case isTrue hspent =>
        refine ⟨by rw [size_set, hsize], fun e k => ?_⟩
        rw [test_set, hsize, leafPosition_eq_nodePos]
        by_cases heq : nodePos e k = nodePos 0 m
        · obtain ⟨rfl, rfl⟩ := nodePos_inj heq
          rw [if_pos ⟨rfl, by rwa [← leafPosition_eq_nodePos]⟩]
          simp [hspent]
        · rw [if_neg fun h => heq h.1, htest]
          refine and_congr_right fun he => and_congr_left fun _ => ?_
          have : k ≠ m := fun hk => heq (by rw [he, hk])
          omega
      case isFalse hspent =>
        refine ⟨hsize, fun e k => (htest e k).trans ?_⟩
        refine and_congr_right fun _ => and_congr_left fun hk => ?_
        have : k ≠ m := fun heq => hspent (heq ▸ hk)
        omega
  exact hloop n (Nat.le_refl n)

/-! ### Inner nodes -/

/-- The first `k` nodes of height `h` and all nodes of smaller height. -/
def Visited (h k e j : ℕ) : Prop := e < h ∨ e = h ∧ j < k

lemma visited_succ {h k e j : ℕ} : Visited h (k + 1) e j ↔ Visited h k e j ∨ e = h ∧ j = k := by
  rw [Visited, Visited]
  omega

lemma visited_next {n h e j : ℕ} (hj : j < n / 2 ^ e) :
    Visited h (n / 2 ^ h) e j ↔ Visited (h + 1) 0 e j := by
  rw [Visited, Visited]
  constructor
  · omega
  · intro hvisited
    by_cases heq : e = h
    · subst heq
      exact .inr ⟨rfl, hj⟩
    · omega

section Marked

variable {n : ℕ} {spent : ℕ → Prop} {h k : ℕ}

/-- A node that was visited and has only spent leaves under it. -/
def Marked (n : ℕ) (spent : ℕ → Prop) (h k e j : ℕ) : Prop :=
  Visited h k e j ∧ AllLeaves n spent e j

lemma marked_succ (hall : AllLeaves n spent h k) {e j : ℕ} :
    Marked n spent h (k + 1) e j ↔ Marked n spent h k e j ∨ e = h ∧ j = k := by
  rw [Marked, Marked, visited_succ, or_and_right]
  refine or_congr_right (and_iff_left_of_imp ?_)
  rintro ⟨rfl, rfl⟩
  exact hall

lemma marked_succ_of_not (hall : ¬ AllLeaves n spent h k) {e j : ℕ} :
    Marked n spent h (k + 1) e j ↔ Marked n spent h k e j := by
  rw [Marked, Marked, visited_succ, or_and_right]
  refine or_iff_left ?_
  rintro ⟨⟨rfl, rfl⟩, hleaves⟩
  exact hall hleaves

lemma marked_next {e j : ℕ} : Marked n spent h (n / 2 ^ h) e j ↔ Marked n spent (h + 1) 0 e j :=
  and_congr_left fun hall => visited_next hall.lt_div

lemma not_marked_self {e j : ℕ} (he : h ≤ e) (hj : k ≤ j) : ¬ Marked n spent h k e j := by
  rintro ⟨hvisited, -⟩
  rw [Visited] at hvisited
  omega

/-- Before the inner nodes are visited the spent leaves are marked. -/
lemma test_markLeaves {isSpent : ℕ → Bool} (hspent : ∀ k < n, isSpent k = true ↔ spent k)
    (e j : ℕ) :
    (markLeaves isSpent n (.ofSize (n * 2))).test (nodePos e j) = true ↔
      Marked n spent 1 0 e j := by
  rw [(markLeaves_spec isSpent n).2]
  constructor
  · rintro ⟨rfl, hj, hset⟩
    exact ⟨.inl Nat.one_pos, allLeaves_zero.mpr ⟨hj, (hspent j hj).mp hset⟩⟩
  · rintro ⟨hvisited, hall⟩
    rw [Visited] at hvisited
    obtain rfl : e = 0 := by omega
    obtain ⟨hj, hset⟩ := allLeaves_zero.mp hall
    exact ⟨rfl, hj, (hspent j hj).mpr hset⟩

/-- Setting the bits of the two children of a node. -/
lemma test_set_children {bits : BitSet} (hsize : bits.size = n * 2)
    (hall : AllLeaves n spent (h + 1) k) (value : Bool) (e j : ℕ) :
    ((bits.set (nodePos h (2 * k + 1)) value).set (nodePos h (2 * k)) value).test (nodePos e j) =
      if e = h ∧ j / 2 = k then value else bits.test (nodePos e j) := by
  have hleft : nodePos h (2 * k) < n * 2 := nodePos_lt_mul_two (allLeaves_succ.mp hall).1.lt_div
  have hright : nodePos h (2 * k + 1) < n * 2 :=
    nodePos_lt_mul_two (allLeaves_succ.mp hall).2.lt_div
  rw [test_set, test_set, size_set, hsize]
  by_cases heq : e = h ∧ j / 2 = k
  · rw [if_pos heq]
    obtain ⟨rfl, rfl⟩ := heq
    obtain hj | hj : j = 2 * (j / 2) ∨ j = 2 * (j / 2) + 1 := by omega
    · rw [if_pos ⟨by rw [← hj], hleft⟩]
    · rw [← hj] at hright ⊢
      simp [hright]
  · have hne : ∀ i, i / 2 = k → nodePos e j ≠ nodePos h i := by
      rintro i rfl hpos
      obtain ⟨rfl, rfl⟩ := nodePos_inj hpos
      exact heq ⟨rfl, rfl⟩
    rw [if_neg heq, if_neg fun hset => hne (2 * k) (by omega) hset.1,
      if_neg fun hset => hne (2 * k + 1) (by omega) hset.1]

/-- Setting the bit of a node. -/
lemma test_set_node {bits : BitSet} (hsize : bits.size = n * 2) (hk : k < n / 2 ^ h)
    (value : Bool) (e j : ℕ) :
    (bits.set (nodePos h k) value).test (nodePos e j) =
      if e = h ∧ j = k then value else bits.test (nodePos e j) := by
  rw [test_set, hsize]
  refine if_congr ⟨fun hset => nodePos_inj hset.1, ?_⟩ rfl rfl
  rintro ⟨rfl, rfl⟩
  exact ⟨rfl, nodePos_lt_mul_two hk⟩

end Marked

section Compact

variable {n : ℕ} {spent : ℕ → Prop}

/-- The bits of `BuildCompactBitSet` after some nodes were visited. -/
structure CompactState (n : ℕ) (spent : ℕ → Prop) (h k : ℕ) (s : BitSet × BitSet) : Prop where
  prunable_size : s.1.size = n * 2
  compactable_size : s.2.size = n * 2
  prunable : ∀ e j, s.1.test (nodePos e j) = true ↔ Marked n spent h k e j
  compactable : ∀ e j, s.2.test (nodePos e j) = true ↔ Marked n spent h k (e + 1) (j / 2)

/-- Visiting a node: its children are marked if and only if all leaves under it are spent. -/
lemma CompactState.visit {h k : ℕ} {s : BitSet × BitSet} (hs : CompactState n spent (h + 1) k s)
    (hk : k < n / 2 ^ (h + 1)) :
    CompactState n spent (h + 1) (k + 1) (visitPrunable s ⟨nodePos (h + 1) k, h + 1⟩) := by
  rw [visitPrunable, getRightChild_nodePos, getLeftChild_nodePos]
  have hchild : ∀ j, s.1.test (nodePos h j) = true ↔ AllLeaves n spent h j := fun j =>
    (hs.prunable h j).trans (and_iff_right (.inl (Nat.lt_succ_self h)))
  have hmarked : (s.1.test (nodePos h (2 * k + 1)) && s.1.test (nodePos h (2 * k))) = true ↔
      AllLeaves n spent (h + 1) k := by
    rw [Bool.and_eq_true, hchild, hchild, allLeaves_succ, and_comm]
  by_cases hall : AllLeaves n spent (h + 1) k
  · rw [if_pos (hmarked.mpr hall)]
    refine ⟨by simp [hs.prunable_size], by simp [hs.compactable_size], fun e j => ?_, fun e j => ?_⟩
    · rw [test_set_node hs.prunable_size hk, marked_succ hall, ← hs.prunable]
      split
      case isTrue heq => simp [heq]
      case isFalse heq => simp [heq]
    · rw [test_set_children hs.compactable_size hall, marked_succ hall, ← hs.compactable]
      split
      case isTrue heq => simp [heq]
      case isFalse heq => simp [heq]
  · rw [if_neg (mt hmarked.mp hall)]
    exact ⟨hs.prunable_size, hs.compactable_size,
      fun e j => (hs.prunable e j).trans (marked_succ_of_not hall).symm,
      fun e j => (hs.compactable e j).trans (marked_succ_of_not hall).symm⟩

lemma CompactState.next {h : ℕ} {s : BitSet × BitSet} (hs : CompactState n spent h (n / 2 ^ h) s) :
    CompactState n spent (h + 1) 0 s :=
  ⟨hs.prunable_size, hs.compactable_size, fun e j => (hs.prunable e j).trans marked_next,
    fun e j => (hs.compactable e j).trans marked_next⟩

lemma lt_of_allLeaves {h h' k : ℕ} (hall : AllLeaves n spent h k) (hn : n < 2 ^ h') : h < h' := by
  have hle : 2 ^ h ≤ n := Nat.le_trans (Nat.le_mul_of_pos_left _ (Nat.succ_pos k)) hall.1
  exact (Nat.pow_lt_pow_iff_right (by decide)).mp (Nat.lt_of_le_of_lt hle hn)

end Compact

/-- The leaf is one that the bit string has as spent. -/
def BitSet.Spent (unspentLeafIndices : BitSet) (leafIdx : ℕ) : Prop :=
  leafIdx < unspentLeafIndices.size ∧ unspentLeafIndices.test leafIdx = false

/-- A node is compacted if and only if its parent is a node and all leaves under the parent are
spent. -/
lemma test_buildCompactBitSet (n : ℕ) (unspent : BitSet) (e k : ℕ) :
    (buildCompactBitSet n unspent).test (nodePos e k) = true ↔
      AllLeaves n unspent.Spent (e + 1) (k / 2) := by
  have hstart : CompactState n unspent.Spent 1 0
      (markLeaves (fun leafIdx => decide (unspent.size > leafIdx) && !unspent.test leafIdx) n
        (.ofSize (n * 2)), .ofSize (n * 2)) := by
    refine ⟨(markLeaves_spec _ n).1, size_ofSize _,
      test_markLeaves fun k _ => by simp [BitSet.Spent], fun e j => ?_⟩
    rw [test_ofSize]
    exact iff_of_false Bool.false_ne_true (not_marked_self (Nat.le_add_left 1 e) (Nat.zero_le _))
  have hlast : ∀ h k, 1 ≤ h → (nodePos h k ≤ leafPosition n - 1 ↔ k < n / 2 ^ h) := by
    intro h k hh
    have hne := nodePos_ne_leafPosition hh k n
    have hpos := nodePos_ne_leafPosition hh k 0
    rw [show leafPosition 0 = 0 from rfl] at hpos
    rw [← nodePos_le_leafPosition_iff hh]
    omega
  obtain ⟨h', hn, hstate⟩ := forHeights_rule (fun h hh => le_leafPosition_iff hh n) hlast
    (CompactState n unspent.Spent) (fun h k s hk hs => hs.visit hk) (fun h s hs => hs.next)
    (leafPosition n + 1) (Nat.le_refl 1) (lt_two_pow_leafPosition n) hstart
  refine (hstate.compactable e k).trans (and_iff_right_of_imp fun hall => .inl ?_)
  exact lt_of_allLeaves hall hn

section Pruned

variable {n : ℕ} {spent : ℕ → Prop}

/-- The bits of `CalcPrunedParents` after some nodes were visited. -/
structure PrunedState (n : ℕ) (spent : ℕ → Prop) (h k : ℕ) (ret : BitSet) : Prop where
  size : ret.size = n * 2
  pruned : ∀ e j, ret.test (nodePos e j) = true ↔
    Marked n spent h k e j ∧ ¬ Marked n spent h k (e + 1) (j / 2)

/-- Visiting a node: it takes the place of its children if and only if all leaves under it are
spent. -/
lemma PrunedState.visit {h k : ℕ} {ret : BitSet} (hs : PrunedState n spent (h + 1) k ret)
    (hk : k < n / 2 ^ (h + 1)) :
    PrunedState n spent (h + 1) (k + 1) (visitPruned ret ⟨nodePos (h + 1) k, h + 1⟩) := by
  rw [visitPruned, getRightChild_nodePos, getLeftChild_nodePos]
  dsimp only
  -- the children were visited, the node was not
  have hchild : ∀ j, j / 2 = k → (ret.test (nodePos h j) = true ↔ AllLeaves n spent h j) := by
    rintro j rfl
    rw [hs.pruned, and_iff_left (not_marked_self le_rfl le_rfl)]
    exact and_iff_right (.inl (Nat.lt_succ_self h))
  have hmarked : (ret.test (nodePos h (2 * k + 1)) && ret.test (nodePos h (2 * k))) = true ↔
      AllLeaves n spent (h + 1) k := by
    rw [Bool.and_eq_true, hchild _ (by omega), hchild _ (by omega), allLeaves_succ, and_comm]
  by_cases hall : AllLeaves n spent (h + 1) k
  · rw [if_pos (hmarked.mpr hall)]
    refine ⟨by simp [hs.size], fun e j => ?_⟩
    rw [test_set_node (by simp [hs.size]) hk, test_set_children hs.size hall, marked_succ hall,
      marked_succ hall]
    split
    case isTrue heq =>
      -- the node itself
      refine iff_of_true rfl ⟨.inr heq, ?_⟩
      rw [Marked, Visited]
      omega
    case isFalse hself =>
      rw [or_iff_left hself]
      split
      case isTrue heq =>
        -- a child
        refine iff_of_false Bool.false_ne_true fun hj => hj.2 (.inr ⟨?_, heq.2⟩)
        rw [heq.1]
      case isFalse hchildren =>
        rw [hs.pruned, or_iff_left]
        omega
  · rw [if_neg (mt hmarked.mp hall)]
    exact ⟨hs.size, fun e j => by
      rw [hs.pruned, marked_succ_of_not hall, marked_succ_of_not hall]⟩

lemma PrunedState.next {h : ℕ} {ret : BitSet} (hs : PrunedState n spent h (n / 2 ^ h) ret) :
    PrunedState n spent (h + 1) 0 ret :=
  ⟨hs.size, fun e j => by rw [hs.pruned, marked_next, marked_next]⟩

end Pruned

/-- A node is returned if and only if all leaves under it are spent and this does not hold for its
parent, if there is one. -/
lemma test_calcPrunedParents (unspent : BitSet) (e k : ℕ) :
    (calcPrunedParents unspent).test (nodePos e k) = true ↔
      AllLeaves unspent.size unspent.Spent e k ∧
        ¬ AllLeaves unspent.size unspent.Spent (e + 1) (k / 2) := by
  have hstart : PrunedState unspent.size unspent.Spent 1 0
      (markLeaves (fun leafIdx => !unspent.test leafIdx) unspent.size
        (.ofSize (unspent.size * 2))) := by
    refine ⟨(markLeaves_spec _ _).1, fun e j => ?_⟩
    rw [and_iff_left (not_marked_self (Nat.le_add_left 1 e) (Nat.zero_le _))]
    exact test_markLeaves (fun k hk => by simp [BitSet.Spent, hk]) e j
  obtain ⟨h', hn, hstate⟩ := forHeights_rule
    (fun h hh => le_leafPosition_iff hh unspent.size)
    (fun h k hh => nodePos_le_leafPosition_iff hh k unspent.size)
    (PrunedState unspent.size unspent.Spent) (fun h k s hk hs => hs.visit hk)
    (fun h s hs => hs.next) (leafPosition unspent.size + 1) (Nat.le_refl 1)
    (lt_two_pow_leafPosition unspent.size) hstart
  have hvisited : ∀ e j, AllLeaves unspent.size unspent.Spent e j → Visited h' 0 e j :=
    fun e j hall => .inl (lt_of_allLeaves hall hn)
  refine (hstate.pruned e k).trans (and_congr ?_ (not_congr ?_))
  · exact and_iff_right_of_imp (hvisited e k)
  · exact and_iff_right_of_imp (hvisited (e + 1) (k / 2))

/-! ### Newly compacted nodes -/

/-- The loop drops the bits of the nodes that were compacted before. -/
lemma diffCompactBitSet_eq {prev new : BitSet}
    (hsub : ∀ i < new.size, prev.test i = true → new.test i = true) :
    diffCompactBitSet prev new = .ok ⟨dropMarked prev.test 0 new.bits⟩ := by
  have hloop : ∀ m ≤ new.size, (List.range m).foldlM (diffStep prev new) ⟨[]⟩ =
      .ok ⟨dropMarked prev.test 0 (new.bits.take m)⟩ := by
    intro m hm
    induction m with
    | zero => rfl
    | succ m ih =>
      have hlt : m < new.bits.length := hm
      have hbit : new.bits[m] = new.test m := by
        rw [test, List.getD_eq_getElem _ _ hlt]
      have hstep : ∀ diff, diffStep prev new diff m =
          .ok ⟨diff.bits ++ dropMarked prev.test m [new.bits[m]]⟩ := by
        intro diff
        rw [diffStep, dropMarked, dropMarked, hbit]
        by_cases hprev : prev.test m = true
        · rw [if_pos hprev, if_pos (hsub m hlt hprev), if_pos hprev, List.append_nil]
        · rw [if_neg hprev, if_neg hprev]
      rw [List.range_succ, List.foldlM_append, ih (Nat.le_of_succ_le hm),
        List.take_succ_eq_append_getElem hlt, dropMarked_append, List.length_take,
        Nat.min_eq_left (Nat.le_of_lt hlt), Nat.zero_add]
      exact bind_of_eq_ok (hstep _) _
  have hall := hloop new.size (Nat.le_refl _)
  rwa [size, List.take_length] at hall

/-- Compacted nodes stay compacted when leaves are added and spent. -/
lemma buildCompactBitSet_mono {n n' : ℕ} {unspent unspent' : BitSet} (hn : n ≤ n')
    (hspent : ∀ i < n, unspent.Spent i → unspent'.Spent i) {i : ℕ}
    (hi : (buildCompactBitSet n unspent).test i = true) :
    (buildCompactBitSet n' unspent').test i = true := by
  obtain ⟨e, k, rfl⟩ := exists_nodePos_eq i
  rw [test_buildCompactBitSet] at hi ⊢
  exact hi.mono hn hspent

/-! ### The pruning sets -/

/-- `CalcPrunedParents` returns the nodes above spent leaves only whose parent is not such a node.
`BuildCompactBitSet` marks the nodes whose parent is above spent leaves only, so that the nodes
above an unspent leaf, their siblings and the peaks are kept.  `DiffCompactBitSet` returns the new
bits of the nodes that were not marked before; it can be used when leaves were added and spent
since. -/
theorem pruning_exact :
    (∀ unspent e k, (calcPrunedParents unspent).test (nodePos e k) = true ↔
      AllLeaves unspent.size unspent.Spent e k ∧
        ¬ AllLeaves unspent.size unspent.Spent (e + 1) (k / 2)) ∧
    (∀ n unspent e k, (buildCompactBitSet n unspent).test (nodePos e k) = true ↔
      AllLeaves n unspent.Spent (e + 1) (k / 2)) ∧
    (∀ n unspent i, ¬ unspent.Spent i → ∀ e,
      (buildCompactBitSet n unspent).test (nodePos e (i / 2 ^ e)) = false ∧
        (buildCompactBitSet n unspent).test (nodePos e (siblingOf (i / 2 ^ e))) = false) ∧
    (∀ n unspent e k, (e, k) ∈ peaks n →
      (buildCompactBitSet n unspent).test (nodePos e k) = false) ∧
    (∀ prev new, (∀ i < new.size, prev.test i = true → new.test i = true) →
      ∃ diff, diffCompactBitSet prev new = .ok diff ∧
        diff.size + prev.rank new.size = new.size ∧
        ∀ i < new.size, prev.test i = false → diff.test (i - prev.rank i) = new.test i) ∧
    ∀ n n' unspent unspent', n ≤ n' → (∀ i < n, unspent.Spent i → unspent'.Spent i) →
      ∃ diff, diffCompactBitSet (buildCompactBitSet n unspent) (buildCompactBitSet n' unspent') =
        .ok diff := by
  refine ⟨test_calcPrunedParents, test_buildCompactBitSet, ?_, ?_, ?_, ?_⟩
  · intro n unspent i hi e
    have hparent : ¬ AllLeaves n unspent.Spent (e + 1) (i / 2 ^ e / 2) := by
      intro hall
      rw [Nat.div_div_eq_div_mul, ← Nat.pow_succ] at hall
      exact hi hall.of_div
    constructor
    · rw [Bool.eq_false_iff, ne_eq, test_buildCompactBitSet]
      exact hparent
    · rw [Bool.eq_false_iff, ne_eq, test_buildCompactBitSet, siblingOf_div_two]
      exact hparent
  · intro n unspent e k hmem
    rw [Bool.eq_false_iff, ne_eq, test_buildCompactBitSet]
    exact not_allLeaves_of_mem_peaks hmem
  · intro prev new hsub
    refine ⟨_, diffCompactBitSet_eq hsub, ?_, fun i hi hprev => ?_⟩
    · rw [BitSet.rank_eq_count]
      exact length_dropMarked_add prev.test new.bits
    · rw [BitSet.rank_eq_count, BitSet.test, BitSet.test, List.getD_eq_getElem?_getD,
        getElem?_dropMarked prev.test hi hprev, List.getD_eq_getElem?_getD]
  · intro n n' unspent unspent' hn hspent
    exact ⟨_, diffCompactBitSet_eq fun i _ hi => buildCompactBitSet_mono hn hspent hi⟩

/-- Of two leaves the first one is spent: it is returned, and it is a leaf. -/
theorem calcPrunedParents_spentLeaf :
    (calcPrunedParents ⟨[false, true]⟩).test 0 = true ∧ calculateHeight 0 = 0 := by
  decide +kernel

/-- Three leaves of which the second one is unspent, and five of which only the last one is. -/
theorem pruning_exact_fiveLeaves :
    ¬ (BitSet.Spent ⟨[false, true, false]⟩ 1) ∧
      (buildCompactBitSet 3 ⟨[false, true, false]⟩).test (nodePos 0 0) = false ∧
      (1, 0) ∈ peaks 3 ∧ (buildCompactBitSet 3 ⟨[false, true, false]⟩).test (nodePos 1 0) = false ∧
      ∃ diff, diffCompactBitSet (buildCompactBitSet 3 ⟨[false, true, false]⟩)
        (buildCompactBitSet 5 ⟨[false, false, false, false, true]⟩) = .ok diff := by
  obtain ⟨-, -, hkept, hpeaks, -, hdiff⟩ := pruning_exact
  have hunspent : ¬ (BitSet.Spent ⟨[false, true, false]⟩ 1) := fun h => Bool.noConfusion h.2
  have hpeak : (1, 0) ∈ peaks 3 := by decide
  refine ⟨hunspent, (hkept 3 _ 1 hunspent 0).2, hpeak, hpeaks 3 _ 1 0 hpeak, ?_⟩
  refine hdiff 3 5 _ _ (by decide) fun i hi _ => ⟨Nat.lt_of_lt_of_le hi (by decide), ?_⟩
  match i, hi with
  | 0, _ | 1, _ | 2, _ => rfl

end Mw

end Aegisum
