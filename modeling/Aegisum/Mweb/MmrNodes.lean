import Aegisum.Foundations.Postorder
import Aegisum.Mweb.Mmr

/-!
# Node arithmetic of Merkle mountain ranges

`mmr::Index` works on positions alone.  In terms of the height `h` of a node and its number `k`
among the nodes of this height, `CalculateHeight` returns `h`, parents, siblings and children are
where the steps of an index look for them, and `CalcPeakIndices` finds the nodes without a parent.
-/

namespace Aegisum

namespace Mw

/-! ### Positions -/

lemma countBitsSetLoop_eq {bits n : ℕ} (h : n < 2 ^ bits) :
    countBitsSetLoop bits n = n.bitIndices.length := by
  induction bits generalizing n with
  | zero =>
    obtain rfl : n = 0 := by simpa using h
    simp [countBitsSetLoop]
  | succ bits ih =>
    rw [Nat.pow_succ] at h
    rw [countBitsSetLoop, ih (by omega)]
    obtain ⟨k, rfl | rfl⟩ : ∃ k, n = 2 * k ∨ n = 2 * k + 1 := ⟨n / 2, by omega⟩
    · rw [Nat.bitIndices_two_mul, List.length_map]
      simp
    · have hhalf : (2 * k + 1) / 2 = k := by omega
      have hmod : (2 * k + 1) % 2 = 1 := by omega
      rw [Nat.bitIndices_two_mul_add_one, List.length_cons, List.length_map, hhalf, hmod,
        Nat.add_comm]

lemma leafPosition_eq_nodePos (n : ℕ) : leafPosition n = nodePos 0 n := by
  have hleaf := nodePos_zero_add n
  have hcount : countBitsSet n = setBits n := countBitsSetLoop_eq Nat.lt_log2_self
  rw [leafPosition, hcount]
  omega

lemma leafPosition_mono {m n : ℕ} (h : m ≤ n) : leafPosition m ≤ leafPosition n := by
  rw [leafPosition_eq_nodePos, leafPosition_eq_nodePos]
  exact nodePos_zero_strictMono.monotone h

/-- A node in the right half of a perfect tree. -/
lemma nodePos_two_pow_add {j k : ℕ} (h : ℕ) (hk : k < 2 ^ j) :
    nodePos h (2 ^ j + k) = 2 ^ (j + h + 1) - 1 + nodePos h k := by
  have hright := nodePos_add h (2 ^ j + k)
  have hleft := nodePos_add h k
  have hbits := setBits_mul_two_pow_add (k := 1) hk
  have hone : setBits 1 = 1 := by simpa using setBits_two_mul_add_one 0
  have hmul : (2 ^ j + k + 1) * 2 ^ (h + 1) = 2 ^ (j + h + 1) + (k + 1) * 2 ^ (h + 1) := by ring
  have hpos := Nat.one_le_two_pow (n := j + h + 1)
  rw [Nat.one_mul, hone] at hbits
  omega

lemma calculateHeightLoop_of_lt {k x : ℕ} (h : x < 2 ^ (k + 1) - 1) :
    calculateHeightLoop (k + 1) x = calculateHeightLoop k x := by
  rw [calculateHeightLoop, if_neg (by omega)]

lemma calculateHeightLoop_add (k x : ℕ) :
    calculateHeightLoop (k + 1) (2 ^ (k + 1) - 1 + x) = calculateHeightLoop k x := by
  rw [calculateHeightLoop, if_pos (by omega), Nat.add_sub_cancel_left]

/-- A second mountain of height `e` is followed by a node of height `e + 1`. -/
lemma calculateHeightLoop_twin (e j : ℕ) :
    calculateHeightLoop e (2 ^ (e + 1) - 1 + j) = e + 1 + j := by
  induction e generalizing j with
  | zero =>
    rw [calculateHeightLoop]
    omega
  | succ e ih =>
    have hpow : 2 ^ (e + 1 + 1) = 2 * 2 ^ (e + 1) := Nat.pow_succ'
    have hpos := Nat.one_le_two_pow (n := e + 1)
    have hsplit : 2 ^ (e + 1 + 1) - 1 + j = 2 ^ (e + 1) - 1 + (2 ^ (e + 1) - 1 + (j + 1)) := by
      omega
    rw [hsplit, calculateHeightLoop_add, ih]
    omega

/-- The loop finds the height of every node of a perfect tree. -/
lemma calculateHeightLoop_nodePos {n h k : ℕ} (hle : (k + 1) * 2 ^ h ≤ 2 ^ n) :
    calculateHeightLoop n (nodePos h k) = h := by
  have hheight : h ≤ n := by
    have hpow : 2 ^ h ≤ 2 ^ n := Nat.le_trans (Nat.le_mul_of_pos_left _ (Nat.succ_pos k)) hle
    exact (Nat.pow_le_pow_iff_right (by decide)).mp hpow
  obtain ⟨j, rfl⟩ := Nat.exists_eq_add_of_le' hheight
  have hk : k < 2 ^ j := by
    rw [Nat.pow_add] at hle
    exact Nat.le_of_mul_le_mul_right hle (Nat.two_pow_pos h)
  clear hle hheight
  induction j generalizing k with
  | zero =>
    -- the top of the tree
    obtain rfl : k = 0 := by simpa using hk
    rw [Nat.zero_add]
    cases h with
    | zero => rfl
    | succ h =>
      have hright := nodePos_right h 0
      have hsplit := nodePos_two_pow_add (j := 0) h (Nat.one_pos)
      have htop : nodePos h 0 = 2 ^ (h + 1) - 2 := by simp [nodePos]
      have hpow : 2 ≤ 2 ^ (h + 1) := Nat.le_self_pow (by omega) 2
      simp only [Nat.pow_zero, Nat.add_zero, Nat.mul_zero, Nat.zero_add] at hright hsplit
      have hpos : nodePos (h + 1) 0 = 2 ^ (h + 1) - 1 + (2 ^ (h + 1) - 1 + 0) := by omega
      rw [hpos, calculateHeightLoop_add, calculateHeightLoop_twin]
  | succ j ih =>
    have hpow : j + 1 + h = j + h + 1 := by omega
    rw [hpow]
    by_cases hleft : k < 2 ^ j
    · -- a node of the left half
      rw [calculateHeightLoop_of_lt, ih hleft]
      have hlt := (nodePos_lt_iff h k (2 ^ (j + h))).mpr (by
        rw [Nat.pow_add]
        exact Nat.mul_le_mul_right _ hleft)
      have hcount := nodePos_zero_add (2 ^ (j + h))
      have hbits : setBits (2 ^ (j + h)) = 1 := by
        have := setBits_mul_two_pow 1 (j + h)
        rwa [Nat.one_mul, show setBits 1 = 1 by simpa using setBits_two_mul_add_one 0] at this
      rw [Nat.pow_succ]
      omega
    · -- a node of the right half
      obtain ⟨k, rfl⟩ := Nat.exists_eq_add_of_le (Nat.le_of_not_lt hleft)
      have hk' : k < 2 ^ j := by
        rw [Nat.pow_succ] at hk
        omega
      rw [nodePos_two_pow_add h hk', calculateHeightLoop_add, ih hk']

lemma calculateHeight_nodePos (h k : ℕ) : calculateHeight (nodePos h k) = h := by
  apply calculateHeightLoop_nodePos
  -- the last leaf of the node comes at most at its position
  have hlast := nodePos_eq_add h k
  have hcount := nodePos_zero_add ((k + 1) * 2 ^ h - 1)
  have hbits := setBits_le ((k + 1) * 2 ^ h - 1)
  have hpos : 1 ≤ (k + 1) * 2 ^ h := Nat.mul_pos (by omega) (Nat.two_pow_pos h)
  rw [peakBits]
  split
  case isTrue hzero =>
    rw [hzero] at hlast
    rw [Nat.pow_zero]
    omega
  case isFalse hne =>
    have := Nat.lt_log2_self (n := nodePos h k)
    omega

@[simp] lemma ofPosition_nodePos (h k : ℕ) : Index.ofPosition (nodePos h k) = ⟨nodePos h k, h⟩ := by
  rw [Index.ofPosition, calculateHeight_nodePos]

@[simp] lemma getLeftChild_nodePos (h k : ℕ) :
    Index.getLeftChild ⟨nodePos (h + 1) k, h + 1⟩ = ⟨nodePos h (2 * k), h⟩ := by
  rw [Index.getLeftChild, ← nodePos_left, Nat.add_sub_cancel]
  rfl

@[simp] lemma getRightChild_nodePos (h k : ℕ) :
    Index.getRightChild ⟨nodePos (h + 1) k, h + 1⟩ = ⟨nodePos h (2 * k + 1), h⟩ := by
  rw [Index.getRightChild, ← nodePos_right, Nat.add_sub_cancel]
  rfl

/-- Right children are followed by a node of the next height, and left children are not. -/
lemma calculateHeight_next_eq_iff (h k : ℕ) :
    calculateHeight (nodePos h k + 1) = h + 1 ↔ k % 2 = 1 := by
  constructor
  · intro hheight
    obtain ⟨h', q, hnode⟩ := exists_nodePos_eq (nodePos h k + 1)
    rw [← hnode, calculateHeight_nodePos] at hheight
    subst hheight
    have hright := nodePos_right h q
    obtain ⟨-, rfl⟩ := nodePos_inj (show nodePos h k = nodePos h (2 * q + 1) by omega)
    omega
  · intro hodd
    obtain ⟨q, rfl⟩ : ∃ q, k = 2 * q + 1 := ⟨k / 2, by omega⟩
    rw [nodePos_right, calculateHeight_nodePos]

lemma getParent_nodePos (h k : ℕ) :
    Index.getParent ⟨nodePos h k, h⟩ = ⟨nodePos (h + 1) (k / 2), h + 1⟩ := by
  simp only [Index.getParent, calculateHeight_next_eq_iff]
  obtain ⟨q, rfl | rfl⟩ : ∃ q, k = 2 * q ∨ k = 2 * q + 1 := ⟨k / 2, by omega⟩
  · rw [if_neg (by omega), nodePos_left, show 2 * q / 2 = q by omega]
  · rw [if_pos (by omega), nodePos_right, show (2 * q + 1) / 2 = q by omega]

lemma getSibling_nodePos (h k : ℕ) :
    Index.getSibling ⟨nodePos h k, h⟩ = ⟨nodePos h (siblingOf k), h⟩ := by
  simp only [Index.getSibling, calculateHeight_next_eq_iff, siblingOf]
  obtain ⟨q, rfl | rfl⟩ : ∃ q, k = 2 * q ∨ k = 2 * q + 1 := ⟨k / 2, by omega⟩
  · rw [if_neg (by omega), if_pos (by omega), nodePos_left, ← nodePos_right, Nat.add_sub_cancel]
  · rw [if_pos (by omega), if_neg (by omega), nodePos_right, ← nodePos_left, Nat.add_sub_cancel,
      Nat.add_sub_cancel]

/-! ### Peaks -/

/-- The peaks over `n` leaves are nodes over them. -/
lemma le_of_mem_peaks {n e k : ℕ} (hmem : (e, k) ∈ peaks n) : (k + 1) * 2 ^ e ≤ n := by
  obtain ⟨e', he, heq⟩ := List.mem_map.mp hmem
  obtain ⟨rfl, rfl⟩ := Prod.mk.inj heq
  have hle := Nat.two_pow_le_of_mem_bitIndices he
  have hpos : 0 < n / 2 ^ e' := Nat.div_pos hle (Nat.two_pow_pos _)
  rw [Nat.sub_add_cancel hpos]
  exact Nat.div_mul_le_self _ _

lemma map_fst_peaks (n : ℕ) : (peaks n).reverse.map Prod.fst = n.bitIndices.reverse := by
  rw [List.map_reverse, peaks, List.map_map]
  exact congrArg List.reverse (List.map_id _)

/-- The loops over the peak sizes start with one that is large enough. -/
lemma lt_peakBits (n : ℕ) : ∀ t ∈ (peaks n).reverse, t.1 < peakBits (leafPosition n) := by
  intro t ht
  have hle := le_of_mem_peaks (e := t.1) (k := t.2) (List.mem_reverse.mp ht)
  have hpow : 2 ^ t.1 ≤ (t.2 + 1) * 2 ^ t.1 := Nat.le_mul_of_pos_left _ (Nat.succ_pos _)
  have hpos := Nat.two_pow_pos t.1
  have hcount := nodePos_zero_add n
  have hbits := setBits_le n
  have hne : nodePos 0 n ≠ 0 := by omega
  rw [leafPosition_eq_nodePos, peakBits, if_neg hne, Nat.lt_succ_iff, Nat.le_log2 hne]
  omega

lemma pairwise_peaks (n : ℕ) : ((peaks n).reverse.map Prod.fst).Pairwise (· > ·) := by
  rw [map_fst_peaks]
  exact List.pairwise_reverse.mpr Nat.bitIndices_sorted.pairwise

/-- The peaks are where the number of leaves has a bit. -/
lemma calcPeakIndices_leafPosition (n : ℕ) :
    calcPeakIndices (leafPosition n) = (peaks n).reverse.map fun t => nodePos t.1 t.2 := by
  have hloop := (tiles_peaks n).greedy (motive := fun k c trees =>
    calcPeakIndicesLoop k (nodePos 0 c) (nodePos 0 n - nodePos 0 c) =
      trees.map fun t => nodePos t.1 t.2) (pairwise_peaks n) (lt_peakBits n) rfl ?_ ?_
  · rwa [show nodePos 0 0 = 0 from rfl, Nat.sub_zero, ← leafPosition_eq_nodePos] at hloop
  · intro k c trees hfew ih
    rw [calcPeakIndicesLoop, if_neg (by omega), ih]
  · intro k q trees hle ih
    have hodd := nodePos_zero_odd k q
    have hfirst := nodePos_first_add k (2 * q)
    have hpow : 2 ≤ 2 ^ (k + 1) := Nat.le_self_pow (by omega) 2
    rw [calcPeakIndicesLoop, if_pos (by omega), Nat.sub_sub, ← hodd, ih, List.map_cons, hodd]
    congr 1
    dsimp only
    omega

/-- The number of leaves is recovered from the number of nodes. -/
lemma calculateLeafIndex_leafPosition (n : ℕ) : calculateLeafIndex (leafPosition n) = n := by
  have hloop := (tiles_peaks n).greedy (motive := fun k c _ =>
    calculateLeafIndexLoop k c (nodePos 0 n - nodePos 0 c) = n) (pairwise_peaks n) (lt_peakBits n)
    rfl ?_ ?_
  · rwa [show nodePos 0 0 = 0 from rfl, Nat.sub_zero, ← leafPosition_eq_nodePos] at hloop
  · intro k c trees hfew ih
    rw [calculateLeafIndexLoop, if_neg (by omega), ih]
  · intro k q trees hle ih
    have hodd := nodePos_zero_odd k q
    have hpow : 2 ≤ 2 ^ (k + 1) := Nat.le_self_pow (by omega) 2
    have hhalf : 2 * q * 2 ^ k + (2 ^ (k + 1) - 1 + 1) / 2 = (2 * q + 1) * 2 ^ k := by
      rw [Nat.sub_add_cancel (by omega), Nat.pow_succ, Nat.mul_div_cancel _ (by decide)]
      ring
    rw [calculateLeafIndexLoop, if_pos (by omega), hhalf, Nat.sub_sub, ← hodd, ih]

/-! ### Index arithmetic -/

/-- What the steps to the relatives of a node undo. -/
structure Index.Coherent (i : Index) : Prop where
  ofPosition_eq : Index.ofPosition i.position = i
  parent : Index.ofPosition i.getParent.position = i.getParent
  child_parent : i.getParent.getLeftChild = i ∧ i.getParent.getRightChild = i.getSibling ∨
    i.getParent.getRightChild = i ∧ i.getParent.getLeftChild = i.getSibling
  sibling_sibling : i.getSibling.getSibling = i
  parent_sibling : i.getSibling.getParent = i.getParent
  parent_child : i.isLeaf = false → i.getLeftChild.getParent = i ∧ i.getRightChild.getParent = i
  sibling_child : i.isLeaf = false →
    i.getLeftChild.getSibling = i.getRightChild ∧ i.getRightChild.getSibling = i.getLeftChild

lemma coherent_nodePos (h k : ℕ) : Index.Coherent ⟨nodePos h k, h⟩ where
  ofPosition_eq := ofPosition_nodePos h k
  parent := by rw [getParent_nodePos, ofPosition_nodePos]
  child_parent := by
    rw [getParent_nodePos, getLeftChild_nodePos, getRightChild_nodePos, getSibling_nodePos,
      siblingOf]
    rcases Nat.mod_two_eq_zero_or_one k with heven | hodd
    · rw [if_pos heven, show 2 * (k / 2) = k by omega]
      exact .inl ⟨rfl, rfl⟩
    · rw [if_neg (by omega), show 2 * (k / 2) + 1 = k by omega, show 2 * (k / 2) = k - 1 by omega]
      exact .inr ⟨rfl, rfl⟩
  sibling_sibling := by rw [getSibling_nodePos, getSibling_nodePos, siblingOf_siblingOf]
  parent_sibling := by
    rw [getSibling_nodePos, getParent_nodePos, getParent_nodePos, siblingOf_div_two]
  parent_child := by
    intro hleaf
    cases h with
    | zero => cases hleaf
    | succ h =>
      rw [getLeftChild_nodePos, getRightChild_nodePos, getParent_nodePos, getParent_nodePos,
        show 2 * k / 2 = k by omega, show (2 * k + 1) / 2 = k by omega]
      exact ⟨rfl, rfl⟩
  sibling_child := by
    intro hleaf
    cases h with
    | zero => cases hleaf
    | succ h =>
      rw [getLeftChild_nodePos, getRightChild_nodePos, getSibling_nodePos, getSibling_nodePos,
        siblingOf, siblingOf, if_pos (by omega), if_neg (by omega)]
      exact ⟨rfl, rfl⟩

/-- A step of `FillOnesToRight` doubles the distance over which set bits are copied. -/
lemma testBit_or_shiftRight {input x w : ℕ}
    (hx : ∀ i, x.testBit i = true ↔ ∃ d < w, input.testBit (i + d) = true) (i : ℕ) :
    (x ||| x >>> w).testBit i = true ↔ ∃ d < 2 * w, input.testBit (i + d) = true := by
  rw [Nat.testBit_or, Nat.testBit_shiftRight, Bool.or_eq_true, hx, hx]
  constructor
  · rintro (⟨d, hd, hbit⟩ | ⟨d, hd, hbit⟩)
    · exact ⟨d, by omega, hbit⟩
    · exact ⟨w + d, by omega, by rwa [← Nat.add_assoc, Nat.add_comm i w]⟩
  · rintro ⟨d, hd, hbit⟩
    by_cases hnear : d < w
    · exact .inl ⟨d, hnear, hbit⟩
    · exact .inr ⟨d - w, by omega, by rwa [show w + i + (d - w) = i + d by omega]⟩

/-- The peak sizes start with the bits that `FillOnesToRight` sets. -/
lemma fillOnesToRight_eq {input : ℕ} (hinput : input < 2 ^ 64) :
    fillOnesToRight input = 2 ^ peakBits input - 1 := by
  have hfill : ∀ i, (fillOnesToRight input).testBit i = true ↔
      ∃ d < 64, input.testBit (i + d) = true := by
    apply testBit_or_shiftRight
    apply testBit_or_shiftRight
    apply testBit_or_shiftRight
    apply testBit_or_shiftRight
    apply testBit_or_shiftRight
    apply testBit_or_shiftRight
    simp
  apply Nat.eq_of_testBit_eq
  intro i
  rw [Bool.eq_iff_iff, hfill, Nat.testBit_two_pow_sub_one, decide_eq_true_iff]
  rcases Nat.eq_zero_or_pos input with rfl | hpos
  · simp [peakBits]
  rw [peakBits, if_neg (by omega)]
  constructor
  · rintro ⟨d, -, hbit⟩
    have := (Nat.le_log2 (by omega)).mpr (Nat.ge_two_pow_of_testBit hbit)
    omega
  · intro hi
    have hlog : input.log2 < 64 := (Nat.log2_lt (by omega)).mpr hinput
    refine ⟨input.log2 - i, by omega, ?_⟩
    rw [Nat.add_sub_of_le (by omega)]
    exact Nat.testBit_log2 (by omega)

/-- The arithmetic on positions is that of perfect trees in postorder: leaves and nodes are found
where they stand, the steps between relatives undo each other, and the peaks of a range of a valid
size are the tops of trees of decreasing heights that follow each other and fill the range.
Positions are unbounded here; 64-bit numbers give the same as long as they do not overflow. -/
theorem index_arithmetic_coherent :
    (∀ n N, n < N → (rangeNodes N)[leafPosition n]? = some (0, n)) ∧
    (∀ n, calculateLeafIndex (leafPosition n) = n) ∧
    (∀ N p h k, (rangeNodes N)[p]? = some (h, k) → calculateHeight p = h) ∧
    (∀ p, (Index.ofPosition p).Coherent) ∧
    (∀ n, (calcPeakIndices (leafPosition n)).map Index.ofPosition =
        (peaks n).reverse.map (fun t => ⟨nodePos t.1 t.2, t.1⟩) ∧
      ((peaks n).reverse.map Prod.fst).Pairwise (· > ·) ∧
      ((peaks n).reverse.flatMap fun t => perfectTree t.1 t.2).map (fun t => nodePos t.1 t.2) =
        List.range (leafPosition n)) ∧
    ∀ input < 2 ^ 64, fillOnesToRight input = 2 ^ peakBits input - 1 := by
  refine ⟨?_, calculateLeafIndex_leafPosition, ?_, ?_, fun n => ⟨?_, ?_, ?_⟩,
    fun input => fillOnesToRight_eq⟩
  · intro n N hlt
    apply getElem?_rangeNodes.mpr
    exact ⟨leafPosition_eq_nodePos n, by rw [Nat.pow_zero]; omega⟩
  · intro N p h k hnode
    obtain ⟨rfl, -⟩ := getElem?_rangeNodes.mp hnode
    exact calculateHeight_nodePos h k
  · intro p
    obtain ⟨h, k, rfl⟩ := exists_nodePos_eq p
    rw [ofPosition_nodePos]
    exact coherent_nodePos h k
  · rw [calcPeakIndices_leafPosition, List.map_map]
    exact List.map_congr_left fun t _ => ofPosition_nodePos t.1 t.2
  · exact pairwise_peaks n
  · rw [leafPosition_eq_nodePos]
    exact map_nodePos_rangeNodes n

end Mw

end Aegisum
