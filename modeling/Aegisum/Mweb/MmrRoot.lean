import Mathlib.Data.List.GetD
import Mathlib.Data.List.Induction
import Aegisum.Foundations.Checked
import Aegisum.Mweb.MmrNodes

/-!
# The root of a Merkle mountain range

The hashes that an MMR stores are the hashes of the nodes over its leaves, defined by recursion on
the height.  The root bags the hashes of the peaks, and for ideal hashes it determines the leaves
together with their number.
-/

namespace Aegisum

open List

namespace Mw

/-! ### Stored hashes -/

variable {D α : Type} (h : MmrHasher D α)

/-- The nodes before the end of a list of hashes have the hashes of the list. -/
def NodesStored (leaves : List α) (hashes : List D) : Prop :=
  ∀ e k, nodePos e k < hashes.length →
    hashes[nodePos e k]? = nodeHash h.leafHash h.parentHash leaves e k

lemma NodesStored.concat {leaves : List α} {hashes : List D} (hstored : NodesStored h leaves hashes)
    {e k : ℕ} {d : D} (hpos : nodePos e k = hashes.length)
    (hd : nodeHash h.leafHash h.parentHash leaves e k = some d) :
    NodesStored h leaves (hashes ++ [d]) := by
  intro e' k' hlt
  rw [length_append, length_singleton] at hlt
  by_cases heq : nodePos e' k' = nodePos e k
  · obtain ⟨rfl, rfl⟩ := nodePos_inj heq
    rw [hd, hpos]
    simp
  · rw [getElem?_append_left (by omega)]
    exact hstored e' k' (by omega)

/-- The loop over the parents completes the nodes that the last leaf was missing from.  `j` counts
the heights that are done. -/
lemma nodesStored_addParents {leaves : List α} {m j q : ℕ} (fuel : ℕ) (hashes : List D) {d : D}
    (hfuel : m + 1 ≤ fuel + j) (hq : (q + 1) * 2 ^ j = m + 1)
    (hhashes : hashes.length = nodePos 0 m + j + 1) (hstored : NodesStored h leaves hashes)
    (hd : nodeHash h.leafHash h.parentHash leaves j q = some d) :
    (Mmr.addParents h fuel hashes d (Index.ofPosition hashes.length)).length = nodePos 0 (m + 1) ∧
      NodesStored h leaves (Mmr.addParents h fuel hashes d (Index.ofPosition hashes.length)) := by
  induction fuel generalizing j q hashes d with
  | zero =>
    have hpow : j < 2 ^ j := Nat.lt_two_pow_self
    have : 2 ^ j ≤ (q + 1) * 2 ^ j := Nat.le_mul_of_pos_left _ (Nat.succ_pos q)
    omega
  | succ fuel ih =>
    have hprev := (nodePos_add_lt_iff j m).mpr ⟨q + 1, by rw [Nat.mul_comm, hq]⟩
    obtain ⟨q, rfl | rfl⟩ : ∃ r, q = 2 * r ∨ q = 2 * r + 1 := ⟨q / 2, by omega⟩
    · -- a left child: the next node is a leaf
      have hodd : ¬ 2 ^ (j + 1) ∣ m + 1 := by
        rintro ⟨c, hc⟩
        have heven : (2 * q + 1) * 2 ^ j = (2 * c) * 2 ^ j := by rw [hq, hc]; ring
        have := Nat.eq_of_mul_eq_mul_right (Nat.two_pow_pos j) heven
        omega
      have hnext := mt (nodePos_add_lt_iff (j + 1) m).mp hodd
      have hpos : hashes.length = nodePos 0 (m + 1) := by omega
      rw [Mmr.addParents, if_pos (by rw [hpos, ofPosition_nodePos]; rfl)]
      exact ⟨hpos, hstored⟩
    · -- a right child: the next node is the parent
      have hq' : (q + 1) * 2 ^ (j + 1) = m + 1 := by rw [← hq]; ring
      have hpos : nodePos (j + 1) q = hashes.length := by
        rw [nodePos_eq_add, hq', Nat.add_sub_cancel, hhashes]
        omega
      have hlt : nodePos j (2 * q) < hashes.length := by
        rw [← hpos, ← nodePos_left]
        exact Nat.lt_add_of_pos_right (Nat.two_pow_pos _)
      have hleft := hstored j (2 * q) hlt
      obtain ⟨l, hl⟩ : ∃ l, hashes[nodePos j (2 * q)]? = some l := ⟨_, getElem?_eq_getElem hlt⟩
      have hparent : nodeHash h.leafHash h.parentHash leaves (j + 1) q =
          some (h.parentHash (nodePos (j + 1) q) l d) := by
        rw [nodeHash, ← hleft, hl, hd]
        rfl
      have hgetD : hashes.getD (nodePos j (2 * q)) h.zero = l := by
        rw [getD_eq_getElem?_getD, hl]
        rfl
      rw [← hpos, Mmr.addParents, ofPosition_nodePos,
        if_neg (by rw [Index.isLeaf]; simp), getLeftChild_nodePos]
      dsimp only
      rw [hgetD]
      have hstep := ih (hashes ++ [h.parentHash (nodePos (j + 1) q) l d])
        (by omega : m + 1 ≤ fuel + (j + 1)) hq' (by rw [length_append, hhashes]; rfl)
        (hstored.concat h hpos hparent) hparent
      rw [length_append, length_singleton, ← hpos] at hstep
      exact hstep

namespace Mmr

/-- The range over a list of leaves. -/
def ofLeaves (leaves : List α) : Mmr D α := leaves.foldl (addLeaf h) empty

@[simp] lemma ofLeaves_concat (leaves : List α) (data : α) :
    ofLeaves h (leaves ++ [data]) = (ofLeaves h leaves).addLeaf h data := by
  simp [ofLeaves]

@[simp] lemma ofLeaves_leaves (leaves : List α) : (ofLeaves h leaves).leaves = leaves := by
  induction leaves using reverseRecOn with
  | nil => rfl
  | append_singleton leaves data ih => rw [ofLeaves_concat, addLeaf_leaves, ih]

/-- The hashes that an MMR stores are those of the nodes over its leaves. -/
lemma nodesStored_ofLeaves (leaves : List α) :
    (ofLeaves h leaves).hashes.length = nodePos 0 leaves.length ∧
      NodesStored h leaves (ofLeaves h leaves).hashes := by
  induction leaves using reverseRecOn with
  | nil => exact ⟨rfl, fun e k hlt => by simp [ofLeaves, empty] at hlt⟩
  | append_singleton leaves data ih =>
    obtain ⟨hlen, hstored⟩ := ih
    have hleaf : nodeHash h.leafHash h.parentHash (leaves ++ [data]) 0 leaves.length =
        some (h.leafHash (nodePos 0 leaves.length) data) := by
      simp [nodeHash]
    -- the nodes that were there have the same hash
    have hkept : NodesStored h (leaves ++ [data]) (ofLeaves h leaves).hashes := by
      intro e k hlt
      rw [hstored e k hlt, nodeHash_append _ _ _ _ ((nodePos_lt_iff e k _).mp (hlen ▸ hlt))]
    have hloop := nodesStored_addParents h (m := leaves.length) (leaves.length + 1)
      ((ofLeaves h leaves).hashes ++ [h.leafHash (nodePos 0 leaves.length) data])
      (Nat.le_refl _) (by simp) (by rw [length_append, hlen]; rfl)
      (hkept.concat h hlen.symm hleaf) hleaf
    rw [length_append, length_singleton, hlen] at hloop
    rw [ofLeaves_concat, addLeaf, ofLeaves_leaves, leafPosition_eq_nodePos, length_append,
      length_singleton]
    exact hloop

lemma length_hashes_ofLeaves (leaves : List α) :
    (ofLeaves h leaves).hashes.length = leafPosition leaves.length := by
  rw [(nodesStored_ofLeaves h leaves).1, leafPosition_eq_nodePos]

/-- The hashes that an MMR stores are the hashes of the nodes over its leaves. -/
lemma getElem?_hashes_ofLeaves (leaves : List α) (e k : ℕ) :
    (ofLeaves h leaves).hashes[nodePos e k]? =
      nodeHash h.leafHash h.parentHash leaves e k := by
  have hstored := nodesStored_ofLeaves h leaves
  by_cases hlt : nodePos e k < (ofLeaves h leaves).hashes.length
  · exact hstored.2 e k hlt
  · have hnone : nodeHash h.leafHash h.parentHash leaves e k = none := by
      rw [← Option.not_isSome_iff_eq_none, isSome_nodeHash, ← nodePos_lt_iff, ← hstored.1]
      exact hlt
    rw [hnone, getElem?_eq_none (by omega)]

/-- The loop over the parents only appends. -/
lemma prefix_addParents (fuel : ℕ) (hashes : List D) (d : D) (idx : Index) :
    hashes <+: addParents h fuel hashes d idx := by
  induction fuel generalizing hashes d idx with
  | zero => exact prefix_refl _
  | succ fuel ih =>
    rw [addParents]
    split
    · exact prefix_refl _
    · exact (prefix_append _ _).trans (ih _ _ _)

/-- The nodes over the first leaves are the first nodes. -/
lemma prefix_hashes_ofLeaves (leaves leaves' : List α) :
    (ofLeaves h leaves).hashes <+: (ofLeaves h (leaves ++ leaves')).hashes := by
  induction leaves' using reverseRecOn with
  | nil => simp
  | append_singleton leaves' data ih =>
    rw [← append_assoc, ofLeaves_concat]
    exact ih.trans ((prefix_append _ _).trans (prefix_addParents h _ _ _ _))

/-- Rewinding gives the range over the first leaves. -/
lemma rewind_ofLeaves (leaves : List α) {n : ℕ} (hn : n ≤ leaves.length) :
    (ofLeaves h leaves).rewind n = ofLeaves h (leaves.take n) := by
  have hlen : (leaves.take n).length = n := by simpa using hn
  have hpre := prefix_hashes_ofLeaves h (leaves.take n) (leaves.drop n)
  rw [take_append_drop] at hpre
  have hhashes := prefix_iff_eq_take.mp hpre
  rw [length_hashes_ofLeaves, hlen] at hhashes
  calc (ofLeaves h leaves).rewind n
      = ⟨(ofLeaves h (leaves.take n)).hashes, (ofLeaves h (leaves.take n)).leaves⟩ := by
        rw [rewind, ← hhashes, ofLeaves_leaves, ofLeaves_leaves]
    _ = ofLeaves h (leaves.take n) := rfl

end Mmr

/-! ### Other stores of the hashes -/

/-- Caches and files that keep the hashes of a range run the loop over the parents as it is run on
the list of hashes: `get` looks a left child up, `push` appends, and `R` says which list a store
stands for. -/
structure RunsParents {σ ε : Type} (get : σ → ℕ → Except ε D) (push : σ → List D → σ)
    (loop : ℕ → σ → D → Index → Except ε σ) (R : σ → List D → Prop) : Prop where
  zero : ∀ s d i, loop 0 s d i = .ok s
  succ : ∀ fuel s d i, loop (fuel + 1) s d i =
    if i.isLeaf then .ok s
    else get s i.getLeftChild.position >>= fun left =>
      loop fuel (push s [h.parentHash i.position left d]) (h.parentHash i.position left d) i.getNext
  push_nil : ∀ s, push s [] = s
  push_push : ∀ s l l', push (push s l) l' = push s (l ++ l')
  stands : ∀ {s hashes} d, R s hashes → R (push s [d]) (hashes ++ [d])
  get_eq : ∀ {s hashes e q d}, R s hashes → nodePos (e + 1) q = hashes.length →
    hashes[nodePos e (2 * q)]? = some d → get s (nodePos e (2 * q)) = .ok d

namespace RunsParents

variable {h} {σ ε : Type} {get : σ → ℕ → Except ε D} {push : σ → List D → σ}
  {loop : ℕ → σ → D → Index → Except ε σ} {R : σ → List D → Prop} {s : σ}

/-- The loop pushes what it appends to the list of all nodes. -/
lemma exists_loop_eq (hloop : RunsParents h get push loop R) (fuel : ℕ) (hashes : List D) (d : D)
    (hs : R s hashes) :
    ∃ data, loop fuel s d (Index.ofPosition hashes.length) = .ok (push s data) ∧
      Mmr.addParents h fuel hashes d (Index.ofPosition hashes.length) = hashes ++ data := by
  induction fuel generalizing s hashes d with
  | zero => exact ⟨[], by rw [hloop.zero, hloop.push_nil], (append_nil _).symm⟩
  | succ fuel ih =>
    rw [hloop.succ, Mmr.addParents]
    obtain ⟨e, q, hpos⟩ := exists_nodePos_eq hashes.length
    cases e with
    | zero =>
      have hleaf : (Index.ofPosition hashes.length).isLeaf = true := by
        rw [← hpos, ofPosition_nodePos]
        rfl
      rw [if_pos hleaf, if_pos hleaf]
      exact ⟨[], by rw [hloop.push_nil], (append_nil _).symm⟩
    | succ e =>
      have hleaf : ¬ (Index.ofPosition hashes.length).isLeaf = true := by
        rw [← hpos, ofPosition_nodePos, Index.isLeaf]
        simp
      have hchild : (Index.ofPosition hashes.length).getLeftChild.position = nodePos e (2 * q) := by
        rw [← hpos, ofPosition_nodePos, getLeftChild_nodePos]
      have hlt : nodePos e (2 * q) < hashes.length := by
        rw [← hpos, ← nodePos_left]
        exact Nat.lt_add_of_pos_right (Nat.two_pow_pos _)
      have hleft := hloop.get_eq hs hpos (getElem?_eq_getElem hlt)
      rw [if_neg hleaf, if_neg hleaf, hchild, bind_of_eq_ok hleft, getD_eq_getElem _ _ hlt]
      dsimp only
      generalize h.parentHash (Index.ofPosition hashes.length).position
        hashes[nodePos e (2 * q)] d = parent
      rw [Index.getNext_ofPosition_length hashes parent]
      obtain ⟨data, hrest, hnodes⟩ := ih (hashes ++ [parent]) parent (hloop.stands parent hs)
      refine ⟨parent :: data, ?_, ?_⟩
      · rw [hrest, hloop.push_push, singleton_append]
      · rw [hnodes, append_assoc, singleton_append]

/-- A leaf with its parents: the nodes that are new in the range with the leaf are pushed. -/
lemma exists_addLeaf_eq (hloop : RunsParents h get push loop R) {leaves : List α}
    (hs : R s (Mmr.ofLeaves h leaves).hashes) (data : α) {leafHash : D}
    (hleaf : leafHash = h.leafHash (leafPosition leaves.length) data) :
    ∃ nodes, loop (leaves.length + 1) (push s [leafHash]) leafHash
        (Index.ofPosition (leafPosition leaves.length + 1)) = .ok (push s nodes) ∧
      (Mmr.ofLeaves h (leaves ++ [data])).hashes = (Mmr.ofLeaves h leaves).hashes ++ nodes := by
  obtain ⟨nodes, hrun, hnodes⟩ := hloop.exists_loop_eq (leaves.length + 1)
    ((Mmr.ofLeaves h leaves).hashes ++ [leafHash]) leafHash (hloop.stands leafHash hs)
  rw [length_append, length_singleton, Mmr.length_hashes_ofLeaves] at hrun hnodes
  refine ⟨leafHash :: nodes, ?_, ?_⟩
  · rw [hrun, hloop.push_push, singleton_append]
  · rw [Mmr.ofLeaves_concat, Mmr.addLeaf, Mmr.ofLeaves_leaves, ← hleaf]
    dsimp only
    rw [hnodes, append_assoc, singleton_append]

end RunsParents

/-! ### The root -/

lemma bagged_concat (join : D → D → D) (l : List D) (d : D) :
    bagged join (l ++ [d]) = some ((bagged join l).elim d (join d)) := by
  cases l with
  | nil => rfl
  | cons d' l => simp [bagged]

/-- If no hash is zero on the way, a zero hash does mean that nothing is bagged yet. -/
lemma bag_eq_bagged [DecidableEq D] {join : D → D → D} {zero : D} {l : List D}
    (hl : ∀ i < l.length, bagged join (l.take i) ≠ some zero) :
    bag join zero l = (bagged join l).getD zero := by
  induction l using reverseRecOn with
  | nil => rfl
  | append_singleton l d ih =>
    have hlt : ∀ i ≤ l.length, bagged join (l.take i) ≠ some zero := by
      intro i hi
      have := hl i (by rw [length_append, length_singleton]; omega)
      rwa [take_append_of_le_length hi] at this
    have hlast := hlt l.length (Nat.le_refl _)
    rw [take_length] at hlast
    have hbag : bag join zero (l ++ [d]) = bagStep join zero (bag join zero l) d := by
      rw [bag, foldl_append, foldl_cons, foldl_nil, bag]
    rw [hbag, ih fun i hi => hlt i (Nat.le_of_lt hi), bagged_concat, bagStep]
    cases hbagged : bagged join l with
    | none => simp
    | some hash =>
      have hne : hash ≠ zero := fun heq => hlast (by rw [hbagged, heq])
      simp [hne]

/-- The hashes of the peaks over leaves, the rightmost first. -/
def MmrHasher.peakHashes (leaves : List α) : List D :=
  (peaks leaves.length).filterMap fun (e, k) => nodeHash h.leafHash h.parentHash leaves e k

/-- No hash is zero while the peaks over leaves are bagged, as long as there are peaks left. -/
def MmrHasher.BagsNonzero (leaves : List α) : Prop :=
  ∀ i < (h.peakHashes leaves).length,
    bagged (h.parentHash (nodePos 0 leaves.length)) ((h.peakHashes leaves).take i) ≠ some h.zero

/-- All peaks have hashes. -/
lemma MmrHasher.map_some_peakHashes (leaves : List α) :
    (h.peakHashes leaves).map some =
      (peaks leaves.length).map fun t => nodeHash h.leafHash h.parentHash leaves t.1 t.2 := by
  rw [peakHashes, map_filterMap, ← filterMap_eq_map]
  refine filterMap_congr fun t hmem => ?_
  obtain ⟨d, hd⟩ := Option.isSome_iff_exists.mp
    ((isSome_nodeHash h.leafHash h.parentHash leaves t.1 t.2).mpr (le_of_mem_peaks hmem))
  simp [hd]

/-- The root bags the hashes of the peaks. -/
lemma Mmr.root_eq_bag [DecidableEq D] (leaves : List α) :
    (ofLeaves h leaves).root h =
      bag (h.parentHash (nodePos 0 leaves.length)) h.zero (h.peakHashes leaves) := by
  have htops : ((peaks leaves.length).map fun t =>
        (ofLeaves h leaves).hashes.getD (nodePos t.1 t.2) h.zero) = h.peakHashes leaves := by
    have hsome := congrArg (map fun o => o.getD h.zero) (h.map_some_peakHashes leaves)
    simp only [map_map, Function.comp_def, Option.getD_some, map_id'] at hsome
    simp only [hsome, getD_eq_getElem?_getD, getElem?_hashes_ofLeaves]
  rw [← htops, root, bagPeaks, getNumNodes, getNumLeaves, ofLeaves_leaves,
    calcPeakIndices_leafPosition, ← map_reverse, reverse_reverse, bag, foldl_map,
    foldl_map, leafPosition_eq_nodePos]
  rfl

/-- The root of an MMR is the root over its leaves. -/
lemma Mmr.root_eq_rangeRoot [DecidableEq D] {leaves : List α} (hne : h.BagsNonzero leaves) :
    (ofLeaves h leaves).root h =
      (rangeRoot h.leafHash h.parentHash leaves).getD h.zero := by
  rw [root_eq_bag, bag_eq_bagged hne]
  rfl

/-- For ideal hashes the root and the number of leaves determine the leaves. -/
lemma Mmr.root_ofLeaves_injective [DecidableEq D]
    (hleaf : ∀ pos, Function.Injective (h.leafHash pos))
    (hparent : ∀ pos, Function.Injective2 (h.parentHash pos))
    (hleaf_ne : ∀ pos a, h.leafHash pos a ≠ h.zero)
    (hparent_ne : ∀ pos a b, h.parentHash pos a b ≠ h.zero) {l l' : List α}
    (hlen : l.length = l'.length)
    (hroot : (ofLeaves h l).root h = (ofLeaves h l').root h) : l = l' := by
  have hne : ∀ leaves : List α, ∀ a ∈ h.peakHashes leaves, a ≠ h.zero := by
    intro leaves a ha
    obtain ⟨⟨e, k⟩, -, hd⟩ := mem_filterMap.mp ha
    exact nodeHash_ne hleaf_ne hparent_ne hd
  have hsome : (h.peakHashes l).length = (h.peakHashes l').length := by
    have hl := congrArg length (h.map_some_peakHashes l)
    have hl' := congrArg length (h.map_some_peakHashes l')
    rw [length_map, length_map] at hl hl'
    rw [hl, hl', hlen]
  rw [root_eq_bag, root_eq_bag, hlen] at hroot
  have hpeaks := bag_injective (hparent _) (hparent_ne _) (hne l) (hne l') hsome hroot
  have hmap := congrArg (map some) hpeaks
  rw [h.map_some_peakHashes, h.map_some_peakHashes, ← hlen, map_inj_left] at hmap
  apply ext_getElem?
  intro i
  by_cases hi : i < l.length
  · -- a leaf is under one of the peaks
    obtain ⟨t, ht, hfirst, hlast⟩ := (tiles_peaks l.length).exists_mem (Nat.zero_le i) hi
    rw [mem_reverse] at ht
    have hle := le_of_mem_peaks ht
    exact nodeHash_injective hleaf hparent hle (hlen ▸ hle) (hmap t ht) hfirst hlast
  · rw [getElem?_eq_none (by omega), getElem?_eq_none (by omega)]

end Mw

end Aegisum
