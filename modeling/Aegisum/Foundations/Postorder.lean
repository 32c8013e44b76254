import Mathlib.Data.List.Basic
import Mathlib.Data.Nat.BitIndices
import Mathlib.Data.Option.NAry
import Mathlib.Order.Monotone.Basic
import Mathlib.Tactic.Ring

/-!
# Nodes of a mountain range

The nodes over an infinite sequence of leaves: the `k`-th node of height `h` covers the leaves from
`k * 2 ^ h` on and before `(k + 1) * 2 ^ h`, and its children are the nodes `2 * k` and `2 * k + 1`
of the height below.  Nodes are numbered in postorder, each as soon as its last leaf is there, so
that the nodes over the first leaves are the first nodes.  `nodePos` is this number, in closed
form.
-/

namespace Aegisum

open List Nat

/-! ### Set bits -/

/-- The number of set bits. -/
def setBits (n : ℕ) : ℕ := n.bitIndices.length

@[simp] lemma setBits_zero : setBits 0 = 0 := by simp [setBits]

@[simp] lemma setBits_two_mul (n : ℕ) : setBits (2 * n) = setBits n := by
  rw [setBits, bitIndices_two_mul, length_map, setBits]

@[simp] lemma setBits_two_mul_add_one (n : ℕ) : setBits (2 * n + 1) = setBits n + 1 := by
  rw [setBits, bitIndices_two_mul_add_one, length_cons, length_map, setBits]

/-- A number has no more bits than its value. -/
lemma setBits_le (n : ℕ) : setBits n ≤ n := by
  induction n using Nat.strongRecOn with
  | _ n ih =>
    obtain ⟨k, rfl | rfl⟩ : ∃ k, n = 2 * k ∨ n = 2 * k + 1 := ⟨n / 2, by omega⟩
    · rcases Nat.eq_zero_or_pos k with rfl | hk
      · simp
      · have := ih k (by omega)
        rw [setBits_two_mul]
        omega
    · have := ih k (by omega)
      rw [setBits_two_mul_add_one]
      omega

/-- An increment sets one bit more at most. -/
lemma setBits_succ_le (n : ℕ) : setBits (n + 1) ≤ setBits n + 1 := by
  induction n using Nat.strongRecOn with
  | _ n ih =>
    obtain ⟨k, rfl | rfl⟩ : ∃ k, n = 2 * k ∨ n = 2 * k + 1 := ⟨n / 2, by omega⟩
    · simp
    · have := ih k (by omega)
      rw [show 2 * k + 1 + 1 = 2 * (k + 1) by omega, setBits_two_mul, setBits_two_mul_add_one]
      omega

@[simp] lemma setBits_mul_two_pow (k h : ℕ) : setBits (k * 2 ^ h) = setBits k := by
  induction h with
  | zero => simp
  | succ h ih => rw [pow_succ', ← mul_assoc, mul_comm k, mul_assoc,
      setBits_two_mul, ih]

/-- The last number before a multiple of a power of two ends in ones. -/
lemma setBits_succ_mul_two_pow_sub_one (k h : ℕ) :
    setBits ((k + 1) * 2 ^ h - 1) = setBits k + h := by
  induction h with
  | zero => simp
  | succ h ih =>
    have hpos : 1 ≤ (k + 1) * 2 ^ h := Nat.mul_pos (by omega) (Nat.two_pow_pos h)
    have hsplit : (k + 1) * 2 ^ (h + 1) - 1 = 2 * ((k + 1) * 2 ^ h - 1) + 1 := by
      rw [Nat.pow_succ, ← Nat.mul_assoc]
      omega
    rw [hsplit, setBits_two_mul_add_one, ih]
    omega

variable {h k b c n : ℕ}

/-- Bits below a power of two add up with those above. -/
lemma setBits_mul_two_pow_add {r : ℕ} (hr : r < 2 ^ h) :
    setBits (k * 2 ^ h + r) = setBits k + setBits r := by
  induction h generalizing r with
  | zero =>
    obtain rfl : r = 0 := by simpa using hr
    simp
  | succ h ih =>
    have hpow : k * 2 ^ (h + 1) = 2 * (k * 2 ^ h) := by rw [pow_succ]; ring
    rw [pow_succ] at hr
    obtain ⟨j, rfl | rfl⟩ : ∃ j, r = 2 * j ∨ r = 2 * j + 1 := ⟨r / 2, by omega⟩
    · rw [hpow, ← mul_add, setBits_two_mul, setBits_two_mul, ih (by omega)]
    · rw [hpow, ← add_assoc, ← mul_add, setBits_two_mul_add_one,
        setBits_two_mul_add_one, ih (by omega), add_assoc]

/-! ### Positions -/

/-- The postorder number of the `k`-th node of height `h`. -/
def nodePos (h k : ℕ) : ℕ := (k + 1) * 2 ^ (h + 1) - 2 - setBits k

/-- The position of a node in closed form. -/
lemma nodePos_add (h k : ℕ) : nodePos h k + setBits k + 2 = (k + 1) * 2 ^ (h + 1) := by
  have hbits := setBits_le k
  have hpow : (k + 1) * 2 ≤ (k + 1) * 2 ^ (h + 1) := mul_le_mul_left _ (le_self_pow (by omega) 2)
  rw [nodePos]
  omega

/-- The position of a leaf in closed form. -/
lemma nodePos_zero_add (n : ℕ) : nodePos 0 n + setBits n = 2 * n := by
  have := nodePos_add 0 n
  omega

/-- The right child is the node before. -/
lemma nodePos_right (h k : ℕ) : nodePos h (2 * k + 1) + 1 = nodePos (h + 1) k := by
  have hright := nodePos_add h (2 * k + 1)
  have hnode := nodePos_add (h + 1) k
  have hpow : (k + 1) * 2 ^ (h + 1 + 1) = (2 * k + 1 + 1) * 2 ^ (h + 1) := by
    rw [pow_succ _ (h + 1)]
    ring
  rw [setBits_two_mul_add_one] at hright
  omega

/-- The left child comes before the nodes of the right one. -/
lemma nodePos_left (h k : ℕ) : nodePos h (2 * k) + 2 ^ (h + 1) = nodePos (h + 1) k := by
  have hleft := nodePos_add h (2 * k)
  have hnode := nodePos_add (h + 1) k
  have hpow : (k + 1) * 2 ^ (h + 1 + 1) = (2 * k + 1) * 2 ^ (h + 1) + 2 ^ (h + 1) := by
    rw [pow_succ _ (h + 1)]
    ring
  rw [setBits_two_mul] at hleft
  omega

/-- A node comes before its parent. -/
lemma nodePos_lt_parent (h k : ℕ) : nodePos h k < nodePos (h + 1) (k / 2) := by
  have hpos := Nat.two_pow_pos (h + 1)
  obtain ⟨q, rfl | rfl⟩ : ∃ q, k = 2 * q ∨ k = 2 * q + 1 := ⟨k / 2, by omega⟩
  · rw [show 2 * q / 2 = q by omega, ← nodePos_left]
    omega
  · rw [show (2 * q + 1) / 2 = q by omega, ← nodePos_right]
    omega

/-- A node follows the leaf it was waiting for, after the nodes of smaller heights. -/
lemma nodePos_eq_add (h k : ℕ) : nodePos h k = nodePos 0 ((k + 1) * 2 ^ h - 1) + h := by
  have hnode := nodePos_add h k
  have hleaf := nodePos_zero_add ((k + 1) * 2 ^ h - 1)
  have hpos : 1 ≤ (k + 1) * 2 ^ h := Nat.mul_pos (by omega) (Nat.two_pow_pos h)
  rw [setBits_succ_mul_two_pow_sub_one] at hleaf
  rw [Nat.pow_succ, ← Nat.mul_assoc] at hnode
  omega

/-- The first leaf under a node. -/
lemma nodePos_first_add (h k : ℕ) : nodePos 0 (k * 2 ^ h) + (2 ^ (h + 1) - 2) = nodePos h k := by
  have hnode := nodePos_add h k
  have hleaf := nodePos_zero_add (k * 2 ^ h)
  have hpow : 2 ≤ 2 ^ (h + 1) := le_self_pow (by omega) 2
  have hmul : (k + 1) * 2 ^ (h + 1) = 2 * (k * 2 ^ h) + 2 ^ (h + 1) := by
    rw [pow_succ]
    ring
  rw [setBits_mul_two_pow] at hleaf
  omega

/-- The leaves of a left child and those of the right one are apart by the nodes of the former. -/
lemma nodePos_zero_odd (h q : ℕ) :
    nodePos 0 ((2 * q + 1) * 2 ^ h) = nodePos 0 (2 * q * 2 ^ h) + (2 ^ (h + 1) - 1) := by
  have hleft := nodePos_zero_add (2 * q * 2 ^ h)
  have hright := nodePos_zero_add ((2 * q + 1) * 2 ^ h)
  have hmul : (2 * q + 1) * 2 ^ h = 2 * q * 2 ^ h + 2 ^ h := by ring
  have hpow : 2 ^ (h + 1) = 2 * 2 ^ h := Nat.pow_succ'
  have hpos := Nat.two_pow_pos h
  rw [setBits_mul_two_pow, setBits_two_mul] at hleft
  rw [setBits_mul_two_pow, setBits_two_mul_add_one] at hright
  omega

/-- Later leaves stand at later positions. -/
lemma nodePos_zero_strictMono : StrictMono (nodePos 0) := by
  refine strictMono_nat_of_lt_succ fun n => ?_
  have h := nodePos_zero_add n
  have h' := nodePos_zero_add (n + 1)
  have := setBits_succ_le n
  omega

/-- The nodes over the first `n` leaves come before the leaf `n`. -/
lemma nodePos_lt_iff (h k n : ℕ) : nodePos h k < nodePos 0 n ↔ (k + 1) * 2 ^ h ≤ n := by
  have hpos : 1 ≤ (k + 1) * 2 ^ h := Nat.mul_pos (by omega) (Nat.two_pow_pos h)
  have hnext : nodePos h k < nodePos 0 ((k + 1) * 2 ^ h) := by
    have hnode := nodePos_add h k
    have hleaf := nodePos_zero_add ((k + 1) * 2 ^ h)
    have := setBits_succ_le k
    rw [setBits_mul_two_pow] at hleaf
    rw [Nat.pow_succ, ← Nat.mul_assoc] at hnode
    omega
  constructor
  · intro hlt
    have hfirst : nodePos 0 ((k + 1) * 2 ^ h - 1) ≤ nodePos h k := by
      rw [nodePos_eq_add h k]
      omega
    have := nodePos_zero_strictMono.lt_iff_lt.mp (Nat.lt_of_le_of_lt hfirst hlt)
    omega
  · intro hle
    exact Nat.lt_of_lt_of_le hnext (nodePos_zero_strictMono.monotone hle)

/-- A position between two leaves is the one of a node that waits for the first of them. -/
lemma nodePos_add_lt_iff (h m : ℕ) : nodePos 0 m + h < nodePos 0 (m + 1) ↔ 2 ^ h ∣ m + 1 := by
  induction h generalizing m with
  | zero => simpa using nodePos_zero_strictMono (lt_succ_self m)
  | succ h ih =>
    have hm := nodePos_zero_add m
    have hm' := nodePos_zero_add (m + 1)
    obtain ⟨j, rfl | rfl⟩ : ∃ j, m = 2 * j ∨ m = 2 * j + 1 := ⟨m / 2, by omega⟩
    · -- after an even leaf comes an odd one
      rw [setBits_two_mul] at hm
      rw [setBits_two_mul_add_one] at hm'
      refine iff_of_false (by omega) fun hdvd => ?_
      have := (dvd_of_pow_dvd (by omega : 1 ≤ h + 1) hdvd)
      omega
    · have hj := nodePos_zero_add j
      have hj' := nodePos_zero_add (j + 1)
      rw [setBits_two_mul_add_one] at hm
      rw [show 2 * j + 1 + 1 = 2 * (j + 1) by omega, setBits_two_mul] at hm'
      rw [show 2 * j + 1 + 1 = 2 * (j + 1) by omega, pow_succ', mul_dvd_mul_iff_left
        (by decide), ← ih j]
      omega

/-- Different nodes have different positions. -/
lemma nodePos_inj {h' k' : ℕ} (heq : nodePos h k = nodePos h' k') : h = h' ∧ k = k' := by
  have hle : ∀ {h k h' k' : ℕ}, nodePos h k = nodePos h' k' →
      (k + 1) * 2 ^ h ≤ (k' + 1) * 2 ^ h' := by
    intro h k h' k' heq
    have hlt := (nodePos_lt_iff h' k' _).mpr (Nat.le_refl _)
    rw [← heq] at hlt
    exact (nodePos_lt_iff h k _).mp hlt
  have hlast := Nat.le_antisymm (hle heq) (hle heq.symm)
  rw [nodePos_eq_add h k, nodePos_eq_add h' k', hlast] at heq
  obtain rfl : h = h' := by omega
  have := Nat.eq_of_mul_eq_mul_right (Nat.two_pow_pos h) hlast
  exact ⟨rfl, by omega⟩

/-- The nodes of a height over the first leaves. -/
lemma nodePos_lt_iff_lt_div (h k n : ℕ) : nodePos h k < nodePos 0 n ↔ k < n / 2 ^ h := by
  rw [nodePos_lt_iff, ← Nat.succ_le_iff, Nat.le_div_iff_mul_le (Nat.two_pow_pos h)]

/-- Every position is the one of a node. -/
lemma exists_nodePos_eq (p : ℕ) : ∃ h k, nodePos h k = p := by
  -- the last leaf that is not after the position
  have hbound : p < nodePos 0 (p + 1) := by
    have hleaf := nodePos_zero_add (p + 1)
    have := setBits_le (p + 1)
    omega
  obtain ⟨m, hm, hlast⟩ : ∃ m, nodePos 0 m ≤ p ∧ p < nodePos 0 (m + 1) := by
    have hex : ∃ m, p < nodePos 0 (m + 1) := ⟨p, hbound⟩
    refine ⟨Nat.find hex, ?_, Nat.find_spec hex⟩
    rcases hzero : Nat.find hex with _ | m
    · simp [nodePos]
    · have := Nat.find_min hex (m := m) (by omega)
      omega
  have hdvd : 2 ^ (p - nodePos 0 m) ∣ m + 1 := by
    rw [← nodePos_add_lt_iff]
    omega
  obtain ⟨q, hq⟩ := hdvd
  have hpos : 0 < q := by
    rcases Nat.eq_zero_or_pos q with rfl | hpos
    · simp at hq
    · exact hpos
  refine ⟨p - nodePos 0 m, q - 1, ?_⟩
  rw [nodePos_eq_add, Nat.sub_add_cancel hpos, Nat.mul_comm, ← hq, Nat.add_sub_cancel]
  omega

/-- The next node of the same height. -/
lemma nodePos_succ_add (h k : ℕ) :
    nodePos h (k + 1) + setBits (k + 1) + 1 =
      nodePos h k + (2 ^ (h + 1) - 1) + (setBits k + 1) + 1 := by
  have hnode := nodePos_add h k
  have hnext := nodePos_add h (k + 1)
  have hpow : (k + 1 + 1) * 2 ^ (h + 1) = (k + 1) * 2 ^ (h + 1) + 2 ^ (h + 1) := by ring
  have hpos := Nat.two_pow_pos (h + 1)
  omega

/-! ### Subtrees -/

/-- The other child of the same parent. -/
def siblingOf (k : ℕ) : ℕ := if k % 2 = 0 then k + 1 else k - 1

/-- Siblings are mutual. -/
lemma siblingOf_siblingOf (k : ℕ) : siblingOf (siblingOf k) = k := by
  rw [siblingOf, siblingOf]
  split <;> split <;> omega

/-- Siblings share their parent. -/
lemma siblingOf_div_two (k : ℕ) : siblingOf k / 2 = k / 2 := by
  rw [siblingOf]
  split <;> omega

/-- The first leaves under the children of a node, and the ones after their last leaves. -/
lemma child_leaves (h k : ℕ) :
    k * 2 ^ (h + 1) = 2 * k * 2 ^ h ∧ (2 * k + 1) * 2 ^ h = 2 * k * 2 ^ h + 2 ^ h ∧
      (k + 1) * 2 ^ (h + 1) = (2 * k + 1 + 1) * 2 ^ h ∧
      (2 * k + 1 + 1) * 2 ^ h = (2 * k + 1) * 2 ^ h + 2 ^ h :=
  ⟨by ring, by ring, by ring, by ring⟩

/-- The `k`-th node of height `h` is a node over `n` leaves, and all leaves under it have a
property. -/
def AllLeaves (n : ℕ) (P : ℕ → Prop) (h k : ℕ) : Prop :=
  (k + 1) * 2 ^ h ≤ n ∧ ∀ i, k * 2 ^ h ≤ i → i < (k + 1) * 2 ^ h → P i

section AllLeaves

variable {n : ℕ} {P : ℕ → Prop}

variable {k h : ℕ}

/-- A leaf is its own subtree. -/
lemma allLeaves_zero : AllLeaves n P 0 k ↔ k < n ∧ P k := by
  rw [AllLeaves, pow_zero, mul_one, mul_one, succ_le_iff]
  refine and_congr_right fun _ => ⟨fun hall => hall k (le_refl k) (lt_succ_self k), ?_⟩
  intro hk i hle hlt
  obtain rfl : i = k := by omega
  exact hk

/-- The leaves under a node are those under its children. -/
lemma allLeaves_succ :
    AllLeaves n P (h + 1) k ↔ AllLeaves n P h (2 * k) ∧ AllLeaves n P h (2 * k + 1) := by
  obtain ⟨hfirst, hmid, hlast, hlast'⟩ := child_leaves h k
  have hpos := Nat.two_pow_pos h
  simp only [AllLeaves, hfirst, hlast, hlast', hmid]
  constructor
  · rintro ⟨hle, hall⟩
    exact ⟨⟨by omega, fun i hi hi' => hall i hi (by omega)⟩,
      hle, fun i hi hi' => hall i (by omega) hi'⟩
  · rintro ⟨⟨-, hleft⟩, hle, hright⟩
    refine ⟨hle, fun i hi hi' => ?_⟩
    by_cases hmid : i < 2 * k * 2 ^ h + 2 ^ h
    · exact hleft i hi hmid
    · exact hright i (by omega) hi'

/-- A leaf without the property spoils all nodes above it. -/
lemma AllLeaves.of_div {i : ℕ} (hall : AllLeaves n P h (i / 2 ^ h)) : P i := by
  have hpos := Nat.two_pow_pos h
  refine hall.2 i (Nat.div_mul_le_self i _) ?_
  rw [Nat.succ_mul]
  exact Nat.lt_div_mul_add hpos

/-- The subtree is complete. -/
lemma AllLeaves.lt_div (hall : AllLeaves n P h k) : k < n / 2 ^ h := by
  rw [← Nat.succ_le_iff, Nat.le_div_iff_mul_le (Nat.two_pow_pos h)]
  exact hall.1

/-- More leaves and a weaker property. -/
lemma AllLeaves.mono {n' : ℕ} {Q : ℕ → Prop} (hall : AllLeaves n P h k) (hn : n ≤ n')
    (hPQ : ∀ i < n, P i → Q i) : AllLeaves n' Q h k :=
  ⟨le_trans hall.1 hn, fun i hi hi' =>
    hPQ i (lt_of_lt_of_le hi' hall.1) (hall.2 i hi hi')⟩

end AllLeaves

/-! ### Peaks and trees -/

/-- The highest nodes over `n` leaves, the rightmost first. -/
def peaks (n : ℕ) : List (ℕ × ℕ) := n.bitIndices.map fun e => (e, n / 2 ^ e - 1)

/-- Perfect trees that cover the leaves from `c` on and before `n`, from left to right. -/
def Tiles : ℕ → ℕ → List (ℕ × ℕ) → Prop
  | c, n, [] => c = n
  | c, n, (e, k) :: rest => k % 2 = 0 ∧ c = k * 2 ^ e ∧ Tiles (c + 2 ^ e) n rest

/-- Distinct powers of two below a bound. -/
lemma sum_two_pow_lt {l : List ℕ} (hl : l.Pairwise (· > ·)) (hb : ∀ e ∈ l, e < b) :
    (l.map (2 ^ ·)).sum < 2 ^ b := by
  induction l generalizing b with
  | nil => exact Nat.two_pow_pos b
  | cons e l ih =>
    rw [pairwise_cons] at hl
    rw [forall_mem_cons] at hb
    have hrest := ih hl.2 fun a ha => hl.1 a ha
    have hpow : 2 ^ (e + 1) ≤ 2 ^ b := Nat.pow_le_pow_right (by decide) hb.1
    rw [Nat.pow_succ] at hpow
    rw [map_cons, sum_cons]
    omega

/-- Trees of decreasing heights after a number of leaves that is a multiple of all of them. -/
lemma tiles_map {l : List ℕ} (hl : l.Pairwise (· > ·)) (hb : ∀ e ∈ l, e < b) (hc : 2 ^ b ∣ c) :
    Tiles c (c + (l.map (2 ^ ·)).sum)
      (l.map fun e => (e, (c + (l.map (2 ^ ·)).sum) / 2 ^ e - 1)) := by
  induction l generalizing b c with
  | nil => rfl
  | cons e l ih =>
    rw [pairwise_cons] at hl
    rw [forall_mem_cons] at hb
    have hrest := sum_two_pow_lt hl.2 fun a ha => hl.1 a ha
    obtain ⟨q, rfl⟩ := Nat.dvd_trans (Nat.pow_dvd_pow 2 (by omega : e + 1 ≤ b)) hc
    have hdiv : (2 ^ (e + 1) * q + (2 ^ e + (l.map (2 ^ ·)).sum)) / 2 ^ e = 2 * q + 1 := by
      rw [show 2 ^ (e + 1) * q + (2 ^ e + (l.map (2 ^ ·)).sum) =
        (l.map (2 ^ ·)).sum + 2 ^ e * (2 * q + 1) by ring,
        Nat.add_mul_div_left _ _ (Nat.two_pow_pos e), Nat.div_eq_of_lt hrest, Nat.zero_add]
    have htail := ih (c := 2 ^ (e + 1) * q + 2 ^ e) hl.2 (fun a ha => hl.1 a ha)
      ⟨2 * q + 1, by ring⟩
    rw [Nat.add_assoc] at htail
    rw [map_cons, map_cons, sum_cons, hdiv, Nat.add_sub_cancel]
    exact ⟨by omega, by ring, htail⟩

/-- The trees under the peaks cover all leaves. -/
lemma tiles_peaks (n : ℕ) : Tiles 0 n (peaks n).reverse := by
  have hlt : ∀ e ∈ n.bitIndices.reverse, e < n := fun e he =>
    Nat.lt_of_lt_of_le Nat.lt_two_pow_self
      (Nat.two_pow_le_of_mem_bitIndices (mem_reverse.mp he))
  have htiles := tiles_map (c := 0)
    (pairwise_reverse.mpr (Nat.bitIndices_sorted (n := n)).pairwise) hlt (Nat.dvd_zero _)
  rwa [map_reverse, sum_reverse, Nat.sum_map_two_pow_bitIndices, Nat.zero_add,
    map_reverse] at htiles

variable {trees : List (ℕ × ℕ)}

/-- The first tree of a tiling. -/
lemma Tiles.of_cons {e k : ℕ} (h : Tiles c n ((e, k) :: trees)) :
    ∃ q, k = 2 * q ∧ c = 2 * q * 2 ^ e ∧ Tiles ((2 * q + 1) * 2 ^ e) n trees := by
  obtain ⟨heven, rfl, htail⟩ := h
  obtain ⟨q, rfl⟩ : ∃ q, k = 2 * q := ⟨k / 2, by omega⟩
  exact ⟨q, rfl, rfl, by rwa [succ_mul]⟩

/-- Every leaf is under one of the trees. -/
lemma Tiles.exists_mem {i : ℕ} (h : Tiles c n trees) (hi : c ≤ i) (hi' : i < n) :
    ∃ t ∈ trees, t.2 * 2 ^ t.1 ≤ i ∧ i < (t.2 + 1) * 2 ^ t.1 := by
  induction trees generalizing c with
  | nil =>
    obtain rfl : c = n := h
    omega
  | cons t trees ih =>
    obtain ⟨-, rfl, htail⟩ := h
    by_cases hfirst : i < t.2 * 2 ^ t.1 + 2 ^ t.1
    · exact ⟨t, mem_cons_self, hi, by rwa [succ_mul]⟩
    · obtain ⟨t', ht', hmem⟩ := ih htail (by omega)
      exact ⟨t', mem_cons_of_mem _ ht', hmem⟩

/-- The nodes of the perfect tree under the `k`-th node of height `h` in postorder, each with its
height and its number. -/
def perfectTree : ℕ → ℕ → List (ℕ × ℕ)
  | 0, k => [(0, k)]
  | h + 1, k => perfectTree h (2 * k) ++ perfectTree h (2 * k + 1) ++ [(h + 1, k)]

/-- The nodes over the first `n` leaves in postorder, one tree after the other. -/
def rangeNodes (n : ℕ) : List (ℕ × ℕ) :=
  (peaks n).reverse.flatMap fun t => perfectTree t.1 t.2

/-- The nodes of a tree are at consecutive positions. -/
lemma map_nodePos_perfectTree (h k : ℕ) :
    (perfectTree h k).map (fun t => nodePos t.1 t.2) =
      range' (nodePos 0 (k * 2 ^ h)) (2 ^ (h + 1) - 1) := by
  induction h generalizing k with
  | zero => simp [perfectTree]
  | succ h ih =>
    have hfirst := (child_leaves h k).1
    have hlast := nodePos_first_add (h + 1) k
    have hpow : 2 ^ (h + 1 + 1) = 2 * 2 ^ (h + 1) := pow_succ'
    have htwo : 2 ≤ 2 ^ (h + 1) := le_self_pow (by omega) 2
    have hcount : 2 ^ (h + 1 + 1) - 1 = 2 ^ (h + 1) - 1 + (2 ^ (h + 1) - 1) + 1 := by omega
    have htop : nodePos (h + 1) k =
        nodePos 0 (2 * k * 2 ^ h) + (2 ^ (h + 1) - 1 + (2 ^ (h + 1) - 1)) := by
      rw [← hlast, hfirst]
      omega
    rw [perfectTree, map_append, map_append, ih, ih, nodePos_zero_odd, hcount, hfirst,
      range'_1_concat, range'_append_1, map_singleton, htop]

/-- The nodes of trees that cover leaves are at consecutive positions. -/
lemma Tiles.map_nodePos (h : Tiles c n trees) :
    nodePos 0 c ≤ nodePos 0 n ∧
      (trees.flatMap fun t => perfectTree t.1 t.2).map (fun t => nodePos t.1 t.2) =
        range' (nodePos 0 c) (nodePos 0 n - nodePos 0 c) := by
  induction trees generalizing c with
  | nil =>
    obtain rfl : c = n := h
    simp
  | cons t trees ih =>
    obtain ⟨e, k⟩ := t
    obtain ⟨q, rfl, rfl, htail⟩ := h.of_cons
    obtain ⟨hle, hmap⟩ := ih htail
    rw [nodePos_zero_odd] at hle hmap
    refine ⟨by omega, ?_⟩
    rw [flatMap_cons, map_append, map_nodePos_perfectTree, hmap, range'_append_1]
    dsimp only
    congr 1
    omega

/-- Trees of heights below `b` have fewer nodes than one of height `b`. -/
lemma Tiles.nodePos_add_two_le (h : Tiles c n trees)
    (hsorted : (trees.map Prod.fst).Pairwise (· > ·)) (hb : ∀ t ∈ trees, t.1 < b) :
    nodePos 0 n + 2 ≤ nodePos 0 c + 2 ^ (b + 1) := by
  induction trees generalizing c b with
  | nil =>
    obtain rfl : c = n := h
    have hpow : 2 ≤ 2 ^ (b + 1) := Nat.le_self_pow (by omega) 2
    omega
  | cons t trees ih =>
    obtain ⟨e, k⟩ := t
    obtain ⟨q, rfl, rfl, htail⟩ := h.of_cons
    rw [map_cons, pairwise_cons] at hsorted
    rw [forall_mem_cons] at hb
    have hodd := nodePos_zero_odd e q
    have hrest := ih (b := e) htail hsorted.2 fun t ht => hsorted.1 t.1 (mem_map_of_mem ht)
    have hpow : 2 ^ (e + 1 + 1) ≤ 2 ^ (b + 1) := Nat.pow_le_pow_right (by decide) (by omega)
    rw [Nat.pow_succ] at hpow
    omega

/-- The trees are found greedily: for the heights from `k - 1` down to `0` there is a tree of this
height, or there are too few nodes left for one. -/
lemma Tiles.greedy {motive : ℕ → ℕ → List (ℕ × ℕ) → Prop} (h : Tiles c n trees)
    (hsorted : (trees.map Prod.fst).Pairwise (· > ·)) (hk : ∀ t ∈ trees, t.1 < k)
    (nil : motive 0 n [])
    (skip : ∀ k c trees, nodePos 0 n - nodePos 0 c < 2 ^ (k + 1) - 1 → motive k c trees →
      motive (k + 1) c trees)
    (take : ∀ k q trees, nodePos 0 ((2 * q + 1) * 2 ^ k) ≤ nodePos 0 n →
      motive k ((2 * q + 1) * 2 ^ k) trees → motive (k + 1) (2 * q * 2 ^ k) ((k, 2 * q) :: trees)) :
    motive k c trees := by
  induction k generalizing c trees with
  | zero =>
    obtain rfl : trees = [] := eq_nil_iff_forall_not_mem.mpr fun t ht => by simpa using hk t ht
    obtain rfl : c = n := h
    exact nil
  | succ k ih =>
    have hskip : (∀ t ∈ trees, t.1 < k) → motive (k + 1) c trees := by
      intro hlt
      have hbound := h.nodePos_add_two_le hsorted hlt
      have hpow : 2 ≤ 2 ^ (k + 1) := Nat.le_self_pow (by omega) 2
      exact skip k c trees (by omega) (ih h hsorted hlt)
    cases trees with
    | nil => exact hskip (by simp)
    | cons t trees =>
      obtain ⟨e, j⟩ := t
      rw [forall_mem_cons] at hk
      rw [map_cons, pairwise_cons] at hsorted
      have hbelow : ∀ t ∈ trees, t.1 < e := fun t ht => hsorted.1 t.1 (mem_map_of_mem ht)
      rcases Nat.lt_succ_iff_lt_or_eq.mp hk.1 with hlt | rfl
      · exact hskip (forall_mem_cons.mpr ⟨hlt, fun t ht => Nat.lt_trans (hbelow t ht) hlt⟩)
      · obtain ⟨q, rfl, rfl, htail⟩ := h.of_cons
        exact take e q trees htail.map_nodePos.1 (ih htail hsorted.2 hbelow)

/-- The nodes in the order of their positions. -/
lemma map_nodePos_rangeNodes (n : ℕ) :
    (rangeNodes n).map (fun t => nodePos t.1 t.2) = range (nodePos 0 n) := by
  rw [rangeNodes, (tiles_peaks n).map_nodePos.2, range_eq_range']
  rfl

/-- A node stands at its position in the postorder of the nodes over the leaves. -/
lemma getElem?_rangeNodes {p : ℕ} :
    (rangeNodes n)[p]? = some (h, k) ↔ p = nodePos h k ∧ (k + 1) * 2 ^ h ≤ n := by
  have hmap : (rangeNodes n)[p]?.map (fun t => nodePos t.1 t.2) =
      (range (nodePos 0 n))[p]? := by
    rw [← getElem?_map, map_nodePos_rangeNodes]
  constructor
  · intro hp
    rw [hp, Option.map_some, eq_comm, getElem?_eq_some_iff] at hmap
    obtain ⟨hlt, heq⟩ := hmap
    rw [getElem_range] at heq
    rw [length_range] at hlt
    exact ⟨heq, (nodePos_lt_iff h k n).mp (heq ▸ hlt)⟩
  · rintro ⟨rfl, hle⟩
    rw [getElem?_range ((nodePos_lt_iff h k n).mpr hle), Option.map_eq_some_iff] at hmap
    obtain ⟨⟨h', k'⟩, hp, heq⟩ := hmap
    obtain ⟨rfl, rfl⟩ := nodePos_inj heq
    exact hp

/-- A peak is an even node: its sibling is not over the leaves any more. -/
lemma even_of_mem_peaks {e : ℕ} (hmem : (e, k) ∈ peaks n) : n / 2 ^ e = k + 1 ∧ k % 2 = 0 := by
  obtain ⟨e', he, heq⟩ := mem_map.mp hmem
  obtain ⟨rfl, rfl⟩ := Prod.mk.inj heq
  rw [mem_bitIndices, testBit_eq_decide_div_mod_eq, decide_eq_true_iff] at he
  generalize n / 2 ^ e' = q at he ⊢
  omega

/-- A peak has no parent. -/
lemma not_allLeaves_of_mem_peaks {e : ℕ} {P : ℕ → Prop} (hmem : (e, k) ∈ peaks n) :
    ¬ AllLeaves n P (e + 1) (k / 2) := by
  intro hall
  obtain ⟨hdiv, heven⟩ := even_of_mem_peaks hmem
  have hlt := (allLeaves_succ.mp hall).2.lt_div
  omega

/-! ### Hashes of nodes -/

section Hashes

variable {D α : Type} (leaf : ℕ → α → D) (parent : ℕ → D → D → D)

/-- The hash of the `k`-th node of height `h` over a list of leaves, if all its leaves are there.
Leaves and parents are hashed with their position. -/
def nodeHash (leaves : List α) : ℕ → ℕ → Option D
  | 0, k => leaves[k]?.map (leaf (nodePos 0 k))
  | h + 1, k =>
    Option.map₂ (parent (nodePos (h + 1) k)) (nodeHash leaves h (2 * k))
      (nodeHash leaves h (2 * k + 1))

/-- Nodes have a hash as soon as their last leaf is there. -/
lemma isSome_nodeHash (leaves : List α) (h k : ℕ) :
    (nodeHash leaf parent leaves h k).isSome = true ↔ (k + 1) * 2 ^ h ≤ leaves.length := by
  induction h generalizing k with
  | zero =>
    rw [nodeHash, Option.isSome_map, isSome_getElem?, pow_zero, mul_one]
    rfl
  | succ h ih =>
    have hmap : ∀ (a b : Option D) (f : D → D → D),
        (Option.map₂ f a b).isSome = true ↔ a.isSome = true ∧ b.isSome = true := by
      intro a b f
      cases a <;> cases b <;> simp
    rw [nodeHash, hmap, ih, ih, (child_leaves h k).2.2.1]
    refine ⟨And.right, fun hle => ⟨le_trans ?_ hle, hle⟩⟩
    exact mul_le_mul_right _ (by omega)

variable {h k : ℕ}

/-- The hash of a node depends on the leaves it covers only. -/
lemma nodeHash_congr {leaves leaves' : List α}
    (heq : ∀ i, k * 2 ^ h ≤ i → i < (k + 1) * 2 ^ h → leaves[i]? = leaves'[i]?) :
    nodeHash leaf parent leaves h k = nodeHash leaf parent leaves' h k := by
  induction h generalizing k with
  | zero => rw [nodeHash, nodeHash, heq k (by omega) (by omega)]
  | succ h ih =>
    obtain ⟨hfirst, hmid, hlast, hlast'⟩ := child_leaves h k
    rw [nodeHash, nodeHash, ih fun i hi hi' => heq i (by omega) (by omega),
      ih fun i hi hi' => heq i (by omega) (by omega)]

/-- Further leaves do not change the nodes that are there. -/
lemma nodeHash_append (leaves more : List α) (hle : (k + 1) * 2 ^ h ≤ leaves.length) :
    nodeHash leaf parent (leaves ++ more) h k = nodeHash leaf parent leaves h k :=
  nodeHash_congr leaf parent fun i _ hi => getElem?_append_left (by omega)

variable {leaf parent}

/-- The hash of a node is one of a leaf or one of a parent. -/
lemma nodeHash_ne {zero : D} (hleaf : ∀ pos a, leaf pos a ≠ zero)
    (hparent : ∀ pos a b, parent pos a b ≠ zero) {leaves : List α} {d : D}
    (hd : nodeHash leaf parent leaves h k = some d) : d ≠ zero := by
  cases h with
  | zero =>
    obtain ⟨a, -, rfl⟩ := Option.map_eq_some_iff.mp hd
    exact hleaf _ a
  | succ h =>
    obtain ⟨a, b, -, -, rfl⟩ := Option.map₂_eq_some_iff.mp hd
    exact hparent _ a b

/-- Ideal hashes of a node determine the leaves under it. -/
lemma nodeHash_injective (hleaf : ∀ pos, Function.Injective (leaf pos))
    (hparent : ∀ pos, Function.Injective2 (parent pos)) {l l' : List α}
    (hle : (k + 1) * 2 ^ h ≤ l.length) (hle' : (k + 1) * 2 ^ h ≤ l'.length)
    (heq : nodeHash leaf parent l h k = nodeHash leaf parent l' h k) {i : ℕ} (hi : k * 2 ^ h ≤ i)
    (hi' : i < (k + 1) * 2 ^ h) : l[i]? = l'[i]? := by
  induction h generalizing k with
  | zero =>
    obtain rfl : i = k := by omega
    exact Option.map_injective (hleaf _) heq
  | succ h ih =>
    obtain ⟨hfirst, hmid, hlast, hlast'⟩ := child_leaves h k
    obtain ⟨d, hd⟩ := Option.isSome_iff_exists.mp ((isSome_nodeHash leaf parent l _ k).mpr hle)
    rw [hd, eq_comm] at heq
    obtain ⟨a, b, ha, hb, rfl⟩ := Option.map₂_eq_some_iff.mp hd
    obtain ⟨a', b', ha', hb', hab⟩ := Option.map₂_eq_some_iff.mp heq
    obtain ⟨rfl, rfl⟩ := hparent _ hab
    by_cases hleft : i < (2 * k + 1) * 2 ^ h
    · exact ih (by omega) (by omega) (ha.trans ha'.symm) (by omega) hleft
    · exact ih (by omega) (by omega) (hb.trans hb'.symm) (by omega) (by omega)

variable (leaf parent)

/-- Hashing hashes of peaks together from the right. -/
def bagged (join : D → D → D) : List D → Option D
  | [] => none
  | d :: ds => some (ds.foldl (fun hash peak => join peak hash) d)

/-- The root over a list of leaves: the hashes of the peaks are joined from the right, under the
number of nodes. -/
def rangeRoot (leaves : List α) : Option D :=
  bagged (parent (nodePos 0 leaves.length))
    ((peaks leaves.length).filterMap fun (h, k) => nodeHash leaf parent leaves h k)

end Hashes

/-! ### Bagging -/

section Bag

variable {D : Type} [DecidableEq D] (join : D → D → D) (zero : D)

/-- One step of bagging: a zero hash counts as "nothing bagged yet". -/
def bagStep (hash peak : D) : D := if hash = zero then peak else join peak hash

/-- Bag a list of tops, the rightmost first. -/
def bag (peaks : List D) : D := peaks.foldl (bagStep join zero) zero

variable {join zero}

/-- Bagging loses nothing. -/
private lemma foldl_bagStep_injective (hjoin : Function.Injective2 join)
    (hzero : ∀ a b, join a b ≠ zero) {hash hash' : D} {l l' : List D} (hhash : hash ≠ zero)
    (hhash' : hash' ≠ zero) (hlen : l.length = l'.length)
    (h : l.foldl (bagStep join zero) hash = l'.foldl (bagStep join zero) hash') :
    hash = hash' ∧ l = l' := by
  induction l generalizing hash hash' l' with
  | nil =>
    obtain rfl := length_eq_zero_iff.mp hlen.symm
    exact ⟨h, rfl⟩
  | cons a l ih =>
    cases l' with
    | nil => simp at hlen
    | cons a' l' =>
      rw [foldl_cons, foldl_cons, bagStep, bagStep, if_neg hhash, if_neg hhash'] at h
      obtain ⟨hstep, rfl⟩ := ih (hzero _ _) (hzero _ _) (by simpa using hlen) h
      obtain ⟨rfl, rfl⟩ := hjoin hstep
      exact ⟨rfl, rfl⟩

/-- Among lists of the same length without zeros the bag determines the tops. -/
lemma bag_injective (hjoin : Function.Injective2 join) (hzero : ∀ a b, join a b ≠ zero)
    {l l' : List D} (hl : ∀ a ∈ l, a ≠ zero) (hl' : ∀ a ∈ l', a ≠ zero)
    (hlen : l.length = l'.length) (h : bag join zero l = bag join zero l') : l = l' := by
  cases l with
  | nil => exact (length_eq_zero_iff.mp hlen.symm).symm
  | cons a l =>
    cases l' with
    | nil => simp at hlen
    | cons a' l' =>
      rw [bag, bag, foldl_cons, foldl_cons, bagStep, bagStep, if_pos rfl, if_pos rfl] at h
      obtain ⟨rfl, rfl⟩ := foldl_bagStep_injective hjoin hzero (hl a (by simp))
        (hl' a' (by simp)) (by simpa using hlen) h
      rfl

end Bag

end Aegisum
