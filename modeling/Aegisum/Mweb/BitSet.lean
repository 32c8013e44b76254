import Mathlib.Data.List.GetD
import Aegisum.Foundations.Compaction

/-!
# Bit sets

`BitSet`, a string of bits with its rank function.  Bits after the last one read as clear.
-/

namespace Aegisum

open List

namespace Mw

/-- A string of bits. -/
structure BitSet where
  bits : List Bool
deriving DecidableEq

namespace BitSet

/-- Bits that are all clear. -/
def ofSize (size : ℕ) : BitSet := ⟨List.replicate size false⟩

/-- The number of bits. -/
def size (b : BitSet) : ℕ := b.bits.length

/-- Whether a bit is set.  Bits after the last one are clear. -/
def test (b : BitSet) (idx : ℕ) : Bool := b.bits.getD idx false

/-- Set or clear a bit. -/
def set (b : BitSet) (idx : ℕ) (val : Bool) : BitSet := ⟨b.bits.set idx val⟩

/-- The number of set bits. -/
def count (b : BitSet) : ℕ := b.bits.count true

/-- The loop of `rank`, which stops at the end of the bits. -/
def rankLoop (b : BitSet) : ℕ → ℕ → ℕ → ℕ
  | 0, _, rank => rank
  | n + 1, i, rank =>
    if i ≥ b.size then rank else rankLoop b n (i + 1) (if b.test i then rank + 1 else rank)

/-- The number of set bits before an index. -/
def rank (b : BitSet) (idx : ℕ) : ℕ := b.rankLoop idx 0 0

/-- The bits of some bytes, the highest bit of a byte first. -/
def «from» (bytes : List UInt8) : BitSet :=
  ⟨bytes.flatMap fun byte => (List.range 8).map fun i => byte &&& (0x80 >>> UInt8.ofNat i) != 0⟩

/-- The bits as bytes, of which the last one is filled up with zeros. -/
def bytes (b : BitSet) : List UInt8 :=
  (List.range ((b.size + 7) / 8)).map fun i =>
    (List.range 8).foldl
      (fun byte j =>
        if b.size > i * 8 + j ∧ b.test (i * 8 + j) then byte ||| (0x80 >>> UInt8.ofNat j)
        else byte) 0

lemma test_eq_false {b : BitSet} {idx : ℕ} (h : b.size ≤ idx) : b.test idx = false := by
  rw [test, getD_eq_default _ _ h]

lemma lt_size_of_test {b : BitSet} {idx : ℕ} (h : b.test idx = true) : idx < b.size := by
  by_contra hle
  rw [test_eq_false (Nat.le_of_not_lt hle)] at h
  cases h

lemma test_set (b : BitSet) (idx : ℕ) (val : Bool) (i : ℕ) :
    (b.set idx val).test i = if i = idx ∧ idx < b.size then val else b.test i := by
  simp only [test, set, getD_eq_getElem?_getD, getElem?_set, size]
  by_cases heq : idx = i
  · subst heq
    by_cases hlt : idx < b.bits.length
    · simp [hlt]
    · simp [hlt]
  · rw [if_neg heq, if_neg fun h => heq h.1.symm]

@[simp] lemma size_set (b : BitSet) (idx : ℕ) (val : Bool) : (b.set idx val).size = b.size := by
  simp [set, size]

@[simp] lemma size_ofSize (n : ℕ) : (ofSize n).size = n := by simp [ofSize, size]

@[simp] lemma test_ofSize (n i : ℕ) : (ofSize n).test i = false := by
  rw [test, ofSize, getD_eq_getElem?_getD, getElem?_replicate]
  split <;> rfl

lemma rankLoop_eq (b : BitSet) (n i rank : ℕ) :
    b.rankLoop n i rank + Nat.count (b.test · = true) i =
      rank + Nat.count (b.test · = true) (i + n) := by
  induction n generalizing i rank with
  | zero => rfl
  | succ n ih =>
    rw [rankLoop]
    split
    case isTrue hend =>
      -- no bits are set from here on
      have hnone : ∀ k, Nat.count (b.test · = true) (i + k) = Nat.count (b.test · = true) i := by
        intro k
        rw [Nat.count_add]
        simp [test_eq_false (b := b) (Nat.le_trans hend (Nat.le_add_right i _))]
      rw [hnone]
    case isFalse =>
      have hstep := ih (i + 1) (if b.test i then rank + 1 else rank)
      rw [Nat.count_succ, show i + 1 + n = i + (n + 1) by omega] at hstep
      by_cases hset : b.test i = true
      · rw [if_pos hset, if_pos hset] at hstep
        rw [if_pos hset]
        omega
      · rw [if_neg hset, if_neg hset] at hstep
        rw [if_neg hset]
        omega

lemma rank_eq_count (b : BitSet) (idx : ℕ) : b.rank idx = Nat.count (b.test · = true) idx := by
  have h := b.rankLoop_eq idx 0 0
  rwa [Nat.count_zero, Nat.add_zero, Nat.zero_add, Nat.zero_add] at h

/-- All set bits are before the end. -/
lemma count_eq_count (b : BitSet) {n : ℕ} (hn : ∀ i, b.test i = true → i < n) :
    b.count = Nat.count (b.test · = true) n := by
  have hall : ∀ l : List Bool, l.count true = Nat.count (l.getD · false = true) l.length := by
    intro l
    induction l with
    | nil => rfl
    | cons bit l ih =>
      rw [length_cons, Nat.count_succ', count_cons, ih]
      cases bit <;> rfl
  calc b.count = Nat.count (b.test · = true) b.size := hall b.bits
    _ = Nat.count (b.test · = true) (max n b.size) :=
      (count_eq_of_forall_lt (fun _ => lt_size_of_test) (Nat.le_max_right _ _)).symm
    _ = Nat.count (b.test · = true) n := count_eq_of_forall_lt hn (Nat.le_max_left _ _)

/-! ### Bytes -/

/-- An entry of lists of the same length put together. -/
lemma getElem?_flatMap {α β : Type} {g : α → List β} {c : ℕ} (hc : 0 < c)
    (hg : ∀ a, (g a).length = c) (l : List α) (k : ℕ) :
    (l.flatMap g)[k]? = l[k / c]?.bind fun a => (g a)[k % c]? := by
  induction l generalizing k with
  | nil => simp
  | cons a l ih =>
    rw [flatMap_cons, getElem?_append, hg]
    split
    case isTrue hlt =>
      rw [Nat.div_eq_of_lt hlt, Nat.mod_eq_of_lt hlt]
      rfl
    case isFalse hge =>
      obtain ⟨k, rfl⟩ := Nat.exists_eq_add_of_le' (Nat.le_of_not_lt hge)
      rw [Nat.add_sub_cancel, ih, Nat.add_div_right _ hc, Nat.add_mod_right]
      rfl

/-- Setting bits of a byte and reading them again. -/
lemma and_foldl_or (p : ℕ → Bool) {j : ℕ} (hj : j < 8) :
    ((range 8).foldl
      (fun byte i => if p i then byte ||| (0x80 >>> UInt8.ofNat i) else byte) (0 : UInt8) &&&
        (0x80 >>> UInt8.ofNat j) != 0) = p j := by
  have hall : ∀ p₀ p₁ p₂ p₃ p₄ p₅ p₆ p₇ : Bool, ∀ j < 8,
      ([p₀, p₁, p₂, p₃, p₄, p₅, p₆, p₇].zipIdx.foldl
        (fun byte e => if e.1 then byte ||| (0x80 >>> UInt8.ofNat e.2) else byte) (0 : UInt8) &&&
          (0x80 >>> UInt8.ofNat j) != 0) = [p₀, p₁, p₂, p₃, p₄, p₅, p₆, p₇].getD j false := by
    decide +kernel
  have hbits := hall (p 0) (p 1) (p 2) (p 3) (p 4) (p 5) (p 6) (p 7) j hj
  refine Eq.trans ?_ (hbits.trans ?_)
  · rfl
  · match j, hj with
    | 0, _ | 1, _ | 2, _ | 3, _ | 4, _ | 5, _ | 6, _ | 7, _ => rfl

/-- Reading the bytes again gives the same bits. -/
lemma test_from_bytes (b : BitSet) (k : ℕ) : (BitSet.from b.bytes).test k = b.test k := by
  have hbyte : ∀ byte : UInt8, ((range 8).map fun i =>
      byte &&& (0x80 >>> UInt8.ofNat i) != 0).length = 8 := by simp
  rw [test, BitSet.from, getD_eq_getElem?_getD, getElem?_flatMap (by decide) hbyte, bytes,
    getElem?_map]
  by_cases hk : k / 8 < (b.size + 7) / 8
  · have hmod : k % 8 < 8 := Nat.mod_lt _ (by decide)
    have hp := and_foldl_or
      (fun j => decide (b.size > k / 8 * 8 + j ∧ b.test (k / 8 * 8 + j) = true)) hmod
    simp only [decide_eq_true_eq] at hp
    rw [getElem?_range hk, Option.map_some, Option.bind_some, getElem?_map,
      getElem?_range hmod, Option.map_some, Option.getD_some, hp, Nat.div_add_mod']
    by_cases hlt : k < b.size
    · simp [hlt]
    · rw [test_eq_false (Nat.le_of_not_lt hlt)]
      simp
  · rw [getElem?_eq_none (by rw [length_range]; omega), test_eq_false (by omega)]
    rfl

/-- As many bits are set. -/
lemma count_from_bytes (b : BitSet) : (BitSet.from b.bytes).count = b.count := by
  rw [b.count_eq_count fun _ => lt_size_of_test,
    (BitSet.from b.bytes).count_eq_count fun i hi =>
      lt_size_of_test ((b.test_from_bytes i).symm.trans hi)]
  simp only [test_from_bytes]

end BitSet

end Mw

end Aegisum
