import Mathlib.Logic.Function.Basic
import Mathlib.Data.List.Basic
import Mathlib.Tactic.IntervalCases

/-!
# The leaf set

The bitmap of unspent output leaves (`ILeafSet`).  Bits are numbered from the most
significant bit of each byte; bytes that were never written read as zero.
-/

namespace Aegisum

namespace Mw

/-- The bitmap, with the index of the next leaf to be added. -/
@[ext] structure LeafSet where
  getByte : ℕ → UInt8
  nextLeafIdx : ℕ

namespace LeafSet

/-- The empty leaf set. -/
def empty : LeafSet := ⟨fun _ => 0, 0⟩

/-- The mask of a bit of a byte. -/
def bitToByte (bit : ℕ) : UInt8 := 1 <<< (7 - UInt8.ofNat bit)

/-- Overwrite one byte. -/
def setByte (s : LeafSet) (byteIdx : ℕ) (value : UInt8) : LeafSet :=
  { s with getByte := Function.update s.getByte byteIdx value }

/-- Set the bit of a leaf. -/
def add (s : LeafSet) (idx : ℕ) : LeafSet :=
  let s' := s.setByte (idx / 8) (s.getByte (idx / 8) ||| bitToByte (idx % 8))
  { s' with nextLeafIdx := if idx ≥ s.nextLeafIdx then idx + 1 else s.nextLeafIdx }

/-- Clear the bit of a leaf. -/
def remove (s : LeafSet) (idx : ℕ) : LeafSet :=
  s.setByte (idx / 8) (s.getByte (idx / 8) &&& (0xff ^^^ bitToByte (idx % 8)))

/-- The bit of a leaf is set. -/
def contains (s : LeafSet) (idx : ℕ) : Bool :=
  s.getByte (idx / 8) &&& bitToByte (idx % 8) != 0

/-- The bytes that cover the leaves added so far. -/
def toBytes (s : LeafSet) : List UInt8 :=
  (List.range ((s.nextLeafIdx + 7) / 8)).map s.getByte

/-- Go back to the first `numLeaves` leaves, with the given leaves unspent again. -/
def rewind (s : LeafSet) (numLeaves : ℕ) (leavesToAdd : List ℕ) : LeafSet :=
  let added := leavesToAdd.foldl add s
  let cleared := (List.range' numLeaves (added.nextLeafIdx - numLeaves)).foldl remove added
  { cleared with nextLeafIdx := numLeaves }

/-! ### Bits -/

lemma toBitVec_bitToByte {bit : ℕ} (h : bit < 8) :
    (bitToByte bit).toBitVec = BitVec.twoPow 8 (7 - bit) := by
  interval_cases bit <;> rfl

/-- The mask picks one bit. -/
lemma and_bitToByte_eq_zero (x : UInt8) {bit : ℕ} (h : bit < 8) :
    x &&& bitToByte bit = 0 ↔ x.toBitVec.getLsbD (7 - bit) = false := by
  have hne : BitVec.twoPow 8 (7 - bit) ≠ 0#8 := by
    interval_cases bit <;> decide
  rw [← UInt8.toBitVec_inj, UInt8.toBitVec_and, toBitVec_bitToByte h, BitVec.and_twoPow]
  cases x.toBitVec.getLsbD (7 - bit) with
  | true => simpa using hne
  | false => simp

lemma contains_iff (s : LeafSet) (idx : ℕ) :
    s.contains idx = true ↔ (s.getByte (idx / 8)).toBitVec.getLsbD (7 - idx % 8) = true := by
  rw [contains, bne_iff_ne, ne_eq, and_bitToByte_eq_zero _ (Nat.mod_lt _ (by decide)),
    Bool.not_eq_false]

/-- Among the leaves of a byte, the mask of one has its bit only. -/
lemma getLsbD_bitToByte {idx i : ℕ} (hbyte : i / 8 = idx / 8) :
    (bitToByte (idx % 8)).toBitVec.getLsbD (7 - i % 8) = decide (i = idx) := by
  have hbit : 7 - idx % 8 = 7 - i % 8 ↔ i = idx := by omega
  have hlt : 7 - idx % 8 < 8 := by omega
  rw [toBitVec_bitToByte (Nat.mod_lt idx (by decide)), BitVec.getLsbD_twoPow]
  simp only [hlt, hbit, decide_true, Bool.true_and]

/-- Adding a leaf sets its bit and no other. -/
lemma contains_add (s : LeafSet) (idx i : ℕ) :
    (s.add idx).contains i = true ↔ i = idx ∨ s.contains i = true := by
  rw [contains_iff, contains_iff]
  simp only [add, setByte]
  by_cases hbyte : i / 8 = idx / 8
  · rw [hbyte, Function.update_self, UInt8.toBitVec_or, BitVec.getLsbD_or,
      getLsbD_bitToByte hbyte, Bool.or_eq_true, decide_eq_true_eq]
    exact or_comm
  · have hne : i ≠ idx := fun h => hbyte (by rw [h])
    rw [Function.update_of_ne hbyte]
    simp [hne]

/-- Removing a leaf clears its bit and no other. -/
lemma contains_remove (s : LeafSet) (idx i : ℕ) :
    (s.remove idx).contains i = true ↔ i ≠ idx ∧ s.contains i = true := by
  have hall : (0xff : UInt8).toBitVec = BitVec.allOnes 8 := by decide
  rw [contains_iff, contains_iff]
  simp only [remove, setByte]
  by_cases hbyte : i / 8 = idx / 8
  · have hlt : 7 - i % 8 < 8 := by omega
    rw [hbyte, Function.update_self, UInt8.toBitVec_and, UInt8.toBitVec_xor, hall,
      BitVec.getLsbD_and, BitVec.getLsbD_xor, getLsbD_bitToByte hbyte, BitVec.getLsbD_allOnes,
      Bool.and_eq_true]
    simp only [hlt, decide_true, Bool.true_xor, Bool.not_eq_true', decide_eq_false_iff_not]
    exact and_comm
  · have hne : i ≠ idx := fun h => hbyte (by rw [h])
    rw [Function.update_of_ne hbyte]
    simp [hne]

/-! ### Bytes -/

/-- No byte after those of the leaves added so far was written. -/
def Bounded (s : LeafSet) : Prop := ∀ i, s.nextLeafIdx ≤ 8 * i → s.getByte i = 0

lemma bounded_empty : empty.Bounded := fun _ _ => rfl

lemma Bounded.add {s : LeafSet} (h : s.Bounded) {idx : ℕ} : (s.add idx).Bounded := by
  intro i hi
  simp only [LeafSet.add, setByte] at hi ⊢
  have hne : i ≠ idx / 8 := by
    intro heq
    split at hi <;> omega
  rw [Function.update_of_ne hne]
  refine h i ?_
  split at hi <;> omega

lemma Bounded.remove {s : LeafSet} (h : s.Bounded) {idx : ℕ} : (s.remove idx).Bounded := by
  intro i hi
  simp only [LeafSet.remove, setByte] at hi ⊢
  by_cases hidx : i = idx / 8
  · rw [hidx, Function.update_self, ← hidx, h i hi, UInt8.zero_and]
  · rw [Function.update_of_ne hidx, h i hi]

/-- The serialized bytes and the number of leaves determine the leaf set. -/
lemma eq_of_toBytes_eq {s s' : LeafSet} (hs : s.Bounded) (hs' : s'.Bounded)
    (hnext : s.nextLeafIdx = s'.nextLeafIdx) (hbytes : s.toBytes = s'.toBytes) : s = s' := by
  refine LeafSet.ext (funext fun i => ?_) hnext
  rw [toBytes, toBytes, ← hnext] at hbytes
  by_cases hi : i < (s.nextLeafIdx + 7) / 8
  · exact List.map_inj_left.mp hbytes i (List.mem_range.mpr hi)
  · rw [hs i (by omega), hs' i (by omega)]

/-- The bits and the number of leaves determine the leaf set. -/
lemma ext_contains {s s' : LeafSet} (hnext : s.nextLeafIdx = s'.nextLeafIdx)
    (h : ∀ i, s.contains i = true ↔ s'.contains i = true) : s = s' := by
  refine LeafSet.ext (funext fun byteIdx => ?_) hnext
  rw [← UInt8.toBitVec_inj]
  apply BitVec.eq_of_getLsbD_eq
  intro bit hbit
  have hbits := h (8 * byteIdx + (7 - bit))
  have hdiv : (8 * byteIdx + (7 - bit)) / 8 = byteIdx := by omega
  have hmod : 7 - (8 * byteIdx + (7 - bit)) % 8 = bit := by omega
  rw [contains_iff, contains_iff, hdiv, hmod] at hbits
  exact Bool.eq_iff_iff.mpr hbits

/-! ### Rewinding -/

/-- Every leaf with a set bit was added. -/
def InRange (s : LeafSet) : Prop := ∀ i, s.contains i = true → i < s.nextLeafIdx

lemma contains_foldl_add (s : LeafSet) (leaves : List ℕ) (i : ℕ) :
    (leaves.foldl add s).contains i = true ↔ i ∈ leaves ∨ s.contains i = true := by
  induction leaves generalizing s with
  | nil => simp
  | cons idx leaves ih =>
    rw [List.foldl_cons, ih, contains_add, List.mem_cons]
    tauto

lemma InRange.add {s : LeafSet} (h : s.InRange) (idx : ℕ) : (s.add idx).InRange := by
  intro i hi
  have hnext : (s.add idx).nextLeafIdx = if idx ≥ s.nextLeafIdx then idx + 1 else s.nextLeafIdx :=
    rfl
  rw [hnext]
  rcases (contains_add s idx i).mp hi with rfl | hi
  · split <;> omega
  · have := h i hi
    split <;> omega

lemma InRange.foldl_add {s : LeafSet} (h : s.InRange) (leaves : List ℕ) :
    (leaves.foldl LeafSet.add s).InRange := by
  induction leaves generalizing s with
  | nil => exact h
  | cons idx leaves ih => exact ih (h.add idx)

lemma contains_foldl_remove (s : LeafSet) (leaves : List ℕ) (i : ℕ) :
    (leaves.foldl remove s).contains i = true ↔ i ∉ leaves ∧ s.contains i = true := by
  induction leaves generalizing s with
  | nil => simp
  | cons idx leaves ih =>
    rw [List.foldl_cons, ih, contains_remove, List.mem_cons]
    tauto

/-- After rewinding, the leaves before the limit are set that were set or are put back. -/
lemma contains_rewind {s : LeafSet} (h : s.InRange) (numLeaves : ℕ) (leavesToAdd : List ℕ) (i : ℕ) :
    (s.rewind numLeaves leavesToAdd).contains i = true ↔
      i < numLeaves ∧ (i ∈ leavesToAdd ∨ s.contains i = true) := by
  have hadded := h.foldl_add leavesToAdd
  change ((List.range' numLeaves ((leavesToAdd.foldl add s).nextLeafIdx - numLeaves)).foldl remove
    (leavesToAdd.foldl add s)).contains i = true ↔ _
  rw [contains_foldl_remove, List.mem_range'_1, contains_foldl_add]
  constructor
  · rintro ⟨hout, hset⟩
    have hlt := hadded i ((contains_foldl_add s leavesToAdd i).mpr hset)
    exact ⟨by omega, hset⟩
  · rintro ⟨hlt, hset⟩
    exact ⟨by omega, hset⟩

@[simp] lemma rewind_nextLeafIdx (s : LeafSet) (numLeaves : ℕ) (leavesToAdd : List ℕ) :
    (s.rewind numLeaves leavesToAdd).nextLeafIdx = numLeaves := rfl

end LeafSet

end Mw

end Aegisum
