import Aegisum.Model.ArithUint
import Mathlib.Data.Nat.Bitwise

/-!
# Compact targets

`arith_uint256::SetCompact` and `GetCompact`.  A target is stored in 32 bits, like a floating point
number: the high byte is the number of bytes, the low 23 bits are the first three of them, and the
bit between the two is the sign.  Encoding rounds down to the bytes that are kept.
-/

namespace Aegisum

open Nat

/-- `arith_uint256`. -/
abbrev ArithUInt256 := BaseUInt 8

/-- What `SetCompact` returns. -/
structure SetCompact where
  target : ArithUInt256
  fNegative : Bool
  fOverflow : Bool

/-- `SetCompact`. -/
def setCompact (nCompact : ℕ) : SetCompact :=
  let nCompact := nCompact % 2 ^ 32
  let nSize := nCompact >>> 24
  let mantissa := nCompact &&& 0x007fffff
  let nWord := if nSize ≤ 3 then mantissa >>> (8 * (3 - nSize)) else mantissa
  { target :=
      if nSize ≤ 3 then .ofUInt64 (.ofNat 64 nWord)
      else (BaseUInt.ofUInt64 (.ofNat 64 nWord)).shiftLeft (8 * (nSize - 3))
    fNegative := nWord ≠ 0 ∧ nCompact &&& 0x00800000 ≠ 0
    fOverflow := nWord ≠ 0 ∧
      (nSize > 34 ∨ nWord > 0xff ∧ nSize > 33 ∨ nWord > 0xffff ∧ nSize > 32) }

namespace BaseUInt

/-- The two low words. -/
def getLow64 (a : ArithUInt256) : ℕ := (a.limb 0).toNat ||| (a.limb 1).toNat <<< 32

/-- `GetCompact` of a number that is not negative.  It fails where an assertion does. -/
def getCompact (a : ArithUInt256) : Option ℕ :=
  let nSize := (a.bits + 7) / 8
  let nCompact :=
    if nSize ≤ 3 then a.getLow64 <<< (8 * (3 - nSize)) % 2 ^ 32
    else (a.shiftRight (8 * (nSize - 3))).getLow64 % 2 ^ 32
  -- the sign bit must not be set
  let (nCompact, nSize) :=
    if nCompact &&& 0x00800000 ≠ 0 then (nCompact >>> 8, nSize + 1) else (nCompact, nSize)
  if nCompact < 0x00800000 ∧ nSize < 256 then some (nCompact ||| nSize <<< 24) else none

/-! ### Values -/

/-- A 64-bit number is represented. -/
lemma value_ofUInt64 {b : ℕ} (hb : b < 2 ^ 64) :
    (ofUInt64 (.ofNat 64 b) : ArithUInt256).value = b := by
  have hpn : (ofUInt64 (.ofNat 64 b) : ArithUInt256).pn =
      [(BitVec.ofNat 64 b).setWidth 32, (BitVec.ofNat 64 b >>> 32).setWidth 32, 0, 0, 0, 0, 0, 0] :=
    rfl
  rw [value, hpn]
  simp only [limbValue, BitVec.toNat_setWidth, BitVec.toNat_ushiftRight, BitVec.toNat_ofNat,
    BitVec.ofNat_eq_ofNat, shiftRight_eq_div_pow]
  omega

lemma getLow64_eq (a : ArithUInt256) : a.getLow64 = a.value % 2 ^ 64 := by
  obtain ⟨pn, hlen⟩ := a
  obtain _ | ⟨d₀, _ | ⟨d₁, pn⟩⟩ := pn
  · cases hlen
  · cases hlen
  · have h₀ := d₀.isLt
    have h₁ := d₁.isLt
    have hvalue : (⟨d₀ :: d₁ :: pn, hlen⟩ : ArithUInt256).value =
        d₀.toNat + 2 ^ 32 * (d₁.toNat + 2 ^ 32 * limbValue pn) := rfl
    have hlow : (⟨d₀ :: d₁ :: pn, hlen⟩ : ArithUInt256).getLow64 = d₁.toNat <<< 32 + d₀.toNat := by
      rw [Nat.shiftLeft_add_eq_or_of_lt h₀, Nat.or_comm]
      rfl
    rw [hvalue, hlow, Nat.shiftLeft_eq]
    omega

end BaseUInt

/-! ### Encoding and decoding -/

/-- The number that a compact target stands for. -/
def decodeCompact (nCompact : ℕ) : ℕ :=
  let nSize := nCompact / 2 ^ 24
  if nSize ≤ 3 then nCompact % 2 ^ 23 / 2 ^ (8 * (3 - nSize))
  else nCompact % 2 ^ 23 * 2 ^ (8 * (nSize - 3))

/-- The number of bytes of a number. -/
def byteSize (x : ℕ) : ℕ := (x.size + 7) / 8

/-- The first three bytes of a number. -/
def mantissa (x : ℕ) : ℕ :=
  if byteSize x ≤ 3 then x * 2 ^ (8 * (3 - byteSize x)) else x / 2 ^ (8 * (byteSize x - 3))

/-- The compact target of a number. -/
def encodeCompact (x : ℕ) : ℕ :=
  if mantissa x < 2 ^ 23 then mantissa x + 2 ^ 24 * byteSize x
  else mantissa x / 2 ^ 8 + 2 ^ 24 * (byteSize x + 1)

/-- The number of bytes that are stored: one more if the first bit of the first byte would be taken
for the sign. -/
def compactSize (x : ℕ) : ℕ := if mantissa x < 2 ^ 23 then byteSize x else byteSize x + 1

/-- The bits that are stored. -/
def compactWord (x : ℕ) : ℕ := if mantissa x < 2 ^ 23 then mantissa x else mantissa x / 2 ^ 8

/-- The word and the size do not overlap. -/
lemma encodeCompact_eq (x : ℕ) : encodeCompact x = compactWord x + 2 ^ 24 * compactSize x := by
  rw [encodeCompact, compactWord, compactSize]
  split <;> rfl

/-- A number fits its bytes. -/
lemma lt_byteSize (x : ℕ) : x < 2 ^ (8 * byteSize x) := by
  refine Nat.lt_of_lt_of_le (Nat.lt_size_self x) (Nat.pow_le_pow_right (by decide) ?_)
  rw [byteSize]
  omega

variable {x nCompact : ℕ}

/-- The top byte is not zero. -/
lemma le_of_byteSize (hx : x ≠ 0) : byteSize x ≠ 0 ∧ 2 ^ (8 * (byteSize x - 1)) ≤ x := by
  have hpos := size_pos.mpr (pos_of_ne_zero hx)
  refine ⟨by rw [byteSize]; omega, ?_⟩
  rw [← lt_size, byteSize]
  omega

lemma byteSize_le {n : ℕ} (hx : x < 2 ^ (8 * n)) : byteSize x ≤ n := by
  have hsize := size_le.mpr hx
  rw [byteSize]
  omega

/-- The mantissa has three bytes. -/
lemma mantissa_lt (x : ℕ) : mantissa x < 2 ^ 24 := by
  have hx := lt_byteSize x
  rw [mantissa]
  split
  case isTrue hle =>
    calc x * 2 ^ (8 * (3 - byteSize x))
        < 2 ^ (8 * byteSize x) * 2 ^ (8 * (3 - byteSize x)) :=
          Nat.mul_lt_mul_of_pos_right hx (Nat.two_pow_pos _)
      _ = 2 ^ 24 := by rw [← Nat.pow_add]; congr 1; omega
  case isFalse hgt =>
    rw [Nat.div_lt_iff_lt_mul (Nat.two_pow_pos _), ← Nat.pow_add]
    rwa [show 24 + 8 * (byteSize x - 3) = 8 * byteSize x by omega]

/-- The sign bit of the word is clear. -/
lemma compactWord_lt (x : ℕ) : compactWord x < 2 ^ 23 := by
  have hlt := mantissa_lt x
  rw [compactWord]
  split <;> omega

/-- The stored bits are the first bytes of the number. -/
lemma compactWord_eq (x : ℕ) :
    compactWord x =
      if compactSize x ≤ 3 then x * 2 ^ (8 * (3 - compactSize x))
      else x / 2 ^ (8 * (compactSize x - 3)) := by
  rw [compactWord, compactSize]
  by_cases hsign : mantissa x < 2 ^ 23
  · rw [if_pos hsign, if_pos hsign, mantissa]
  · rw [if_neg hsign, if_neg hsign, mantissa]
    by_cases hle : byteSize x ≤ 3
    · rw [if_pos hle]
      by_cases hle' : byteSize x + 1 ≤ 3
      · rw [if_pos hle', show 8 * (3 - byteSize x) = 8 * (3 - (byteSize x + 1)) + 8 by omega,
          Nat.pow_add, ← Nat.mul_assoc, Nat.mul_div_cancel _ (by decide)]
      · rw [if_neg hle', show 8 * (3 - byteSize x) = 0 by omega,
          show 8 * (byteSize x + 1 - 3) = 8 by omega, Nat.pow_zero, Nat.mul_one]
    · rw [if_neg hle, if_neg (by omega), Nat.div_div_eq_div_mul, ← Nat.pow_add,
        show 8 * (byteSize x - 3) + 8 = 8 * (byteSize x + 1 - 3) by omega]

/-- Encoding rounds down to the bytes that are kept. -/
lemma decodeCompact_encodeCompact (x : ℕ) :
    decodeCompact (encodeCompact x) =
      x / 2 ^ (8 * (compactSize x - 3)) * 2 ^ (8 * (compactSize x - 3)) := by
  have hword := compactWord_lt x
  have hsize : encodeCompact x / 2 ^ 24 = compactSize x := by
    rw [encodeCompact_eq]
    omega
  have hmod : encodeCompact x % 2 ^ 23 = compactWord x := by
    rw [encodeCompact_eq]
    omega
  rw [decodeCompact, hsize, hmod, compactWord_eq]
  by_cases hle : compactSize x ≤ 3
  · rw [if_pos hle, if_pos hle, Nat.mul_div_cancel _ (Nat.two_pow_pos _),
      show 8 * (compactSize x - 3) = 0 by omega, Nat.pow_zero, Nat.div_one, Nat.mul_one]
  · rw [if_neg hle, if_neg hle]

/-- The encoding rounds down. -/
lemma decodeCompact_encodeCompact_le (x : ℕ) : decodeCompact (encodeCompact x) ≤ x := by
  rw [decodeCompact_encodeCompact]
  exact div_mul_le_self _ _

/-- A number that is not zero is not rounded to zero. -/
lemma decodeCompact_encodeCompact_ne_zero (hx : x ≠ 0) : decodeCompact (encodeCompact x) ≠ 0 := by
  obtain ⟨hne, hle⟩ := le_of_byteSize hx
  have hpow : 2 ^ (8 * (compactSize x - 3)) ≤ x := by
    refine Nat.le_trans (Nat.pow_le_pow_right (by decide) ?_) hle
    rw [compactSize]
    split <;> omega
  rw [decodeCompact_encodeCompact]
  exact Nat.mul_ne_zero (Nat.ne_of_gt (Nat.div_pos hpow (Nat.two_pow_pos _)))
    (Nat.ne_of_gt (Nat.two_pow_pos _))

lemma compactSize_le {n : ℕ} (hx : x < 2 ^ (8 * n)) : compactSize x ≤ n + 1 := by
  have := byteSize_le hx
  rw [compactSize]
  split <;> omega

/-- The sign bit is the top bit of the top byte. -/
lemma mantissa_lt_iff (hx : x ≠ 0) : mantissa x < 2 ^ 23 ↔ x.size < 8 * byteSize x := by
  obtain ⟨hne, -⟩ := le_of_byteSize hx
  have hsize : x.size < 8 * byteSize x ↔ x < 2 ^ (8 * byteSize x - 1) := by
    rw [← Nat.size_le]
    omega
  rw [hsize, mantissa]
  split
  case isTrue hle =>
    rw [show 23 = 8 * byteSize x - 1 + 8 * (3 - byteSize x) by omega, Nat.pow_add,
      Nat.mul_lt_mul_right (Nat.two_pow_pos _)]
  case isFalse hgt =>
    rw [Nat.div_lt_iff_lt_mul (Nat.two_pow_pos _), ← Nat.pow_add,
      show 23 + 8 * (byteSize x - 3) = 8 * byteSize x - 1 by omega]

/-- The bytes that are stored have room for one bit more than the number has. -/
lemma compactSize_eq (hx : x ≠ 0) : compactSize x = x.size / 8 + 1 := by
  have hsign := mantissa_lt_iff hx
  rw [byteSize] at hsign
  rw [compactSize, byteSize]
  split <;> omega

/-- A number of which bytes are dropped has at least 15 bits before them. -/
lemma two_pow_le_of_compactSize (hsize : 3 < compactSize x) :
    2 ^ 15 * 2 ^ (8 * (compactSize x - 3)) ≤ x := by
  have hx : x ≠ 0 := by
    rintro rfl
    exact absurd hsize (by decide)
  rw [compactSize_eq hx] at hsize ⊢
  rw [← pow_add, ← lt_size]
  omega

/-- Encoding rounds down by at most one part in `2 ^ 15`. -/
lemma sub_decodeCompact_encodeCompact_le (x : ℕ) :
    x - decodeCompact (encodeCompact x) ≤ x / 2 ^ 15 := by
  have hmod := Nat.div_add_mod' x (2 ^ (8 * (compactSize x - 3)))
  have hlt := Nat.mod_lt x (Nat.two_pow_pos (8 * (compactSize x - 3)))
  rw [decodeCompact_encodeCompact, Nat.le_div_iff_mul_le (by decide)]
  rcases Nat.lt_or_ge 3 (compactSize x) with hsize | hsize
  · have hle := two_pow_le_of_compactSize hsize
    omega
  · rw [Nat.sub_eq_zero_of_le hsize] at hmod hlt ⊢
    omega

/-- Encoding gives the largest number that can be stored and is not above. -/
lemma le_decodeCompact_encodeCompact (hle : decodeCompact nCompact ≤ x) :
    decodeCompact nCompact ≤ decodeCompact (encodeCompact x) := by
  obtain ⟨m, hm, k, heq⟩ : ∃ m < 2 ^ 23, ∃ k, decodeCompact nCompact = m * 2 ^ (8 * k) := by
    have hlt : nCompact % 2 ^ 23 < 2 ^ 23 := Nat.mod_lt _ (by decide)
    rw [decodeCompact]
    split
    · exact ⟨_, Nat.lt_of_le_of_lt (Nat.div_le_self _ _) hlt, 0, (Nat.mul_one _).symm⟩
    · exact ⟨_, hlt, _, rfl⟩
  rw [heq] at hle ⊢
  rw [decodeCompact_encodeCompact]
  rcases Nat.lt_or_ge k (compactSize x - 3) with hk | hk
  · -- the first number is too short to reach the bits that are kept
    have hlarge := two_pow_le_of_compactSize (x := x) (by omega)
    rw [← Nat.le_div_iff_mul_le (Nat.two_pow_pos _)] at hlarge
    calc m * 2 ^ (8 * k) ≤ 2 ^ 23 * 2 ^ (8 * k) := Nat.mul_le_mul_right _ (Nat.le_of_lt hm)
      _ = 2 ^ 15 * 2 ^ (8 * (k + 1)) := by rw [Nat.mul_succ, Nat.pow_add]; ring
      _ ≤ 2 ^ 15 * 2 ^ (8 * (compactSize x - 3)) :=
        Nat.mul_le_mul_left _ (Nat.pow_le_pow_right (by decide) (by omega))
      _ ≤ _ := Nat.mul_le_mul_right _ hlarge
  · obtain ⟨e, rfl⟩ := Nat.exists_eq_add_of_le hk
    rw [Nat.mul_add, Nat.pow_add, Nat.mul_left_comm, Nat.mul_comm] at hle ⊢
    exact Nat.mul_le_mul_right _ ((Nat.le_div_iff_mul_le (Nat.two_pow_pos _)).mpr hle)

/-- The form of a compact target that is not zero: the mantissa has at least 16 bits, and no bits
in bytes that are not stored. -/
def CanonicalCompact (nCompact : ℕ) : Prop :=
  nCompact = 0 ∨
    2 ^ 15 ≤ nCompact % 2 ^ 23 ∧ 2 ^ (8 * (3 - nCompact / 2 ^ 24)) ∣ nCompact % 2 ^ 23

/-- A canonical encoding is recovered. -/
lemma encodeCompact_decodeCompact (hcanonical : CanonicalCompact nCompact)
    (hsign : nCompact % 2 ^ 24 < 2 ^ 23) : encodeCompact (decodeCompact nCompact) = nCompact := by
  obtain rfl | ⟨hlow, hdvd⟩ := hcanonical
  · decide
  obtain ⟨s, hs⟩ : ∃ s, nCompact / 2 ^ 24 = s := ⟨_, rfl⟩
  obtain ⟨m, hm⟩ : ∃ m, nCompact % 2 ^ 23 = m := ⟨_, rfl⟩
  have hlt : m < 2 ^ 23 := by
    rw [← hm]
    exact Nat.mod_lt _ (by decide)
  rw [hs, hm] at hdvd
  rw [hm] at hlow
  obtain ⟨x, hx⟩ : ∃ x, decodeCompact nCompact = x := ⟨_, rfl⟩
  have hplaces : x * 2 ^ (8 * (3 - s)) = m * 2 ^ (8 * (s - 3)) := by
    rw [← hx, decodeCompact, hs, hm]
    by_cases hle : s ≤ 3
    · rw [if_pos hle, Nat.div_mul_cancel hdvd, Nat.sub_eq_zero_of_le hle, Nat.mul_zero,
        Nat.pow_zero, Nat.mul_one]
    · rw [if_neg hle, Nat.sub_eq_zero_of_le (Nat.le_of_not_le hle), Nat.mul_zero, Nat.pow_zero,
        Nat.mul_one]
  have hne : x ≠ 0 := by
    rintro rfl
    have hpos := Nat.mul_pos (show 0 < m by omega) (Nat.two_pow_pos (8 * (s - 3)))
    omega
  have hsize : x.size + 8 * (3 - s) = m.size + 8 * (s - 3) := by
    rw [← Nat.size_shiftLeft hne, ← Nat.size_shiftLeft (show m ≠ 0 by omega), Nat.shiftLeft_eq,
      Nat.shiftLeft_eq, hplaces]
  have hbits : 15 < m.size ∧ m.size ≤ 23 := ⟨Nat.lt_size.mpr hlow, Nat.size_le.mpr hlt⟩
  have hbytes : compactSize x = s := by
    rw [compactSize_eq hne]
    omega
  have hword : compactWord x = m := by
    rw [compactWord_eq, hbytes]
    split
    case isTrue hle =>
      rw [hplaces, Nat.sub_eq_zero_of_le hle, Nat.mul_zero, Nat.pow_zero, Nat.mul_one]
    case isFalse hgt =>
      rw [Nat.sub_eq_zero_of_le (Nat.le_of_not_le hgt), Nat.mul_zero, Nat.pow_zero,
        Nat.mul_one] at hplaces
      rw [hplaces, Nat.mul_div_cancel _ (Nat.two_pow_pos _)]
  rw [hx, encodeCompact_eq, hbytes, hword]
  omega

/-- The last bit of a long number does not matter. -/
lemma encodeCompact_congr {y : ℕ} (hx : 2 ^ 24 ≤ x) (heq : x / 2 = y / 2) :
    encodeCompact x = encodeCompact y := by
  have hsize : x.size = y.size := by
    obtain ⟨n, hn⟩ : ∃ n, x.size = n + 1 := Nat.exists_eq_add_one.mpr (Nat.size_pos.mpr (by omega))
    obtain ⟨hle, hlt⟩ := size_eq_iff.mp hn
    obtain ⟨n, rfl⟩ : ∃ k, n = k + 1 := by
      refine Nat.exists_eq_add_one.mpr (Nat.pos_of_ne_zero ?_)
      rintro rfl
      omega
    rw [hn, eq_comm, size_eq_iff]
    rw [Nat.pow_succ] at hle hlt ⊢
    omega
  have hbytes : byteSize x = byteSize y := by rw [byteSize, byteSize, hsize]
  have hmantissa : mantissa x = mantissa y := by
    have hlong : 4 ≤ byteSize x := by
      have := Nat.lt_size.mpr hx
      rw [byteSize]
      omega
    rw [mantissa, mantissa, ← hbytes, if_neg (by omega), if_neg (by omega),
      show 8 * (byteSize x - 3) = 1 + (8 * (byteSize x - 3) - 1) by omega, Nat.pow_add, Nat.pow_one,
      ← Nat.div_div_eq_div_mul, ← Nat.div_div_eq_div_mul, heq]
  rw [encodeCompact, encodeCompact, hmantissa, hbytes]

/-! ### The functions of the source -/

/-- Testing the sign bit. -/
lemma and_signBit_ne_zero (x : ℕ) : x &&& 0x00800000 ≠ 0 ↔ x / 2 ^ 23 % 2 = 1 := by
  rw [show 0x00800000 = 2 ^ 23 from rfl, and_two_pow, testBit_eq_decide_div_mod_eq]
  simp

lemma and_mantissaBits (x : ℕ) : x &&& 0x007fffff = x % 2 ^ 23 :=
  and_two_pow_sub_one_eq_mod x 23

/-- The code encodes as specified. -/
lemma BaseUInt.getCompact_eq (a : ArithUInt256) : a.getCompact = some (encodeCompact a.value) := by
  have hbytes : (a.bits + 7) / 8 = byteSize a.value := by rw [bits_eq, byteSize]
  have hle : byteSize a.value ≤ 32 := byteSize_le a.value_lt
  have hlt := mantissa_lt a.value
  have hword := compactWord_lt a.value
  have hcompact : (if byteSize a.value ≤ 3 then a.getLow64 <<< (8 * (3 - byteSize a.value)) % 2 ^ 32
      else (a.shiftRight (8 * (byteSize a.value - 3))).getLow64 % 2 ^ 32) = mantissa a.value := by
    rw [getLow64_eq, getLow64_eq, value_shiftRight]
    rw [mantissa] at hlt ⊢
    split at hlt
    case isTrue hshort =>
      have hsmall : a.value < 2 ^ 64 := Nat.lt_of_lt_of_le (lt_byteSize _)
        (Nat.pow_le_pow_right (by decide) (by omega))
      rw [if_pos hshort, if_pos hshort, Nat.mod_eq_of_lt hsmall, Nat.shiftLeft_eq,
        Nat.mod_eq_of_lt (by omega)]
    case isFalse hlong =>
      rw [if_neg hlong, if_neg hlong]
      generalize a.value / 2 ^ (8 * (byteSize a.value - 3)) = m at hlt
      omega
  have hsign : mantissa a.value &&& 0x00800000 ≠ 0 ↔ ¬ mantissa a.value < 2 ^ 23 := by
    rw [and_signBit_ne_zero]
    omega
  have hpair : (if mantissa a.value &&& 0x00800000 ≠ 0 then
        (mantissa a.value >>> 8, byteSize a.value + 1) else (mantissa a.value, byteSize a.value)) =
      (compactWord a.value, compactSize a.value) := by
    rw [compactWord, compactSize]
    by_cases h : mantissa a.value < 2 ^ 23
    · rw [if_neg (not_not_intro h ∘ hsign.mp), if_pos h, if_pos h]
    · rw [if_pos (hsign.mpr h), if_neg h, if_neg h, Nat.shiftRight_eq_div_pow]
  have hsize : compactSize a.value ≤ 33 := compactSize_le a.value_lt
  rw [getCompact, hbytes]
  simp only [hcompact, hpair]
  rw [if_pos ⟨hword, by omega⟩, Nat.or_comm, ← Nat.shiftLeft_add_eq_or_of_lt (by omega),
    encodeCompact_eq, Nat.shiftLeft_eq, Nat.mul_comm, Nat.add_comm]

/-- The code decodes as specified, modulo the width. -/
lemma value_target_setCompact (nCompact : ℕ) :
    (setCompact nCompact).target.value = decodeCompact (nCompact % 2 ^ 32) % 2 ^ 256 := by
  have hlt : nCompact % 2 ^ 32 < 2 ^ 32 := mod_lt _ (by decide)
  generalize hc : nCompact % 2 ^ 32 = c at hlt
  have hmod : c % 2 ^ 23 < 2 ^ 23 := mod_lt _ (by decide)
  rw [setCompact]
  simp only [hc, and_mantissaBits, shiftRight_eq_div_pow]
  rw [decodeCompact]
  by_cases hsize : c / 2 ^ 24 ≤ 3
  · have hle : c % 2 ^ 23 / 2 ^ (8 * (3 - c / 2 ^ 24)) < 2 ^ 23 :=
      lt_of_le_of_lt (div_le_self _ _) hmod
    rw [if_pos hsize, if_pos hsize, if_pos hsize,
      BaseUInt.value_ofUInt64 (lt_trans hle (by decide)),
      mod_eq_of_lt (lt_trans hle (by decide))]
  · rw [if_neg hsize, if_neg hsize, if_neg hsize, BaseUInt.value_shiftLeft,
      BaseUInt.value_ofUInt64 (by omega)]

/-- What was encoded is neither negative nor too large. -/
lemma setCompact_encodeCompact (hx : x < 2 ^ 256) :
    (setCompact (encodeCompact x)).target.value = decodeCompact (encodeCompact x) ∧
      (setCompact (encodeCompact x)).fNegative = false ∧
      (setCompact (encodeCompact x)).fOverflow = false := by
  have hword := compactWord_lt x
  have hsize : compactSize x ≤ 33 := compactSize_le hx
  have hmod : encodeCompact x % 2 ^ 32 = encodeCompact x := by
    rw [encodeCompact_eq]
    omega
  refine ⟨?_, ?_, ?_⟩
  · rw [value_target_setCompact, hmod,
      mod_eq_of_lt (lt_of_le_of_lt (decodeCompact_encodeCompact_le x) hx)]
  · have hsign : encodeCompact x &&& 0x00800000 = 0 := by
      by_contra hne
      have hbit := (and_signBit_ne_zero _).mp hne
      rw [encodeCompact_eq] at hbit
      omega
    rw [setCompact]
    simp only [hmod, hsign, ne_eq, not_true_eq_false, and_false, decide_false]
  · -- with 33 bytes the first one is zero
    have hlast : compactSize x = 33 → compactWord x < 2 ^ 16 := by
      intro h33
      have hbytes := byteSize_le (n := 32) hx
      have hlt := mantissa_lt x
      rw [compactSize] at h33
      rw [compactWord]
      split at h33 <;> split <;> omega
    have hdiv : encodeCompact x / 2 ^ 24 = compactSize x := by
      rw [encodeCompact_eq]
      omega
    have hlow : encodeCompact x % 2 ^ 23 = compactWord x := by
      rw [encodeCompact_eq]
      omega
    rw [setCompact]
    simp only [hmod, and_mantissaBits, shiftRight_eq_div_pow, hdiv, hlow]
    rw [decide_eq_false_iff_not]
    rintro ⟨-, h⟩
    have hnot : ¬ compactSize x ≤ 3 := by omega
    rw [if_neg hnot] at h
    omega

/-- A target that is not stored completely is even. -/
lemma lt_or_even_target (nCompact : ℕ) :
    (setCompact nCompact).target.value < 2 ^ 23 ∨ (setCompact nCompact).target.value % 2 = 0 := by
  have hmod : nCompact % 2 ^ 32 % 2 ^ 23 < 2 ^ 23 := mod_lt _ (by decide)
  rw [value_target_setCompact, decodeCompact]
  split
  case isTrue hshort =>
    exact .inl (lt_of_le_of_lt (mod_le _ _) (lt_of_le_of_lt (div_le_self _ _) hmod))
  case isFalse hlong =>
    right
    obtain ⟨k, hk⟩ : ∃ k, 8 * (nCompact % 2 ^ 32 / 2 ^ 24 - 3) = k + 1 :=
      exists_eq_add_one.mpr (by omega)
    have heven : nCompact % 2 ^ 32 % 2 ^ 23 * 2 ^ (k + 1) % 2 = 0 := by
      rw [pow_succ 2 k, ← mul_assoc, mul_mod_left]
    rwa [hk, mod_mod_of_dvd _ (show 2 ∣ 2 ^ 256 from ⟨2 ^ 255, pow_succ'⟩)]

/-- A compact target in canonical form that is neither negative nor too large is found again. -/
lemma getCompact_setCompact (hlt : nCompact < 2 ^ 32)
    (hnegative : (setCompact nCompact).fNegative = false)
    (hoverflow : (setCompact nCompact).fOverflow = false) (hcanonical : CanonicalCompact nCompact) :
    (setCompact nCompact).target.getCompact = some nCompact := by
  have hmod := Nat.mod_eq_of_lt hlt
  have hbounds : decodeCompact nCompact < 2 ^ 256 ∧ nCompact % 2 ^ 24 < 2 ^ 23 := by
    obtain rfl | ⟨hlow, hdvd⟩ := hcanonical
    · decide
    -- the word that is tested is not zero
    have hword : nCompact % 2 ^ 23 / 2 ^ (8 * (3 - nCompact / 2 ^ 24)) ≠ 0 :=
      Nat.ne_of_gt (Nat.div_pos (Nat.le_of_dvd (by omega) hdvd) (Nat.two_pow_pos _))
    have hshort : nCompact % 2 ^ 23 < 2 ^ 23 := Nat.mod_lt _ (by decide)
    rw [setCompact] at hnegative hoverflow
    simp only [hmod, and_mantissaBits, Nat.shiftRight_eq_div_pow, and_signBit_ne_zero,
      decide_eq_false_iff_not, not_and] at hnegative hoverflow
    by_cases hsize : nCompact / 2 ^ 24 ≤ 3
    · rw [if_pos hsize] at hnegative
      rw [decodeCompact, if_pos hsize]
      refine ⟨Nat.lt_of_le_of_lt (Nat.div_le_self _ _) (Nat.lt_trans hshort (by decide)), ?_⟩
      have := hnegative hword
      omega
    · rw [if_neg hsize] at hnegative hoverflow
      rw [decodeCompact, if_neg hsize]
      have hsign := hnegative (by omega)
      have hfits := hoverflow (by omega)
      refine ⟨?_, by omega⟩
      rcases Nat.lt_or_ge (nCompact % 2 ^ 23) (2 ^ 16) with hsmall | hlarge
      · calc _ < 2 ^ 16 * 2 ^ (8 * (nCompact / 2 ^ 24 - 3)) :=
              Nat.mul_lt_mul_of_pos_right hsmall (Nat.two_pow_pos _)
          _ ≤ 2 ^ 16 * 2 ^ 240 :=
              Nat.mul_le_mul_left _ (Nat.pow_le_pow_right (by decide) (by omega))
      · calc _ < 2 ^ 23 * 2 ^ (8 * (nCompact / 2 ^ 24 - 3)) :=
              Nat.mul_lt_mul_of_pos_right hshort (Nat.two_pow_pos _)
          _ ≤ 2 ^ 23 * 2 ^ 232 :=
              Nat.mul_le_mul_left _ (Nat.pow_le_pow_right (by decide) (by omega))
          _ ≤ 2 ^ 256 := by decide
  rw [BaseUInt.getCompact_eq, value_target_setCompact, hmod, Nat.mod_eq_of_lt hbounds.1,
    encodeCompact_decodeCompact hcanonical hbounds.2]

/-- Storing a number in compact form rounds it down by at most one part in `2 ^ 15`, keeps the order
and does nothing the second time; a compact target in canonical form is found again. -/
theorem compact_encoding_rounds :
    ∃ round : ArithUInt256 → ArithUInt256,
      (∀ x, x.getCompact.map (fun nCompact => (setCompact nCompact).target) = some (round x)) ∧
      (∀ x, (round x).value ≤ x.value ∧ x.value - (round x).value ≤ x.value / 2 ^ 15) ∧
      (∀ x y, x.value ≤ y.value → (round x).value ≤ (round y).value) ∧
      (∀ x, (round (round x)).value = (round x).value) ∧
      ∀ nCompact < 2 ^ 32, (setCompact nCompact).fNegative = false →
        (setCompact nCompact).fOverflow = false → CanonicalCompact nCompact →
        (setCompact nCompact).target.getCompact = some nCompact := by
  have hvalue : ∀ x : ArithUInt256, (setCompact (encodeCompact x.value)).target.value =
      decodeCompact (encodeCompact x.value) := fun x => (setCompact_encodeCompact x.value_lt).1
  refine ⟨fun x => (setCompact (encodeCompact x.value)).target, ?_, ?_, ?_, ?_, ?_⟩
  · intro x
    rw [BaseUInt.getCompact_eq, Option.map_some]
  · intro x
    rw [hvalue]
    exact ⟨decodeCompact_encodeCompact_le _, sub_decodeCompact_encodeCompact_le _⟩
  · intro x y hle
    rw [hvalue, hvalue]
    exact le_decodeCompact_encodeCompact (Nat.le_trans (decodeCompact_encodeCompact_le _) hle)
  · intro x
    rw [hvalue, hvalue]
    exact Nat.le_antisymm (decodeCompact_encodeCompact_le _)
      (le_decodeCompact_encodeCompact (Nat.le_refl _))
  · intro nCompact hlt hnegative hoverflow hcanonical
    exact getCompact_setCompact hlt hnegative hoverflow hcanonical

/-- The target of the first block. -/
theorem compact_encoding_rounds_genesis :
    CanonicalCompact 0x1e0ffff0 ∧ ∃ x : ArithUInt256, x.getCompact = some 0x1e0ffff0 := by
  have hcanonical : CanonicalCompact 0x1e0ffff0 := .inr ⟨by decide, by decide⟩
  obtain ⟨round, -, -, -, -, hback⟩ := compact_encoding_rounds
  exact ⟨hcanonical, _, hback 0x1e0ffff0 (by decide) (by decide) (by decide) hcanonical⟩

end Aegisum
