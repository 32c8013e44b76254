import Mathlib.Data.List.GetD
import Mathlib.Data.List.Zip
import Mathlib.Data.Nat.ModEq
import Mathlib.Data.Nat.Size
import Mathlib.Tactic.Ring

/-!
# Numbers in limbs

A natural number as a list of words of some width, the lowest one first.  Its bits are the bits of
the words.  Carries are propagated from the low words to the high ones in words of twice the width,
bits are set one word at a time, and words are compared from the highest one on.
-/

namespace Aegisum

open List Nat

variable {w : ℕ}

/-! ### Values -/

/-- The number with the given limbs. -/
def limbValue : List (BitVec w) → ℕ
  | [] => 0
  | d :: ds => d.toNat + 2 ^ w * limbValue ds

/-- Limbs bound their number. -/
lemma limbValue_lt (l : List (BitVec w)) : limbValue l < 2 ^ (w * l.length) := by
  induction l with
  | nil => exact one_pos
  | cons d l ih =>
    have hd := d.isLt
    rw [limbValue, length_cons, mul_succ, add_comm (w * l.length), pow_add]
    calc d.toNat + 2 ^ w * limbValue l
        < 2 ^ w * (limbValue l + 1) := by rw [mul_succ]; omega
      _ ≤ 2 ^ w * 2 ^ (w * l.length) := mul_le_mul_left _ ih

/-- The high limbs come last. -/
lemma limbValue_append (l l' : List (BitVec w)) :
    limbValue (l ++ l') = limbValue l + 2 ^ (w * l.length) * limbValue l' := by
  induction l with
  | nil => simp [limbValue]
  | cons d l ih =>
    rw [cons_append, limbValue, ih, limbValue, length_cons]
    ring

lemma limbValue_concat (l : List (BitVec w)) (d : BitVec w) :
    limbValue (l ++ [d]) = limbValue l + 2 ^ (w * l.length) * d.toNat := by
  rw [limbValue_append, limbValue, limbValue, mul_zero, add_zero]

/-- The low limbs are the number modulo a power of the base. -/
lemma limbValue_take_modEq {l : List (BitVec w)} {n : ℕ} (hn : n ≤ l.length) :
    limbValue (l.take n) ≡ limbValue l [MOD 2 ^ (w * n)] := by
  nth_rewrite 2 [← take_append_drop n l]
  rw [limbValue_append, length_take, min_eq_left hn]
  exact (add_mul_mod_self_left _ _ _).symm

lemma limbValue_replicate_zero (n : ℕ) : limbValue (replicate n (0#w)) = 0 := by
  induction n with
  | zero => rfl
  | succ n ih => simp [replicate_succ, limbValue, ih]

/-- Only zero limbs make zero. -/
lemma limbValue_eq_zero (l : List (BitVec w)) : limbValue l = 0 ↔ ∀ d ∈ l, d = 0 := by
  induction l with
  | nil => simp [limbValue]
  | cons d l ih =>
    rw [limbValue, Nat.add_eq_zero_iff, Nat.mul_eq_zero, ih, forall_mem_cons,
      or_iff_right (Nat.ne_of_gt (Nat.two_pow_pos w))]
    exact and_congr_left' ⟨fun h => BitVec.eq_of_toNat_eq (by simpa), fun h => by simp [h]⟩

/-- The bits of a number are the bits of its limbs. -/
lemma testBit_limbValue (hw : 0 < w) (l : List (BitVec w)) (i : ℕ) :
    (limbValue l).testBit i = (l.getD (i / w) 0).getLsbD (i % w) := by
  induction l generalizing i with
  | nil => simp [limbValue]
  | cons d l ih =>
    rw [limbValue, Nat.add_comm, Nat.testBit_two_pow_mul_add _ d.isLt]
    split
    case isTrue hlt =>
      rw [Nat.div_eq_of_lt hlt, Nat.mod_eq_of_lt hlt, getD_cons_zero]
      rfl
    case isFalse hge =>
      obtain ⟨j, rfl⟩ := Nat.exists_eq_add_of_le' (Nat.le_of_not_lt hge)
      rw [Nat.add_sub_cancel, ih, Nat.add_div_right _ hw, Nat.add_mod_right, getD_cons_succ]

/-- A number that has the bits of the limbs is their value. -/
lemma limbValue_eq_of_testBit (hw : 0 < w) {l : List (BitVec w)} {x : ℕ}
    (hx : x < 2 ^ (w * l.length))
    (hbits : ∀ i < w * l.length, (l.getD (i / w) 0).getLsbD (i % w) = x.testBit i) :
    limbValue l = x := by
  refine Nat.eq_of_testBit_eq fun i => ?_
  by_cases hi : i < w * l.length
  · rw [testBit_limbValue hw, hbits i hi]
  · have hpow : 2 ^ (w * l.length) ≤ 2 ^ i := Nat.pow_le_pow_right (by decide) (Nat.le_of_not_lt hi)
    rw [Nat.testBit_lt_two_pow (Nat.lt_of_lt_of_le (limbValue_lt l) hpow),
      Nat.testBit_lt_two_pow (Nat.lt_of_lt_of_le hx hpow)]

/-! ### Carries -/

/-- The number with the given columns, each of which may be larger than a limb. -/
def columnValue (w : ℕ) : List ℕ → ℕ
  | [] => 0
  | c :: cs => c + 2 ^ w * columnValue w cs

/-- Add the carry to each column, keep the low word and carry the high word. -/
def propagate (w : ℕ) : ℕ → List ℕ → List (BitVec w)
  | _, [] => []
  | carry, c :: cs =>
    let n := (carry + c) % 2 ^ (2 * w)
    BitVec.ofNat w n :: propagate w (n / 2 ^ w) cs

@[simp] lemma length_propagate (carry : ℕ) (cs : List ℕ) :
    (propagate w carry cs).length = cs.length := by
  induction cs generalizing carry with
  | nil => rfl
  | cons c cs ih => rw [propagate, length_cons, ih, length_cons]

/-- If no column is too large for the wide word, only the last carry is lost. -/
lemma limbValue_propagate {carry : ℕ} {cs : List ℕ} (hcarry : carry < 2 ^ w)
    (hcs : ∀ c ∈ cs, c + 2 ^ w ≤ 2 ^ (2 * w)) :
    limbValue (propagate w carry cs) = (carry + columnValue w cs) % 2 ^ (w * cs.length) := by
  induction cs generalizing carry with
  | nil => rw [propagate, limbValue, length_nil, Nat.mul_zero, Nat.pow_zero, Nat.mod_one]
  | cons c cs ih =>
    rw [forall_mem_cons] at hcs
    have hn : carry + c < 2 ^ (2 * w) := by omega
    have hnext : (carry + c) / 2 ^ w < 2 ^ w := by
      rw [Nat.div_lt_iff_lt_mul (Nat.two_pow_pos w), ← Nat.pow_add, ← Nat.two_mul]
      exact hn
    have hsplit : (carry + columnValue w (c :: cs)) = carry + c + 2 ^ w * columnValue w cs := by
      rw [columnValue]
      omega
    rw [propagate, limbValue, Nat.mod_eq_of_lt hn, ih hnext hcs.2, BitVec.toNat_ofNat, hsplit,
      length_cons, Nat.mul_succ, Nat.add_comm (w * cs.length), Nat.pow_add, Nat.mod_mul,
      Nat.add_mul_mod_self_left, Nat.add_mul_div_left _ _ (Nat.two_pow_pos w)]

/-- A row of the long multiplication. -/
lemma columnValue_map_mul (b : ℕ) (l : List (BitVec w)) :
    columnValue w (l.map fun d => b * d.toNat) = b * limbValue l := by
  induction l with
  | nil => rfl
  | cons d l ih =>
    rw [map_cons, columnValue, ih, limbValue]
    ring

/-- Columns of one number and a multiple of another one, which may have more limbs. -/
lemma columnValue_zipWith_add_mul (b : ℕ) {l l' : List (BitVec w)} (hlen : l.length ≤ l'.length) :
    columnValue w (zipWith (fun d d' => d.toNat + b * d'.toNat) l l') =
      limbValue l + b * limbValue (l'.take l.length) := by
  induction l generalizing l' with
  | nil => simp [columnValue, limbValue]
  | cons d l ih =>
    obtain _ | ⟨d', l'⟩ := l'
    · cases hlen
    · rw [zipWith_cons_cons, columnValue, ih (le_of_succ_le_succ hlen), length_cons,
        take_succ_cons, limbValue, limbValue]
      ring

lemma forall_mem_zipWith {f : BitVec w → BitVec w → ℕ} {p : ℕ → Prop} (h : ∀ d d', p (f d d'))
    (l l' : List (BitVec w)) : ∀ c ∈ zipWith f l l', p c := by
  rw [← map_uncurry_zip_eq_zipWith]
  exact forall_mem_map.mpr fun d _ => h d.1 d.2

/-- Add one: a word that overflows is zero, and the next one is incremented. -/
def incrementLimbs : List (BitVec w) → List (BitVec w)
  | [] => []
  | d :: ds => if d + 1 = 0 then (d + 1) :: incrementLimbs ds else (d + 1) :: ds

@[simp] lemma length_incrementLimbs (l : List (BitVec w)) :
    (incrementLimbs l).length = l.length := by
  induction l with
  | nil => rfl
  | cons d l ih =>
    rw [incrementLimbs]
    split <;> simp [ih]

/-- The increment wraps around. -/
lemma limbValue_incrementLimbs (l : List (BitVec w)) :
    limbValue (incrementLimbs l) = (limbValue l + 1) % 2 ^ (w * l.length) := by
  induction l with
  | nil => rw [incrementLimbs, limbValue, length_nil, mul_zero, pow_zero, mod_one]
  | cons d l ih =>
    have hd := d.isLt
    have hl := limbValue_lt l
    have hpow : 2 ^ (w * (l.length + 1)) = 2 ^ w * 2 ^ (w * l.length) := by
      rw [mul_succ, add_comm, pow_add]
    have hsucc : (d + 1).toNat = (d.toNat + 1) % 2 ^ w := by
      rw [BitVec.toNat_add, BitVec.ofNat_eq_ofNat, BitVec.toNat_ofNat, add_mod_mod]
    rw [incrementLimbs, length_cons, hpow, limbValue]
    split
    case isTrue hzero =>
      -- the word overflows
      have htop : d.toNat + 1 = 2 ^ w := by
        rw [hzero, BitVec.ofNat_eq_ofNat, BitVec.toNat_ofNat, zero_mod] at hsucc
        by_contra hne
        rw [mod_eq_of_lt (by omega)] at hsucc
        omega
      have hsum : d.toNat + 2 ^ w * limbValue l + 1 = 2 ^ w * (limbValue l + 1) := by
        rw [mul_succ]
        omega
      rw [limbValue, ih, hsum, mul_mod_mul_left, hsucc, htop, mod_self, zero_add]
    case isFalse hne =>
      have htop : d.toNat + 1 < 2 ^ w := by
        refine lt_of_le_of_ne hd fun heq => hne (BitVec.eq_of_toNat_eq ?_)
        rw [hsucc, heq, mod_self, BitVec.ofNat_eq_ofNat, BitVec.toNat_ofNat, zero_mod]
      have hlt : d.toNat + 2 ^ w * limbValue l + 1 < 2 ^ w * 2 ^ (w * l.length) :=
        calc d.toNat + 2 ^ w * limbValue l + 1
            < 2 ^ w * (limbValue l + 1) := by rw [mul_succ]; omega
          _ ≤ 2 ^ w * 2 ^ (w * l.length) := mul_le_mul_left _ hl
      rw [limbValue, hsucc, mod_eq_of_lt htop, mod_eq_of_lt hlt]
      omega

/-- The complement and its number. -/
lemma limbValue_map_not (l : List (BitVec w)) :
    limbValue (l.map (~~~ ·)) + limbValue l + 1 = 2 ^ (w * l.length) := by
  induction l with
  | nil => rfl
  | cons d l ih =>
    have hd := d.isLt
    rw [map_cons, limbValue, limbValue, BitVec.toNat_not, length_cons, mul_succ,
      add_comm (w * l.length), pow_add, ← ih]
    have hmul : 2 ^ w * (limbValue (l.map (~~~ ·)) + limbValue l + 1) =
      2 ^ w * limbValue (l.map (~~~ ·)) + 2 ^ w * limbValue l + 2 ^ w := by ring
    omega

/-! ### Setting bits -/

/-- Set the bits of a word in one limb. -/
def orLimb (l : List (BitVec w)) (i : ℕ) (x : BitVec w) : List (BitVec w) := l.modify i (· ||| x)

@[simp] lemma length_orLimb (l : List (BitVec w)) (i : ℕ) (x : BitVec w) :
    (orLimb l i x).length = l.length := length_modify _ _ _

/-- The bits after one limb was or-ed. -/
lemma getLsbD_orLimb {l : List (BitVec w)} {i : ℕ} (hi : i < l.length) (x : BitVec w) (m j : ℕ) :
    ((orLimb l i x).getD m 0).getLsbD j = true ↔
      (l.getD m 0).getLsbD j = true ∨ m = i ∧ x.getLsbD j = true := by
  rw [orLimb, getD_eq_getElem?_getD, getElem?_modify, getD_eq_getElem?_getD]
  by_cases heq : i = m
  · subst heq
    rw [getElem?_eq_getElem hi]
    simp
  · simp [heq, Ne.symm heq]

/-- An update of a limb that is made under a condition only. -/
lemma getLsbD_ite_orLimb {c : Prop} [Decidable c] {l : List (BitVec w)} {i : ℕ}
    (hi : c → i < l.length) (x : BitVec w) (m j : ℕ) :
    ((if c then orLimb l i x else l).getD m 0).getLsbD j = true ↔
      (l.getD m 0).getLsbD j = true ∨ c ∧ m = i ∧ x.getLsbD j = true := by
  by_cases hc : c
  · rw [if_pos hc, getLsbD_orLimb (hi hc), and_iff_right hc]
  · rw [if_neg hc, or_iff_left fun h => hc h.1]

/-! ### The highest bit -/

lemma size_eq_iff {x n : ℕ} : x.size = n + 1 ↔ 2 ^ n ≤ x ∧ x < 2 ^ (n + 1) := by
  rw [← lt_size, ← size_le]
  omega

/-- The highest bit is the one of the highest word that is not zero. -/
lemma size_limbValue_concat (l : List (BitVec w)) {d : BitVec w} (hd : d ≠ 0) :
    (limbValue (l ++ [d])).size = w * l.length + d.toNat.size := by
  have hpos : 0 < d.toNat := pos_of_ne_zero fun hzero => hd (BitVec.eq_of_toNat_eq (by simpa))
  obtain ⟨n, hn⟩ : ∃ n, d.toNat.size = n + 1 := exists_eq_add_one.mpr (size_pos.mpr hpos)
  have hl := limbValue_lt l
  obtain ⟨hle, hlt⟩ := size_eq_iff.mp hn
  rw [hn, ← add_assoc, size_eq_iff, limbValue_concat, add_assoc, pow_add, pow_add]
  have hmin := mul_le_mul_left (2 ^ (w * l.length)) hle
  have hmax := mul_le_mul_left (2 ^ (w * l.length)) (succ_le_of_lt hlt)
  rw [mul_succ] at hmax
  omega

end Aegisum
