import Aegisum.Foundations.Checked
import Aegisum.Foundations.Limbs

/-!
# Big unsigned integers

`base_uint`, of which `arith_uint256` is the one with eight words: shifts, multiplication by a
word, addition, negation, comparison and division work on words of 32 bits.  Each operation is
described by what it does to the value.
-/

namespace Aegisum

open List Nat

/-- A number in words of 32 bits, the lowest one first. -/
@[ext] structure BaseUInt (width : ℕ) where
  pn : List (BitVec 32)
  length_pn : pn.length = width
deriving DecidableEq

namespace BaseUInt

variable {width : ℕ}

/-- The number. -/
def value (a : BaseUInt width) : ℕ := limbValue a.pn

/-- A word. -/
def limb (a : BaseUInt width) (i : ℕ) : BitVec 32 := a.pn.getD i 0

/-- The number zero. -/
def zero : BaseUInt width := ⟨List.replicate width 0, List.length_replicate⟩

/-- The number with the two words of a 64-bit integer. -/
def ofUInt64 (b : BitVec 64) : BaseUInt width :=
  ⟨(List.range width).map fun i =>
    if i = 0 then b.setWidth 32 else if i = 1 then (b >>> 32).setWidth 32 else 0, by simp⟩

/-! ### Shifts -/

/-- The body of the loop of `operator<<=`. -/
def shiftLeftStep (a : BaseUInt width) (k shift : ℕ) (pn : List (BitVec 32)) (i : ℕ) :
    List (BitVec 32) :=
  let pn :=
    if i + k + 1 < width ∧ shift ≠ 0 then orLimb pn (i + k + 1) (a.limb i >>> (32 - shift)) else pn
  if i + k < width then orLimb pn (i + k) (a.limb i <<< shift) else pn

/-- The body of the loop of `operator>>=`. -/
def shiftRightStep (a : BaseUInt width) (k shift : ℕ) (pn : List (BitVec 32)) (i : ℕ) :
    List (BitVec 32) :=
  let pn := if k + 1 ≤ i ∧ shift ≠ 0 then orLimb pn (i - k - 1) (a.limb i <<< (32 - shift)) else pn
  if k ≤ i then orLimb pn (i - k) (a.limb i >>> shift) else pn

lemma length_foldl {step : List (BitVec 32) → ℕ → List (BitVec 32)}
    (hstep : ∀ pn i, (step pn i).length = pn.length) (pn : List (BitVec 32)) (is : List ℕ) :
    (is.foldl step pn).length = pn.length := by
  induction is generalizing pn with
  | nil => rfl
  | cons i is ih => rw [foldl_cons, ih, hstep]

lemma length_shiftLeftStep (a : BaseUInt width) (k shift : ℕ) (pn : List (BitVec 32)) (i : ℕ) :
    (a.shiftLeftStep k shift pn i).length = pn.length := by
  rw [shiftLeftStep]
  split <;> split <;> simp only [length_orLimb]

lemma length_shiftRightStep (a : BaseUInt width) (k shift : ℕ) (pn : List (BitVec 32)) (i : ℕ) :
    (a.shiftRightStep k shift pn i).length = pn.length := by
  rw [shiftRightStep]
  split <;> split <;> simp only [length_orLimb]

/-- `operator<<=`. -/
def shiftLeft (a : BaseUInt width) (shift : ℕ) : BaseUInt width :=
  ⟨(List.range width).foldl (a.shiftLeftStep (shift / 32) (shift % 32)) (List.replicate width 0), by
    rw [length_foldl (a.length_shiftLeftStep _ _), List.length_replicate]⟩

/-- `operator>>=`. -/
def shiftRight (a : BaseUInt width) (shift : ℕ) : BaseUInt width :=
  ⟨(List.range width).foldl (a.shiftRightStep (shift / 32) (shift % 32))
    (List.replicate width 0), by
    rw [length_foldl (a.length_shiftRightStep _ _), List.length_replicate]⟩

variable {n i : ℕ}

/-- A loop that only sets bits has set the bits that its steps set. -/
lemma getLsbD_foldl {step : List (BitVec 32) → ℕ → List (BitVec 32)} {Sets : ℕ → ℕ → ℕ → Prop}
    (hlen : ∀ pn i, (step pn i).length = pn.length)
    (hstep : ∀ pn i m j, pn.length = width → i < width → (((step pn i).getD m 0).getLsbD j = true ↔
      (pn.getD m 0).getLsbD j = true ∨ Sets i m j)) (hn : n ≤ width) (m j : ℕ) :
    (((range n).foldl step (replicate width 0)).getD m 0).getLsbD j = true ↔
      ∃ i < n, Sets i m j := by
  induction n with
  | zero =>
    have hzero : (replicate width (0 : BitVec 32)).getD m 0 = 0 := by
      rw [getD_eq_getElem?_getD, getElem?_replicate]
      split <;> rfl
    rw [range_zero, foldl_nil, hzero]
    simp
  | succ n ih =>
    have hwidth : ((range n).foldl step (replicate width 0)).length = width := by
      rw [length_foldl hlen, length_replicate]
    rw [range_succ, foldl_append, foldl_cons, foldl_nil,
      hstep _ n m j hwidth hn, ih (Nat.le_of_succ_le hn)]
    constructor
    · rintro (⟨i, hi, hset⟩ | hset)
      · exact ⟨i, Nat.lt_succ_of_lt hi, hset⟩
      · exact ⟨n, Nat.lt_succ_self n, hset⟩
    · rintro ⟨i, hi, hset⟩
      rcases Nat.lt_succ_iff_lt_or_eq.mp hi with hi | rfl
      · exact .inl ⟨i, hi, hset⟩
      · exact .inr hset

lemma getLsbD_shiftLeftStep (a : BaseUInt width) (k shift : ℕ) (pn : List (BitVec 32)) (i m j : ℕ)
    (hpn : pn.length = width) (_hi : i < width) :
    ((a.shiftLeftStep k shift pn i).getD m 0).getLsbD j = true ↔ (pn.getD m 0).getLsbD j = true ∨
      (i + k + 1 < width ∧ shift ≠ 0) ∧ m = i + k + 1 ∧
        (a.limb i >>> (32 - shift)).getLsbD j = true ∨
      i + k < width ∧ m = i + k ∧ (a.limb i <<< shift).getLsbD j = true := by
  rw [shiftLeftStep, getLsbD_ite_orLimb (fun h => by split <;> simp only [length_orLimb, hpn, h]),
    getLsbD_ite_orLimb (fun h => hpn.symm ▸ h.1), or_assoc]

lemma getLsbD_shiftRightStep (a : BaseUInt width) (k shift : ℕ) (pn : List (BitVec 32)) (i m j : ℕ)
    (hpn : pn.length = width) (hi : i < width) :
    ((a.shiftRightStep k shift pn i).getD m 0).getLsbD j = true ↔ (pn.getD m 0).getLsbD j = true ∨
      (k + 1 ≤ i ∧ shift ≠ 0) ∧ m = i - k - 1 ∧ (a.limb i <<< (32 - shift)).getLsbD j = true ∨
      k ≤ i ∧ m = i - k ∧ (a.limb i >>> shift).getLsbD j = true := by
  rw [shiftRightStep,
    getLsbD_ite_orLimb (fun _ => by split <;> simp only [length_orLimb, hpn] <;> omega),
    getLsbD_ite_orLimb (fun _ => by omega), or_assoc]

/-- A bit of a number is a bit of one of its words. -/
lemma testBit_value (a : BaseUInt width) (i : ℕ) :
    a.value.testBit i = (a.limb (i / 32)).getLsbD (i % 32) := testBit_limbValue (by decide) a.pn i

@[simp] lemma value_zero : (zero : BaseUInt width).value = 0 := limbValue_replicate_zero width

/-- The width bounds the number. -/
lemma value_lt (a : BaseUInt width) : a.value < 2 ^ (32 * width) := by
  have hlt := limbValue_lt a.pn
  rwa [a.length_pn] at hlt

variable {a : BaseUInt width}

/-- The bits of the limbs are the bits of the number. -/
lemma value_eq_of_testBit {x : ℕ} (hx : x < 2 ^ (32 * width))
    (hbits : ∀ i < 32 * width, (a.limb (i / 32)).getLsbD (i % 32) = true ↔ x.testBit i = true) :
    a.value = x := by
  have hlen := a.length_pn
  refine limbValue_eq_of_testBit (by decide) (by rwa [hlen]) fun i hi => ?_
  rw [hlen] at hi
  exact Bool.eq_iff_iff.mpr (hbits i hi)

/-- A word outside is zero. -/
lemma limb_eq_zero (hi : width ≤ i) : a.limb i = 0 := by
  rw [limb, getD_eq_getElem?_getD, getElem?_eq_none (by rw [a.length_pn]; exact hi)]
  rfl

lemma take_succ_pn (hi : i < width) : a.pn.take (i + 1) = a.pn.take i ++ [a.limb i] := by
  have hlt : i < a.pn.length := by rwa [a.length_pn]
  rw [take_succ_eq_append_getElem hlt, limb, getD_eq_getElem _ _ hlt]

lemma length_take_pn (hi : i ≤ width) : (a.pn.take i).length = i := by
  rw [length_take, a.length_pn, min_eq_left hi]

/-- The number with the bits of a natural number. -/
def ofNat (x : ℕ) : BaseUInt width :=
  ⟨(List.range width).map fun i => .ofNat 32 (x >>> (32 * i)), by simp⟩

/-- A number that fits is represented. -/
lemma value_ofNat {x : ℕ} (hx : x < 2 ^ (32 * width)) : (ofNat x : BaseUInt width).value = x := by
  refine value_eq_of_testBit hx fun i hi => ?_
  have hm : i / 32 < width := Nat.div_lt_of_lt_mul hi
  have hlimb : (ofNat x : BaseUInt width).limb (i / 32) = .ofNat 32 (x >>> (32 * (i / 32))) := by
    rw [limb, ofNat, getD_eq_getElem?_getD, getElem?_map, getElem?_range hm]
    rfl
  rw [hlimb, BitVec.getLsbD_ofNat, Nat.testBit_shiftRight, Nat.div_add_mod, Bool.and_eq_true,
    decide_eq_true_iff, and_iff_right (Nat.mod_lt i (by decide))]

/-- Shifting to the left loses the bits that are shifted out. -/
lemma value_shiftLeft (a : BaseUInt width) (shift : ℕ) :
    (a.shiftLeft shift).value = a.value * 2 ^ shift % 2 ^ (32 * width) := by
  refine value_eq_of_testBit (Nat.mod_lt _ (Nat.two_pow_pos _)) fun i hi => ?_
  have hm : i / 32 < width := Nat.div_lt_of_lt_mul hi
  have hj : i % 32 < 32 := Nat.mod_lt i (by decide)
  rw [← Nat.shiftLeft_eq, Nat.testBit_mod_two_pow, Nat.testBit_shiftLeft, testBit_value, limb,
    shiftLeft, getLsbD_foldl (a.length_shiftLeftStep _ _) (a.getLsbD_shiftLeftStep _ _)
      (Nat.le_refl width)]
  simp only [BitVec.getLsbD_ushiftRight, BitVec.getLsbD_shiftLeft, Bool.and_eq_true,
    Bool.not_eq_true', decide_eq_true_iff, decide_eq_false_iff_not]
  -- where the bit comes from: a bit of the word below moves to the next word
  constructor
  · rintro ⟨i', -, ⟨-, hm', hbit⟩ | ⟨-, hm', ⟨-, hge⟩, hbit⟩⟩
    · have hlt := BitVec.lt_of_getLsbD hbit
      have hdiv : (i - shift) / 32 = i' ∧ (i - shift) % 32 = 32 - shift % 32 + i % 32 := by omega
      refine ⟨hi, by omega, ?_⟩
      rw [hdiv.1, hdiv.2]
      exact hbit
    · have hdiv : (i - shift) / 32 = i' ∧ (i - shift) % 32 = i % 32 - shift % 32 := by omega
      refine ⟨hi, by omega, ?_⟩
      rw [hdiv.1, hdiv.2]
      exact hbit
  · rintro ⟨-, hge, hbit⟩
    by_cases hlow : i % 32 < shift % 32
    · have hdiv : (i - shift) % 32 = 32 - shift % 32 + i % 32 := by omega
      rw [hdiv] at hbit
      exact ⟨(i - shift) / 32, by omega, .inl ⟨by omega, by omega, hbit⟩⟩
    · have hdiv : (i - shift) % 32 = i % 32 - shift % 32 := by omega
      rw [hdiv] at hbit
      exact ⟨(i - shift) / 32, by omega, .inr ⟨by omega, by omega, ⟨hj, hlow⟩, hbit⟩⟩

/-- Shifting to the right is a division. -/
lemma value_shiftRight (a : BaseUInt width) (shift : ℕ) :
    (a.shiftRight shift).value = a.value / 2 ^ shift := by
  refine value_eq_of_testBit (Nat.lt_of_le_of_lt (Nat.div_le_self _ _) a.value_lt) fun i hi => ?_
  have hm : i / 32 < width := Nat.div_lt_of_lt_mul hi
  have hj : i % 32 < 32 := Nat.mod_lt i (by decide)
  rw [← Nat.shiftRight_eq_div_pow, Nat.testBit_shiftRight, testBit_value, limb, shiftRight,
    getLsbD_foldl (a.length_shiftRightStep _ _) (a.getLsbD_shiftRightStep _ _) (Nat.le_refl width)]
  simp only [BitVec.getLsbD_ushiftRight, BitVec.getLsbD_shiftLeft, Bool.and_eq_true,
    Bool.not_eq_true', decide_eq_true_iff, decide_eq_false_iff_not]
  constructor
  · rintro ⟨i', -, ⟨hle, hm', ⟨-, hge⟩, hbit⟩ | ⟨hle, hm', hbit⟩⟩
    · have hdiv : (shift + i) / 32 = i' ∧ (shift + i) % 32 = i % 32 - (32 - shift % 32) := by omega
      rw [hdiv.1, hdiv.2]
      exact hbit
    · have hlt := BitVec.lt_of_getLsbD hbit
      have hdiv : (shift + i) / 32 = i' ∧ (shift + i) % 32 = shift % 32 + i % 32 := by omega
      rw [hdiv.1, hdiv.2]
      exact hbit
  · intro hbit
    have hlt : (shift + i) / 32 < width := by
      by_contra hge
      rw [limb_eq_zero (Nat.le_of_not_lt hge)] at hbit
      simp at hbit
    by_cases hlow : i % 32 < 32 - shift % 32
    · have hdiv : (shift + i) % 32 = shift % 32 + i % 32 := by omega
      rw [hdiv] at hbit
      exact ⟨(shift + i) / 32, hlt, .inr ⟨by omega, by omega, hbit⟩⟩
    · have hdiv : (shift + i) % 32 = i % 32 - (32 - shift % 32) := by omega
      rw [hdiv] at hbit
      exact ⟨(shift + i) / 32, hlt, .inl ⟨by omega, by omega, ⟨hj, hlow⟩, hbit⟩⟩

/-! ### Sums and products -/

/-- `operator*=` with a word. -/
def mulUInt32 (a : BaseUInt width) (b32 : BitVec 32) : BaseUInt width :=
  ⟨propagate 32 0 (a.pn.map fun d => b32.toNat * d.toNat), by simp [a.length_pn]⟩

/-- A round of `operator*=`: the product of a word and the second factor is added from the place of
the word on. -/
def mulStep (a b product : BaseUInt width) (j : ℕ) : BaseUInt width :=
  ⟨product.pn.take j ++ propagate 32 0 (List.zipWith
      (fun d d' => d.toNat + (a.limb j).toNat * d'.toNat) (product.pn.drop j) b.pn), by
    simp only [List.length_append, List.length_take, length_propagate, List.length_zipWith,
      List.length_drop, product.length_pn, b.length_pn]
    omega⟩

/-- `operator*=`. -/
def mul (a b : BaseUInt width) : BaseUInt width := (List.range width).foldl (a.mulStep b) zero

/-- `operator+=`. -/
def add (a b : BaseUInt width) : BaseUInt width :=
  ⟨propagate 32 0 (List.zipWith (fun d d' => d.toNat + d'.toNat) a.pn b.pn), by
    simp [a.length_pn, b.length_pn]⟩

/-- Unary `operator-`. -/
def neg (a : BaseUInt width) : BaseUInt width :=
  ⟨incrementLimbs (a.pn.map (~~~ ·)), by simp [a.length_pn]⟩

/-- `operator-=`. -/
def sub (a b : BaseUInt width) : BaseUInt width := a.add b.neg

lemma toNat_mul_le (x y : BitVec 32) : x.toNat * y.toNat ≤ (2 ^ 32 - 1) * (2 ^ 32 - 1) := by
  have hx := x.isLt
  have hy := y.isLt
  exact Nat.mul_le_mul (by omega) (by omega)

/-- Multiplication by a word, modulo the width. -/
lemma value_mulUInt32 (a : BaseUInt width) (b32 : BitVec 32) :
    (a.mulUInt32 b32).value = b32.toNat * a.value % 2 ^ (32 * width) := by
  rw [value, mulUInt32, limbValue_propagate (Nat.two_pow_pos 32), Nat.zero_add, columnValue_map_mul,
    length_map, a.length_pn, value]
  -- a product of words and a carry fit into 64 bits
  intro c hc
  obtain ⟨d, -, rfl⟩ := mem_map.mp hc
  have hprod := toNat_mul_le b32 d
  omega

/-- One row of the long multiplication. -/
lemma value_mulStep (a b product : BaseUInt width) {j : ℕ} (hj : j ≤ width) :
    (a.mulStep b product j).value ≡
      product.value + 2 ^ (32 * j) * ((a.limb j).toNat * b.value) [MOD 2 ^ (32 * width)] := by
  have hdrop : (product.pn.drop j).length = width - j := by rw [length_drop, product.length_pn]
  have hle : (product.pn.drop j).length ≤ b.pn.length := by
    rw [hdrop, b.length_pn]
    exact Nat.sub_le _ _
  have htake := length_take_pn (a := product) hj
  have hsplit : product.value =
      limbValue (product.pn.take j) + 2 ^ (32 * j) * limbValue (product.pn.drop j) := by
    rw [value]
    nth_rewrite 1 [← take_append_drop j product.pn]
    rw [limbValue_append, htake]
  have hpow : 2 ^ (32 * width) = 2 ^ (32 * j) * 2 ^ (32 * (width - j)) := by
    rw [← Nat.pow_add, ← Nat.mul_add, Nat.add_sub_cancel' hj]
  have hlow := limbValue_take_modEq hle
  rw [hdrop] at hlow
  rw [hsplit, hpow, value, mulStep, limbValue_append, htake, Nat.add_assoc, ← Nat.mul_add,
    limbValue_propagate (Nat.two_pow_pos 32), Nat.zero_add, columnValue_zipWith_add_mul _ hle,
    length_zipWith, Nat.min_eq_left hle, hdrop]
  · refine Nat.ModEq.add_left _ (Nat.ModEq.mul_left' _ ((Nat.mod_modEq _ _).trans ?_))
    exact Nat.ModEq.add_left _ (hlow.mul_left _)
  · refine forall_mem_zipWith (fun d d' => ?_) _ _
    have hd := d.isLt
    have hprod := toNat_mul_le (a.limb j) d'
    omega

/-- Rounds up to some word of the first factor multiply by the number in the words so far. -/
lemma value_foldl_mulStep (a b : BaseUInt width) (hn : n ≤ width) :
    ((range n).foldl (a.mulStep b) zero).value ≡
      limbValue (a.pn.take n) * b.value [MOD 2 ^ (32 * width)] := by
  induction n with
  | zero =>
    rw [range_zero, foldl_nil, value_zero, take_zero, limbValue, zero_mul]
  | succ n ih =>
    rw [range_succ, foldl_append, foldl_cons, foldl_nil, take_succ_pn hn,
      limbValue_concat, length_take_pn (le_of_succ_le hn), add_mul, mul_assoc]
    refine (value_mulStep a b _ (le_of_succ_le hn)).trans ?_
    exact (ih (le_of_succ_le hn)).add_right _

/-- Multiplication, modulo the width. -/
lemma value_mul (a b : BaseUInt width) :
    (a.mul b).value = a.value * b.value % 2 ^ (32 * width) := by
  have hloop := value_foldl_mulStep a b (le_refl width)
  rw [take_of_length_le (le_of_eq a.length_pn)] at hloop
  rw [← mod_eq_of_lt (a.mul b).value_lt]
  exact hloop

/-- Addition, modulo the width. -/
lemma value_add (a b : BaseUInt width) :
    (a.add b).value = (a.value + b.value) % 2 ^ (32 * width) := by
  have hlen : a.pn.length = b.pn.length := a.length_pn.trans b.length_pn.symm
  have hcolumns := columnValue_zipWith_add_mul 1 (Nat.le_of_eq hlen)
  rw [hlen, take_length] at hcolumns
  simp only [Nat.one_mul] at hcolumns
  rw [value, add, limbValue_propagate (Nat.two_pow_pos 32), Nat.zero_add, hcolumns,
    length_zipWith, ← hlen, Nat.min_self, a.length_pn, value, value]
  refine forall_mem_zipWith (fun d d' => ?_) _ _
  have hd := d.isLt
  have hd' := d'.isLt
  omega

/-- Negation, modulo the width. -/
lemma value_neg (a : BaseUInt width) :
    a.neg.value = (2 ^ (32 * width) - a.value) % 2 ^ (32 * width) := by
  have hnot := limbValue_map_not a.pn
  rw [a.length_pn] at hnot
  rw [value, neg, limbValue_incrementLimbs, length_map, a.length_pn, value]
  congr 1
  omega

/-- The difference of a number and one that is not larger. -/
lemma value_sub {b : BaseUInt width} (hle : b.value ≤ a.value) :
    (a.sub b).value = a.value - b.value := by
  have ha := a.value_lt
  have hb := b.value_lt
  rw [sub, value_add, value_neg, add_mod_mod,
    show a.value + (2 ^ (32 * width) - b.value) = a.value - b.value + 2 ^ (32 * width) by omega,
    add_mod_right, mod_eq_of_lt (by omega)]

/-! ### Comparison -/

/-- The loop of `CompareTo`, which goes down from the highest word. -/
def compareToLoop (a b : BaseUInt width) : ℕ → Ordering
  | 0 => .eq
  | i + 1 =>
    if a.limb i < b.limb i then .lt
    else if a.limb i > b.limb i then .gt
    else compareToLoop a b i

/-- `CompareTo`. -/
def compareTo (a b : BaseUInt width) : Ordering := compareToLoop a b width

/-- `EqualTo`: the comparison with a 64-bit integer. -/
def equalTo (a : BaseUInt width) (b : BitVec 64) : Bool :=
  (a.pn.drop 2).all (· = 0) && a.limb 1 = (b >>> 32).setWidth 32 && a.limb 0 = b.setWidth 32

/-- The words below a word do not matter if it differs. -/
lemma compareToLoop_eq (a b : BaseUInt width) (hi : i ≤ width) :
    compareToLoop a b i = compare (limbValue (a.pn.take i)) (limbValue (b.pn.take i)) := by
  induction i with
  | zero => rfl
  | succ i ih =>
    have ha := limbValue_lt (a.pn.take i)
    have hb := limbValue_lt (b.pn.take i)
    rw [length_take_pn (by omega)] at ha hb
    rw [compareToLoop, ih (by omega), take_succ_pn hi, take_succ_pn hi, limbValue_concat,
      limbValue_concat, length_take_pn (by omega), length_take_pn (by omega)]
    split
    case isTrue hlt =>
      have hmul := mul_le_mul_left (2 ^ (32 * i)) (succ_le_of_lt (BitVec.lt_def.mp hlt))
      rw [mul_succ] at hmul
      exact (compare_lt_iff_lt.mpr (by omega)).symm
    case isFalse hge =>
      split
      case isTrue hgt =>
        have hmul := mul_le_mul_left (2 ^ (32 * i)) (succ_le_of_lt (BitVec.lt_def.mp hgt))
        rw [mul_succ] at hmul
        exact (compare_gt_iff_gt.mpr (by omega)).symm
      case isFalse hle =>
        have heq : (a.limb i).toNat = (b.limb i).toNat := by
          rw [BitVec.lt_def] at hge
          rw [gt_iff_lt, BitVec.lt_def] at hle
          omega
        rw [heq]
        rcases lt_trichotomy (limbValue (a.pn.take i)) (limbValue (b.pn.take i)) with h | h | h
        · rw [compare_lt_iff_lt.mpr h, compare_lt_iff_lt.mpr (by omega)]
        · rw [h, compare_eq_iff_eq.mpr rfl, compare_eq_iff_eq.mpr rfl]
        · rw [compare_gt_iff_gt.mpr h, compare_gt_iff_gt.mpr (by omega)]

/-- The comparison is that of the numbers. -/
lemma compareTo_eq (a b : BaseUInt width) : a.compareTo b = compare a.value b.value := by
  rw [compareTo, compareToLoop_eq a b (le_refl _), take_of_length_le (by rw [a.length_pn]),
    take_of_length_le (by rw [b.length_pn])]
  rfl

/-! ### The highest bit -/

/-- The loop over the bits of a word. -/
def nbitsLoop (d : BitVec 32) : ℕ → ℕ
  | 0 => 1
  | nbits + 1 => if d &&& 1#32 <<< (nbits + 1) ≠ 0 then nbits + 2 else nbitsLoop d nbits

/-- The loop over the words of a number. -/
def bitsLoop (a : BaseUInt width) : ℕ → ℕ
  | 0 => 0
  | pos + 1 => if a.limb pos ≠ 0 then 32 * pos + nbitsLoop (a.limb pos) 31 else bitsLoop a pos

/-- The position of the highest bit set plus one, or zero if the value is zero. -/
def bits (a : BaseUInt width) : ℕ := bitsLoop a width

/-- The mask of a bit tests it. -/
lemma and_one_shiftLeft_ne_zero (d : BitVec 32) (hi : i < 32) :
    d &&& 1#32 <<< i ≠ 0 ↔ 2 ^ i ≤ d.toNat % 2 ^ (i + 1) := by
  have hbit : d.getLsbD i = true ↔ 2 ^ i ≤ d.toNat % 2 ^ (i + 1) := by
    rw [← BitVec.testBit_toNat, Nat.testBit_eq_decide_div_mod_eq, decide_eq_true_iff, Nat.pow_succ,
      Nat.mod_mul]
    have hlt := Nat.mod_lt d.toNat (Nat.two_pow_pos i)
    rcases Nat.mod_two_eq_zero_or_one (d.toNat / 2 ^ i) with h | h <;> rw [h] <;> omega
  have hmask : BitVec.twoPow 32 i ≠ 0 := by
    intro hzero
    have := congrArg (BitVec.getLsbD · i) hzero
    simp [hi] at this
  rw [show 1#32 <<< i = BitVec.twoPow 32 i from rfl, BitVec.and_twoPow, ← hbit]
  split
  case isTrue h => exact iff_of_true hmask h
  case isFalse h => exact iff_of_false (not_not_intro rfl) h

/-- Below the bit where the search starts, it finds the highest one. -/
lemma nbitsLoop_eq {d : BitVec 32} (hd : d ≠ 0) (hn : n < 32) (hlt : d.toNat < 2 ^ (n + 1)) :
    nbitsLoop d n = d.toNat.size := by
  induction n with
  | zero =>
    have hne : d.toNat ≠ 0 := fun hzero => hd (BitVec.eq_of_toNat_eq (by simpa))
    exact (size_eq_iff.mpr ⟨by omega, hlt⟩).symm
  | succ n ih =>
    rw [nbitsLoop]
    split
    case isTrue hset =>
      rw [and_one_shiftLeft_ne_zero d hn, Nat.mod_eq_of_lt hlt] at hset
      exact (size_eq_iff.mpr ⟨hset, hlt⟩).symm
    case isFalse hset =>
      rw [and_one_shiftLeft_ne_zero d hn, Nat.mod_eq_of_lt hlt] at hset
      exact ih (by omega) (Nat.lt_of_not_le hset)

/-- The search from the top limb down. -/
lemma bitsLoop_eq (a : BaseUInt width) {pos : ℕ} (hpos : pos ≤ width) :
    bitsLoop a pos = (limbValue (a.pn.take pos)).size := by
  induction pos with
  | zero => rfl
  | succ pos ih =>
    rw [bitsLoop, take_succ_pn hpos]
    split
    case isTrue hne =>
      rw [nbitsLoop_eq hne (by decide) (a.limb pos).isLt, size_limbValue_concat _ hne,
        length_take_pn (by omega)]
    case isFalse hzero =>
      rw [not_not.mp hzero, limbValue_concat, ih (by omega)]
      rfl

/-- The bit length of the number. -/
lemma bits_eq (a : BaseUInt width) : a.bits = a.value.size := by
  rw [bits, bitsLoop_eq a (le_refl _), take_of_length_le (by rw [a.length_pn])]
  rfl

/-! ### Division -/

/-- The error of `operator/=`. -/
inductive UIntError
  | divisionByZero
deriving DecidableEq

/-- Set a bit of the result. -/
def setBit (a : BaseUInt width) (shift : ℕ) : BaseUInt width :=
  ⟨orLimb a.pn (shift / 32) (1#32 <<< (shift % 32)), by rw [length_orLimb, a.length_pn]⟩

/-- The loop of `operator/=`, with one more than the shift. -/
def divLoop (num div quotient : BaseUInt width) : ℕ → BaseUInt width
  | 0 => quotient
  | shift + 1 =>
    if num.compareTo div ≠ .lt then
      divLoop (num.sub div) (div.shiftRight 1) (quotient.setBit shift) shift
    else divLoop num (div.shiftRight 1) quotient shift

/-- `operator/=`. -/
def div (a b : BaseUInt width) : Except UIntError (BaseUInt width) :=
  if b.bits = 0 then .error .divisionByZero
  else if b.bits > a.bits then .ok zero
  else
    let shift := a.bits - b.bits
    .ok (divLoop a (b.shiftLeft shift) zero (shift + 1))

/-- Setting a bit below which there is nothing adds it. -/
lemma value_setBit (hn : n < 32 * width) (ha : a.value % 2 ^ (n + 1) = 0) :
    (a.setBit n).value = a.value + 2 ^ n := by
  obtain ⟨q, hq⟩ := Nat.dvd_of_mod_eq_zero ha
  have hor : a.value + 2 ^ n = a.value ||| 2 ^ n := by
    rw [hq, Nat.mul_comm, ← Nat.shiftLeft_eq]
    exact Nat.shiftLeft_add_eq_or_of_lt (Nat.pow_lt_pow_right (by decide) (Nat.lt_succ_self n)) q
  have hpow : 2 ^ n < 2 ^ (32 * width) := Nat.pow_lt_pow_right (by decide) hn
  rw [hor]
  refine value_eq_of_testBit (Nat.or_lt_two_pow a.value_lt hpow) fun i hi => ?_
  have hlen : n / 32 < a.pn.length := by
    rw [a.length_pn]
    exact Nat.div_lt_of_lt_mul hn
  have hj : i % 32 < 32 := Nat.mod_lt i (by decide)
  rw [limb, setBit, getLsbD_orLimb hlen, Nat.testBit_or, Bool.or_eq_true, testBit_value, limb,
    Nat.testBit_two_pow, decide_eq_true_iff]
  refine or_congr_right ?_
  rw [show 1#32 <<< (n % 32) = BitVec.twoPow 32 (n % 32) from rfl, BitVec.getLsbD_twoPow,
    Bool.and_eq_true, decide_eq_true_iff, decide_eq_true_iff]
  omega

/-- In each round the divisor is compared at one place less.  What is left to divide fits into the
bits that are left. -/
lemma value_divLoop {d : ℕ} (hd : 0 < d) (hn : n ≤ 32 * width) {num div quotient : BaseUInt width}
    (hnum : num.value < d * 2 ^ n) (hdiv : n ≠ 0 → 2 * div.value = d * 2 ^ n)
    (hquotient : quotient.value % 2 ^ n = 0) :
    (divLoop num div quotient n).value = quotient.value + num.value / d := by
  induction n generalizing num div quotient with
  | zero =>
    rw [Nat.pow_zero, Nat.mul_one] at hnum
    rw [divLoop, Nat.div_eq_of_lt hnum, Nat.add_zero]
  | succ n ih =>
    have hplace : div.value = d * 2 ^ n := by
      have htwice := hdiv (Nat.succ_ne_zero n)
      rw [Nat.pow_succ, ← Nat.mul_assoc] at htwice
      omega
    have hzero : quotient.value % 2 ^ n = 0 :=
      Nat.mod_eq_zero_of_dvd (Nat.dvd_trans (Nat.pow_dvd_pow 2 (Nat.le_succ n))
        (Nat.dvd_of_mod_eq_zero hquotient))
    have hcmp : num.compareTo div ≠ .lt ↔ d * 2 ^ n ≤ num.value := by
      rw [compareTo_eq, ne_eq, compare_lt_iff_lt, Nat.not_lt, hplace]
    -- the divisor at the next place
    have hnext : n ≠ 0 → 2 * (div.shiftRight 1).value = d * 2 ^ n := by
      intro hne
      obtain ⟨k, rfl⟩ := Nat.exists_eq_succ_of_ne_zero hne
      rw [value_shiftRight, hplace, Nat.pow_one, Nat.pow_succ, ← Nat.mul_assoc,
        Nat.mul_div_cancel _ (by decide), Nat.mul_comm]
    rw [divLoop]
    split
    case isTrue hge =>
      rw [hcmp] at hge
      have hsub : (num.sub div).value = num.value - d * 2 ^ n := by
        rw [value_sub (by rwa [hplace]), hplace]
      have hset := value_setBit (Nat.lt_of_succ_le hn) hquotient
      have hrest : (num.sub div).value < d * 2 ^ n := by
        rw [Nat.pow_succ, ← Nat.mul_assoc] at hnum
        omega
      have hquot : num.value / d = (num.value - d * 2 ^ n) / d + 2 ^ n := by
        rw [← Nat.add_mul_div_left _ _ hd, Nat.sub_add_cancel hge]
      have hplaces : (quotient.setBit n).value % 2 ^ n = 0 := by
        rw [hset, Nat.add_mod_right, hzero]
      rw [ih (Nat.le_of_succ_le hn) hrest hnext hplaces, hset, hsub, hquot]
      omega
    case isFalse hlt =>
      rw [hcmp, Nat.not_le] at hlt
      exact ih (Nat.le_of_succ_le hn) hlt hnext hzero

/-- Division by a number that is not zero rounds down. -/
lemma div_eq_ok {b : BaseUInt width} (hb : b.value ≠ 0) :
    ∃ q, a.div b = .ok q ∧ q.value = a.value / b.value := by
  have hpos := Nat.pos_of_ne_zero hb
  have hbits := Nat.size_pos.mpr hpos
  have hbound : b.value < 2 ^ b.value.size := Nat.lt_size_self _
  rw [div, bits_eq, bits_eq, if_neg (Nat.ne_of_gt hbits)]
  split
  case isTrue hlt =>
    -- the result is certainly zero
    refine ⟨zero, rfl, ?_⟩
    have hsmall : a.value < b.value := by
      by_contra hge
      exact Nat.not_lt.mpr (Nat.size_le_size (Nat.le_of_not_lt hge)) hlt
    rw [value_zero, Nat.div_eq_of_lt hsmall]
  case isFalse hge =>
    have hle : b.value.size ≤ a.value.size := Nat.le_of_not_lt hge
    have hwidth : a.value.size ≤ 32 * width := Nat.size_le.mpr a.value_lt
    obtain ⟨n, hn⟩ : ∃ n, b.value.size = n + 1 := Nat.exists_eq_add_one.mpr hbits
    have htop := (size_eq_iff.mp hn).1
    -- the aligned divisor has the same highest bit
    have halign : b.value * 2 ^ (a.value.size - b.value.size) < 2 ^ (32 * width) := by
      calc b.value * 2 ^ (a.value.size - b.value.size)
          < 2 ^ b.value.size * 2 ^ (a.value.size - b.value.size) :=
            Nat.mul_lt_mul_of_pos_right hbound (Nat.two_pow_pos _)
        _ = 2 ^ a.value.size := by rw [← Nat.pow_add, Nat.add_sub_cancel' hle]
        _ ≤ 2 ^ (32 * width) := Nat.pow_le_pow_right (by decide) hwidth
    have hshift : (b.shiftLeft (a.value.size - b.value.size)).value =
        b.value * 2 ^ (a.value.size - b.value.size) := by
      rw [value_shiftLeft, Nat.mod_eq_of_lt halign]
    have hnum : a.value < b.value * 2 ^ (a.value.size - b.value.size + 1) := by
      calc a.value < 2 ^ a.value.size := Nat.lt_size_self _
        _ = 2 ^ n * 2 ^ (a.value.size - b.value.size + 1) := by
          rw [← Nat.pow_add]
          congr 1
          omega
        _ ≤ b.value * 2 ^ (a.value.size - b.value.size + 1) := Nat.mul_le_mul_right _ htop
    refine ⟨_, rfl, ?_⟩
    rw [value_divLoop hpos (by omega) hnum (fun _ => by rw [hshift, Nat.pow_succ]; ring)
      (by rw [value_zero, Nat.zero_mod]), value_zero, Nat.zero_add]

/-- On 256 bits, products and shifts to the left are exact modulo `2 ^ 256`, shifts to the right and
quotients round down. -/
theorem limb_arithmetic_exact (a b : BaseUInt 8) (b32 : BitVec 32) (shift : ℕ) :
    (a.mul b).value = a.value * b.value % 2 ^ 256 ∧
      (a.mulUInt32 b32).value = b32.toNat * a.value % 2 ^ 256 ∧
      (a.shiftLeft shift).value = a.value * 2 ^ shift % 2 ^ 256 ∧
      (a.shiftRight shift).value = a.value / 2 ^ shift ∧
      (b.value ≠ 0 → ∃ q, a.div b = .ok q ∧ q.value = a.value / b.value) :=
  ⟨value_mul a b, value_mulUInt32 a b32, value_shiftLeft a shift, value_shiftRight a shift,
    div_eq_ok⟩

/-- A division by three, which is not zero. -/
theorem limb_arithmetic_exact_three :
    (ofUInt64 3 : BaseUInt 8).value ≠ 0 ∧
      ∃ q, (ofUInt64 100 : BaseUInt 8).div (ofUInt64 3) = .ok q ∧ q.value = 33 := by
  have hne : (ofUInt64 3 : BaseUInt 8).value ≠ 0 := by decide
  obtain ⟨q, hq, hvalue⟩ := (limb_arithmetic_exact (ofUInt64 100) (ofUInt64 3) 0 0).2.2.2.2 hne
  exact ⟨hne, q, hq, hvalue⟩

end BaseUInt

end Aegisum
