import Aegisum.Chain.Index
import Aegisum.Model.CompactTarget
import Aegisum.Model.Symbolic

/-!
# Difficulty

`GetNextWorkRequired`, `CalculateNextWorkRequired` and `CheckProofOfWork`.  Once per period the
target is scaled by the time that the period took, within limits that depend on the height.
`GetBlockProof` measures the work that a target takes; the work of a chain is the sum.
-/

namespace Aegisum

open BaseUInt

variable {P : Primitives}

/-- The consensus parameters for proofs of work. -/
structure PowParams where
  powLimit : ArithUInt256
  fPowAllowMinDifficultyBlocks : Bool
  fPowNoRetargeting : Bool
  nPowTargetSpacing : ℤ
  nPowTargetTimespan : ℤ
  nDifficultyChangeActivationHeight : ℤ

/-- What can go wrong. -/
inductive PowError
  | assertionFailure
  | nullPointer
  | uint (e : BaseUInt.UIntError)
deriving DecidableEq

namespace PowParams

/-- The parameters of the main network. -/
def main : PowParams where
  powLimit := ⟨List.replicate 7 0xffffffff ++ [0x00000fff], rfl⟩
  fPowAllowMinDifficultyBlocks := false
  fPowNoRetargeting := false
  nPowTargetSpacing := 3 * 60
  nPowTargetTimespan := 9 * 60
  nDifficultyChangeActivationHeight := 21000

/-- The number of blocks of a period. -/
def difficultyAdjustmentInterval (params : PowParams) : ℤ :=
  params.nPowTargetTimespan.tdiv params.nPowTargetSpacing

/-- Limit the adjustment step. -/
def clampTimespan (params : PowParams) (fNewRules : Bool) (nActualTimespan : ℤ) : ℤ :=
  if fNewRules then
    -- at most 1.5 times more difficult and 6 times less difficult
    let span :=
      if nActualTimespan < (params.nPowTargetTimespan * 2).tdiv 3 then
        (params.nPowTargetTimespan * 2).tdiv 3
      else nActualTimespan
    if span > params.nPowTargetTimespan * 6 then params.nPowTargetTimespan * 6 else span
  else
    -- at most 4 times more and 4 times less difficult
    let span :=
      if nActualTimespan < params.nPowTargetTimespan.tdiv 4 then params.nPowTargetTimespan.tdiv 4
      else nActualTimespan
    if span > params.nPowTargetTimespan * 4 then params.nPowTargetTimespan * 4 else span

/-- Scale a target.  A target with as many bits as the limit is shifted to the right while it is
multiplied. -/
def retarget (params : PowParams) (nBits : ℕ) (nActualTimespan : ℤ) : Except PowError ℕ := do
  let bnOld := (setCompact nBits).target
  let fShift := bnOld.bits > params.powLimit.bits - 1
  let bnNew := if fShift then bnOld.shiftRight 1 else bnOld
  let bnNew := bnNew.mulUInt32 (.ofInt 32 nActualTimespan)
  let bnNew ← (bnNew.div (.ofUInt64 (.ofInt 64 params.nPowTargetTimespan))).mapError .uint
  let bnNew := if fShift then bnNew.shiftLeft 1 else bnNew
  let bnNew := if bnNew.compareTo params.powLimit = .gt then params.powLimit else bnNew
  match bnNew.getCompact with
  | none => .error .assertionFailure
  | some nCompact => .ok nCompact

/-- The target after a period that began at some time. -/
def calculateNextWorkRequired (params : PowParams) (pindexLast : Chain P) (nFirstBlockTime : ℤ) :
    Except PowError ℕ :=
  match pindexLast with
  | [] => .error .nullPointer
  | last :: _ =>
    if params.fPowNoRetargeting then .ok last.header.nBits
    else
      let fNewRules := pindexLast.nHeight ≥ params.nDifficultyChangeActivationHeight
      params.retarget last.header.nBits
        (params.clampTimespan fNewRules (last.header.nTime - nFirstBlockTime))

/-- The loop that goes back some blocks. -/
def goBack : ℕ → Chain P → Chain P
  | 0, pindexFirst => pindexFirst
  | _ + 1, [] => []
  | n + 1, _ :: pprev => goBack n pprev

/-- The loop that looks for the last block without the special rule for the minimal difficulty. -/
def lastNonSpecial (params : PowParams) (nProofOfWorkLimit : ℕ) : Chain P → Option ℕ
  | [] => none
  | [genesis] => some genesis.header.nBits
  | index :: pprev =>
    if Chain.nHeight (index :: pprev) % params.difficultyAdjustmentInterval ≠ 0 ∧
        index.header.nBits = nProofOfWorkLimit then
      lastNonSpecial params nProofOfWorkLimit pprev
    else some index.header.nBits

/-- The target that the block after `pindexLast` must have. -/
def getNextWorkRequired (params : PowParams) (pindexLast : Chain P) (blockTime : ℤ) :
    Except PowError ℕ :=
  match pindexLast with
  | [] => .error .assertionFailure
  | last :: _ =>
    match params.powLimit.getCompact with
    | none => .error .assertionFailure
    | some nProofOfWorkLimit =>
      if (pindexLast.nHeight + 1) % params.difficultyAdjustmentInterval ≠ 0 then
        if params.fPowAllowMinDifficultyBlocks then
          if blockTime > last.header.nTime + params.nPowTargetSpacing * 2 then .ok nProofOfWorkLimit
          else
            match params.lastNonSpecial nProofOfWorkLimit pindexLast with
            | none => .error .nullPointer
            | some nBits => .ok nBits
        else .ok last.header.nBits
      else
        -- the full period, unless it is the first one after genesis
        let blockstogoback :=
          if pindexLast.nHeight + 1 ≠ params.difficultyAdjustmentInterval then
            params.difficultyAdjustmentInterval
          else params.difficultyAdjustmentInterval - 1
        match goBack blockstogoback.toNat pindexLast with
        | [] => .error .assertionFailure
        | pindexFirst :: _ => params.calculateNextWorkRequired pindexLast pindexFirst.header.nTime

/-- The range check of `CheckProofOfWork`. -/
def checkRange (params : PowParams) (nBits : ℕ) : Bool :=
  let bnTarget := setCompact nBits
  !(bnTarget.fNegative || bnTarget.target.equalTo 0 || bnTarget.fOverflow ||
    bnTarget.target.compareTo params.powLimit = .gt)

/-- A hash is a proof of work for the claimed target. -/
def checkProofOfWork (params : PowParams) (hash : ArithUInt256) (nBits : ℕ) : Bool :=
  if !params.checkRange nBits then false
  else if hash.compareTo (setCompact nBits).target = .gt then false
  else true

/-! ### The main network -/

lemma value_powLimit_main : main.powLimit.value = 2 ^ 236 - 1 := by decide +kernel

lemma bits_powLimit_main : main.powLimit.bits = 236 := by decide +kernel

/-- The limits of the main network. -/
lemma clampTimespan_main (fNewRules : Bool) (span : ℤ) :
    main.clampTimespan fNewRules span =
      if fNewRules then max 360 (min 3240 span) else max 135 (min 2160 span) := by
  have hup : (main.nPowTargetTimespan * 2).tdiv 3 = 360 := rfl
  have hdown : main.nPowTargetTimespan * 6 = 3240 := rfl
  have hup' : main.nPowTargetTimespan.tdiv 4 = 135 := rfl
  have hdown' : main.nPowTargetTimespan * 4 = 2160 := rfl
  rw [clampTimespan, hup, hdown, hup', hdown']
  cases fNewRules with
  | false =>
    rw [if_neg Bool.false_ne_true, if_neg Bool.false_ne_true]
    dsimp only
    split <;> split <;> omega
  | true =>
    rw [if_pos rfl, if_pos rfl]
    dsimp only
    split <;> split <;> omega

lemma value_timespan_main :
    (ofUInt64 (.ofInt 64 main.nPowTargetTimespan) : ArithUInt256).value = 540 :=
  value_ofUInt64 (b := 540) (by decide)

/-- A product that does not wrap around is scaled by the length of the period. -/
lemma scale_eq_ok (bn : ArithUInt256) {span : ℕ} (hspan : span < 2 ^ 32)
    (hwrap : bn.value * span < 2 ^ 256) :
    ∃ bnNew, ((bn.mulUInt32 (.ofInt 32 span)).div
        (.ofUInt64 (.ofInt 64 main.nPowTargetTimespan))).mapError PowError.uint = .ok bnNew ∧
      bnNew.value = bn.value * span / 540 := by
  obtain ⟨bnNew, hdiv, hvalue⟩ := div_eq_ok (a := bn.mulUInt32 (.ofInt 32 span))
    (b := .ofUInt64 (.ofInt 64 main.nPowTargetTimespan)) (by rw [value_timespan_main]; decide)
  refine ⟨bnNew, by rw [hdiv]; rfl, ?_⟩
  rw [hvalue, value_timespan_main, value_mulUInt32, BitVec.ofInt_natCast,
    BitVec.toNat_ofNat, Nat.mod_eq_of_lt hspan, Nat.mul_comm, Nat.mod_eq_of_lt hwrap]

/-- Applying the limit. -/
lemma value_limit (bn : ArithUInt256) :
    (if bn.compareTo main.powLimit = .gt then main.powLimit else bn).value =
      min (2 ^ 236 - 1) bn.value := by
  simp only [compareTo_eq, compare_gt_iff_gt]
  rw [← value_powLimit_main]
  split
  case isTrue h => rw [Nat.min_eq_left (Nat.le_of_lt h)]
  case isFalse h => rw [Nat.min_eq_right (Nat.le_of_not_lt h)]

/-- The scaled target, stored with the bytes that are kept.  The shift has no effect on them. -/
lemma retarget_main {nBits span : ℕ} (hle : (setCompact nBits).target.value < 2 ^ 236)
    (hmin : 135 ≤ span) (hmax : span ≤ 3240) :
    main.retarget nBits span =
      .ok (encodeCompact (min (2 ^ 236 - 1) ((setCompact nBits).target.value * span / 540))) := by
  have heven := lt_or_even_target nBits
  generalize hbn : (setCompact nBits).target = bn at hle heven
  have hbits : bn.bits > main.powLimit.bits - 1 ↔ 2 ^ 235 ≤ bn.value := by
    rw [bits_powLimit_main, bits_eq, gt_iff_lt, Nat.lt_size]
  have hwrap : ∀ x < 2 ^ 236, x * span < 2 ^ 256 := fun x hx =>
    calc x * span ≤ 2 ^ 236 * 3240 := Nat.mul_le_mul (Nat.le_of_lt hx) hmax
      _ < 2 ^ 256 := by decide
  rw [retarget, hbn]
  by_cases hshift : 2 ^ 235 ≤ bn.value
  · -- the target is even, so that nothing is lost by the shift to the right
    obtain ⟨t, ht⟩ : ∃ t, bn.value = 2 * t := ⟨bn.value / 2, by omega⟩
    have hhalf : (bn.shiftRight 1).value = t := by
      rw [value_shiftRight, ht]
      omega
    obtain ⟨bnNew, hdiv, hvalue⟩ := scale_eq_ok (bn.shiftRight 1) (by omega : span < 2 ^ 32)
      (by rw [hhalf]; exact hwrap t (by omega))
    have hdouble : (bnNew.shiftLeft 1).value = 2 * (t * span / 540) := by
      have hsmall : t * span / 540 * 2 ^ 1 < 2 ^ (32 * 8) := by
        have := hwrap (2 * t) (by omega)
        have hdiv := Nat.div_mul_le_self (t * span) 540
        rw [Nat.mul_assoc] at this
        omega
      rw [value_shiftLeft, hvalue, hhalf, Nat.mod_eq_of_lt hsmall]
      omega
    simp only [hbits, hshift, if_true]
    rw [bind_of_eq_ok hdiv]
    simp only [getCompact_eq, value_limit, hdouble]
    -- the last bit is not among the bytes that are kept
    have hhalves : 2 * (t * span / 540) / 2 = bn.value * span / 540 / 2 := by
      rw [ht, Nat.mul_div_cancel_left _ (by decide), Nat.div_div_eq_div_mul, Nat.mul_comm 540,
        Nat.mul_assoc, Nat.mul_div_mul_left _ _ (by decide)]
    have hlong : 2 ^ 24 ≤ 2 * (t * span / 540) := by
      have hmul : 2 ^ 234 * 135 ≤ t * span := Nat.mul_le_mul (by omega) hmin
      have hdiv := Nat.div_le_div_right (c := 540) hmul
      omega
    refine congrArg Except.ok (encodeCompact_congr ?_ ?_)
    · omega
    · omega
  · obtain ⟨bnNew, hdiv, hvalue⟩ := scale_eq_ok bn (by omega : span < 2 ^ 32) (hwrap bn.value hle)
    simp only [hbits, hshift, if_false]
    rw [bind_of_eq_ok hdiv]
    simp only [getCompact_eq, value_limit, hvalue]

/-- Scaling never fails: the length of the period is not zero. -/
lemma exists_retarget_main (nBits : ℕ) (span : ℤ) :
    ∃ nCompact, main.retarget nBits span = .ok nCompact := by
  obtain ⟨bnNew, hdiv, -⟩ := div_eq_ok
    (a := (if (setCompact nBits).target.bits > main.powLimit.bits - 1 then
      (setCompact nBits).target.shiftRight 1 else (setCompact nBits).target).mulUInt32
        (.ofInt 32 span))
    (b := .ofUInt64 (.ofInt 64 main.nPowTargetTimespan)) (by rw [value_timespan_main]; decide)
  rw [retarget, hdiv]
  exact ⟨_, by
    simp only [getCompact_eq]
    rfl⟩

lemma goBack_eq (n : ℕ) (c : Chain P) : goBack n c = c.drop n := by
  induction n generalizing c with
  | zero => rfl
  | succ n ih =>
    cases c with
    | nil => rfl
    | cons index pprev => rw [goBack, ih, List.drop_succ_cons]

/-- At the end of a period there are enough blocks to go back: to the last block of the period
before, or to the first block. -/
lemma getNextWorkRequired_main (last : CBlockIndex P) (pprev : Chain P) (blockTime : ℤ)
    (hperiod : (Chain.nHeight (last :: pprev) + 1) % 3 = 0) :
    ∃ first, (Chain.getAncestor (last :: pprev)
        (max 0 (Chain.nHeight (last :: pprev) - 3))).head? = some first ∧
      main.getNextWorkRequired (last :: pprev) blockTime =
        main.calculateNextWorkRequired (last :: pprev) first.header.nTime := by
  have hinterval : main.difficultyAdjustmentInterval = 3 := rfl
  have hheight : Chain.nHeight (last :: pprev) = pprev.length := by
    rw [Chain.nHeight, List.length_cons]
    omega
  generalize hback : (if Chain.nHeight (last :: pprev) + 1 ≠ main.difficultyAdjustmentInterval then
    main.difficultyAdjustmentInterval else main.difficultyAdjustmentInterval - 1).toNat = back
  have hlt : back ≤ pprev.length ∧
      (pprev.length - max 0 ((pprev.length : ℤ) - 3)).toNat = back := by
    rw [hinterval, hheight] at hback
    rw [hheight] at hperiod
    split at hback <;> omega
  obtain ⟨first, rest, hdrop⟩ : ∃ first rest, (last :: pprev).drop back = first :: rest := by
    refine List.exists_cons_of_length_pos ?_
    rw [List.length_drop, List.length_cons]
    omega
  refine ⟨first, ?_, ?_⟩
  · rw [Chain.getAncestor, if_neg (by rw [hheight]; omega), hheight, hlt.2, hdrop, List.head?_cons]
  · rw [getNextWorkRequired, getCompact_eq]
    dsimp only
    rw [hback, hinterval, if_neg (not_not_intro hperiod), goBack_eq, hdrop]

/-- Between two ends of periods the target stays. -/
lemma getNextWorkRequired_main_of_ne (last : CBlockIndex P) (pprev : Chain P) (blockTime : ℤ)
    (hperiod : (Chain.nHeight (last :: pprev) + 1) % 3 ≠ 0) :
    main.getNextWorkRequired (last :: pprev) blockTime = .ok last.header.nBits := by
  have hinterval : main.difficultyAdjustmentInterval = 3 := rfl
  rw [getNextWorkRequired, getCompact_eq]
  dsimp only
  rw [hinterval, if_pos hperiod]
  rfl

lemma equalTo_zero (a : ArithUInt256) : a.equalTo 0 = true ↔ a.value = 0 := by
  obtain ⟨pn, hlen⟩ := a
  obtain _ | ⟨d₀, _ | ⟨d₁, pn⟩⟩ := pn
  · cases hlen
  · cases hlen
  · have hvalue : (⟨d₀ :: d₁ :: pn, hlen⟩ : ArithUInt256).value =
        limbValue (d₀ :: d₁ :: pn) := rfl
    have hequal : (⟨d₀ :: d₁ :: pn, hlen⟩ : ArithUInt256).equalTo 0 =
        (pn.all (· = 0) && d₁ = 0 && d₀ = 0) := rfl
    rw [hvalue, hequal, limbValue_eq_zero]
    simp only [Bool.and_eq_true, List.all_eq_true, decide_eq_true_iff, List.forall_mem_cons]
    tauto

lemma checkRange_main (nBits : ℕ) :
    main.checkRange nBits = true ↔ (setCompact nBits).fNegative = false ∧
      (setCompact nBits).target.value ≠ 0 ∧ (setCompact nBits).fOverflow = false ∧
      (setCompact nBits).target.value ≤ main.powLimit.value := by
  have hzero : (setCompact nBits).target.equalTo 0 = false ↔
      (setCompact nBits).target.value ≠ 0 := by
    rw [← Bool.not_eq_true, equalTo_zero]
  rw [checkRange, Bool.not_eq_true', Bool.or_eq_false_iff, Bool.or_eq_false_iff,
    Bool.or_eq_false_iff, decide_eq_false_iff_not, compareTo_eq, compare_gt_iff_gt,
    Nat.not_lt, hzero, and_assoc, and_assoc]

/-- The target of the next period on the main network.  It is the old target times the time of the
period, within the limits, over the time it should take, rounded down to the bytes that are kept;
no product wraps around.  It is at most the limit and at most the old target times the largest
ratio. If the old target is at least four, it is not zero and passes the range check.  There are
always enough blocks to go back. -/
theorem retarget_correct :
    (∀ (last : CBlockIndex P) (pprev : Chain P) (nFirstBlockTime : ℤ),
      main.checkRange last.header.nBits = true →
      let height := Chain.nHeight (last :: pprev)
      let target := (setCompact last.header.nBits).target.value
      let time := (last.header.nTime : ℤ) - nFirstBlockTime
      let span :=
        (if 21000 ≤ height then max 360 (min 3240 time) else max 135 (min 2160 time)).toNat
      target * span < 2 ^ 256 ∧
        ∃ nBits, main.calculateNextWorkRequired (last :: pprev) nFirstBlockTime = .ok nBits ∧
          (BaseUInt.ofNat (min main.powLimit.value (target * span / 540)) :
            ArithUInt256).getCompact = some nBits ∧
          (setCompact nBits).target.value ≤ main.powLimit.value ∧
          (setCompact nBits).target.value ≤ target * (if 21000 ≤ height then 6 else 4) ∧
          (setCompact nBits).fNegative = false ∧ (setCompact nBits).fOverflow = false ∧
          (4 ≤ target →
            (setCompact nBits).target.value ≠ 0 ∧ main.checkRange nBits = true)) ∧
    ∀ (last : CBlockIndex P) (pprev : Chain P) (blockTime : ℤ),
      (∃ nBits, main.getNextWorkRequired (last :: pprev) blockTime = .ok nBits) ∧
      ((Chain.nHeight (last :: pprev) + 1) % 3 = 0 →
        ∃ first, (Chain.getAncestor (last :: pprev)
            (max 0 (Chain.nHeight (last :: pprev) - 3))).head? = some first ∧
          main.getNextWorkRequired (last :: pprev) blockTime =
            main.calculateNextWorkRequired (last :: pprev) first.header.nTime) := by
  refine ⟨fun last pprev nFirstBlockTime hrange => ?_, fun last pprev blockTime => ⟨?_, ?_⟩⟩
  · intro height target time span
    obtain ⟨-, -, -, hle⟩ := (checkRange_main _).mp hrange
    rw [value_powLimit_main] at hle
    have hspan : 135 ≤ span ∧ span ≤ 540 * (if 21000 ≤ height then 6 else 4) ∧
        main.clampTimespan (decide (height ≥ main.nDifficultyChangeActivationHeight)) time =
          span := by
      rw [clampTimespan_main]
      simp only [span, decide_eq_true_iff, ge_iff_le, main]
      split <;> omega
    obtain ⟨hmin, hmax, hclamp⟩ := hspan
    have hmax' : span ≤ 3240 := Nat.le_trans hmax (by split <;> decide)
    have hwrap : target * span < 2 ^ 256 :=
      calc target * span ≤ 2 ^ 236 * 3240 := Nat.mul_le_mul (by omega) hmax'
        _ < 2 ^ 256 := by decide
    have hcalc : main.calculateNextWorkRequired (last :: pprev) nFirstBlockTime =
        .ok (encodeCompact (min (2 ^ 236 - 1) (target * span / 540))) := by
      rw [calculateNextWorkRequired, if_neg (by decide), ← retarget_main (by omega) hmin hmax',
        ← hclamp]
    -- what is stored
    generalize hx : min (2 ^ 236 - 1) (target * span / 540) = x at hcalc
    have hlimit : x ≤ 2 ^ 236 - 1 := hx ▸ Nat.min_le_left _ _
    have hscaled : x ≤ target * span / 540 := hx ▸ Nat.min_le_right _ _
    have hsmall : x < 2 ^ 256 := Nat.lt_of_le_of_lt hlimit (by decide)
    obtain ⟨hvalue, hneg, hover⟩ := setCompact_encodeCompact hsmall
    have hround := decodeCompact_encodeCompact_le x
    refine ⟨hwrap, encodeCompact x, hcalc, ?_, ?_, ?_, hneg, hover, fun hfour => ?_⟩
    · rw [value_powLimit_main, hx, BaseUInt.getCompact_eq, BaseUInt.value_ofNat hsmall]
    · rw [hvalue, value_powLimit_main]
      omega
    · rw [hvalue]
      refine Nat.le_trans hround (Nat.le_trans hscaled ?_)
      refine Nat.div_le_of_le_mul ?_
      rw [← Nat.mul_assoc, Nat.mul_comm 540, Nat.mul_assoc]
      exact Nat.mul_le_mul_left target hmax
    · have hpos : 1 ≤ target * span / 540 := by
        rw [Nat.le_div_iff_mul_le (by decide)]
        exact Nat.le_trans (by decide) (Nat.mul_le_mul hfour hmin)
      have hne : decodeCompact (encodeCompact x) ≠ 0 :=
        decodeCompact_encodeCompact_ne_zero (by omega)
      rw [checkRange_main, hvalue, value_powLimit_main]
      exact ⟨hne, hneg, hne, hover, by omega⟩
  · by_cases hperiod : (Chain.nHeight (last :: pprev) + 1) % 3 = 0
    · obtain ⟨first, -, heq⟩ := getNextWorkRequired_main last pprev blockTime hperiod
      rw [heq]
      exact exists_retarget_main _ _
    · exact ⟨_, getNextWorkRequired_main_of_ne last pprev blockTime hperiod⟩
  · exact getNextWorkRequired_main last pprev blockTime

/-- A block with a time and a target. -/
def timedEntry (nTime nBits : ℕ) : CBlockIndex Symbolic.sym :=
  ⟨⟨0, .word 0, .word 0, nTime, nBits, 0⟩, none, .word 0, 0⟩

/-- The first period, with the target of the first block and twice the time that it should take. -/
theorem retarget_correct_firstPeriod :
    let last := timedEntry 1080 0x1d00ffff
    let pprev := [timedEntry 600 0x1d00ffff, timedEntry 0 0x1d00ffff]
    main.checkRange last.header.nBits = true ∧
      ∃ nBits, main.getNextWorkRequired (last :: pprev) 2000 = .ok nBits ∧
        (setCompact nBits).target.value ≤ (setCompact 0x1d00ffff).target.value * 4 ∧
        main.checkRange nBits = true := by
  intro last pprev
  have hrange : main.checkRange last.header.nBits = true := by decide +kernel
  have hfour : 4 ≤ (setCompact last.header.nBits).target.value := by decide +kernel
  obtain ⟨hcalc, hnext⟩ := retarget_correct (P := Symbolic.sym)
  obtain ⟨first, hfirst, heq⟩ := (hnext last pprev 2000).2 (by decide)
  obtain ⟨-, nBits, hbits, -, -, hratio, -, -, hpass⟩ := hcalc last pprev first.header.nTime hrange
  exact ⟨hrange, nBits, heq.trans hbits, hratio, (hpass hfour).2⟩

end PowParams

/-! ### Work -/

/-- `operator~`. -/
def BaseUInt.compl {width : ℕ} (a : BaseUInt width) : BaseUInt width :=
  ⟨a.pn.map (~~~ ·), (List.length_map _).trans a.length_pn⟩

/-- `GetBlockProof`. -/
def getBlockProof (nBits : ℕ) : Except UIntError ArithUInt256 :=
  let bnTarget := setCompact nBits
  if bnTarget.fNegative || bnTarget.fOverflow || bnTarget.target.equalTo 0 then .ok .zero
  else do
    let quotient ← bnTarget.target.compl.div (bnTarget.target.add (.ofUInt64 1))
    pure (quotient.add (.ofUInt64 1))

/-- `nChainWork`, as `AddToBlockIndex` sets it. -/
def nChainWork : Chain P → Except UIntError ArithUInt256
  | [] => .ok .zero
  | e :: c => do
    let work ← nChainWork c
    let proof ← getBlockProof e.header.nBits
    pure (work.add proof)

/-- How many hashes it takes on average to find one that is not above the target. -/
def expectedHashes (nBits : ℕ) : ℕ :=
  let bnTarget := setCompact nBits
  if bnTarget.fNegative || bnTarget.fOverflow || bnTarget.target.equalTo 0 then 0
  else 2 ^ 256 / (bnTarget.target.value + 1)

/-- A compact target is never the largest number. -/
lemma value_target_succ_lt (nBits : ℕ) : (setCompact nBits).target.value + 1 < 2 ^ 256 := by
  rw [value_target_setCompact, decodeCompact]
  split_ifs with hsize
  · refine (Nat.succ_le_succ ((Nat.mod_le _ _).trans (Nat.div_le_self _ _))).trans_lt ?_
    exact (Nat.succ_le_of_lt (Nat.mod_lt _ (by norm_num))).trans_lt (by decide)
  · -- the last byte is zero
    obtain ⟨k, hk⟩ : ∃ k, nBits % 2 ^ 32 / 2 ^ 24 - 3 = 1 + k := Nat.exists_eq_add_of_le (by omega)
    rw [hk, Nat.mul_add, pow_add, mul_left_comm]
    omega

/-- The quotient that fits into 256 bits, plus one, is the one that is meant. -/
lemma getBlockProof_eq (nBits : ℕ) : ∃ proof, getBlockProof nBits = .ok proof ∧
    proof.value = expectedHashes nBits := by
  have hlt := value_target_succ_lt nBits
  unfold getBlockProof expectedHashes
  dsimp only
  split
  · exact ⟨_, rfl, value_zero⟩
  · next hvalid =>
    simp only [Bool.or_eq_true, PowParams.equalTo_zero, not_or] at hvalid
    set t := (setCompact nBits).target
    have hone : (ofUInt64 1 : ArithUInt256).value = 1 := by decide
    have hsucc : (t.add (.ofUInt64 1)).value = t.value + 1 := by
      rw [value_add, hone, Nat.mod_eq_of_lt hlt]
    have hcompl : t.compl.value = 2 ^ 256 - (t.value + 1) := by
      have hnot := limbValue_map_not t.pn
      rw [t.length_pn] at hnot
      exact Nat.eq_sub_of_add_eq hnot
    obtain ⟨q, hq, hvalue⟩ := div_eq_ok (a := t.compl) (b := t.add (.ofUInt64 1)) (by omega)
    refine ⟨_, bind_of_eq_ok hq _, ?_⟩
    have hdiv : q.value + 1 = 2 ^ 256 / (t.value + 1) := by
      rw [hvalue, hsucc, hcompl, ← Nat.div_eq_sub_div t.value.succ_pos hlt.le]
    have hsmall : 2 ^ 256 / (t.value + 1) < 2 ^ 256 := Nat.div_lt_self (by norm_num) (by omega)
    rw [value_add, hone, hdiv, Nat.mod_eq_of_lt hsmall]

lemma expectedHashes_pos {params : PowParams} {hash : ArithUInt256} {nBits : ℕ}
    (hpow : params.checkProofOfWork hash nBits = true) : 0 < expectedHashes nBits := by
  have hrange : params.checkRange nBits = true := by
    by_contra hnot
    simp [PowParams.checkProofOfWork, hnot] at hpow
  simp only [PowParams.checkRange, Bool.not_eq_true', Bool.or_eq_false_iff] at hrange
  simp only [expectedHashes, hrange, Bool.or_false, Bool.false_eq_true, if_false]
  exact Nat.div_pos (value_target_succ_lt nBits).le (Nat.succ_pos _)

lemma nChainWork_cons {c : Chain P} {work : ArithUInt256} (hwork : nChainWork c = .ok work)
    (e : CBlockIndex P) : ∃ work', nChainWork (e :: c) = .ok work' ∧
      work'.value = (work.value + expectedHashes e.header.nBits) % 2 ^ 256 := by
  obtain ⟨proof, hproof, hvalue⟩ := getBlockProof_eq e.header.nBits
  refine ⟨work.add proof, ?_, by rw [value_add, hvalue]⟩
  rw [nChainWork, hwork, hproof]
  rfl

lemma nChainWork_eq (c : Chain P) : ∃ work, nChainWork c = .ok work ∧
    work.value = (c.map fun e => expectedHashes e.header.nBits).sum % 2 ^ 256 := by
  induction c with
  | nil => exact ⟨_, rfl, value_zero⟩
  | cons e c ih =>
    obtain ⟨work, hwork, hvalue⟩ := ih
    obtain ⟨work', hwork', hvalue'⟩ := nChainWork_cons hwork e
    refine ⟨work', hwork', ?_⟩
    rw [hvalue', hvalue, Nat.mod_add_mod, List.map_cons, List.sum_cons, Nat.add_comm]

/-- The work of a chain is the number of hashes that its blocks take on average, each computed
without `2 ^ 256`, which does not fit.  A block with a proof of work gives its chain more work than
its parent has, as long as the total fits. -/
theorem nChainWork_exact (c : Chain P) :
    ∃ work, nChainWork c = .ok work ∧
      work.value = (c.map fun e => expectedHashes e.header.nBits).sum % 2 ^ 256 ∧
      ∀ (params : PowParams) (hash : ArithUInt256) (e : CBlockIndex P),
        params.checkProofOfWork hash e.header.nBits = true →
        work.value + expectedHashes e.header.nBits < 2 ^ 256 →
        ∃ work', nChainWork (e :: c) = .ok work' ∧ work.compareTo work' = .lt := by
  obtain ⟨work, hwork, hvalue⟩ := nChainWork_eq c
  refine ⟨work, hwork, hvalue, ?_⟩
  intro params hash e hpow hfits
  obtain ⟨work', hwork', hvalue'⟩ := nChainWork_cons hwork e
  refine ⟨work', hwork', ?_⟩
  rw [compareTo_eq, hvalue', Nat.mod_eq_of_lt hfits, compare_lt_iff_lt]
  exact Nat.lt_add_of_pos_right (expectedHashes_pos hpow)

/-- The work of two blocks at the least difficulty, and a third one. -/
theorem nChainWork_exact_third : ∃ work work',
    nChainWork [PowParams.timedEntry 1 0x1d00ffff, PowParams.timedEntry 0 0x1d00ffff] = .ok work ∧
      work.value = 2 * 0x100010001 ∧
      nChainWork [PowParams.timedEntry 2 0x1d00ffff, PowParams.timedEntry 1 0x1d00ffff,
        PowParams.timedEntry 0 0x1d00ffff] = .ok work' ∧ work.compareTo work' = .lt := by
  obtain ⟨work, hwork, hvalue, hmore⟩ := nChainWork_exact
    [PowParams.timedEntry 1 0x1d00ffff, PowParams.timedEntry 0 0x1d00ffff]
  have htwo : work.value = 2 * 0x100010001 := hvalue.trans (by decide +kernel)
  obtain ⟨work', hwork', hlt⟩ := hmore .main .zero (PowParams.timedEntry 2 0x1d00ffff)
    (by decide +kernel) (by rw [htwo]; decide +kernel)
  exact ⟨work, work', hwork, htwo, hwork', hlt⟩

end Aegisum
