import Aegisum.Chain.Index

/-!
# Version bits

`GetStateFor` for the MWEB deployment.

The source memoizes states per block index.  The function here recomputes them; the fuel is
the number of blocks, and every step goes back at least one.
-/

namespace Aegisum

variable {P : Primitives}

/-- The states of a deployment. -/
inductive ThresholdState
  | defined
  | started
  | lockedIn
  | active
  | failed
deriving DecidableEq

/-- `nStartTime` of a deployment that is always active. -/
def alwaysActive : ℤ := -1

/-- `nStartTime` of a deployment that is never active. -/
def neverActive : ℤ := -2

namespace BIP9Deployment

/-- The schedule is given by heights rather than by times. -/
def fHeightBased (d : BIP9Deployment) : Bool := d.nStartTime = 0 ∧ d.nTimeout = 0

/-- The block's version signals for the deployment. -/
def condition (d : BIP9Deployment) (e : CBlockIndex P) : Bool :=
  let nVersion := (e.header.nVersion % 2 ^ 32).toNat
  nVersion &&& 0xE0000000 == 0x20000000 && nVersion.testBit d.bit

/-- The next block is before the start of the deployment. -/
def beforeStart (d : BIP9Deployment) (c : Chain P) : Bool :=
  if d.fHeightBased then c.nHeight + 1 < d.nStartHeight else c.getMedianTimePast < d.nStartTime

/-- The next block is not before the end of the deployment. -/
def afterTimeout (d : BIP9Deployment) (c : Chain P) : Bool :=
  if d.fHeightBased then c.nHeight + 1 ≥ d.nTimeoutHeight else c.getMedianTimePast ≥ d.nTimeout

end BIP9Deployment

namespace ConsensusParams

/-- The transition at the end of a period. -/
def nextState (params : ConsensusParams P) (c : Chain P) : ThresholdState → ThresholdState
  | .defined => if params.deploymentMweb.beforeStart c then .defined else .started
  | .started =>
    if params.nRuleChangeActivationThreshold ≤
        (c.take params.nMinerConfirmationWindow).countP params.deploymentMweb.condition then
      .lockedIn
    else if params.deploymentMweb.afterTimeout c then
      if params.deploymentMweb.fHeightBased then .lockedIn else .failed
    else .started
  | .lockedIn => .active
  | .failed => .failed
  | .active => .active

/-- The state after the periods that end at the head of the chain. -/
def stateAtPeriodEnd (params : ConsensusParams P) : ℕ → Chain P → ThresholdState
  | 0, _ => .defined
  | fuel + 1, c =>
    if c = [] then .defined
    else if params.deploymentMweb.beforeStart c then .defined
    else
      params.nextState c (params.stateAtPeriodEnd fuel
        (c.getAncestor (c.nHeight - params.nMinerConfirmationWindow)))

/-- The last block of the last completed period. -/
def periodEnd (params : ConsensusParams P) (c : Chain P) : Chain P :=
  c.getAncestor (c.nHeight - (c.nHeight + 1) % params.nMinerConfirmationWindow)

/-- The state of the deployment for the block after the head of the chain. -/
def getStateFor (params : ConsensusParams P) (c : Chain P) : ThresholdState :=
  if params.deploymentMweb.nStartTime = alwaysActive then .active
  else if params.deploymentMweb.nStartTime = neverActive then .failed
  else params.stateAtPeriodEnd (params.periodEnd c).length (params.periodEnd c)

/-- MWEB is active for the block after the head of the chain. -/
def isMWEBEnabled (params : ConsensusParams P) (c : Chain P) : Bool :=
  params.getStateFor c = .active

/-! ### Ends of periods -/

lemma periodEnd_eq_drop (params : ConsensusParams P) (c : Chain P) :
    params.periodEnd c = c.drop (c.length % params.nMinerConfirmationWindow) := by
  have h : c.nHeight - (c.nHeight + 1) % params.nMinerConfirmationWindow =
      c.nHeight - ((c.length % params.nMinerConfirmationWindow : ℕ) : ℤ) := by
    simp [Chain.nHeight]
  rw [periodEnd, h, Chain.getAncestor_sub]

variable {c : Chain P}

/-- More fuel than blocks changes nothing. -/
lemma stateAtPeriodEnd_fuel (params : ConsensusParams P) {fuel : ℕ} (h : c.length ≤ fuel) :
    params.stateAtPeriodEnd fuel c = params.stateAtPeriodEnd c.length c := by
  induction fuel using Nat.strong_induction_on generalizing c with
  | _ fuel ih =>
    cases c with
    | nil => cases fuel <;> simp [stateAtPeriodEnd]
    | cons e c =>
      obtain ⟨fuel, rfl⟩ : ∃ m, fuel = m + 1 := ⟨fuel - 1, by simp at h; omega⟩
      have hpos := params.nMinerConfirmationWindow_pos
      rw [List.length_cons, stateAtPeriodEnd, stateAtPeriodEnd, Chain.getAncestor_sub]
      have hlen : ((e :: c).drop params.nMinerConfirmationWindow).length ≤ c.length := by
        simp only [List.length_drop, List.length_cons]
        omega
      simp only [List.length_cons] at h
      rcases Nat.lt_or_ge c.length fuel with hlt | hge
      · rw [ih fuel (by omega) (by omega), ih c.length (by omega) hlen]
      · obtain rfl : fuel = c.length := by omega
        rfl

/-- A chain on which every block is later than the median time past of its parent. -/
inductive TimesRespected : Chain P → Prop
  | nil : TimesRespected []
  | cons (e : CBlockIndex P) (c : Chain P) (hc : TimesRespected c)
      (ht : c ≠ [] → c.getMedianTimePast < e.header.nTime) : TimesRespected (e :: c)

lemma TimesRespected.drop (h : TimesRespected c) (k : ℕ) : TimesRespected (c.drop k) := by
  induction h generalizing k with
  | nil => simpa using TimesRespected.nil
  | cons e c hc ht ih =>
    cases k with
    | zero => exact .cons e c hc ht
    | succ k => exact ih k

lemma stateAtPeriodEnd_cons (params : ConsensusParams P) (hc : c ≠ [])
    (hs : params.deploymentMweb.beforeStart c = false) :
    params.stateAtPeriodEnd c.length c =
      params.nextState c (params.stateAtPeriodEnd (c.drop params.nMinerConfirmationWindow).length
        (c.drop params.nMinerConfirmationWindow)) := by
  cases c with
  | nil => exact absurd rfl hc
  | cons e c =>
    have hpos := params.nMinerConfirmationWindow_pos
    rw [List.length_cons, stateAtPeriodEnd, Chain.getAncestor_sub, hs]
    simp only [reduceCtorEq, if_false, Bool.false_eq_true]
    rw [stateAtPeriodEnd_fuel]
    simp only [List.length_drop, List.length_cons]
    omega

end ConsensusParams

end Aegisum
