import Aegisum.Chain.ThresholdState

/-!
# Deployments scheduled by heights

A deployment with start and timeout heights cannot fail: at the end of the first period after the
timeout height it is locked in, whatever the blocks signal.  The states are ordered by how far the
deployment has come, and every end of a period takes it at most one step further.
-/

namespace Aegisum

open ThresholdState

variable {P : Primitives}

/-- How far a deployment has come. -/
def ThresholdState.rank : ThresholdState → ℕ
  | .defined => 0
  | .started => 1
  | .lockedIn => 2
  | .active => 3
  | .failed => 4

/-- The first period boundary at or after a height. -/
def firstBoundary (period : ℕ) (height : ℤ) : ℤ := (height + period - 1) / period * period

namespace ThresholdConditionChecker

variable (chk : ThresholdConditionChecker)

/-- A schedule by heights with its start after the genesis block and not after its timeout. -/
structure HeightSchedule : Prop where
  beginTime_eq : chk.beginTime = 0
  endTime_eq : chk.endTime = 0
  one_le_begin : 1 ≤ chk.beginHeight
  begin_le_end : chk.beginHeight ≤ chk.endHeight

variable {chk} (h : chk.HeightSchedule) {c : Chain P}

namespace HeightSchedule

include h

lemma fHeightBased : chk.fHeightBased = true := by
  simp [ThresholdConditionChecker.fHeightBased, h.beginTime_eq, h.endTime_eq]

lemma ne_alwaysActive : chk.beginTime ≠ alwaysActive := h.beginTime_eq ▸ by decide

lemma ne_neverActive : chk.beginTime ≠ neverActive := h.beginTime_eq ▸ by decide

lemma beforeStart_iff : chk.beforeStart c = true ↔ (c.length : ℤ) < chk.beginHeight := by
  rw [beforeStart, h.fHeightBased, if_pos rfl, decide_eq_true_eq, Chain.nHeight]
  omega

lemma afterTimeout_iff : chk.afterTimeout c = true ↔ chk.endHeight ≤ (c.length : ℤ) := by
  rw [afterTimeout, h.fHeightBased, if_pos rfl, decide_eq_true_eq, Chain.nHeight]
  omega

/-- Every chain of such a deployment allows the early exit, whatever its times. -/
lemma startSound (c : Chain P) : chk.StartSound c := by
  intro j _ hbefore i hji _
  rw [h.beforeStart_iff, List.length_drop] at hbefore ⊢
  omega

/-- A transition goes on by at most one state, and never to `FAILED`. -/
lemma rank_stateNext {state : ThresholdState} (hstate : state ≠ .failed) :
    chk.stateNext c state ≠ .failed ∧ state.rank ≤ (chk.stateNext c state).rank ∧
      (chk.stateNext c state).rank ≤ state.rank + 1 := by
  cases state with
  | failed => exact absurd rfl hstate
  | defined => unfold stateNext; split_ifs <;> simp [rank]
  | started => unfold stateNext; rw [h.fHeightBased]; split_ifs <;> simp_all [rank]
  | lockedIn => simp [stateNext, rank]
  | active => simp [stateNext, rank]

lemma rank_stateAfter (c : Chain P) (k : ℕ) :
    chk.stateAfter c k ≠ .failed ∧
      (chk.stateAfter c k).rank ≤ (chk.stateAfter c (k + 1)).rank ∧
      (chk.stateAfter c (k + 1)).rank ≤ (chk.stateAfter c k).rank + 1 := by
  have hne : chk.stateAfter c k ≠ .failed := by
    induction k with
    | zero => simp [stateAfter]
    | succ k ih => exact (h.rank_stateNext ih).1
  exact ⟨hne, (h.rank_stateNext hne).2⟩

lemma rank_stateAfter_mono (c : Chain P) : Monotone fun k => (chk.stateAfter c k).rank :=
  monotone_nat_of_le_succ fun k => (h.rank_stateAfter c k).2.1

omit h in
lemma length_getAncestor_periods {k : ℕ} (hk : k * chk.period ≤ c.length) :
    (c.getAncestor ((k * chk.period : ℕ) - 1)).length = k * chk.period := by
  rw [chk.getAncestor_periods hk, List.length_drop]
  omega

/-- Before the start height nothing has happened. -/
lemma stateAfter_eq_defined {k : ℕ} (hk : k * chk.period ≤ c.length)
    (hlt : ((k * chk.period : ℕ) : ℤ) < chk.beginHeight) : chk.stateAfter c k = .defined := by
  induction k with
  | zero => rfl
  | succ k ih =>
    have hmul := Nat.add_one_mul k chk.period
    have hbefore : chk.beforeStart (c.getAncestor (((k + 1) * chk.period : ℕ) - 1)) = true := by
      rw [h.beforeStart_iff, length_getAncestor_periods hk]
      exact hlt
    rw [stateAfter, ih (by omega) (by omega), stateNext, hbefore, if_pos rfl]

/-- From the start height on the deployment has started. -/
lemma one_le_rank_stateAfter {k : ℕ} (hk : k * chk.period ≤ c.length)
    (hle : chk.beginHeight ≤ (k * chk.period : ℕ)) : 1 ≤ (chk.stateAfter c k).rank := by
  have hone := h.one_le_begin
  obtain ⟨k, rfl⟩ : ∃ m, k = m + 1 := by
    refine Nat.exists_eq_succ_of_ne_zero ?_
    rintro rfl
    omega
  have hafter : ¬ chk.beforeStart (c.getAncestor (((k + 1) * chk.period : ℕ) - 1)) = true := by
    rw [h.beforeStart_iff, length_getAncestor_periods hk]
    omega
  rw [stateAfter]
  cases hstate : chk.stateAfter c k with
  | failed => exact absurd hstate (h.rank_stateAfter c k).1
  | defined => rw [stateNext, if_neg hafter]; exact le_rfl
  | started => exact (h.rank_stateNext (show started ≠ .failed by simp)).2.1
  | lockedIn => simp [stateNext, rank]
  | active => simp [stateNext, rank]

/-- After the timeout height every period takes a started deployment one state further. -/
lemma rank_stateAfter_lt {k : ℕ} (hk : (k + 1) * chk.period ≤ c.length)
    (hle : chk.endHeight ≤ ((k + 1) * chk.period : ℕ)) (hone : 1 ≤ (chk.stateAfter c k).rank)
    (hlt : (chk.stateAfter c k).rank < 3) :
    (chk.stateAfter c k).rank < (chk.stateAfter c (k + 1)).rank := by
  have hafter : chk.afterTimeout (c.getAncestor (((k + 1) * chk.period : ℕ) - 1)) = true := by
    rw [h.afterTimeout_iff, length_getAncestor_periods hk]
    exact hle
  rw [stateAfter]
  cases hstate : chk.stateAfter c k with
  | failed => exact absurd hstate (h.rank_stateAfter c k).1
  | defined => simp [hstate, rank] at hone
  | started =>
    rw [stateNext, hafter, h.fHeightBased, if_pos rfl, if_pos rfl, ite_self]
    decide
  | lockedIn => simp [stateNext, rank]
  | active => simp [hstate, rank] at hlt

/-- Two periods after the first boundary at or after the timeout the deployment is active. -/
lemma stateAfter_eq_active {t k : ℕ} (ht : chk.endHeight ≤ (t * chk.period : ℕ))
    (htk : t + 2 ≤ k) (hk : k * chk.period ≤ c.length) : chk.stateAfter c k = .active := by
  have hbounds : (t + 1 + 1) * chk.period ≤ k * chk.period := Nat.mul_le_mul_right _ htk
  have h1 := Nat.add_one_mul t chk.period
  have h2 := Nat.add_one_mul (t + 1) chk.period
  have hbegin := h.begin_le_end
  have hstarted := h.one_le_rank_stateAfter (c := c) (k := t) (by omega) (by omega)
  have hmono := h.rank_stateAfter_mono c
  have hstep1 := h.rank_stateAfter_lt (c := c) (k := t) (by omega) (by omega) hstarted
  have hstep2 := h.rank_stateAfter_lt (c := c) (k := t + 1) (by omega) (by omega)
    (hstarted.trans (hmono (Nat.le_succ t)))
  have hlast : (chk.stateAfter c (t + 1 + 1)).rank ≤ (chk.stateAfter c k).rank := hmono htk
  have hnext : (chk.stateAfter c (t + 1)).rank ≤ (chk.stateAfter c (t + 1 + 1)).rank :=
    hmono (Nat.le_succ _)
  have hthree : 3 ≤ (chk.stateAfter c k).rank := by
    have hmid : (chk.stateAfter c t).rank ≤ (chk.stateAfter c (t + 1)).rank := hmono (Nat.le_succ _)
    omega
  have hne := (h.rank_stateAfter c k).1
  cases hstate : chk.stateAfter c k <;> simp_all [rank]

lemma naiveState_eq_stateAfter (c : Chain P) :
    chk.naiveState c = chk.stateAfter c (c.length / chk.period) := by
  rw [naiveState, if_neg h.ne_alwaysActive, if_neg h.ne_neverActive]

/-- A block moves the state on by at most one. -/
lemma rank_naiveState_cons (e : CBlockIndex P) (c : Chain P) :
    (chk.naiveState c).rank ≤ (chk.naiveState (e :: c)).rank ∧
      (chk.naiveState (e :: c)).rank ≤ (chk.naiveState c).rank + 1 := by
  have hdrop : chk.stateAfter c (c.length / chk.period) =
      chk.stateAfter (e :: c) (c.length / chk.period) := by
    have hle := Nat.div_mul_le_self c.length chk.period
    exact chk.stateAfter_drop (c := e :: c) (j := 1) (by rw [List.length_cons]; omega)
  rw [h.naiveState_eq_stateAfter, h.naiveState_eq_stateAfter, hdrop, List.length_cons, Nat.succ_div]
  split_ifs
  · exact (h.rank_stateAfter (e :: c) _).2
  · exact ⟨le_rfl, Nat.le_succ _⟩

omit h in
/-- Every period boundary at or after a height is at or after the first one. -/
lemma firstBoundary_le {height : ℤ} {k : ℕ} (hle : height ≤ (k * chk.period : ℕ)) :
    firstBoundary chk.period height ≤ (k * chk.period : ℕ) := by
  have hpos : (0 : ℤ) < chk.period := Int.natCast_pos.mpr chk.period_pos
  have hdiv : (height + chk.period - 1) / chk.period ≤ k := by
    refine Int.le_of_lt_add_one ((Int.ediv_lt_iff_lt_mul hpos).mpr ?_)
    push_cast at hle
    rw [add_mul]
    omega
  have hmul := Int.mul_le_mul_of_nonneg_right hdiv hpos.le
  push_cast
  exact hmul

omit h in
/-- The first period boundary is one, and is at or after the height. -/
lemma exists_firstBoundary_eq (chk : ThresholdConditionChecker) {height : ℤ}
    (hheight : 0 ≤ height) :
    ∃ t : ℕ, firstBoundary chk.period height = (t * chk.period : ℕ) ∧
      height ≤ (t * chk.period : ℕ) := by
  have hpos : (0 : ℤ) < chk.period := Int.natCast_pos.mpr chk.period_pos
  have hnonneg : 0 ≤ (height + chk.period - 1) / chk.period := Int.ediv_nonneg (by omega) hpos.le
  obtain ⟨t, ht⟩ := Int.eq_ofNat_of_zero_le hnonneg
  have hmod := Int.emod_add_mul_ediv (height + chk.period - 1) chk.period
  have hlt := Int.emod_lt_of_pos (height + chk.period - 1) hpos
  refine ⟨t, by rw [firstBoundary, ht, Nat.cast_mul], ?_⟩
  rw [ht] at hmod
  rw [Nat.cast_mul, mul_comm]
  omega

lemma naiveState_eq_defined (hlt : (c.length : ℤ) < firstBoundary chk.period chk.beginHeight) :
    chk.naiveState c = .defined := by
  have hdiv := Nat.div_mul_le_self c.length chk.period
  rw [h.naiveState_eq_stateAfter]
  refine h.stateAfter_eq_defined hdiv ?_
  by_contra hge
  have hle := firstBoundary_le (not_lt.mp hge)
  omega

lemma naiveState_eq_active
    (hle : firstBoundary chk.period chk.endHeight + 2 * chk.period ≤ (c.length : ℤ)) :
    chk.naiveState c = .active := by
  have hone := h.one_le_begin
  have hend := h.begin_le_end
  have hnonneg : 0 ≤ chk.endHeight := by omega
  obtain ⟨t, ht, hheight⟩ := exists_firstBoundary_eq chk hnonneg
  rw [h.naiveState_eq_stateAfter]
  refine h.stateAfter_eq_active hheight ?_ (Nat.div_mul_le_self _ _)
  rw [Nat.le_div_iff_mul_le chk.period_pos, Nat.add_mul]
  rw [ht] at hle
  omega

end HeightSchedule

/-- `GetStateFor` for a deployment with start and timeout heights, whatever the blocks signal and
whatever was asked before: it never fails, moves on by at most one state with each block, is
`DEFINED` before the first period boundary at or after the start height, and `ACTIVE` from two
periods after the first boundary at or after the timeout height. -/
theorem heightBased_activates (params : ConsensusParams P) (d : BIP9Deployment)
    (hstartTime : d.nStartTime = 0) (htimeout : d.nTimeout = 0) (hone : 1 ≤ d.nStartHeight)
    (hle : d.nStartHeight ≤ d.nTimeoutHeight) (cache : ThresholdConditionCache P)
    (hcache : Reached (versionBitsConditionChecker params d) Set.univ cache) (c : Chain P) :
    ∃ state cache', (versionBitsConditionChecker params d).getStateFor c cache =
        some (state, cache') ∧
      state ≠ .failed ∧
      (c.nHeight + 1 < firstBoundary params.nMinerConfirmationWindow d.nStartHeight →
        state = .defined) ∧
      (firstBoundary params.nMinerConfirmationWindow d.nTimeoutHeight +
          2 * params.nMinerConfirmationWindow ≤ c.nHeight + 1 → state = .active) ∧
      ∀ e cache₁, Reached (versionBitsConditionChecker params d) Set.univ cache₁ →
        ∃ next cache₁', (versionBitsConditionChecker params d).getStateFor (e :: c) cache₁ =
            some (next, cache₁') ∧
          state.rank ≤ next.rank ∧ next.rank ≤ state.rank + 1 := by
  have h : (versionBitsConditionChecker params d).HeightSchedule :=
    ⟨hstartTime, htimeout, hone, hle⟩
  have hsound : ∀ c ∈ (Set.univ : Set (Chain P)),
      (versionBitsConditionChecker params d).StartSound c := fun c _ => h.startSound c
  have hheight : c.nHeight + 1 = c.length := by
    unfold Chain.nHeight
    omega
  obtain ⟨cache', hstate, -⟩ := getStateFor_eq_some (h.startSound c) (hcache.cacheValid hsound)
  rw [hheight]
  refine ⟨_, cache', hstate, ?_, h.naiveState_eq_defined, h.naiveState_eq_active,
    fun e cache₁ hcache₁ => ?_⟩
  · rw [h.naiveState_eq_stateAfter]
    exact (h.rank_stateAfter c _).1
  · obtain ⟨cache₁', hnext, -⟩ :=
      getStateFor_eq_some (h.startSound (e :: c)) (hcache₁.cacheValid hsound)
    exact ⟨_, cache₁', hnext, h.rank_naiveState_cons e c⟩

/-- A deployment with start and timeout in one period of one block, on a chain of four blocks. -/
theorem heightBased_activates_plain :
    ∃ cache', (versionBitsConditionChecker Symbolic.earlyParams ⟨4, 0, 0, 1, 1⟩).getStateFor
      (Symbolic.plainEntry 3 :: Symbolic.plainChain) .empty = some (.active, cache') := by
  obtain ⟨state, cache', hstate, -, -, hactive, -⟩ :=
    heightBased_activates Symbolic.earlyParams ⟨4, 0, 0, 1, 1⟩ rfl rfl le_rfl le_rfl .empty
      .clear (Symbolic.plainEntry 3 :: Symbolic.plainChain)
  exact ⟨cache', by rw [hstate, hactive (by decide)]⟩

end ThresholdConditionChecker

end Aegisum
