import Aegisum.Foundations.FiniteMap
import Aegisum.Chain.VersionBits
import Aegisum.Model.Symbolic

/-!
# Cached threshold states

`GetStateFor` walks back over ends of periods until it finds one whose state is in the cache or
that lies before the start of the deployment, then replays the transitions forward and caches
them.  The states are compared with `naiveState`, which goes through the periods from the genesis
block on.  The invariant is about the contents of the cache alone: whatever is stored for the end
of a period is its naive state.  It does not depend on which calls were made, in which order and
on which branches.
-/

namespace Aegisum

open Chain List Nat

variable {P : Primitives}

/-- The parameters of `AbstractThresholdConditionChecker`. -/
structure ThresholdConditionChecker where
  /-- The condition on the version of a block. -/
  condition : ℤ → Bool
  beginTime : ℤ
  endTime : ℤ
  beginHeight : ℤ
  endHeight : ℤ
  period : ℕ
  threshold : ℕ
  period_pos : 0 < period

/-- `VersionBitsConditionChecker`: the checker of a deployment. -/
def versionBitsConditionChecker (params : ConsensusParams P) (d : BIP9Deployment) :
    ThresholdConditionChecker where
  condition nVersion :=
    let nVersion := (nVersion % 2 ^ 32).toNat
    nVersion &&& 0xE0000000 == 0x20000000 && nVersion.testBit d.bit
  beginTime := d.nStartTime
  endTime := d.nTimeout
  beginHeight := d.nStartHeight
  endHeight := d.nTimeoutHeight
  period := params.nMinerConfirmationWindow
  threshold := params.nRuleChangeActivationThreshold
  period_pos := params.nMinerConfirmationWindow_pos

/-- What identifies a block: its header and those of its ancestors. -/
def Chain.headers (c : Chain P) : List (CBlockHeader P) := c.map CBlockIndex.header

/-- The states of blocks at ends of periods. -/
abbrev ThresholdConditionCache (P : Primitives) :=
  FiniteMap (List (CBlockHeader P)) ThresholdState

namespace ThresholdConditionChecker

variable (chk : ThresholdConditionChecker)

def fHeightBased : Bool := chk.beginTime = 0 ∧ chk.endTime = 0

def beforeStart (c : Chain P) : Bool :=
  if chk.fHeightBased then c.nHeight + 1 < chk.beginHeight
  else c.getMedianTimePast < chk.beginTime

def afterTimeout (c : Chain P) : Bool :=
  if chk.fHeightBased then c.nHeight + 1 ≥ chk.endHeight
  else c.getMedianTimePast ≥ chk.endTime

/-- Signalling blocks in the period that ends at the head of the chain. -/
def count (c : Chain P) : ℕ :=
  (c.take chk.period).countP fun e => chk.condition e.header.nVersion

/-- The transition at the end of a period. -/
def stateNext (c : Chain P) : ThresholdState → ThresholdState
  | .defined => if chk.beforeStart c then .defined else .started
  | .started =>
    if chk.count c ≥ chk.threshold then .lockedIn
    else if chk.afterTimeout c then (if chk.fHeightBased then .lockedIn else .failed)
    else .started
  | .lockedIn => .active
  | .failed => .failed
  | .active => .active

/-! ### The source's walks -/

/-- The walk back to a block whose state is known, with the blocks still to compute. -/
def walkBack : ℕ → ThresholdConditionCache P → Chain P → List (Chain P) →
    ThresholdConditionCache P × Chain P × List (Chain P)
  | 0, cache, c, vToCompute => (cache, c, vToCompute)
  | fuel + 1, cache, c, vToCompute =>
    if (cache.get c.headers).isSome then (cache, c, vToCompute)
    else if c = [] then (cache.set c.headers (some .defined), c, vToCompute)
    else if chk.beforeStart c then (cache.set c.headers (some .defined), c, vToCompute)
    else walkBack fuel cache (c.getAncestor (c.nHeight - chk.period)) (c :: vToCompute)

/-- The walk forward, which caches what it computes. -/
def walkForward : List (Chain P) → ThresholdState → ThresholdConditionCache P →
    ThresholdState × ThresholdConditionCache P
  | [], state, cache => (state, cache)
  | c :: vToCompute, state, cache =>
    let next := chk.stateNext c state
    walkForward vToCompute next (cache.set c.headers (some next))

/-- The last block of the last completed period. -/
def endOfPrevPeriod (c : Chain P) : Chain P :=
  c.getAncestor (c.nHeight - (c.nHeight + 1) % chk.period)

/-- `GetStateFor`; nothing is returned if the walk back does not end at a cached block. -/
def getStateFor (c : Chain P) (cache : ThresholdConditionCache P) :
    Option (ThresholdState × ThresholdConditionCache P) :=
  if chk.beginTime = alwaysActive then some (.active, cache)
  else if chk.beginTime = neverActive then some (.failed, cache)
  else
    let found := chk.walkBack (c.length + 1) cache (chk.endOfPrevPeriod c) []
    (found.1.get found.2.1.headers).map fun state =>
      chk.walkForward found.2.2 state found.1

/-- The loop of `GetStateSinceHeightFor` over the ends of earlier periods. -/
def walkSince (initialState : ThresholdState) : ℕ → Chain P → ThresholdConditionCache P →
    Option (Chain P × ThresholdConditionCache P)
  | 0, _, _ => none
  | fuel + 1, c, cache =>
    let previousPeriodParent := c.getAncestor (c.nHeight - chk.period)
    if previousPeriodParent = [] then some (c, cache)
    else
      (chk.getStateFor previousPeriodParent cache).bind fun (state, cache) =>
        if state = initialState then walkSince initialState fuel previousPeriodParent cache
        else some (c, cache)

/-- `GetStateSinceHeightFor`; nothing is returned for a null pointer that would be used. -/
def getStateSinceHeightFor (c : Chain P) (cache : ThresholdConditionCache P) :
    Option (ℤ × ThresholdConditionCache P) :=
  if chk.beginTime = alwaysActive ∨ chk.beginTime = neverActive then some (0, cache)
  else
    (chk.getStateFor c cache).bind fun (initialState, cache) =>
      if initialState = .defined then some (0, cache)
      else if c = [] then none
      else
        (chk.walkSince initialState (c.length + 1) (chk.endOfPrevPeriod c) cache).map
          fun (c, cache) => (c.nHeight + 1, cache)

/-! ### Period by period -/

/-- The state after the first periods of a chain. -/
def stateAfter (c : Chain P) : ℕ → ThresholdState
  | 0 => .defined
  | k + 1 => chk.stateNext (c.getAncestor (((k + 1) * chk.period : ℕ) - 1)) (stateAfter c k)

/-- The state for the block after the head of the chain. -/
def naiveState (c : Chain P) : ThresholdState :=
  if chk.beginTime = alwaysActive then .active
  else if chk.beginTime = neverActive then .failed
  else chk.stateAfter c (c.length / chk.period)

variable {c : Chain P}

/-- The chain of the first `k` periods. -/
lemma getAncestor_periods {k : ℕ} (hk : k * chk.period ≤ c.length) :
    c.getAncestor ((k * chk.period : ℕ) - 1) = c.drop (c.length - k * chk.period) := by
  have h := c.getAncestor_sub (c.length - k * chk.period)
  rw [← h]
  congr 1
  unfold nHeight
  omega

variable {j : ℕ}

/-- Later blocks do not change the states of the first periods. -/
lemma stateAfter_drop {k : ℕ} (hk : j + k * chk.period ≤ c.length) :
    chk.stateAfter (c.drop j) k = chk.stateAfter c k := by
  induction k with
  | zero => rfl
  | succ k ih =>
    have hle : (k + 1) * chk.period ≤ (c.drop j).length := by
      rw [length_drop]
      omega
    rw [stateAfter, stateAfter, ih (by rw [succ_mul] at hk; omega),
      chk.getAncestor_periods hle, chk.getAncestor_periods (by omega), drop_drop,
      length_drop]
    congr 2
    omega

lemma endOfPrevPeriod_eq_drop (c : Chain P) :
    chk.endOfPrevPeriod c = c.drop (c.length % chk.period) := by
  have h : c.nHeight - (c.nHeight + 1) % chk.period =
      c.nHeight - ((c.length % chk.period : ℕ) : ℤ) := by
    simp [nHeight]
  rw [endOfPrevPeriod, h, getAncestor_sub]

/-- The chain ends with a whole period. -/
def AtPeriodEnd (c : Chain P) : Prop := chk.period ∣ c.length

lemma atPeriodEnd_endOfPrevPeriod (c : Chain P) : chk.AtPeriodEnd (chk.endOfPrevPeriod c) := by
  rw [AtPeriodEnd, endOfPrevPeriod_eq_drop, length_drop]
  exact dvd_sub_mod _

variable {chk}

lemma AtPeriodEnd.drop_period (h : chk.AtPeriodEnd c) : chk.AtPeriodEnd (c.drop chk.period) := by
  rw [AtPeriodEnd, length_drop]
  exact dvd_sub h dvd_rfl

lemma AtPeriodEnd.period_le (h : chk.AtPeriodEnd c) (hc : c ≠ []) : chk.period ≤ c.length :=
  le_of_dvd (length_pos_iff.mpr hc) h

variable (chk)

/-- All blocks of a period have the state of the first one. -/
lemma naiveState_endOfPrevPeriod (c : Chain P) :
    chk.naiveState (chk.endOfPrevPeriod c) = chk.naiveState c := by
  have hmod := Nat.mod_add_div c.length chk.period
  have hdiv : (c.length - c.length % chk.period) / chk.period = c.length / chk.period := by
    rw [← Nat.mul_div_cancel_left (c.length / chk.period) chk.period_pos]
    congr 1
    omega
  rw [naiveState, naiveState, endOfPrevPeriod_eq_drop, length_drop, hdiv,
    chk.stateAfter_drop (by rw [Nat.mul_comm]; omega)]

/-- The state at the end of a period comes from the one before by one transition. -/
lemma naiveState_stateNext (h : chk.AtPeriodEnd c) (hc : c ≠ [])
    (halways : chk.beginTime ≠ alwaysActive) (hnever : chk.beginTime ≠ neverActive) :
    chk.naiveState c = chk.stateNext c (chk.naiveState (c.drop chk.period)) := by
  obtain ⟨k, hk⟩ := h
  obtain ⟨k, rfl⟩ : ∃ m, k = m + 1 := by
    refine Nat.exists_eq_succ_of_ne_zero ?_
    rintro rfl
    exact hc (length_eq_zero_iff.mp hk)
  have hpos := chk.period_pos
  have hlen : c.length - chk.period = k * chk.period := by
    rw [hk, Nat.mul_succ, Nat.add_sub_cancel, Nat.mul_comm]
  have hall : (k + 1) * chk.period = c.length := by rw [hk, Nat.mul_comm]
  rw [naiveState, naiveState, if_neg halways, if_neg hnever, if_neg halways, if_neg hnever,
    length_drop, hlen, Nat.mul_div_cancel _ hpos, ← hall, Nat.mul_div_cancel _ hpos,
    stateAfter, chk.getAncestor_periods hall.le, hall, Nat.sub_self, drop_zero,
    chk.stateAfter_drop (by rw [← hall, Nat.succ_mul]; omega)]

lemma naiveState_nil (halways : chk.beginTime ≠ alwaysActive)
    (hnever : chk.beginTime ≠ neverActive) : chk.naiveState ([] : Chain P) = .defined := by
  rw [naiveState, if_neg halways, if_neg hnever, length_nil, Nat.zero_div, stateAfter]

/-! ### What a state depends on -/

section Headers

variable {c c' : Chain P} (h : c.headers = c'.headers)
include h

lemma length_eq_of_headers : c.length = c'.length := by
  simpa [headers] using congrArg length h

lemma headers_getAncestor_eq (height : ℤ) :
    (c.getAncestor height).headers = (c'.getAncestor height).headers := by
  unfold getAncestor nHeight
  rw [length_eq_of_headers h]
  split
  · rfl
  · rw [headers, headers, map_drop, map_drop]
    exact congrArg _ h

lemma getMedianTimePast_eq_of_headers : c.getMedianTimePast = c'.getMedianTimePast := by
  have htimes : c.map (fun e => (e.header.nTime : ℤ)) = c'.map fun e => (e.header.nTime : ℤ) := by
    simpa [headers, Function.comp_def] using
      congrArg (map fun header : CBlockHeader P => (header.nTime : ℤ)) h
  rw [getMedianTimePast, htimes, getMedianTimePast]

lemma count_eq_of_headers : chk.count c = chk.count c' := by
  have htake : (c.take chk.period).map CBlockIndex.header =
      (c'.take chk.period).map CBlockIndex.header := by
    rw [map_take, map_take]
    exact congrArg _ h
  have hcount := congrArg (countP fun header => chk.condition header.nVersion) htake
  rwa [countP_map, countP_map] at hcount

lemma stateNext_eq_of_headers (state : ThresholdState) :
    chk.stateNext c state = chk.stateNext c' state := by
  have hheight : c.nHeight = c'.nHeight := by rw [nHeight, length_eq_of_headers h]; rfl
  unfold stateNext beforeStart afterTimeout
  rw [chk.count_eq_of_headers h, getMedianTimePast_eq_of_headers h, hheight]

/-- The state of a block depends on its header and those of its ancestors only. -/
lemma naiveState_eq_of_headers : chk.naiveState c = chk.naiveState c' := by
  have hafter : ∀ k, chk.stateAfter c k = chk.stateAfter c' k := by
    intro k
    induction k with
    | zero => rfl
    | succ k ih =>
      rw [stateAfter, stateAfter, ih, chk.stateNext_eq_of_headers (headers_getAncestor_eq h _)]
  rw [naiveState, naiveState, hafter, length_eq_of_headers h]

end Headers

/-! ### States only move forward -/

/-- The moves of a deployment. -/
inductive Moves : ThresholdState → ThresholdState → Prop
  | start : Moves .defined .started
  | lockIn : Moves .started .lockedIn
  | activate : Moves .lockedIn .active
  | fail : Moves .started .failed

/-- A period makes at most one move. -/
lemma reflGen_stateNext (c : Chain P) (state : ThresholdState) :
    Relation.ReflGen Moves state (chk.stateNext c state) := by
  cases state with
  | defined =>
    rw [stateNext]
    split_ifs
    · exact .refl
    · exact .single .start
  | started =>
    rw [stateNext]
    split_ifs
    · exact .single .lockIn
    · exact .single .lockIn
    · exact .single .fail
    · exact .refl
  | lockedIn => exact .single .activate
  | active => exact .refl
  | failed => exact .refl

/-- On a longer chain the state is the same or has moved on. -/
lemma naiveState_moves {c later : Chain P} (hsuffix : c <:+ later) :
    Relation.ReflTransGen Moves (chk.naiveState c) (chk.naiveState later) := by
  obtain ⟨newer, rfl⟩ := hsuffix
  have hafter : ∀ m n, m ≤ n → Relation.ReflTransGen Moves (chk.stateAfter (newer ++ c) m)
      (chk.stateAfter (newer ++ c) n) := by
    intro m n hle
    induction hle with
    | refl => exact .refl
    | step _ ih => exact ih.trans (chk.reflGen_stateNext _ _).to_reflTransGen
  unfold naiveState
  split_ifs
  · exact .refl
  · exact .refl
  · have hperiods := Nat.div_mul_le_self c.length chk.period
    have hsame := chk.stateAfter_drop (c := newer ++ c) (j := newer.length)
      (k := c.length / chk.period) (by rw [length_append]; omega)
    rw [drop_left] at hsame
    rw [hsame]
    exact hafter _ _ (Nat.div_le_div_right (by simp))

lemma Moves.eq_of_final {state state' : ThresholdState}
    (h : Relation.ReflTransGen Moves state state') (hfinal : state = .active ∨ state = .failed) :
    state' = state := by
  rcases h.cases_head with rfl | ⟨next, hmove, -⟩
  · rfl
  · rcases hfinal with rfl | rfl <;> cases hmove

/-! ### The cache -/

/-- What is stored for the end of a period is its state. -/
def CacheValid (cache : ThresholdConditionCache P) : Prop :=
  ∀ (c : Chain P) (state : ThresholdState), chk.AtPeriodEnd c →
    cache.get c.headers = some state → chk.naiveState c = state

lemma cacheValid_empty : chk.CacheValid (FiniteMap.empty : ThresholdConditionCache P) := by
  intro c state _ hget
  cases hget

variable {chk}

variable {cache : ThresholdConditionCache P}

lemma CacheValid.set (h : chk.CacheValid cache) {state : ThresholdState}
    (hstate : chk.naiveState c = state) : chk.CacheValid (cache.set c.headers (some state)) := by
  intro d s hd hget
  rw [FiniteMap.get_set] at hget
  split at hget
  · next hkey => rw [chk.naiveState_eq_of_headers hkey, hstate, Option.some.inj hget]
  · exact h d s hd hget

variable (chk)

/-- The early exit of the walk back is sound: if the chain is before the start, so are the chains
it extends. -/
def StartSound (c : Chain P) : Prop :=
  ∀ j, c.drop j ≠ [] → chk.beforeStart (c.drop j) = true →
    ∀ i, j ≤ i → c.drop i ≠ [] → chk.beforeStart (c.drop i) = true

variable {chk}

lemma StartSound.drop (h : chk.StartSound c) (k : ℕ) : chk.StartSound (c.drop k) := by
  intro j hj hbefore i hji hi
  rw [drop_drop] at hj hbefore hi ⊢
  exact h (k + j) hj hbefore (k + i) (by omega) hi

/-- Before the start the state is `DEFINED`. -/
lemma naiveState_of_beforeStart (hsound : chk.StartSound c) (hc : c ≠ [])
    (hbefore : chk.beforeStart c = true) (halways : chk.beginTime ≠ alwaysActive)
    (hnever : chk.beginTime ≠ neverActive) : chk.naiveState c = .defined := by
  have hafter : ∀ k, k * chk.period ≤ c.length → chk.stateAfter c k = .defined := by
    intro k hk
    induction k with
    | zero => rfl
    | succ k ih =>
      have hpos : 0 < (k + 1) * chk.period := mul_pos k.succ_pos chk.period_pos
      have hne : c.drop (c.length - (k + 1) * chk.period) ≠ [] := by
        rw [Ne, drop_eq_nil_iff]
        omega
      rw [stateAfter, ih (by rw [succ_mul] at hk; omega), chk.getAncestor_periods hk,
        stateNext, hsound 0 hc hbefore _ (zero_le _) hne, if_pos rfl]
  rw [naiveState, if_neg halways, if_neg hnever, hafter _ (div_mul_le_self _ _)]

variable (chk)

/-- The blocks to compute, each one a period after the one before. -/
def Linked : Chain P → List (Chain P) → Prop
  | _, [] => True
  | c, d :: v => d ≠ [] ∧ chk.AtPeriodEnd d ∧ d.drop chk.period = c ∧ Linked d v

variable {chk}

section Walks

variable (halways : chk.beginTime ≠ alwaysActive) (hnever : chk.beginTime ≠ neverActive)
include halways hnever

/-- The walk forward ends with the state of the last block and keeps the cache valid. -/
lemma walkForward_eq {c : Chain P} {v : List (Chain P)} {cache : ThresholdConditionCache P}
    (hlinked : chk.Linked c v) (hcache : chk.CacheValid cache) :
    ∃ cache', chk.walkForward v (chk.naiveState c) cache =
      (chk.naiveState (v.getLastD c), cache') ∧ chk.CacheValid cache' := by
  induction v generalizing c cache with
  | nil => exact ⟨cache, rfl, hcache⟩
  | cons d v ih =>
    obtain ⟨hd, hend, rfl, hlinked⟩ := hlinked
    have hnext := chk.naiveState_stateNext hend hd halways hnever
    rw [walkForward, ← hnext, getLastD_cons]
    exact ih hlinked (hcache.set rfl)

/-- The walk back ends at a block whose state is cached, linked to where it started. -/
lemma walkBack_linked {fuel : ℕ} {c : Chain P} {v : List (Chain P)}
    {cache : ThresholdConditionCache P} (hfuel : c.length < fuel) (hend : chk.AtPeriodEnd c)
    (hsound : chk.StartSound c) (hlinked : chk.Linked c v) (hcache : chk.CacheValid cache) :
    ∃ cache' d v', chk.walkBack fuel cache c v = (cache', d, v') ∧ chk.CacheValid cache' ∧
      cache'.get d.headers = some (chk.naiveState d) ∧ chk.Linked d v' ∧
      v'.getLastD d = v.getLastD c := by
  induction fuel generalizing c v with
  | zero => omega
  | succ fuel ih =>
    rw [walkBack]
    split_ifs with hsome hnil hbefore
    · obtain ⟨state, hstate⟩ := Option.isSome_iff_exists.mp hsome
      refine ⟨cache, c, v, rfl, hcache, ?_, hlinked, rfl⟩
      rw [hstate, hcache c state hend hstate]
    · have hdefined : chk.naiveState c = .defined := hnil ▸ chk.naiveState_nil halways hnever
      refine ⟨_, c, v, rfl, hcache.set hdefined, ?_, hlinked, rfl⟩
      rw [FiniteMap.get_set_self, hdefined]
    · have hdefined := naiveState_of_beforeStart hsound hnil hbefore halways hnever
      refine ⟨_, c, v, rfl, hcache.set hdefined, ?_, hlinked, rfl⟩
      rw [FiniteMap.get_set_self, hdefined]
    · have hpos := chk.period_pos
      have hle := hend.period_le hnil
      rw [getAncestor_sub]
      have hshorter : (c.drop chk.period).length < fuel := by
        rw [length_drop]
        omega
      have hlinked' : chk.Linked (c.drop chk.period) (c :: v) := ⟨hnil, hend, rfl, hlinked⟩
      obtain ⟨cache', d, v', hwalk, hvalid, hget, hlinked'', hlast⟩ :=
        ih hshorter hend.drop_period (hsound.drop _) hlinked'
      exact ⟨cache', d, v', hwalk, hvalid, hget, hlinked'', by rw [hlast, getLastD_cons]⟩

end Walks

/-- On a valid cache `GetStateFor` returns the state of the block and keeps the cache valid. -/
lemma getStateFor_eq_some (hsound : chk.StartSound c) (hcache : chk.CacheValid cache) :
    ∃ cache', chk.getStateFor c cache = some (chk.naiveState c, cache') ∧
      chk.CacheValid cache' := by
  by_cases halways : chk.beginTime = alwaysActive
  · exact ⟨cache, by rw [getStateFor, if_pos halways, naiveState, if_pos halways], hcache⟩
  by_cases hnever : chk.beginTime = neverActive
  · refine ⟨cache, ?_, hcache⟩
    rw [getStateFor, if_neg halways, if_pos hnever, naiveState, if_neg halways, if_pos hnever]
  have hlength : (chk.endOfPrevPeriod c).length < c.length + 1 := by
    rw [endOfPrevPeriod_eq_drop, length_drop]
    omega
  have hsound' : chk.StartSound (chk.endOfPrevPeriod c) := by
    rw [endOfPrevPeriod_eq_drop]
    exact hsound.drop _
  obtain ⟨cache₁, d, v, hback, hvalid, hget, hlinked, hlast⟩ :=
    walkBack_linked halways hnever hlength (chk.atPeriodEnd_endOfPrevPeriod c) hsound'
      (v := []) trivial hcache
  obtain ⟨cache₂, hforward, hvalid'⟩ := walkForward_eq halways hnever hlinked hvalid
  refine ⟨cache₂, ?_, hvalid'⟩
  rw [getStateFor, if_neg halways, if_neg hnever, hback]
  dsimp only
  rw [hget, Option.map_some, hforward, hlast, getLastD_nil, naiveState_endOfPrevPeriod]

/-! ### The height since when the state holds -/

/-- Between two ends of periods the state is that of the earlier one. -/
lemma naiveState_drop_eq {d : Chain P} (hend : chk.AtPeriodEnd d) (hd : d ≠ []) {i : ℕ}
    (hi : 0 < i) (hle : i ≤ chk.period) :
    chk.naiveState (d.drop i) = chk.naiveState (d.drop chk.period) := by
  have hperiod := hend.period_le hd
  obtain ⟨k, hk⟩ := hend
  have hmod : (d.drop i).length % chk.period = chk.period - i := by
    obtain ⟨m, rfl⟩ : ∃ m, k = m + 1 := by
      refine Nat.exists_eq_succ_of_ne_zero ?_
      rintro rfl
      exact hd (length_eq_zero_iff.mp hk)
    rw [length_drop, hk, Nat.mul_succ, Nat.add_sub_assoc hle, Nat.mul_add_mod]
    exact Nat.mod_eq_of_lt (by omega)
  rw [← chk.naiveState_endOfPrevPeriod (d.drop i), endOfPrevPeriod_eq_drop, hmod, drop_drop,
    Nat.add_sub_of_le hle]

/-- Back to the end of the last whole period the state does not change. -/
lemma naiveState_drop_of_le_mod {i : ℕ} (hi : i ≤ c.length % chk.period) :
    chk.naiveState (c.drop i) = chk.naiveState c := by
  have hmod : (c.drop i).length % chk.period = c.length % chk.period - i := by
    have hlt := mod_lt c.length chk.period_pos
    have hdiv := mod_add_div c.length chk.period
    have hlen : c.length - i =
        chk.period * (c.length / chk.period) + (c.length % chk.period - i) := by omega
    rw [length_drop, hlen, mul_add_mod]
    exact mod_eq_of_lt (by omega)
  rw [← chk.naiveState_endOfPrevPeriod (c.drop i), endOfPrevPeriod_eq_drop, hmod, drop_drop,
    add_sub_of_le hi, ← endOfPrevPeriod_eq_drop, naiveState_endOfPrevPeriod]

variable (chk)

/-- The state of the block after the chain holds since the height: for the blocks from the height
on, and not for the one before. -/
structure StateSince (c : Chain P) (height : ℤ) : Prop where
  nonneg : 0 ≤ height
  le : height ≤ c.nHeight + 1
  same : ∀ n, height ≤ n → n ≤ c.nHeight + 1 →
    chk.naiveState (c.getAncestor (n - 1)) = chk.naiveState c
  first : 0 < height → chk.naiveState (c.getAncestor (height - 2)) ≠ chk.naiveState c

variable {chk}

/-- The same with blocks dropped from the chain: `j` blocks back the state is still the same. -/
lemma stateSince_of_drop (hj : j ≤ c.length)
    (hsame : ∀ i ≤ j, chk.naiveState (c.drop i) = chk.naiveState c)
    (hfirst : j < c.length → chk.naiveState (c.drop (j + 1)) ≠ chk.naiveState c) :
    chk.StateSince c (c.length - j : ℕ) := by
  refine ⟨by omega, by unfold nHeight; omega, fun n hn hle => ?_, fun hpos => ?_⟩
  · unfold nHeight at hle
    have hback : n - 1 = c.nHeight - ((c.length - n).toNat : ℕ) := by
      unfold nHeight
      omega
    rw [hback, getAncestor_sub]
    exact hsame _ (by omega)
  · have hback : ((c.length - j : ℕ) : ℤ) - 2 = c.nHeight - (j + 1 : ℕ) := by
      unfold nHeight
      omega
    rw [hback, getAncestor_sub]
    exact hfirst (by omega)

lemma stateSince_zero (hsame : ∀ i, chk.naiveState (c.drop i) = chk.naiveState c) :
    chk.StateSince c 0 := by
  have h : chk.StateSince c (c.length - c.length : ℕ) :=
    stateSince_of_drop le_rfl (fun i _ => hsame i) fun hlt => absurd hlt (lt_irrefl _)
  rwa [Nat.sub_self] at h

lemma stateNext_ne_defined {state : ThresholdState} (h : state ≠ .defined) :
    chk.stateNext c state ≠ .defined := by
  cases state with
  | defined => exact absurd rfl h
  | started => unfold stateNext; split_ifs <;> simp
  | lockedIn => simp [stateNext]
  | active => simp [stateNext]
  | failed => simp [stateNext]

/-- What is `DEFINED` has been so from the genesis block on. -/
lemma naiveState_drop_of_defined (halways : chk.beginTime ≠ alwaysActive)
    (hnever : chk.beginTime ≠ neverActive) (h : chk.naiveState c = .defined) (i : ℕ) :
    chk.naiveState (c.drop i) = .defined := by
  have hback : ∀ m k, m ≤ k → chk.stateAfter c k = .defined → chk.stateAfter c m = .defined := by
    intro m k hle hk
    induction hle with
    | refl => exact hk
    | step _ ih =>
      refine ih ?_
      by_contra hne
      exact stateNext_ne_defined hne hk
  rw [naiveState, if_neg halways, if_neg hnever] at h ⊢
  rcases Nat.lt_or_ge c.length i with hlt | hge
  · rw [drop_eq_nil_of_le hlt.le, length_nil, Nat.zero_div, stateAfter]
  · have hdiv : (c.length - i) / chk.period ≤ c.length / chk.period :=
      Nat.div_le_div_right (Nat.sub_le _ _)
    have hle := Nat.div_mul_le_self (c.length - i) chk.period
    rw [length_drop, chk.stateAfter_drop (by omega)]
    exact hback _ _ hdiv h

/-- The walk over earlier periods stops where the state of the chain starts. -/
lemma walkSince_eq (hsound : chk.StartSound c) (halways : chk.beginTime ≠ alwaysActive)
    (hnever : chk.beginTime ≠ neverActive) (hdefined : chk.naiveState c ≠ .defined) {fuel : ℕ}
    (hfuel : (c.drop j).length < fuel) (hne : c.drop j ≠ []) (hend : chk.AtPeriodEnd (c.drop j))
    (hcache : chk.CacheValid cache)
    (hsame : ∀ i ≤ j, chk.naiveState (c.drop i) = chk.naiveState c) :
    ∃ d cache', chk.walkSince (chk.naiveState c) fuel (c.drop j) cache = some (d, cache') ∧
      chk.CacheValid cache' ∧ chk.StateSince c (d.nHeight + 1) := by
  induction fuel generalizing j cache with
  | zero => omega
  | succ fuel ih =>
    have hpos := chk.period_pos
    have hperiod := hend.period_le hne
    have hlength : (c.drop j).length = c.length - j := length_drop
    -- where the walk stops: the state of the period before is another one
    have hstop (hother : chk.naiveState ((c.drop j).drop chk.period) ≠ chk.naiveState c) :
        chk.StateSince c (nHeight (c.drop j) + 1) := by
      have hheight : nHeight (c.drop j) + 1 = (c.length - j : ℕ) := by
        rw [nHeight, hlength]
        omega
      rw [hheight]
      refine stateSince_of_drop (by omega) hsame fun _ => ?_
      rw [← drop_drop, naiveState_drop_eq hend hne one_pos hpos]
      exact hother
    rw [walkSince, getAncestor_sub]
    dsimp only
    split
    · next hnil =>
      refine ⟨_, cache, rfl, hcache, hstop ?_⟩
      rw [hnil, chk.naiveState_nil halways hnever]
      exact hdefined.symm
    · next hprev =>
      obtain ⟨cache', hstate, hcache'⟩ :=
        getStateFor_eq_some ((hsound.drop j).drop chk.period) hcache
      rw [hstate, Option.bind_some]
      dsimp only
      split
      · next hstate_eq =>
        have hshorter : (c.drop (j + chk.period)).length < fuel := by
          rw [length_drop]
          omega
        rw [drop_drop] at hprev hstate_eq ⊢
        refine ih hshorter hprev (drop_drop ▸ hend.drop_period) hcache' fun i hi => ?_
        rcases lt_or_ge j i with hlt | hge
        · have hdrop := naiveState_drop_eq hend hne (i := i - j) (by omega) (by omega)
          rw [drop_drop, drop_drop, add_sub_of_le hlt.le] at hdrop
          exact hdrop.trans hstate_eq
        · exact hsame i hge
      · next hother => exact ⟨_, cache', rfl, hcache', hstop hother⟩

/-- On a valid cache `GetStateSinceHeightFor` returns the height since when the state holds. -/
lemma getStateSinceHeightFor_eq_some (hsound : chk.StartSound c) (hcache : chk.CacheValid cache) :
    ∃ height cache', chk.getStateSinceHeightFor c cache = some (height, cache') ∧
      chk.CacheValid cache' ∧ chk.StateSince c height := by
  rw [getStateSinceHeightFor]
  split
  · next hfixed =>
    refine ⟨0, cache, rfl, hcache, stateSince_zero fun i => ?_⟩
    rcases hfixed with halways | hnever
    · rw [naiveState, if_pos halways, naiveState, if_pos halways]
    · have halways : chk.beginTime ≠ alwaysActive := hnever ▸ by decide
      rw [naiveState, if_neg halways, if_pos hnever, naiveState, if_neg halways, if_pos hnever]
  · next hfixed =>
    rw [not_or] at hfixed
    obtain ⟨cache₁, hstate, hcache₁⟩ := getStateFor_eq_some hsound hcache
    rw [hstate, Option.bind_some]
    dsimp only
    split_ifs with hdefined hnil
    · refine ⟨0, cache₁, rfl, hcache₁, stateSince_zero fun i => ?_⟩
      rw [naiveState_drop_of_defined hfixed.1 hfixed.2 hdefined, hdefined]
    · exact absurd (hnil ▸ chk.naiveState_nil hfixed.1 hfixed.2) hdefined
    · have hend := chk.atPeriodEnd_endOfPrevPeriod c
      have hstate_eq := chk.naiveState_endOfPrevPeriod c
      rw [endOfPrevPeriod_eq_drop] at hend hstate_eq ⊢
      have hne : c.drop (c.length % chk.period) ≠ [] := by
        intro hnone
        rw [hnone, chk.naiveState_nil hfixed.1 hfixed.2] at hstate_eq
        exact hdefined hstate_eq.symm
      have hfuel : (c.drop (c.length % chk.period)).length < c.length + 1 := by
        rw [length_drop]
        omega
      obtain ⟨d, cache₂, hwalk, hcache₂, hsince⟩ :=
        walkSince_eq hsound hfixed.1 hfixed.2 hdefined hfuel hne hend hcache₁
          fun i hi => naiveState_drop_of_le_mod hi
      exact ⟨_, cache₂, by rw [hwalk, Option.map_some], hcache₂, hsince⟩

end ThresholdConditionChecker

/-! ### Block trees -/

/-- The chains of a block index: with a block its ancestors are known, and the median time past
does not decrease from a block to the next. -/
structure IndexedChains (P : Primitives) where
  chains : Set (Chain P)
  tail_mem : ∀ e c, e :: c ∈ chains → c ∈ chains
  median_le : ∀ e c, e :: c ∈ chains → c ≠ [] →
    Chain.getMedianTimePast c ≤ Chain.getMedianTimePast (e :: c)

namespace IndexedChains

variable (tree : IndexedChains P) {c : Chain P}

lemma drop_mem (hc : c ∈ tree.chains) (k : ℕ) : c.drop k ∈ tree.chains := by
  induction k generalizing c with
  | zero => exact hc
  | succ k ih =>
    cases c with
    | nil => exact hc
    | cons e c => exact ih (tree.tail_mem e c hc)

lemma median_drop_le (hc : c ∈ tree.chains) {k : ℕ} (hk : c.drop k ≠ []) :
    getMedianTimePast (c.drop k) ≤ c.getMedianTimePast := by
  induction k generalizing c with
  | zero => exact le_rfl
  | succ k ih =>
    cases c with
    | nil => exact absurd rfl hk
    | cons e c =>
      have hne : c ≠ [] := by
        rintro rfl
        exact hk (by simp)
      exact (ih (tree.tail_mem e c hc) hk).trans (tree.median_le e c hc hne)

/-- The early exit is sound in a block tree. -/
lemma startSound (chk : ThresholdConditionChecker) (hc : c ∈ tree.chains) : chk.StartSound c := by
  intro j hj hbefore i hji hi
  obtain ⟨k, rfl⟩ := Nat.exists_eq_add_of_le hji
  rw [← drop_drop] at hi ⊢
  unfold ThresholdConditionChecker.beforeStart at hbefore ⊢
  split_ifs at hbefore ⊢ with hheight
  · have hlen : nHeight ((c.drop j).drop k) ≤ nHeight (c.drop j) := by
      unfold nHeight
      rw [length_drop]
      omega
    rw [decide_eq_true_eq] at hbefore ⊢
    omega
  · have hmedian := tree.median_drop_le (tree.drop_mem hc j) hi
    rw [decide_eq_true_eq] at hbefore ⊢
    omega

/-- The chains that respect the median time rule of block headers. -/
def ofTimesRespected : IndexedChains P where
  chains := {c | ConsensusParams.TimesRespected c}
  tail_mem e c h := h.drop 1
  median_le e c h hc := by
    cases h with
    | cons _ _ _ ht => exact Chain.getMedianTimePast_le_cons hc (ht hc).le

end IndexedChains

namespace ThresholdConditionChecker

variable {chk : ThresholdConditionChecker} {chains : Set (Chain P)}

/-- The caches after any calls on the chains; `Clear` empties the cache. -/
inductive Reached (chk : ThresholdConditionChecker) (chains : Set (Chain P)) :
    ThresholdConditionCache P → Prop
  | clear : Reached chk chains .empty
  | getStateFor {cache cache' : ThresholdConditionCache P} {c : Chain P} {state : ThresholdState}
      (h : Reached chk chains cache) (hc : c ∈ chains)
      (hcall : chk.getStateFor c cache = some (state, cache')) : Reached chk chains cache'
  | getStateSinceHeightFor {cache cache' : ThresholdConditionCache P} {c : Chain P} {height : ℤ}
      (h : Reached chk chains cache) (hc : c ∈ chains)
      (hcall : chk.getStateSinceHeightFor c cache = some (height, cache')) :
      Reached chk chains cache'

lemma Reached.cacheValid {cache : ThresholdConditionCache P} (h : Reached chk chains cache)
    (hsound : ∀ c ∈ chains, chk.StartSound c) : chk.CacheValid cache := by
  induction h with
  | clear => exact chk.cacheValid_empty
  | getStateFor _ hc hcall ih =>
    obtain ⟨cache', hstate, hvalid⟩ := getStateFor_eq_some (hsound _ hc) ih
    obtain ⟨-, rfl⟩ := Prod.mk.inj (Option.some.inj (hstate.symm.trans hcall))
    exact hvalid
  | getStateSinceHeightFor _ hc hcall ih =>
    obtain ⟨height, cache', hheight, hvalid, -⟩ := getStateSinceHeightFor_eq_some (hsound _ hc) ih
    obtain ⟨-, rfl⟩ := Prod.mk.inj (Option.some.inj (hheight.symm.trans hcall))
    exact hvalid

/-- After any calls on any branches of a block tree, `GetStateFor` returns the state computed
period by period from the genesis block, and `GetStateSinceHeightFor` the height since when it
holds. -/
theorem getStateFor_eq_naiveState (chk : ThresholdConditionChecker) (tree : IndexedChains P)
    (cache : ThresholdConditionCache P) (hcache : Reached chk tree.chains cache) (c : Chain P)
    (hc : c ∈ tree.chains) :
    (∃ cache', chk.getStateFor c cache = some (chk.naiveState c, cache')) ∧
      ∃ height cache', chk.getStateSinceHeightFor c cache = some (height, cache') ∧
        chk.StateSince c height := by
  have hsound : ∀ c ∈ tree.chains, chk.StartSound c := fun c hc => tree.startSound chk hc
  have hvalid := hcache.cacheValid hsound
  obtain ⟨cache', hstate, -⟩ := getStateFor_eq_some (hsound c hc) hvalid
  obtain ⟨height, cache'', hheight, -, hsince⟩ :=
    getStateSinceHeightFor_eq_some (hsound c hc) hvalid
  exact ⟨⟨cache', hstate⟩, height, cache'', hheight, hsince⟩

section Example

open Symbolic

/-- A deployment that is scheduled by times, in periods of one block. -/
def timedChecker : ThresholdConditionChecker :=
  versionBitsConditionChecker earlyParams ⟨4, 4, 10, 0, 0⟩

/-- The cache after one query, for a genesis block after the start time. -/
def startedCache : ThresholdConditionCache sym :=
  ((timedChecker.getStateFor [plainEntry 5] .empty).get (by decide)).2

/-- A query on another branch than the one the cache has seen. -/
theorem getStateFor_eq_naiveState_fork :
    startedCache.get [(plainEntry 5).header] = some .started ∧
      ∃ cache', timedChecker.getStateFor [plainEntry 3] startedCache = some (.defined, cache') := by
  have hmem : ∀ nTime, [plainEntry nTime] ∈ IndexedChains.ofTimesRespected.chains :=
    fun nTime => .cons _ _ .nil fun h => absurd rfl h
  have hreached : Reached timedChecker IndexedChains.ofTimesRespected.chains startedCache :=
    .getStateFor .clear (hmem 5) (Option.some_get (by decide)).symm
  obtain ⟨⟨cache', hstate⟩, -⟩ :=
    getStateFor_eq_naiveState timedChecker _ _ hreached [plainEntry 3] (hmem 3)
  exact ⟨by decide, cache', hstate⟩

/-- Along every branch of a block tree a deployment only moves forward, and `ACTIVE` and `FAILED`
are final: whatever calls filled the caches of the two queries, the state for a later block is
reached by moves from the state for an earlier one. -/
theorem getStateFor_moves (chk : ThresholdConditionChecker) (tree : IndexedChains P)
    (cache laterCache : ThresholdConditionCache P) (hcache : Reached chk tree.chains cache)
    (hlaterCache : Reached chk tree.chains laterCache) (c later : Chain P)
    (hlater : later ∈ tree.chains) (hsuffix : c <:+ later) :
    ∃ state state', (∃ cache', chk.getStateFor c cache = some (state, cache')) ∧
      (∃ cache', chk.getStateFor later laterCache = some (state', cache')) ∧
      Relation.ReflTransGen Moves state state' ∧
      (state = .active ∨ state = .failed → state' = state) := by
  have hsound : ∀ c ∈ tree.chains, chk.StartSound c := fun c hc => tree.startSound chk hc
  have hc : c ∈ tree.chains := by
    rw [List.suffix_iff_eq_drop.mp hsuffix]
    exact tree.drop_mem hlater _
  obtain ⟨cache', hstate, -⟩ := getStateFor_eq_some (hsound c hc) (hcache.cacheValid hsound)
  obtain ⟨laterCache', hstate', -⟩ :=
    getStateFor_eq_some (hsound later hlater) (hlaterCache.cacheValid hsound)
  have hmoves := chk.naiveState_moves hsuffix
  exact ⟨_, _, ⟨cache', hstate⟩, ⟨laterCache', hstate'⟩, hmoves, Moves.eq_of_final hmoves⟩

/-- One period moves the deployment from `STARTED` on, though the cache knows the earlier state. -/
theorem getStateFor_moves_period :
    ∃ state state', (∃ cache', timedChecker.getStateFor [plainEntry 5] .empty =
        some (state, cache')) ∧
      (∃ cache', timedChecker.getStateFor [plainEntry 6, plainEntry 5] startedCache =
        some (state', cache')) ∧
      Relation.ReflTransGen Moves state state' ∧
      (state = .active ∨ state = .failed → state' = state) := by
  have hone : [plainEntry 5] ∈ IndexedChains.ofTimesRespected.chains :=
    .cons _ _ .nil fun h => absurd rfl h
  exact getStateFor_moves timedChecker .ofTimesRespected _ _ .clear
    (.getStateFor .clear hone (Option.some_get (by decide)).symm) _ _
    (.cons _ _ hone fun _ => by decide) (List.suffix_cons _ _)

end Example

end ThresholdConditionChecker

/-! ### The deployment of MWEB -/

namespace ConsensusParams

variable (params : ConsensusParams P) {c : Chain P}

/-- The checker of the MWEB deployment. -/
def mwebChecker : ThresholdConditionChecker :=
  versionBitsConditionChecker params params.deploymentMweb

lemma nextState_eq_stateNext (c : Chain P) (state : ThresholdState) :
    params.nextState c state = params.mwebChecker.stateNext c state := by
  cases state <;> rfl

lemma stateAtPeriodEnd_eq_naiveState (hsound : params.mwebChecker.StartSound c)
    (hend : params.mwebChecker.AtPeriodEnd c)
    (halways : params.deploymentMweb.nStartTime ≠ alwaysActive)
    (hnever : params.deploymentMweb.nStartTime ≠ neverActive) :
    params.stateAtPeriodEnd c.length c = params.mwebChecker.naiveState c := by
  induction hlen : c.length using Nat.strong_induction_on generalizing c with
  | _ n ih =>
    subst hlen
    by_cases hc : c = []
    · rw [hc, params.mwebChecker.naiveState_nil halways hnever]
      rfl
    · cases hbefore : params.deploymentMweb.beforeStart c with
      | true =>
        rw [ThresholdConditionChecker.naiveState_of_beforeStart hsound hc hbefore halways hnever]
        cases c with
        | nil => rfl
        | cons e c =>
          rw [length_cons, stateAtPeriodEnd, hbefore]
          simp
      | false =>
        have hpos := params.nMinerConfirmationWindow_pos
        have hshorter : (c.drop params.nMinerConfirmationWindow).length < c.length := by
          rw [length_drop]
          have := length_pos_iff.mpr hc
          omega
        have hprev := ih _ hshorter (hsound.drop params.nMinerConfirmationWindow)
          hend.drop_period rfl
        rw [stateAtPeriodEnd_cons params hc hbefore, nextState_eq_stateNext]
        exact (congrArg _ hprev).trans
          (params.mwebChecker.naiveState_stateNext hend hc halways hnever).symm

lemma getStateFor_eq_naive (hsound : params.mwebChecker.StartSound c) :
    params.getStateFor c = params.mwebChecker.naiveState c := by
  have hbegin : params.mwebChecker.beginTime = params.deploymentMweb.nStartTime := rfl
  rw [getStateFor, periodEnd_eq_drop]
  split_ifs with halways hnever
  · rw [ThresholdConditionChecker.naiveState, hbegin, if_pos halways]
  · rw [ThresholdConditionChecker.naiveState, hbegin, if_neg halways, if_pos hnever]
  · have hend := params.mwebChecker.atPeriodEnd_endOfPrevPeriod c
    have hstate := params.mwebChecker.naiveState_endOfPrevPeriod c
    rw [ThresholdConditionChecker.endOfPrevPeriod_eq_drop] at hend hstate
    rw [← hstate]
    exact params.stateAtPeriodEnd_eq_naiveState (hsound.drop _) hend halways hnever

/-- The state without a cache is the state of `GetStateFor` with any cache that calls can leave:
`isMWEBEnabled` is what the node computes. -/
theorem getStateFor_eq_cached {tree : IndexedChains P} {cache : ThresholdConditionCache P}
    (hcache : ThresholdConditionChecker.Reached params.mwebChecker tree.chains cache)
    (hc : c ∈ tree.chains) :
    ∃ cache', params.mwebChecker.getStateFor c cache = some (params.getStateFor c, cache') := by
  obtain ⟨cache', hstate, -⟩ := ThresholdConditionChecker.getStateFor_eq_some
    (tree.startSound params.mwebChecker hc)
    (hcache.cacheValid fun c hc => tree.startSound params.mwebChecker hc)
  exact ⟨cache', by rw [hstate, params.getStateFor_eq_naive (tree.startSound _ hc)]⟩

/-- Once MWEB is active it is active for every later block of the chain, provided the blocks respect
the median time rule. -/
lemma isMWEBEnabled_cons {params : ConsensusParams P} {e : CBlockIndex P}
    (ht : TimesRespected (e :: c)) (h : params.isMWEBEnabled c = true) :
    params.isMWEBEnabled (e :: c) = true := by
  have hsound : ∀ {c : Chain P}, TimesRespected c → params.mwebChecker.StartSound c :=
    fun ht => IndexedChains.ofTimesRespected.startSound _ ht
  have hc : TimesRespected c := ht.drop 1
  rw [isMWEBEnabled, decide_eq_true_eq, params.getStateFor_eq_naive (hsound hc)] at h
  rw [isMWEBEnabled, decide_eq_true_eq, params.getStateFor_eq_naive (hsound ht), ← h]
  exact ThresholdConditionChecker.Moves.eq_of_final
    (params.mwebChecker.naiveState_moves (suffix_cons e c)) (.inl h)

end ConsensusParams

end Aegisum
