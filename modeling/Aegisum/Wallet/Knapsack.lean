import Mathlib.Data.List.Sort
import Aegisum.Foundations.Selection
import Aegisum.Model.Amount

/-!
# Knapsack coin selection

`KnapsackSolver` looks for a subset of the groups of coins whose value is the target, or at least
leaves change that is worth an output.  Groups that are not far above the target are searched at
random, once for the target and once for the target with change; the smallest of the other groups
is the way out when the search finds nothing better.  The shuffle of the groups and the random bits
of the two searches are parameters.
-/

namespace Aegisum

namespace Wallet

/-- The least change the selection aims for. -/
def minChange : CAmount := coin / 100

/-- A group of coins that are spent together. -/
structure OutputGroup where
  value : CAmount
  effectiveValue : CAmount
deriving DecidableEq

/-- The variables of the subset search: the groups of the current attempt with their value, whether
it has reached the target, and the best groups so far with their value. -/
structure SubsetSearch where
  included : List Bool
  total : CAmount
  reachedTarget : Bool
  best : List Bool
  bestValue : CAmount

namespace SubsetSearch

/-- Include the group at an index.  A group that reaches the target is taken out again. -/
def add (target value : CAmount) (i : ℕ) (s : SubsetSearch) : SubsetSearch :=
  let total := s.total + value
  let included := s.included.set i true
  if target ≤ total then
    { included := included.set i false
      total := total - value
      reachedTarget := true
      best := if total < s.bestValue then included else s.best
      bestValue := if total < s.bestValue then total else s.bestValue }
  else { s with included, total }

/-- One pass over the groups. -/
def pass (target : CAmount) (includes : SubsetSearch → ℕ → Bool) :
    List OutputGroup → ℕ → SubsetSearch → SubsetSearch
  | [], _, s => s
  | group :: groups, i, s =>
    pass target includes groups (i + 1) (if includes s i then s.add target group.value i else s)

/-- One attempt: random groups first, then those that were left out. -/
def attempt (groups : List OutputGroup) (target : CAmount) (bits : ℕ → Bool) (s : SubsetSearch) :
    SubsetSearch :=
  let start := { s with
    included := List.replicate groups.length false
    total := 0
    reachedTarget := false }
  let first := pass target (fun _ i => bits i) groups 0 start
  if first.reachedTarget then first
  else pass target (fun s i => s.included[i]? == some false) groups 0 first

/-- Attempts with fresh random bits, until one of them hits the target. -/
def attempts (groups : List OutputGroup) (target : CAmount) (bits : ℕ → ℕ → Bool) :
    ℕ → ℕ → SubsetSearch → SubsetSearch
  | 0, _, s => s
  | n + 1, rep, s =>
    if s.bestValue = target then s
    else attempts groups target bits n (rep + 1) (attempt groups target (bits rep) s)

end SubsetSearch

/-- A subset of the groups whose value is close above the target, and its value. -/
def approximateBestSubset (groups : List OutputGroup) (totalLower target : CAmount)
    (bits : ℕ → ℕ → Bool) : List Bool × CAmount :=
  let s := SubsetSearch.attempts groups target bits 1000 0
    ⟨[], 0, false, List.replicate groups.length true, totalLower⟩
  (s.best, s.bestValue)

/-- The search for the target and, if it is not hit and there is enough, for the target with
change. -/
def bestSubset (groups : List OutputGroup) (totalLower target : CAmount)
    (bits bits' : ℕ → ℕ → Bool) : List Bool × CAmount :=
  let first := approximateBestSubset groups totalLower target bits
  if first.2 ≠ target ∧ target + minChange ≤ totalLower then
    approximateBestSubset groups totalLower (target + minChange) bits'
  else first

/-- The groups that are searched, with their value, and the smallest of the others. -/
structure Candidates where
  lowestLarger : Option OutputGroup
  applicable : List OutputGroup
  totalLower : CAmount

/-- Sort the groups into candidates; a group of exactly the target ends the selection. -/
def classify (target : CAmount) : List OutputGroup → Candidates → OutputGroup ⊕ Candidates
  | [], c => .inr c
  | group :: groups, c =>
    if group.value = target then .inl group
    else if group.value < target + minChange then
      classify target groups
        ⟨c.lowestLarger, c.applicable ++ [group], c.totalLower + group.value⟩
    else if c.lowestLarger.all fun lowest => group.value < lowest.value then
      classify target groups { c with lowestLarger := some group }
    else classify target groups c

/-- The groups the solver chooses and their value, for shuffled groups and random bits. -/
def knapsackSolver (target : CAmount) (groups : List OutputGroup) (bits bits' : ℕ → ℕ → Bool) :
    Option (List OutputGroup × CAmount) :=
  match classify target groups ⟨none, [], 0⟩ with
  | .inl group => some ([group], 0 + group.value)
  | .inr ⟨lowestLarger, applicable, totalLower⟩ =>
    if totalLower = target then
      some (applicable, accumulate OutputGroup.value 0 applicable)
    else if totalLower < target then
      lowestLarger.map fun lowest => ([lowest], 0 + lowest.value)
    else
      let sorted := applicable.insertionSort fun a b => b.effectiveValue ≤ a.effectiveValue
      let (best, bestValue) := bestSubset sorted totalLower target bits bits'
      let chosen := picked sorted best
      match lowestLarger with
      | none => some (chosen, accumulate OutputGroup.value 0 chosen)
      | some lowest =>
        if (bestValue ≠ target ∧ bestValue < target + minChange) ∨ lowest.value ≤ bestValue then
          some ([lowest], 0 + lowest.value)
        else some (chosen, accumulate OutputGroup.value 0 chosen)

/-! ### The subset search -/

/-- Amounts of groups are positive and add up in 64 bits. -/
structure Sized (groups : List OutputGroup) : Prop where
  pos : ∀ group ∈ groups, 0 < group.value.toInt
  sum_lt : intSum OutputGroup.value groups < 2 ^ 63

variable {groups : List OutputGroup}

/-- A part of sized groups is sized. -/
lemma Sized.sublist {groups' : List OutputGroup} (h : Sized groups)
    (hsub : groups'.Sublist groups) : Sized groups' := by
  refine ⟨fun group hgroup => h.pos group (hsub.subset hgroup), ?_⟩
  exact (intSum_sublist_le hsub fun g hg => (h.pos g hg).le).trans_lt h.sum_lt

/-- The order of the groups does not matter. -/
lemma Sized.perm {groups' : List OutputGroup} (h : Sized groups) (hperm : groups'.Perm groups) :
    Sized groups' :=
  ⟨fun group hgroup => h.pos group (hperm.subset hgroup),
    (intSum_perm _ hperm).trans_lt h.sum_lt⟩

/-- Sized groups have no negative total. -/
lemma Sized.intSum_nonneg (h : Sized groups) : 0 ≤ intSum OutputGroup.value groups :=
  Aegisum.intSum_nonneg fun g hg => (h.pos g hg).le

/-- Sums over sized groups are computed exactly. -/
lemma Sized.toInt_accumulate (h : Sized groups) :
    (accumulate OutputGroup.value 0 groups).toInt = intSum OutputGroup.value groups := by
  apply toInt_accumulate_of_fits
  have hnonneg := h.intSum_nonneg
  have hlt := h.sum_lt
  exact ⟨by omega, hlt⟩

namespace SubsetSearch

variable {groups : List OutputGroup} {target : CAmount} {s : SubsetSearch}

/-- The current groups are below the target, the best ones are not, and both values are those of
the groups. -/
structure Valid (groups : List OutputGroup) (target : CAmount) (s : SubsetSearch) : Prop where
  length : s.included.length = groups.length
  total : s.total.toInt = intSum OutputGroup.value (picked groups s.included)
  total_lt : s.total.toInt < target.toInt
  best : s.bestValue.toInt = intSum OutputGroup.value (picked groups s.best)
  le_best : target.toInt ≤ s.bestValue.toInt

/-- Including a group that was left out. -/
lemma Valid.add (h : s.Valid groups target) (hsized : Sized groups) {i : ℕ} {group : OutputGroup}
    (hgroup : groups[i]? = some group) (hfree : s.included[i]? = some false) :
    (s.add target group.value i).Valid groups target := by
  have hset := intSum_picked_set OutputGroup.value hgroup hfree
  have htotal : (s.total + group.value).toInt =
      intSum OutputGroup.value (picked groups (s.included.set i true)) := by
    have hle := intSum_picked_le (fun g hg => (hsized.pos g hg).le) (s.included.set i true)
    have hnonneg := (hsized.sublist (picked_sublist groups (s.included.set i true))).intSum_nonneg
    have hlt := hsized.sum_lt
    rw [← h.total] at hset
    rw [toInt_add_of_fits, hset]
    rw [← hset]
    exact ⟨by omega, by omega⟩
  have hundo : (s.included.set i true).set i false = s.included := by
    obtain ⟨hi, hfalse⟩ := List.getElem?_eq_some_iff.mp hfree
    rw [List.set_set, ← hfalse, List.set_getElem_self]
  unfold SubsetSearch.add
  dsimp only
  split
  case isTrue hreached =>
    have hreached := Int64.le_iff_toInt_le.mp hreached
    have hback : s.total + group.value - group.value = s.total := by grind
    constructor
    · simpa using h.length
    · rw [hback, hundo, h.total]
    · rw [hback]
      exact h.total_lt
    · dsimp only
      split
      · exact htotal
      · exact h.best
    · dsimp only
      split
      · exact hreached
      · exact h.le_best
  case isFalse hreached =>
    refine ⟨by simpa using h.length, htotal, ?_, h.best, h.le_best⟩
    exact not_le.mp (mt Int64.le_iff_toInt_le.mpr hreached)

/-- The other groups are not touched. -/
lemma getElem?_included_add {i j : ℕ} (hij : i ≠ j) (value : CAmount) :
    (s.add target value i).included[j]? = s.included[j]? := by
  unfold SubsetSearch.add
  dsimp only
  split
  · simp [hij]
  · simp [hij]

/-- A pass keeps the search valid if it includes groups that were left out.  `J` is what a pass
knows of the groups from an index on. -/
lemma Valid.pass {includes : SubsetSearch → ℕ → Bool} (J : SubsetSearch → ℕ → Prop)
    (hsized : Sized groups)
    (hfree : ∀ s i, s.included.length = groups.length → i < groups.length → J s i →
      includes s i = true → s.included[i]? = some false)
    (hstep : ∀ s value i, J s i → J (s.add target value i) (i + 1) ∧ J s (i + 1))
    (before rest : List OutputGroup) (hgroups : groups = before ++ rest)
    (h : s.Valid groups target) (hJ : J s before.length) :
    (SubsetSearch.pass target includes rest before.length s).Valid groups target := by
  induction rest generalizing before s with
  | nil => exact h
  | cons group rest ih =>
    have hlt : before.length < groups.length := by simp [hgroups]
    have hgroup : groups[before.length]? = some group := by simp [hgroups]
    have happend : groups = (before ++ [group]) ++ rest := by simp [hgroups]
    unfold SubsetSearch.pass
    have hnext := fun s' hs' hJ' => @ih s' (before ++ [group]) happend hs' hJ'
    rw [List.length_append, List.length_singleton] at hnext
    split
    case isTrue hinclude =>
      have hleft := hfree s _ h.length hlt hJ hinclude
      exact hnext _ (h.add hsized hgroup hleft) (hstep s _ _ hJ).1
    case isFalse => exact hnext _ h (hstep s 0 _ hJ).2

/-- One attempt keeps the search valid. -/
lemma Valid.attempt (hsized : Sized groups) (htarget : 0 < target.toInt) (bits : ℕ → Bool)
    (hbest : s.bestValue.toInt = intSum OutputGroup.value (picked groups s.best))
    (hle : target.toInt ≤ s.bestValue.toInt) :
    (SubsetSearch.attempt groups target bits s).Valid groups target := by
  let start := { s with
    included := List.replicate groups.length false
    total := 0
    reachedTarget := false }
  have hstart : start.Valid groups target := ⟨by simp [start], by simp [start], htarget, hbest, hle⟩
  -- in the first pass nothing from the current index on is included yet
  have hfirst : (SubsetSearch.pass target (fun _ i => bits i) groups 0 start).Valid groups
      target := by
    refine Valid.pass (fun s i => ∀ j, i ≤ j → j < groups.length → s.included[j]? = some false)
      hsized ?_ ?_ [] groups rfl hstart ?_
    · intro s i _ hi hJ _
      exact hJ i le_rfl hi
    · intro s value i hJ
      refine ⟨fun j hij hj => ?_, fun j hij hj => hJ j (by omega) hj⟩
      rw [getElem?_included_add (by omega), hJ j (by omega) hj]
    · intro j _ hj
      simp [start, hj]
  unfold SubsetSearch.attempt
  dsimp only
  split
  · exact hfirst
  · refine Valid.pass (fun _ _ => True) hsized ?_ ?_ [] groups rfl hfirst trivial
    · intro s i _ _ _ hinclude
      simpa using hinclude
    · exact fun _ _ _ _ => ⟨trivial, trivial⟩

/-- A run of attempts. -/
lemma attempts_spec (hsized : Sized groups) (htarget : 0 < target.toInt) (bits : ℕ → ℕ → Bool)
    (n rep : ℕ) (hbest : s.bestValue.toInt = intSum OutputGroup.value (picked groups s.best))
    (hle : target.toInt ≤ s.bestValue.toInt) :
    (attempts groups target bits n rep s).bestValue.toInt =
        intSum OutputGroup.value (picked groups (attempts groups target bits n rep s).best) ∧
      target.toInt ≤ (attempts groups target bits n rep s).bestValue.toInt := by
  induction n generalizing s rep with
  | zero => exact ⟨hbest, hle⟩
  | succ n ih =>
    unfold attempts
    split
    · exact ⟨hbest, hle⟩
    · have hvalid := Valid.attempt hsized htarget (bits rep) hbest hle
      exact ih (rep + 1) hvalid.best hvalid.le_best

end SubsetSearch

/-- The best subset has the value that is returned with it, and reaches the target. -/
lemma approximateBestSubset_spec {totalLower target : CAmount} (hsized : Sized groups)
    (htarget : 0 < target.toInt) (htotal : totalLower.toInt = intSum OutputGroup.value groups)
    (hle : target.toInt ≤ totalLower.toInt) (bits : ℕ → ℕ → Bool) :
    (approximateBestSubset groups totalLower target bits).2.toInt = intSum OutputGroup.value
        (picked groups (approximateBestSubset groups totalLower target bits).1) ∧
      target.toInt ≤ (approximateBestSubset groups totalLower target bits).2.toInt := by
  apply SubsetSearch.attempts_spec hsized htarget
  · rw [picked_replicate_true, htotal]
  · exact hle

/-! ### The solver -/

section Solver

open OutputGroup

variable {target : CAmount} {groups : List OutputGroup}

/-- What is known of the candidates among some groups. -/
structure Candidates.Of (target : CAmount) (seen : List OutputGroup) (c : Candidates) : Prop where
  sublist : c.applicable.Sublist seen
  total : c.totalLower.toInt = intSum OutputGroup.value c.applicable
  none : c.lowestLarger = none → c.applicable = seen
  some : ∀ lowest, c.lowestLarger = some lowest →
    lowest ∈ seen ∧ (target + minChange).toInt ≤ lowest.value.toInt

/-- What the classification of groups gives. -/
inductive Classified (target : CAmount) (groups : List OutputGroup) :
    OutputGroup ⊕ Candidates → Prop
  | hit {group : OutputGroup} : group ∈ groups → group.value = target →
    Classified target groups (.inl group)
  | candidates {c : Candidates} : c.Of target groups → Classified target groups (.inr c)

/-- The groups sorted by what they can pay. -/
lemma classify_spec (hsized : Sized groups) {c : Candidates} (seen rest : List OutputGroup)
    (hgroups : groups = seen ++ rest) (hc : c.Of target seen) :
    Classified target groups (classify target rest c) := by
  induction rest generalizing seen c with
  | nil =>
    obtain rfl : groups = seen := by simpa using hgroups
    exact .candidates hc
  | cons group rest ih =>
    have happend : groups = (seen ++ [group]) ++ rest := by simp [hgroups]
    have hmem : group ∈ seen ++ [group] := by simp
    have hwiden := hc.sublist.trans (List.sublist_append_left seen [group])
    have hsome : ∀ lowest, c.lowestLarger = some lowest →
        lowest ∈ seen ++ [group] ∧ (target + minChange).toInt ≤ lowest.value.toInt := by
      intro lowest hlowest
      exact ⟨List.mem_append_left _ (hc.some lowest hlowest).1, (hc.some lowest hlowest).2⟩
    unfold classify
    by_cases heq : group.value = target
    · rw [if_pos heq]
      exact .hit (by simp [hgroups]) heq
    rw [if_neg heq]
    by_cases hbelow : group.value < target + minChange
    · rw [if_pos hbelow]
      apply ih (seen ++ [group]) happend
      have hsub : (c.applicable ++ [group]).Sublist (seen ++ [group]) :=
        hc.sublist.append (List.Sublist.refl _)
      have hfits := hsized.sublist
        (hsub.trans (happend ▸ List.sublist_append_left (seen ++ [group]) rest))
      have hsum : c.totalLower.toInt + group.value.toInt =
          intSum value (c.applicable ++ [group]) := by
        simp [hc.total]
      refine ⟨hsub, ?_, fun hnone => by rw [hc.none hnone], hsome⟩
      rw [toInt_add_of_fits, hsum]
      rw [hsum]
      have hnonneg := hfits.intSum_nonneg
      exact ⟨by omega, hfits.sum_lt⟩
    rw [if_neg hbelow]
    have hlarger := not_lt.mp (mt Int64.lt_iff_toInt_lt.mpr hbelow)
    split
    case isTrue =>
      apply ih (seen ++ [group]) happend
      refine ⟨hwiden, hc.total, (nomatch ·), fun lowest hlowest => ?_⟩
      obtain rfl := Option.some.inj hlowest
      exact ⟨hmem, hlarger⟩
    case isFalse hlowest =>
      apply ih (seen ++ [group]) happend
      refine ⟨hwiden, hc.total, fun hnone => ?_, hsome⟩
      simp [hnone] at hlowest

/-- A choice of groups that pays the target, with change that is worth an output if the groups
allow it. -/
structure Pays (target : CAmount) (groups chosen : List OutputGroup) (value : CAmount) : Prop where
  subperm : chosen.Subperm groups
  sum : intSum OutputGroup.value chosen = value.toInt
  le : target.toInt ≤ value.toInt
  change : target.toInt + minChange.toInt ≤ intSum OutputGroup.value groups →
    value = target ∨ target.toInt + minChange.toInt ≤ value.toInt

/-- One group alone. -/
lemma pays_singleton {group : OutputGroup} (hmem : group ∈ groups)
    (h : group.value = target ∨ target.toInt + minChange.toInt ≤ group.value.toInt) :
    Pays target groups [group] (0 + group.value) := by
  rw [Int64.zero_add]
  refine ⟨List.singleton_subperm_iff.mpr hmem, by simp, ?_, fun _ => h⟩
  rcases h with rfl | h
  · exact le_rfl
  · have hchange : minChange.toInt = 10 ^ 6 := by decide
    omega

/-- The best subset has its value and reaches the target; it hits the target or leaves enough
change if the groups allow it. -/
lemma bestSubset_spec {totalLower : CAmount} (hsized : Sized groups) (htarget : 0 < target.toInt)
    (hchange : (target + minChange).toInt = target.toInt + minChange.toInt)
    (htotal : totalLower.toInt = intSum value groups)
    (hle : target.toInt ≤ totalLower.toInt) (bits bits' : ℕ → ℕ → Bool) {best : List Bool}
    {bestValue : CAmount} (h : bestSubset groups totalLower target bits bits' = (best, bestValue)) :
    bestValue.toInt = intSum value (picked groups best) ∧
      target.toInt ≤ bestValue.toInt ∧
      (bestValue = target ∨ totalLower.toInt < target.toInt + minChange.toInt ∨
        target.toInt + minChange.toInt ≤ bestValue.toInt) := by
  have hminChange : minChange.toInt = 10 ^ 6 := by decide
  unfold bestSubset at h
  dsimp only at h
  split at h
  case isTrue hagain =>
    have henough := Int64.le_iff_toInt_le.mp hagain.2
    obtain ⟨hvalue, hreach⟩ := approximateBestSubset_spec hsized (by omega) htotal henough bits'
    rw [h] at hvalue hreach
    dsimp only at hvalue hreach
    rw [hchange] at hreach
    exact ⟨hvalue, by omega, Or.inr (Or.inr hreach)⟩
  case isFalse hfirst =>
    obtain ⟨hvalue, hreach⟩ := approximateBestSubset_spec hsized htarget htotal hle bits
    rw [h] at hvalue hreach hfirst
    refine ⟨hvalue, hreach, ?_⟩
    by_cases hhit : bestValue = target
    · exact Or.inl hhit
    · rw [not_and, Int64.le_iff_toInt_le, hchange, not_le] at hfirst
      exact Or.inr (Or.inl (hfirst hhit))

/-- The solver pays, or the groups fall short. -/
lemma knapsackSolver_spec (hsized : Sized groups) (htarget : 0 < target.toInt)
    (hfits : target.toInt + minChange.toInt < 2 ^ 63) (bits bits' : ℕ → ℕ → Bool) :
    (knapsackSolver target groups bits bits').elim
      (intSum value groups < target.toInt)
      (fun r => Pays target groups r.1 r.2) := by
  have hminChange : minChange.toInt = 10 ^ 6 := by decide
  have hchange : (target + minChange).toInt = target.toInt + minChange.toInt :=
    toInt_add_of_fits ⟨by omega, hfits⟩
  have hclass : Classified target groups (classify target groups ⟨none, [], 0⟩) :=
    classify_spec hsized [] groups rfl
      ⟨List.Sublist.refl _, rfl, fun _ => rfl, fun _ h => by cases h⟩
  unfold knapsackSolver
  cases hcl : classify target groups ⟨none, [], 0⟩ with
  | inl group =>
    rw [hcl] at hclass
    obtain ⟨hmem, hhit⟩ := hclass
    exact pays_singleton hmem (Or.inl hhit)
  | inr c =>
    obtain ⟨lowestLarger, applicable, totalLower⟩ := c
    rw [hcl] at hclass
    obtain ⟨_, _⟩ | ⟨hsub, htotal, hnone, hsome⟩ := hclass
    dsimp only at hsub htotal hnone hsome ⊢
    rw [hchange] at hsome
    have happlicable := hsized.sublist hsub
    have hlowest : ∀ lowest, lowestLarger = some lowest →
        Pays target groups [lowest] (0 + lowest.value) := by
      intro lowest h
      exact pays_singleton (hsome lowest h).1 (Or.inr (hsome lowest h).2)
    split
    case isTrue hexact =>
      have hsum := happlicable.toInt_accumulate
      have hvalue : accumulate value 0 applicable = target := by
        rw [← hexact]
        apply Int64.toInt_inj.mp
        rw [hsum, htotal]
      refine ⟨hsub.subperm, hsum.symm, ?_, fun _ => Or.inl hvalue⟩
      rw [hvalue]
    case isFalse hinexact =>
      split
      case isTrue hbelow =>
        have hbelow := Int64.lt_iff_toInt_lt.mp hbelow
        cases lowestLarger with
        | none =>
          rw [← hnone rfl, Option.map_none, Option.elim_none, ← htotal]
          exact hbelow
        | some lowest => exact hlowest lowest rfl
      case isFalse habove =>
        have habove := not_lt.mp (mt Int64.lt_iff_toInt_lt.mpr habove)
        have hperm := List.perm_insertionSort
          (fun a b : OutputGroup => b.effectiveValue ≤ a.effectiveValue) applicable
        set sorted := applicable.insertionSort fun a b => b.effectiveValue ≤ a.effectiveValue
        have hsorted := happlicable.perm hperm
        obtain ⟨⟨best, bestValue⟩, hbest⟩ :
            ∃ r, bestSubset sorted totalLower target bits bits' = r := ⟨_, rfl⟩
        obtain ⟨hvalue, hreach, hgood⟩ := bestSubset_spec hsorted htarget hchange
          (htotal.trans (intSum_perm _ hperm).symm) habove bits bits' hbest
        have hchosen := hsorted.sublist (picked_sublist sorted best)
        -- the chosen groups pay, unless a larger group is there to give enough change
        have hpays : (lowestLarger = none ∨ bestValue = target ∨
              target.toInt + minChange.toInt ≤ bestValue.toInt) →
            Pays target groups (picked sorted best)
              (accumulate value 0 (picked sorted best)) := by
          intro hcase
          have hsum := hchosen.toInt_accumulate
          have hsame : accumulate value 0 (picked sorted best) = bestValue :=
            Int64.toInt_inj.mp (hsum.trans hvalue.symm)
          refine ⟨?_, hsum.symm, hsame ▸ hreach, fun htotal' => ?_⟩
          · exact (picked_sublist sorted best).subperm.trans
              (hperm.subperm.trans hsub.subperm)
          · rw [hsame]
            rcases hcase with hcase | hcase
            · rw [← hnone hcase, ← htotal] at htotal'
              rcases hgood with hgood | hgood | hgood
              · exact Or.inl hgood
              · omega
              · exact Or.inr hgood
            · exact hcase
        rw [hbest]
        cases lowestLarger with
        | none => exact hpays (Or.inl rfl)
        | some lowest =>
          dsimp only
          split
          case isTrue => exact hlowest lowest rfl
          case isFalse hkeep =>
            apply hpays
            rw [not_or, not_and, Int64.lt_iff_toInt_lt, hchange, not_lt] at hkeep
            by_cases hhit : bestValue = target
            · exact Or.inr (Or.inl hhit)
            · exact Or.inr (Or.inr (hkeep.1 hhit))

/-- For every shuffle of the groups and all random bits, the solver fails exactly if the groups do
not reach the target; otherwise the chosen groups pay the target, and leave no change below the
minimum if that can be avoided. -/
theorem knapsackSolver_correct (hsized : Sized groups) (htarget : 0 < target.toInt)
    (hfits : target.toInt + minChange.toInt < 2 ^ 63) {shuffled : List OutputGroup}
    (hshuffled : shuffled.Perm groups) (bits bits' : ℕ → ℕ → Bool) :
    (knapsackSolver target shuffled bits bits' = none ↔
      intSum OutputGroup.value groups < target.toInt) ∧
    ∀ chosen value, knapsackSolver target shuffled bits bits' = some (chosen, value) →
      Pays target groups chosen value := by
  have hspec := knapsackSolver_spec (hsized.perm hshuffled) htarget hfits bits bits'
  have hsum := intSum_perm OutputGroup.value hshuffled
  cases hresult : knapsackSolver target shuffled bits bits' with
  | none =>
    rw [hresult, Option.elim_none, hsum] at hspec
    exact ⟨iff_of_true rfl hspec, fun _ _ h => by cases h⟩
  | some r =>
    rw [hresult, Option.elim_some] at hspec
    obtain ⟨hsub, hvalue, hle, hchange⟩ := hspec
    have hchosen : intSum OutputGroup.value r.1 ≤ intSum OutputGroup.value groups := by
      obtain ⟨l, hperm, hsubl⟩ := hsub.trans hshuffled.subperm
      rw [← intSum_perm _ hperm]
      exact intSum_sublist_le hsubl fun g hg => (hsized.pos g hg).le
    refine ⟨iff_of_false (by simp) (by omega), ?_⟩
    rintro chosen value heq
    obtain rfl := Option.some.inj heq
    exact ⟨hsub.trans hshuffled.subperm, hvalue, hle, hsum ▸ hchange⟩

/-- Two groups, of three and five units, and a target of seven. -/
theorem knapsackSolver_correct_threeFive :
    Sized [⟨3, 3⟩, ⟨5, 5⟩] ∧
      knapsackSolver 7 [⟨5, 5⟩, ⟨3, 3⟩] (fun _ _ => true) (fun _ _ => true) ≠ none := by
  have hsized : Sized [⟨3, 3⟩, ⟨5, 5⟩] := ⟨by decide, by decide⟩
  refine ⟨hsized, fun hnone => ?_⟩
  have hspec := knapsackSolver_correct hsized (by decide : 0 < (7 : CAmount).toInt) (by decide)
    (List.Perm.swap _ _ _) (fun _ _ => true) (fun _ _ => true)
  exact absurd (hspec.1.mp hnone) (by decide)

/-- Where the target with change exceeds 64 bits, a group below the target is taken for one of the
larger groups, and the solver returns less than the target. -/
theorem knapsackSolver_wraps :
    0 < (Int64.maxValue - 1).toInt ∧ (Int64.maxValue - 1).toInt < Int64.maxValue.toInt ∧
      knapsackSolver Int64.maxValue [⟨Int64.maxValue - 1, 0⟩] (fun _ _ => false)
          (fun _ _ => false) =
        some ([⟨Int64.maxValue - 1, 0⟩], Int64.maxValue - 1) :=
  ⟨by decide, by decide, rfl⟩

end Solver

end Wallet

end Aegisum
