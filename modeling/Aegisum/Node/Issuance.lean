import Mathlib.Algebra.Order.BigOperators.Group.Finset
import Aegisum.Node.Inflation

/-!
# Issuance

The subsidies of all blocks up to a height.  From height 4 on the subsidy is constant between two
halvings, so the total is a sum of products, one for each halving period.  With the halving
interval of the main network it reaches `MAX_MONEY` exactly at height 533695, in the sixth
period: the halvings alone stay below the limit, but the subsidies of blocks 1 to 3 come on top.
-/

namespace Aegisum

variable {P : Primitives}

/-- The subsidies of all blocks up to the height. -/
def issuance (params : ConsensusParams P) (nHeight : ℕ) : ℤ :=
  ∑ h ∈ Finset.range (nHeight + 1), (getBlockSubsidy params h).toInt

lemma issuance_mono (params : ConsensusParams P) {m n : ℕ} (hmn : m ≤ n) :
    issuance params m ≤ issuance params n :=
  Finset.sum_le_sum_of_subset_of_nonneg (Finset.range_subset_range.mpr (by omega))
    fun h _ _ => (getBlockSubsidy_range params h).1

/-- Blocks in a row with the same subsidy. -/
lemma issuance_add {params : ConsensusParams P} {n j : ℕ} {v : ℤ}
    (hv : ∀ i < j, (getBlockSubsidy params (n + i + 1 : ℕ)).toInt = v) :
    issuance params (n + j) = issuance params n + j * v := by
  have hsum : ∑ i ∈ Finset.range j, (getBlockSubsidy params (n + 1 + i : ℕ)).toInt = j * v := by
    rw [Finset.sum_congr rfl fun i hi => ?_, Finset.sum_const, Finset.card_range, nsmul_eq_mul]
    rw [Nat.add_right_comm]
    exact hv i (Finset.mem_range.mp hi)
  rw [issuance, Nat.add_right_comm, Finset.sum_range_add, hsum, issuance]

/-- Heights that are not special have the subsidy of their halving period. -/
lemma getBlockSubsidy_of_period {params : ConsensusParams P} {h k : ℕ} (hh : 3 < h)
    (hk : h / params.nSubsidyHalvingInterval = k) (hlt : k < 64) :
    (getBlockSubsidy params h).toInt = 50000000000 / 2 ^ k := by
  have hhalvings : ((h : ℤ) / (params.nSubsidyHalvingInterval : ℤ)).toNat = k := by
    rw [← hk, ← Int.natCast_ediv, Int.toNat_natCast]
  have hcoin : (500 * coin).toInt = 50000000000 := by decide
  rw [getBlockSubsidy, if_neg (by omega), if_neg (by omega)]
  dsimp only
  rw [hhalvings, if_neg (by omega), hcoin, Int.shiftRight_eq_div_pow, Nat.cast_pow, Nat.cast_ofNat]
  have h0 : 0 ≤ (50000000000 : ℤ) / 2 ^ k := Int.ediv_nonneg (by decide) (by positivity)
  have h1 : (50000000000 : ℤ) / 2 ^ k ≤ 50000000000 := Int.ediv_le_self _ (by decide)
  exact Int64.toInt_ofInt_of_le (by omega) (by omega)

section MainNetwork

variable {params : ConsensusParams P} (hmain : params.nSubsidyHalvingInterval = 100000)
include hmain

/-- Blocks in a row within one halving period of the main network. -/
lemma issuance_add_of_period {n j k : ℕ} (hn : 3 ≤ n) (hfirst : 100000 * k ≤ n + 1)
    (hlast : n + j < 100000 * (k + 1)) (hk : k < 64) :
    issuance params (n + j) = issuance params n + j * (50000000000 / 2 ^ k) := by
  refine issuance_add fun i hi => getBlockSubsidy_of_period (by omega) ?_ hk
  rw [hmain]
  omega

/-- What the first four blocks issue: the subsidy of the genesis block and the special ones. -/
lemma issuance_three : issuance params 3 = 260050000000000 := by
  have h0 : (getBlockSubsidy params 0).toInt = 50000000000 := by
    rw [getBlockSubsidy, hmain]
    decide
  have h1 : (getBlockSubsidy params 1).toInt = 100000000000000 := by
    rw [getBlockSubsidy, if_pos (by norm_num)]
    decide
  have h2 : (getBlockSubsidy params 2).toInt = 100000000000000 := by
    rw [getBlockSubsidy, if_pos (by norm_num)]
    decide
  have h3 : (getBlockSubsidy params 3).toInt = 60000000000000 := by
    rw [getBlockSubsidy, if_neg (by norm_num), if_pos rfl]
    decide
  simp [issuance, Finset.sum_range_succ, h0, h1, h2, h3]

/-- The last height at which the limit holds uses it up. -/
lemma issuance_eq_maxMoney : issuance params 533695 = 10 ^ 16 := by
  have h0 := issuance_add_of_period hmain (n := 3) (j := 99996) (k := 0) (by norm_num)
    (by norm_num) (by norm_num) (by norm_num)
  have h1 := issuance_add_of_period hmain (n := 99999) (j := 100000) (k := 1) (by norm_num)
    (by norm_num) (by norm_num) (by norm_num)
  have h2 := issuance_add_of_period hmain (n := 199999) (j := 100000) (k := 2) (by norm_num)
    (by norm_num) (by norm_num) (by norm_num)
  have h3 := issuance_add_of_period hmain (n := 299999) (j := 100000) (k := 3) (by norm_num)
    (by norm_num) (by norm_num) (by norm_num)
  have h4 := issuance_add_of_period hmain (n := 399999) (j := 100000) (k := 4) (by norm_num)
    (by norm_num) (by norm_num) (by norm_num)
  have h5 := issuance_add_of_period hmain (n := 499999) (j := 33696) (k := 5) (by norm_num)
    (by norm_num) (by norm_num) (by norm_num)
  have h3' := issuance_three hmain
  norm_num at h0 h1 h2 h3 h4 h5 ⊢
  omega

/-- The block after it issues more. -/
lemma maxMoney_lt_issuance : maxMoney.toInt < issuance params 533696 := by
  have hnext := issuance_add_of_period hmain (n := 533695) (j := 1) (k := 5) (by norm_num)
    (by norm_num) (by norm_num) (by norm_num)
  rw [hnext, issuance_eq_maxMoney hmain, maxMoney_toInt]
  norm_num

end MainNetwork

lemma issuance_succ (params : ConsensusParams P) (n : ℕ) :
    issuance params (n + 1) = issuance params n + (getBlockSubsidy params (n + 1)).toInt := by
  rw [issuance, Finset.sum_range_succ, issuance, Nat.cast_add, Nat.cast_one]

lemma subsidySum_le_issuance (params : ConsensusParams P) (n : ℕ) :
    subsidySum params n ≤ issuance params n := by
  induction n with
  | zero => simpa [subsidySum, issuance] using (getBlockSubsidy_range params 0).1
  | succ n ih =>
    rw [subsidySum_succ, issuance_succ]
    exact Int.add_le_add_right ih _

variable [NodeCrypto P]

/-- On the main network, what has been issued up to a height is at most `MAX_MONEY` just for the
heights up to 533695; the coins of a chain up to there are worth at most `MAX_MONEY`. -/
theorem issuance_le_maxMoney_iff (params : ConsensusParams P)
    (hmain : params.nSubsidyHalvingInterval = 100000) (nHeight : ℕ) :
    (issuance params nHeight ≤ maxMoney.toInt ↔ nHeight ≤ 533695) ∧
      (nHeight ≤ 533695 → ∀ (env : ScriptEnv P) (c : Chain P) (tip : CoinsTip P),
        ConnectedChain env params (fun _ _ => True) c tip → c.nHeight = nHeight →
          tip.coins.totalValue ≤ maxMoney.toInt) := by
  have hle : nHeight ≤ 533695 → issuance params nHeight ≤ maxMoney.toInt := fun h => by
    rw [maxMoney_toInt, ← issuance_eq_maxMoney hmain]
    exact issuance_mono params h
  refine ⟨⟨fun h => ?_, hle⟩, fun h env c tip hchain hheight => ?_⟩
  · by_contra hgt
    have hmore := issuance_mono params (show 533696 ≤ nHeight by omega)
    exact absurd h (not_le.mpr ((maxMoney_lt_issuance hmain).trans_le hmore))
  · have hlength : c.length - 1 = nHeight := by
      unfold Chain.nHeight at hheight
      omega
    calc tip.coins.totalValue ≤ subsidySum params nHeight := hlength ▸ hchain.total_le.2
      _ ≤ issuance params nHeight := subsidySum_le_issuance params nHeight
      _ ≤ maxMoney.toInt := hle h

/-- The limit holds at height 533695, and on the chain of the genesis block. -/
theorem issuance_le_maxMoney_last :
    issuance genesisParams 533695 ≤ maxMoney.toInt ∧
      afterGenesis.tip.coins.totalValue ≤ maxMoney.toInt := by
  have hchain : ConnectedChain lenientEnv genesisParams (fun _ _ => True) [afterGenesis.entry]
      afterGenesis.tip :=
    .connectBlock (b := genesis) .empty trivial (eq_ok_toOption_get (by decide +kernel))
  exact ⟨(issuance_le_maxMoney_iff genesisParams rfl 533695).1.mpr le_rfl,
    (issuance_le_maxMoney_iff genesisParams rfl 0).2 (by norm_num) lenientEnv _ _ hchain rfl⟩

/-- At height 533696 the blocks of the main network have issued more than `MAX_MONEY`. -/
theorem maxMoney_lt_issuance_genesisParams :
    genesisParams.nSubsidyHalvingInterval = 100000 ∧
      maxMoney.toInt < issuance genesisParams 533696 :=
  ⟨rfl, maxMoney_lt_issuance rfl⟩

end Aegisum
