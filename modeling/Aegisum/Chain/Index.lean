import Aegisum.Foundations.Median
import Aegisum.Model.Transaction

/-!
# The block index

A `CBlockIndex` together with its ancestors is a list of entries, the newest first; a null
pointer is the empty list and `pprev` is the tail.  The height of an entry is the number of
its ancestors.
-/

namespace Aegisum

variable {P : Primitives}

/-- An entry of the block index: the header, and the MWEB data stored when the block was
connected. -/
structure CBlockIndex (P : Primitives) where
  header : CBlockHeader P
  mwebHeader : Option (Mw.Header P)
  hogexHash : P.Hash
  mwebAmount : CAmount
deriving DecidableEq

/-- An index entry followed by its ancestors, or nothing. -/
abbrev Chain (P : Primitives) := List (CBlockIndex P)

namespace Chain

/-- The height of the newest entry; the null pointer counts as height `-1`. -/
def nHeight (c : Chain P) : ℤ := c.length - 1

/-- The ancestor at a height. -/
def getAncestor (c : Chain P) (height : ℤ) : Chain P :=
  if height > c.nHeight ∨ height < 0 then [] else c.drop (c.nHeight - height).toNat

/-- The number of blocks whose times are considered. -/
def nMedianTimeSpan : ℕ := 11

/-- The median time of the last blocks. -/
def getMedianTimePast (c : Chain P) : ℤ :=
  median ((c.map fun e => (e.header.nTime : ℤ)).take nMedianTimeSpan)

/-- Walking back `k` blocks by height is dropping `k` entries. -/
lemma getAncestor_sub (c : Chain P) (k : ℕ) : c.getAncestor (c.nHeight - k) = c.drop k := by
  unfold getAncestor nHeight
  split
  · have hlen : c.length ≤ k := by omega
    rw [List.drop_eq_nil_of_le hlen]
  · congr 1
    omega

/-- A new block does not change the older ancestors. -/
lemma getAncestor_cons {c : Chain P} {height : ℤ} (h : height ≤ c.nHeight) (e : CBlockIndex P) :
    getAncestor (e :: c) height = c.getAncestor height := by
  unfold getAncestor nHeight at *
  rw [List.length_cons]
  by_cases hneg : height < 0
  · rw [if_pos (.inr hneg), if_pos (.inr hneg)]
  · rw [if_neg (by push_cast; omega), if_neg (by omega)]
    have hdrop : (((c.length + 1 : ℕ) : ℤ) - 1 - height).toNat =
        ((c.length : ℤ) - 1 - height).toNat + 1 := by omega
    rw [hdrop, List.drop_succ_cons]

/-- The parent of a block. -/
lemma getAncestor_parent (c : Chain P) (e : CBlockIndex P) :
    getAncestor (e :: c) c.nHeight = c := by
  have hself := c.getAncestor_sub 0
  rw [Nat.cast_zero, sub_zero, List.drop_zero] at hself
  rw [getAncestor_cons le_rfl, hself]

/-- A block that is later than the median time past of its parent does not lower it. -/
lemma getMedianTimePast_le_cons {c : Chain P} (hc : c ≠ []) {e : CBlockIndex P}
    (ht : c.getMedianTimePast ≤ e.header.nTime) :
    c.getMedianTimePast ≤ getMedianTimePast (e :: c) := by
  have hne : (c.map fun e => (e.header.nTime : ℤ)).take nMedianTimeSpan ≠ [] := by
    cases c with
    | nil => exact absurd rfl hc
    | cons a c => simp [nMedianTimeSpan]
  have hlen : ((c.map fun e => (e.header.nTime : ℤ)).take nMedianTimeSpan).length ≤
      nMedianTimeSpan := List.length_take_le _ _
  have h := median_le_median_cons hne hlen ht
  -- the two windows are the same list
  have hwin : ((e.header.nTime : ℤ) ::
        (c.map fun e => (e.header.nTime : ℤ)).take nMedianTimeSpan).take nMedianTimeSpan =
      ((e :: c).map fun e => (e.header.nTime : ℤ)).take nMedianTimeSpan := by
    simp [nMedianTimeSpan, List.take_take]
  rwa [hwin] at h

end Chain

/-! ### Consensus parameters -/

/-- The schedule of a version-bits deployment. -/
structure BIP9Deployment where
  bit : ℕ
  nStartTime : ℤ
  nTimeout : ℤ
  nStartHeight : ℤ
  nTimeoutHeight : ℤ
deriving DecidableEq

/-- The consensus parameters the modelled checks read. -/
structure ConsensusParams (P : Primitives) where
  hashGenesisBlock : P.Hash
  nSubsidyHalvingInterval : ℕ
  bip34Height : ℤ
  bip34Hash : P.Hash
  csvHeight : ℤ
  segwitHeight : ℤ
  nRuleChangeActivationThreshold : ℕ
  nMinerConfirmationWindow : ℕ
  deploymentMweb : BIP9Deployment
  signetBlocks : Bool
  nMinerConfirmationWindow_pos : 0 < nMinerConfirmationWindow

end Aegisum
