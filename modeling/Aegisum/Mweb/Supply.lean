import Mathlib.Tactic.Abel
import Mathlib.Tactic.Module
import Aegisum.Model.Symbolic
import Aegisum.Mweb.Amounts
import Aegisum.Mweb.Build
import Aegisum.Mweb.History

/-!
# Supply conservation along runs

`KernelSumValidator::ValidateState` checks all unspent outputs against all kernels of the chain.
The node never runs it while it follows the chain, because every block is checked on its own.
This module shows that the checks of the single blocks add up to the check of the state, along
any sequence of connected and disconnected blocks.

Two things are not part of `ApplyBlock` and have to be asked for: that the kernels are sorted,
which `TxBody::Validate` checks before, and that amounts stay within 64 bits.
-/

namespace Aegisum

open List

/-- In a list sorted in descending order the partial sums rise and then fall, so they stay
non-negative when the two ends are. -/
lemma sum_take_nonneg {xs : List ℤ} (hsorted : xs.Pairwise (· ≥ ·)) {a : ℤ} (ha : 0 ≤ a)
    (hend : 0 ≤ a + xs.sum) (n : ℕ) : 0 ≤ a + (xs.take n).sum := by
  induction xs generalizing a n with
  | nil => simpa using ha
  | cons x xs ih =>
    cases n with
    | zero => simpa using ha
    | succ n =>
      rw [pairwise_cons] at hsorted
      rw [sum_cons] at hend
      rw [take_succ_cons, sum_cons, ← add_assoc]
      by_cases hx : 0 ≤ x
      · exact ih hsorted.2 (by omega) (by omega) n
      · -- from here on every element is negative, so the end is the smallest partial sum
        have hrest : (xs.drop n).sum ≤ 0 := by
          have hle : ∀ y ∈ xs.drop n, y ≤ 0 := fun y hy => by
            have := hsorted.1 y (mem_of_mem_drop hy)
            omega
          simpa using sum_le_card_nsmul _ _ hle
        have hsplit := congrArg sum (take_append_drop n xs)
        rw [sum_append] at hsplit
        omega

namespace Mw

open Kernel

variable {P : Primitives} [MwCrypto P]

/-! ### The order of kernels -/

lemma isChain_of_isSorted {α : Type} {less : α → α → Bool} {l : List α}
    (h : isSorted less l = true) : l.IsChain fun a b => less b a = false := by
  induction l with
  | nil => exact .nil
  | cons a l ih =>
    cases l with
    | nil => exact .singleton a
    | cons b l =>
      rw [isSorted, Bool.and_eq_true, Bool.not_eq_true'] at h
      exact .cons_cons h.1 (ih h.2)

/-- Sorted kernels have descending supply changes. -/
lemma supplyChange_pairwise {ks : List (Kernel P)} (h : isSorted kernelSort ks = true) :
    (ks.map fun k => k.getSupplyChange.toInt).Pairwise (· ≥ ·) := by
  rw [← isChain_iff_pairwise, isChain_map]
  refine (isChain_of_isSorted h).imp fun a b hab => ?_
  rw [kernelSort, Bool.or_eq_false_iff] at hab
  have := hab.1
  rw [decide_eq_false_iff_not, gt_iff_lt, Int64.lt_iff_toInt_lt] at this
  omega

/-! ### The running supply -/

omit [MwCrypto P] in
/-- The loop over the kernels of a state does not stop when no partial sum leaves the
non-negative 64-bit numbers. -/
lemma runningSupply_loop {ks : List (Kernel P)} {a : CAmount}
    (hexact : ∀ k ∈ ks, k.getSupplyChange.toInt = k.supplySum)
    (hrange : ∀ n, 0 ≤ a.toInt + ((ks.take n).map supplySum).sum ∧
      a.toInt + ((ks.take n).map supplySum).sum < 2 ^ 63) :
    ∃ total : CAmount, total.toInt = a.toInt + (ks.map supplySum).sum ∧
      ks.foldlM
        (fun totalMwebSupply k => do
          rejectIf (totalMwebSupply + k.getSupplyChange < 0) MwError.blockSums
          pure (totalMwebSupply + k.getSupplyChange)) a = .ok total := by
  induction ks generalizing a with
  | nil => exact ⟨a, by simp, rfl⟩
  | cons k ks ih =>
    have hk := hexact k (by simp)
    have hfirst := hrange 1
    rw [take_succ_cons, take_zero, map_cons, map_nil, sum_cons, sum_nil, add_zero] at hfirst
    have hadd : (a + k.getSupplyChange).toInt = a.toInt + k.supplySum := by
      rw [← hk]
      exact toInt_add_of_fits ⟨by omega, by omega⟩
    have hrange' : ∀ n, 0 ≤ (a + k.getSupplyChange).toInt +
        ((ks.take n).map supplySum).sum ∧
        (a + k.getSupplyChange).toInt + ((ks.take n).map supplySum).sum < 2 ^ 63 := by
      intro n
      have := hrange (n + 1)
      rw [take_succ_cons, map_cons, sum_cons] at this
      rw [hadd]
      omega
    obtain ⟨total, htotal, hfold⟩ := ih (fun k' hk' => hexact k' (by simp [hk'])) hrange'
    refine ⟨total, ?_, ?_⟩
    · rw [htotal, hadd, map_cons, sum_cons, add_assoc]
    · rw [foldlM_cons_eq_ok]
      refine ⟨a + k.getSupplyChange, ?_, hfold⟩
      rw [rejectIf_bind_eq_ok]
      refine ⟨fun hneg => ?_, rfl⟩
      have hneg := Int64.lt_iff_toInt_lt.mp hneg
      rw [hadd] at hneg
      exact absurd hneg (by simpa using hfirst.1)

omit [MwCrypto P] in
/-- When the balance equation holds, `ValidateSums` does not report a mismatch. -/
lemma validateSums_ne_blockSums {inputs outputs kernels : List P.Point} {offset : P.Scalar}
    {coinsAdded : CAmount}
    (h : outputs.sum - inputs.sum - coinsAdded.toInt • P.genH = kernels.sum + offset • P.genG) :
    validateSums inputs outputs kernels offset coinsAdded ≠ .error .blockSums := by
  intro herror
  rcases bind_eq_error.mp herror with h1 | ⟨u, hu, h1⟩
  · exact sumUtxoCommitments_ne_blockSums h1
  rcases bind_eq_error.mp h1 with h2 | ⟨e, he, h2⟩
  · exact sumExcessCommitments_ne_blockSums h2
  have hne := (rejectIf_eq_error.mp h2).1
  rw [(sumUtxoCommitments_eq_ok_iff.mp hu).2, (sumExcessCommitments_eq_ok_iff.mp he).2] at hne
  exact hne h

namespace CoinsView

/-! ### Commitments of the unspent outputs -/

/-- The sum of the commitments of all unspent outputs. -/
noncomputable def commitmentSum (v : CoinsView P) : P.Point :=
  v.utxos.total fun u => u.output.commitment

variable {v v' : CoinsView P}

lemma Added.commitmentSum {height : ℤ} {outputs : List (Output P)} (h : Added v height outputs v') :
    v'.commitmentSum = v.commitmentSum + (outputs.map Output.commitment).sum := by
  unfold CoinsView.commitmentSum
  rw [FiniteMap.total_of_agree _ h.nodup h.others, map_map]
  refine congrArg _ (congrArg _ (map_congr_left fun o ho => ?_))
  obtain ⟨leafIdx, hcreated⟩ := h.created o ho
  rw [Function.comp_apply, hcreated, show v.utxos.get o.getOutputID = none from h.fresh o ho]
  simp

omit [MwCrypto P] in
lemma Spent.commitmentSum {ids : List P.Hash} {coins : List (UTXO P)} (h : Spent v ids coins v') :
    v'.commitmentSum = v.commitmentSum - (coins.map fun u => u.output.commitment).sum := by
  unfold CoinsView.commitmentSum
  rw [FiniteMap.total_of_agree _ h.nodup h.others, sub_eq_add_neg]
  congr 1
  have hremoved : ids.map (fun id => FiniteMap.weight (fun u : UTXO P => u.output.commitment)
        (v'.utxos.get id) -
          FiniteMap.weight (fun u : UTXO P => u.output.commitment) (v.utxos.get id)) =
      (ids.map v.utxos.get).map fun c =>
        -FiniteMap.weight (fun u : UTXO P => u.output.commitment) c := by
    rw [map_map]
    refine map_congr_left fun id hid => ?_
    simp [h.removed id hid]
  rw [hremoved, h.coins, map_map]
  simp [Function.comp_def, sum_neg]

/-! ### Admissible runs -/

/-- The kernels of the connected blocks in chain order. -/
def chainKernels (s : Connected P) : List (Kernel P) := s.reverse.flatMap (·.1.body.kernels)

/-- The MWEB amount after the connected blocks, as an unbounded integer. -/
def supply (s : Connected P) : ℤ := (s.map (·.1.body.supplySum)).sum

omit [MwCrypto P] in
@[simp] lemma chainKernels_cons (b : Block P) (undo : BlockUndo P) (s : Connected P) :
    chainKernels ((b, undo) :: s) = chainKernels s ++ b.body.kernels := by
  simp [chainKernels]

omit [MwCrypto P] in
@[simp] lemma supply_cons (b : Block P) (undo : BlockUndo P) (s : Connected P) :
    supply ((b, undo) :: s) = b.body.supplySum + supply s := by
  simp [supply]

omit [MwCrypto P] in
lemma sum_chainKernels (s : Connected P) :
    ((chainKernels s).map supplySum).sum = supply s := by
  induction s with
  | nil => rfl
  | cons e s ih =>
    obtain ⟨b, undo⟩ := e
    rw [chainKernels_cons, supply_cons, map_append, sum_append, ih, add_comm]
    rfl

/-- What is asked of every block that a run connects. -/
structure Admissible (s : Connected P) (b : Block P) (undo : BlockUndo P) : Prop where
  /-- Every input carries the commitment of the output it removes. -/
  inputs_match : b.body.getInputCommits = undo.coinsSpent.map fun u => u.output.commitment
  /-- The kernels are in the order that `TxBody::Validate` requires. -/
  kernels_sorted : isSorted kernelSort b.body.kernels = true
  /-- The amount before the block and its peg-ins fit into 64 bits. -/
  pegIns_fit : supply s + b.body.pegInSum < 2 ^ 63
  /-- The amount after the block is not negative. -/
  amount_nonneg : 0 ≤ supply s + b.body.supplySum

namespace Admissible

variable {s : Connected P} {b : Block P} {undo : BlockUndo P} (h : Admissible s b undo)

include h

/-- The kernels of an admissible block have exact supply changes. -/
lemma getSupplyChange_eq {k : Kernel P} (hk : k ∈ b.body.kernels) :
    k.getSupplyChange.toInt = k.supplySum := by
  have h1 := h.pegIns_fit
  have h2 := h.amount_nonneg
  have h3 := TxBody.getFee_le_feeSum hk
  have h4 := TxBody.pegOutSum_le_pegOutSum hk
  have h5 := k.getFee_nonneg
  have h6 := k.pegOutSum_nonneg
  have h7 := k.getPegIn_nonneg
  have h8 := (fitsInt64_toInt k.getPegIn).2
  rw [TxBody.supplySum_eq] at h2
  refine getSupplyChange_eq_of_fits ⟨?_, ?_⟩
  · unfold supplySum
    omega
  · unfold supplySum
    omega

/-- The supply change of an admissible block is exact. -/
lemma bodySupplyChange_eq (hsupply : 0 ≤ supply s) :
    b.body.getSupplyChange.toInt = b.body.supplySum := by
  have h1 := h.pegIns_fit
  have h2 := h.amount_nonneg
  have h3 := b.body.feeSum_nonneg
  have h4 := b.body.pegOutSum_nonneg
  have h5 := b.body.pegInSum_nonneg
  have h6 := b.body.supplySum_eq
  exact eq_of_modEq_of_fits (fitsInt64_toInt _) ⟨by omega, by omega⟩ b.body.getSupplyChange_modEq

/-- Between the kernels of an admissible block the supply stays a non-negative 64-bit
number. -/
lemma running_range (hsupply : 0 ≤ supply s) (n : ℕ) :
    0 ≤ supply s + ((b.body.kernels.take n).map supplySum).sum ∧
      supply s + ((b.body.kernels.take n).map supplySum).sum < 2 ^ 63 := by
  have hmap : b.body.kernels.map (fun k => k.getSupplyChange.toInt) =
      b.body.kernels.map supplySum :=
    map_congr_left fun k hk => h.getSupplyChange_eq hk
  have hsorted := supplyChange_pairwise h.kernels_sorted
  rw [hmap] at hsorted
  have hlow := sum_take_nonneg hsorted hsupply h.amount_nonneg n
  have hhigh := b.body.sum_take_supplySum_le n
  have hfit := h.pegIns_fit
  rw [← map_take] at hlow
  exact ⟨hlow, by omega⟩

end Admissible

/-- What holds in every state of an admissible run, in unbounded arithmetic. -/
structure Conserved (v : CoinsView P) (s : Connected P) : Prop where
  exact_kernels : ∀ k ∈ chainKernels s, k.getSupplyChange.toInt = k.supplySum
  running_range : ∀ n, 0 ≤ (((chainKernels s).take n).map Kernel.supplySum).sum ∧
    (((chainKernels s).take n).map Kernel.supplySum).sum < 2 ^ 63
  balance : v.commitmentSum - supply s • P.genH =
    ((chainKernels s).map Kernel.excess).sum + v.kernelOffset • P.genG

variable {s : Connected P}

omit [MwCrypto P] in
lemma Conserved.supply_nonneg (h : Conserved v s) : 0 ≤ supply s := by
  have := (h.running_range (chainKernels s).length).1
  rwa [take_length, sum_chainKernels] at this

/-- One block: the balance of the state and the balance of the block add up. -/
lemma Conserved.balance_step {mid : CoinsView P} {b : Block P} {undo : BlockUndo P}
    (h : Conserved v s) (hok : Admissible s b undo) (happ : Applied v b undo mid v') :
    v'.commitmentSum - supply ((b, undo) :: s) • P.genH =
      ((chainKernels ((b, undo) :: s)).map excess).sum + v'.kernelOffset • P.genG := by
  have hblock := balance_of_validateForBlock happ.balance
  have hstate := h.balance
  have hadded : mid.commitmentSum = v.commitmentSum + b.body.getOutputCommits.sum :=
    happ.added.commitmentSum
  have hspent : v'.commitmentSum = mid.commitmentSum - b.body.getInputCommits.sum := by
    rw [hok.inputs_match]
    exact happ.spent.commitmentSum
  have hoffset : v'.kernelOffset = b.header.kernelOffset := by
    rw [kernelOffset, happ.bestHeader]
    rfl
  rw [hok.bodySupplyChange_eq h.supply_nonneg] at hblock
  have hexcess : ((chainKernels ((b, undo) :: s)).map excess).sum =
      ((chainKernels s).map excess).sum + b.body.getKernelCommits.sum := by
    rw [chainKernels_cons, map_append, sum_append]
    rfl
  rw [hexcess, hspent, hadded, hoffset, supply_cons]
  calc v.commitmentSum + b.body.getOutputCommits.sum - b.body.getInputCommits.sum -
        (b.body.supplySum + supply s) • P.genH
      = (v.commitmentSum - supply s • P.genH) + (b.body.getOutputCommits.sum -
          b.body.getInputCommits.sum - b.body.supplySum • P.genH) := by module
    _ = (((chainKernels s).map excess).sum + v.kernelOffset • P.genG) +
          (b.body.getKernelCommits.sum +
            (b.header.kernelOffset - v.kernelOffset) • P.genG) := by rw [hstate, hblock]
    _ = ((chainKernels s).map excess).sum + b.body.getKernelCommits.sum +
          b.header.kernelOffset • P.genG := by module

lemma Conserved.step {mid : CoinsView P} {b : Block P} {undo : BlockUndo P} (h : Conserved v s)
    (hok : Admissible s b undo) (happ : Applied v b undo mid v') :
    Conserved v' ((b, undo) :: s) := by
  refine ⟨?_, ?_, h.balance_step hok happ⟩
  · intro k hk
    rw [chainKernels_cons, mem_append] at hk
    rcases hk with hk | hk
    · exact h.exact_kernels k hk
    · exact hok.getSupplyChange_eq hk
  · intro n
    rw [chainKernels_cons, take_append, map_append, sum_append]
    rcases Nat.le_total n (chainKernels s).length with hn | hn
    · -- the partial sum ends before the new block
      rw [Nat.sub_eq_zero_of_le hn, take_zero, map_nil, sum_nil, add_zero]
      exact h.running_range n
    · rw [take_of_length_le hn, sum_chainKernels]
      exact hok.running_range h.supply_nonneg _

lemma Ledger.conserved (h : Ledger Admissible v s) : Conserved v s := by
  induction h with
  | empty hutxos hheader =>
    refine ⟨by simp [chainKernels], by simp [chainKernels], ?_⟩
    simp [commitmentSum, kernelOffset, hutxos, hheader, supply, chainKernels]
  | block _ hok happ hutxos hheader ih =>
    have hstep := ih.step hok happ
    refine ⟨hstep.exact_kernels, hstep.running_range, ?_⟩
    have hbalance := hstep.balance
    unfold commitmentSum kernelOffset at hbalance ⊢
    rwa [hutxos, hheader]

/-- In every state of an admissible run the kernels of the chain have a running supply that is
never negative and ends in the MWEB amount, and the unspent outputs balance with them: the check
of the whole state finds no mismatch. -/
theorem supply_conservation (v : CoinsView P) (s : Connected P) (h : Run Admissible v s) :
    (∀ n, 0 ≤ (((chainKernels s).take n).map Kernel.supplySum).sum) ∧
      ∃ total, runningSupply (chainKernels s) = .ok total ∧ total.toInt = supply s ∧
        ∀ entries, v.utxos.Enumerates entries →
          let commitments := entries.map fun e => e.2.output.commitment
          commitments.sum - total.toInt • P.genH =
              ((chainKernels s).map Kernel.excess).sum + v.kernelOffset • P.genG ∧
            validateState commitments (chainKernels s) v.kernelOffset ≠ .error .blockSums := by
  have hcons := h.ledger.conserved
  refine ⟨fun n => (hcons.running_range n).1, ?_⟩
  obtain ⟨total, htotal, hrun⟩ := runningSupply_loop (a := 0) hcons.exact_kernels
    (by simpa using hcons.running_range)
  have hsupply : total.toInt = supply s := by
    rw [htotal, sum_chainKernels]
    simp
  refine ⟨total, hrun, hsupply, fun entries hentries => ?_⟩
  have hbalance := hcons.balance
  rw [commitmentSum, FiniteMap.total_of_enumerates _ hentries, ← hsupply] at hbalance
  refine ⟨hbalance, fun herror => ?_⟩
  rcases bind_eq_error.mp herror with herror | ⟨total', hrun', herror⟩
  · rw [runningSupply, hrun] at herror
    cases herror
  · rw [runningSupply, hrun] at hrun'
    obtain rfl := Except.ok.inj hrun'
    exact validateSums_ne_blockSums (by simpa using hbalance) herror

section Example

open Symbolic

/-- A block that pegs in 10 units. -/
def mint : Block sym :=
  (empty.buildNextBlock 1 [mintTx]).toOption.get (by decide +kernel)

/-- The result of connecting `mint` to the empty view. -/
def afterMint : BlockUndo sym × CoinsView sym :=
  (empty.applyBlock mint).toOption.get (by decide +kernel)

/-- A block that spends the output of `mint` and pays a fee of 2. -/
def spendMint : Block sym :=
  (afterMint.2.buildNextBlock 2 [spendTx 5]).toOption.get (by decide +kernel)

/-- The result of connecting `spendMint` after `mint`. -/
def afterSpend : BlockUndo sym × CoinsView sym :=
  (afterMint.2.applyBlock spendMint).toOption.get (by decide +kernel)

/-- Connecting a block that mints 10 units and one that spends them is an admissible run. -/
theorem supply_conservation_spendMint :
    ∃ v s, Run (P := sym) Admissible v s ∧ supply s = 8 ∧
      (∀ n, 0 ≤ (((chainKernels s).take n).map Kernel.supplySum).sum) ∧
      ∃ total, runningSupply (chainKernels s) = .ok total ∧ total.toInt = supply s ∧
        ∀ entries, v.utxos.Enumerates entries →
          let commitments := entries.map fun e => e.2.output.commitment
          commitments.sum - total.toInt • sym.genH =
              ((chainKernels s).map Kernel.excess).sum + v.kernelOffset • sym.genG ∧
            validateState commitments (chainKernels s) v.kernelOffset ≠ .error .blockSums := by
  have hmint : Run Admissible afterMint.2 [(mint, afterMint.1)] :=
    .applyBlock .empty
      ⟨by decide +kernel, by decide +kernel, by decide +kernel, by decide +kernel⟩
      (eq_ok_toOption_get (by decide +kernel))
  have hspend : Run Admissible afterSpend.2 [(spendMint, afterSpend.1), (mint, afterMint.1)] :=
    .applyBlock hmint
      ⟨by decide +kernel, by decide +kernel, by decide +kernel, by decide +kernel⟩
      (eq_ok_toOption_get (by decide +kernel))
  exact ⟨_, _, hspend, by decide +kernel, supply_conservation _ _ hspend⟩

/-- The conditions on the inputs, the single amounts and the amount after the block, without the
order of the kernels and without a bound on sums. -/
structure Unordered (s : Connected P) (b : Block P) (undo : BlockUndo P) : Prop where
  inputs_match : b.body.getInputCommits = undo.coinsSpent.map fun u => u.output.commitment
  amounts_range : ∀ k ∈ b.body.kernels,
    MoneyRange k.getFee ∧ MoneyRange k.getPegIn ∧ ∀ p ∈ k.pegouts, MoneyRange p.amount
  amount_nonneg : 0 ≤ supply s + b.body.supplySum

/-- A block whose fee of 5 comes before its peg-in of 15. -/
def feeFirst : Block sym :=
  { mint with
    body := ⟨[], [output 10 7 5 9],
      [kernel (some 5) none [] 3, kernel none (some 15) [] 4]⟩ }

/-- A block with sorted kernels that pegs in more than a 64-bit number before it pays
everything as fees. -/
def hugePegIns : Block sym :=
  { mint with
    body := ⟨[], [output 10 7 5 9],
      List.replicate 923 (kernel none (some maxMoney) [] 0) ++ mintKernel ::
        List.replicate 923 (kernel (some maxMoney) none [] 0)⟩ }

/-- Without the order of the kernels, and without a bound on their sums, the running supply of
a state becomes negative. -/
theorem runningSupply_fails_unordered :
    (∃ v s, Run (P := sym) Unordered v s ∧
        runningSupply (chainKernels s) = .error .blockSums ∧ s.map Prod.fst = [feeFirst]) ∧
      ∃ v s, Run (P := sym) Unordered v s ∧
        runningSupply (chainKernels s) = .error .blockSums ∧ s.map Prod.fst = [hugePegIns] ∧
        isSorted kernelSort hugePegIns.body.kernels = true := by
  have hrun (b : Block sym) (h : (empty.applyBlock b).toOption.isSome = true)
      (hok : Unordered [] b ((empty.applyBlock b).toOption.get h).1) :
      Run Unordered ((empty.applyBlock b).toOption.get h).2
        [(b, ((empty.applyBlock b).toOption.get h).1)] :=
    .applyBlock .empty hok (eq_ok_toOption_get h)
  refine ⟨⟨_, _, hrun feeFirst (by decide +kernel) ⟨?_, ?_, ?_⟩, ?_, rfl⟩,
    ⟨_, _, hrun hugePegIns (by decide +kernel) ⟨?_, ?_, ?_⟩, ?_, rfl, ?_⟩⟩
  all_goals decide +kernel

end Example

end CoinsView

end Mw

end Aegisum
