import Aegisum.Node.PegConservation

/-!
# Overflow of amounts

The amounts of kernels are arbitrary non-negative 63-bit numbers.  Peg-outs are bounded by the
HogEx outputs that pay them, but nothing bounds the fees before they are added up: fees whose
sum is a multiple of `2 ^ 64` more than the HogEx fee pass every check.

The main result says exactly for which accepted blocks no computation wraps.
-/

namespace Aegisum

variable {P : Primitives}

/-- None of the amount computations that decide about a block wraps: every partial sum and
every final value is the unbounded one. -/
structure AmountsExact (prevAmount : CAmount) (body : Mw.TxBody P) : Prop where
  /-- `Kernel::GetPegOutAmount`. -/
  pegOutAmount : ∀ k ∈ body.kernels, AccumulatesExactly Mw.PegOutCoin.amount k.pegouts
  /-- The inner subtraction of `Kernel::GetSupplyChange`. -/
  netOfFee : ∀ k ∈ body.kernels,
    (k.getPegIn - k.getFee).toInt = k.getPegIn.toInt - k.getFee.toInt
  /-- `Kernel::GetSupplyChange`. -/
  kernelSupplyChange : ∀ k ∈ body.kernels, k.getSupplyChange.toInt = k.supplySum
  /-- `TxBody::GetTotalFee`. -/
  totalFee : AccumulatesExactly Mw.Kernel.getFee body.kernels
  /-- `TxBody::GetPegInAmount`. -/
  pegInAmount : AccumulatesExactly Mw.Kernel.getPegIn body.kernels
  /-- `TxBody::GetSupplyChange`. -/
  supplyChange : AccumulatesExactly Mw.Kernel.getSupplyChange body.kernels
  supplyChange_eq : body.getSupplyChange.toInt = body.supplySum
  /-- `abs(coins_added)` in `ValidateSums`. -/
  absSupplyChange : body.getSupplyChange.abs.toInt = |body.supplySum|
  /-- The expected MWEB amount in `ConnectBlock`. -/
  mwebAmount : (prevAmount + body.getSupplyChange).toInt = prevAmount.toInt + body.supplySum

namespace Mw

/-- A body whose fees, peg-ins and peg-outs are bounded: the numbers all computations stay
between. -/
structure TxBody.Bounded (body : TxBody P) : Prop where
  fee : body.feeSum ≤ 10 ^ 16
  pegIn : body.pegInSum < 2 ^ 63
  pegOut : body.pegOutSum ≤ 10 ^ 16

namespace TxBody.Bounded

variable {body : TxBody P} (h : body.Bounded)

include h

/-- The same bounds hold for the first kernels. -/
lemma take (n : ℕ) : ({ body with kernels := body.kernels.take n } : TxBody P).Bounded := by
  refine ⟨(intSum_take_le (fun k _ => k.getFee_nonneg) n).trans h.fee,
    (intSum_take_le (fun k _ => k.getPegIn_nonneg) n).trans_lt h.pegIn, ?_⟩
  -- the peg-outs of the first kernels are the first peg-outs
  have hle : ({ body with kernels := body.kernels.take n } : TxBody P).pegOutSum +
      ({ body with kernels := body.kernels.drop n } : TxBody P).pegOutSum = body.pegOutSum := by
    simp only [pegOutSum_eq_sum, ← List.sum_append, ← List.map_append, List.take_append_drop]
  have hpos := ({ body with kernels := body.kernels.drop n } : TxBody P).pegOutSum_nonneg
  have := h.pegOut
  omega

lemma kernel_pegOutSum_le {k : Kernel P} (hk : k ∈ body.kernels) : k.pegOutSum ≤ 10 ^ 16 :=
  (pegOutSum_le_pegOutSum hk).trans h.pegOut

lemma kernel_getFee_le {k : Kernel P} (hk : k ∈ body.kernels) : k.getFee.toInt ≤ 10 ^ 16 :=
  (getFee_le_feeSum hk).trans h.fee

lemma kernel_supplySum_fits {k : Kernel P} (hk : k ∈ body.kernels) : FitsInt64 k.supplySum := by
  have h1 := h.kernel_pegOutSum_le hk
  have h2 := h.kernel_getFee_le hk
  have h3 := k.pegOutSum_nonneg
  have h4 := k.getFee_nonneg
  have h5 := k.getPegIn_nonneg
  have h6 := fitsInt64_toInt k.getPegIn
  unfold FitsInt64 at *
  unfold Kernel.supplySum
  omega

lemma supplySum_bounds : -2 * 10 ^ 16 ≤ body.supplySum ∧ body.supplySum < 2 ^ 63 := by
  have h1 := h.fee
  have h2 := h.pegIn
  have h3 := h.pegOut
  have h4 := body.feeSum_nonneg
  have h5 := body.pegInSum_nonneg
  have h6 := body.pegOutSum_nonneg
  rw [supplySum_eq]
  omega

lemma intSum_supplyChange : intSum Kernel.getSupplyChange body.kernels = body.supplySum := by
  unfold intSum supplySum
  refine congrArg List.sum (List.map_congr_left fun k hk => ?_)
  exact Kernel.getSupplyChange_eq_of_fits (h.kernel_supplySum_fits hk)

lemma getSupplyChange_toInt : body.getSupplyChange.toInt = body.supplySum := by
  have hb := h.supplySum_bounds
  refine eq_of_modEq_of_fits (fitsInt64_toInt _) ?_ body.getSupplyChange_modEq
  unfold FitsInt64
  omega

lemma accumulates_supplyChange : AccumulatesExactly Kernel.getSupplyChange body.kernels := by
  intro n
  have hn := (h.take n).getSupplyChange_toInt
  have hsum := (h.take n).intSum_supplyChange
  exact hn.trans hsum.symm

end TxBody.Bounded

end Mw

namespace MwebNode

variable [NodeCrypto P] {params : ConsensusParams P} {prev : Chain P} {b : CBlock P}
  {view view' : Mw.CoinsView P} {hogex : CTransaction P} {mwebBlock : Mw.Block P}
  {prevIndex : CBlockIndex P} {amount valueOut : CAmount} {hogAddr : CTxOut P}
  {undo : Mw.BlockUndo P}

/-- The HogEx outputs bound the peg-outs of an accepted block. -/
lemma pegOutSum_le (hint : Integrated params prev b hogex mwebBlock)
    (hcon : MwebConnected params prev b view hogex mwebBlock prevIndex amount valueOut hogAddr
      undo view') : mwebBlock.body.pegOutSum ≤ 10 ^ 16 := by
  have hvalue := valueOut_eq hint hcon
  obtain ⟨-, hrange, hall⟩ := getValueOut_eq_some hcon.valueOut_eq
  have h1 := hrange.le
  have h2 := (hall hogAddr (List.mem_of_head? hcon.hogAddr_eq)).nonneg
  omega

/-- The new MWEB amount is computed without wrapping on any previous amount, since it has to
equal a HogEx output. -/
lemma mwebAmount_toInt
    (hcon : MwebConnected params prev b view hogex mwebBlock prevIndex amount valueOut hogAddr
      undo view') (hb : mwebBlock.body.Bounded) :
    (prevIndex.mwebAmount + mwebBlock.body.getSupplyChange).toInt =
      prevIndex.mwebAmount.toInt + mwebBlock.body.supplySum := by
  obtain ⟨-, -, hall⟩ := getValueOut_eq_some hcon.valueOut_eq
  have haddr := hall hogAddr (List.mem_of_head? hcon.hogAddr_eq)
  have h1 := haddr.nonneg
  have h2 := haddr.le
  have h3 := hb.supplySum_bounds
  have h4 := fitsInt64_toInt prevIndex.mwebAmount
  have hmod := toInt_add_modEq prevIndex.mwebAmount mwebBlock.body.getSupplyChange
  rw [hb.getSupplyChange_toInt] at hmod
  rw [hcon.amount] at hmod ⊢
  obtain ⟨x, hx⟩ := hmod.dvd
  unfold FitsInt64 at h4
  omega

/-- For an accepted block no amount computation wraps exactly when the kernel fees add up to
at most the money supply and the kernel peg-ins to a 64-bit number. -/
theorem amounts_exact_iff (params : ConsensusParams P) (prev : Chain P) (b : CBlock P)
    (view view' : Mw.CoinsView P) (undo : Option (Mw.BlockUndo P)) (mwebBlock : Mw.Block P)
    (hattached : b.mwebBlock = some mwebBlock)
    (hcheck : contextualCheckBlock params prev b = .ok ())
    (hconnect : connectBlock params prev b view = .ok (undo, view')) :
    ∃ prevIndex, prev.head? = some prevIndex ∧
      (AmountsExact prevIndex.mwebAmount mwebBlock.body ↔
        mwebBlock.body.feeSum ≤ maxMoney.toInt ∧ mwebBlock.body.pegInSum < 2 ^ 63) := by
  obtain ⟨hogex, prevIndex, amount, valueOut, hogAddr, mwundo, -, hint, hcon⟩ :=
    accepted_facts hcheck hconnect hattached
  refine ⟨prevIndex, hcon.prev_eq, fun hexact => ?_, fun ⟨hfee, hpegin⟩ => ?_⟩
  · have hfee : mwebBlock.body.getTotalFee.toInt = mwebBlock.body.feeSum := hexact.totalFee.toInt_eq
    have hpegin : mwebBlock.body.getPegInAmount.toInt = mwebBlock.body.pegInSum :=
      hexact.pegInAmount.toInt_eq
    have hrange := hcon.fee_range.le
    rw [hcon.fee, hfee] at hrange
    refine ⟨by simpa using hrange, ?_⟩
    rw [← hpegin]
    exact (fitsInt64_toInt _).2
  · have hb : mwebBlock.body.Bounded := ⟨by simpa using hfee, hpegin, pegOutSum_le hint hcon⟩
    refine
      { pegOutAmount := fun k hk => ?_
        netOfFee := fun k hk => ?_
        kernelSupplyChange := fun k hk =>
          Mw.Kernel.getSupplyChange_eq_of_fits (hb.kernel_supplySum_fits hk)
        totalFee := ?_
        pegInAmount := accumulatesExactly_of_nonneg (fun k _ => k.getPegIn_nonneg) hpegin
        supplyChange := hb.accumulates_supplyChange
        supplyChange_eq := hb.getSupplyChange_toInt
        absSupplyChange := ?_
        mwebAmount := mwebAmount_toInt hcon hb }
    · have hle := hb.kernel_pegOutSum_le hk
      unfold Mw.Kernel.pegOutSum at hle
      exact accumulatesExactly_of_nonneg (fun p hp => k.pegout_nonneg hp) (by omega)
    · have h1 := hb.kernel_getFee_le hk
      have h2 := k.getFee_nonneg
      have h3 := k.getPegIn_nonneg
      have h4 := fitsInt64_toInt k.getPegIn
      unfold FitsInt64 at h4
      exact toInt_sub_of_fits ⟨by omega, by omega⟩
    · have hle := hb.fee
      unfold Mw.TxBody.feeSum at hle
      exact accumulatesExactly_of_nonneg (fun k _ => k.getFee_nonneg) (by omega)
    · have hbounds := hb.supplySum_bounds
      rw [← hb.getSupplyChange_toInt]
      refine toInt_abs_of_ne ?_
      rw [hb.getSupplyChange_toInt]
      omega

section Example

open Symbolic

/-- The condition holds of a block with one peg-in of 10 and no fees. -/
theorem amounts_exact_iff_repeatedPegin :
    ∃ prevIndex, plainChain.head? = some prevIndex ∧
      AmountsExact prevIndex.mwebAmount mintBlock.body := by
  have hok : (connectBlock earlyParams plainChain repeatedPeginBlock .empty).isOk = true := by
    decide +kernel
  obtain ⟨⟨undo, view'⟩, hconnect⟩ := exists_eq_ok_of_isOk hok
  obtain ⟨prevIndex, hprev, hiff⟩ := amounts_exact_iff earlyParams plainChain repeatedPeginBlock
    .empty view' undo mintBlock rfl (by decide +kernel) hconnect
  exact ⟨prevIndex, hprev, hiff.mpr ⟨by decide +kernel, by decide +kernel⟩⟩

/-- An extension block with one peg-in of 10 and four kernels that pay a fee of `2 ^ 62` each.
The fees add up to `2 ^ 64`, so the balance equation sees none of them. -/
def wrappedFeeMint : Mw.Block sym :=
  (Mw.CoinsView.empty.buildNextBlock 3
    [{ mintTx with
      body := ⟨[], [output 10 7 5 9],
        [{ mintKernel with excess := (0, -3) }, kernel (some (2 ^ 62)) none [] 1,
          kernel (some (2 ^ 62)) none [] 2, kernel (some (2 ^ 62)) none [] 3,
          kernel (some (2 ^ 62)) none [] 4]⟩
      kernels_ne_nil := by simp }]).toOption.get (by decide +kernel)

/-- The transaction that pegs in the 10 units. -/
def wrappedFeePegin : CTransaction sym :=
  spend [⟨.word 1, 0⟩] [⟨10, .mwebPegin { mintKernel with excess := (0, -3) }.getKernelID⟩]

/-- A block around `wrappedFeeMint` whose HogEx pays no fee. -/
def wrappedFeeBlock : CBlock sym where
  header := ⟨0, .word 0, .word 0, 3, 0, 0⟩
  vtx :=
    [coinbase [1] [⟨0, opTrue⟩], wrappedFeePegin,
      markHogEx
        (spend [⟨wrappedFeePegin.getHash, 0⟩]
          [⟨10, .mwebHogAddr wrappedFeeMint.header.getHash⟩])
        ⟨rfl, by simp [spend]⟩]
  mwebBlock := some wrappedFeeMint

/-- The block is accepted although its total fee wraps to zero. -/
theorem wrappedFeeBlock_accepted :
    contextualCheckBlock earlyParams plainChain wrappedFeeBlock = .ok () ∧
      (connectBlock earlyParams plainChain wrappedFeeBlock .empty).isOk = true ∧
      wrappedFeeMint.body.getTotalFee = 0 ∧ wrappedFeeMint.body.feeSum = 2 ^ 64 ∧
      ∀ prevAmount, ¬ AmountsExact prevAmount wrappedFeeMint.body := by
  have hfee : wrappedFeeMint.body.getTotalFee = 0 := by decide +kernel
  have hsum : wrappedFeeMint.body.feeSum = 2 ^ 64 := by decide +kernel
  refine ⟨by decide +kernel, by decide +kernel, hfee, hsum, fun prevAmount hexact => ?_⟩
  have htotal : wrappedFeeMint.body.getTotalFee.toInt = wrappedFeeMint.body.feeSum :=
    hexact.totalFee.toInt_eq
  rw [hfee, hsum] at htotal
  exact absurd htotal (by decide)

end Example

end MwebNode

end Aegisum
