import Aegisum.Node.AcceptBlock

/-!
# Lock heights of kernels

`IsFinalTx` compares the lock height of the MWEB data that is attached to a transaction with the
height of the block.  The transactions of a block have no MWEB data attached, and none of the
checks of the extension block looks at the lock heights of its kernels.
-/

namespace Aegisum

variable {P : Primitives}

namespace Mw

/-- The lock height of a body is the largest one of its kernels. -/
lemma TxBody.getLockHeight_le_iff (body : TxBody P) (h : ℕ) :
    body.getLockHeight ≤ h ↔ ∀ k ∈ body.kernels, k.getLockHeight ≤ h := by
  have hloop : ∀ (kernels : List (Kernel P)) (start : ℕ),
      kernels.foldl (fun lockHeight k => max lockHeight k.getLockHeight) start ≤ h ↔
        start ≤ h ∧ ∀ k ∈ kernels, k.getLockHeight ≤ h := by
    intro kernels
    induction kernels with
    | nil => simp
    | cons k kernels ih =>
      intro start
      rw [List.foldl_cons, ih, max_le_iff, List.forall_mem_cons, and_assoc]
  rw [getLockHeight, hloop]
  exact and_iff_right (Nat.zero_le h)

end Mw

/-- A transaction with MWEB data attached to it. -/
def CTransaction.withMWEBTx (tx : CTransaction P) (mwebTx : Mw.Transaction P) : CTransaction P :=
  { tx with
    mwebTx := some mwebTx
    hogEx := false
    hogEx_wf := by simp }

/-- Attaching MWEB data to a final transaction adds the lock heights of its kernels. -/
lemma isFinalTx_withMWEBTx {tx : CTransaction P} {nBlockHeight nBlockTime : ℤ}
    (h : isFinalTx tx nBlockHeight nBlockTime = true) (mwebTx : Mw.Transaction P) :
    isFinalTx (tx.withMWEBTx mwebTx) nBlockHeight nBlockTime = true ↔
      (mwebTx.body.getLockHeight : ℤ) ≤ nBlockHeight := by
  have hlock : (tx.withMWEBTx mwebTx).mwebLockHeight = mwebTx.body.getLockHeight := rfl
  unfold isFinalTx at h ⊢
  rw [hlock]
  split at h
  case isTrue => cases h
  case isFalse =>
    split
    case isTrue hlt => simpa using hlt
    case isFalse hle => exact ⟨fun _ => not_lt.mp hle, fun _ => h⟩

variable [NodeCrypto P]

/-- The transactions of a block are final. -/
lemma isFinalTx_of_contextualCheckBlock {params : ConsensusParams P} {prev : Chain P}
    {b : CBlock P} (h : contextualCheckBlock params prev b = .ok ()) {tx : CTransaction P}
    (htx : tx ∈ b.vtx) : isFinalTx tx (prev.nHeight + 1) (lockTimeCutoff params prev b) = true := by
  replace h := of_rejectIf h
  obtain ⟨_, hfinal, -⟩ := bind_eq_ok.mp h
  simpa using rejectIf_eq_ok.mp (forM_eq_ok.mp hfinal tx htx)

/-- The kernels of the extension block of an accepted block are unlocked at the height of the
block exactly if the HogEx would still be final with the extension block attached to it. -/
theorem lockHeights_le_iff (env : ScriptEnv P) (params : ConsensusParams P) (prev : Chain P)
    (b : CBlock P) (mwebBlock : Mw.Block P) (view view' : Mw.CoinsView P)
    (undo : Option (Mw.BlockUndo P)) (_hcheck : checkBlock env params b = .ok ())
    (hcontext : contextualCheckBlock params prev b = .ok ())
    (_hconnect : MwebNode.connectBlock params prev b view = .ok (undo, view'))
    (hattached : b.mwebBlock = some mwebBlock) :
    ∃ hogex, b.vtx.getLast? = some hogex ∧
      ((∀ k ∈ mwebBlock.body.kernels, (k.getLockHeight : ℤ) ≤ prev.nHeight + 1) ↔
        ∀ mwebTx : Mw.Transaction P, mwebTx.body = mwebBlock.body →
          isFinalTx (hogex.withMWEBTx mwebTx) (prev.nHeight + 1)
            (lockTimeCutoff params prev b) = true) := by
  obtain ⟨hogex, hintegrated⟩ := MwebNode.integrated_of_contextualCheckBlock hattached
    (mweb_of_contextualCheckBlock hcontext)
  have hfinal := isFinalTx_of_contextualCheckBlock hcontext
    (List.mem_of_getLast? hintegrated.last)
  -- the height of the block is a natural number
  obtain ⟨n, hn⟩ : ∃ n : ℕ, prev.nHeight + 1 = n := ⟨prev.length, by simp [Chain.nHeight]⟩
  refine ⟨hogex, hintegrated.last, ?_⟩
  rw [hn] at hfinal ⊢
  constructor
  · intro hle mwebTx hbody
    rw [isFinalTx_withMWEBTx hfinal, hbody, Nat.cast_le, Mw.TxBody.getLockHeight_le_iff]
    exact fun k hk => Nat.cast_le.mp (hle k hk)
  · intro hall k hk
    have htx := hall ⟨0, 0, mwebBlock.body, List.ne_nil_of_mem hk⟩ rfl
    rw [isFinalTx_withMWEBTx hfinal, Nat.cast_le, Mw.TxBody.getLockHeight_le_iff] at htx
    exact Nat.cast_le.mpr (htx k hk)

section Example

open Symbolic

/-- A kernel with a peg-in of ten units that is locked up to the given height. -/
def lockedKernel (lockHeight : ℕ) : Mw.Kernel sym :=
  { mintKernel with
    features := 0x0a
    lockHeight := some lockHeight }

/-- The extension block at height 3 with the locked kernel. -/
def lockedMint (lockHeight : ℕ) : Except Mw.MwError (Mw.Block sym) :=
  Mw.CoinsView.empty.buildNextBlock 3
    [⟨0, 5, ⟨[], [output 10 7 5 9], [lockedKernel lockHeight]⟩, by simp⟩]

/-- A peg-in for the locked kernel. -/
def lockedPegin (lockHeight : ℕ) : CTransaction sym :=
  spend [⟨.word 1, 0⟩] [⟨10, .mwebPegin (lockedKernel lockHeight).getKernelID⟩]

/-- The block at height 3 with the extension block. -/
def lockedBlock (lockHeight : ℕ) (mwebBlock : Mw.Block sym) : CBlock sym :=
  mine (.word 0) 3
    [coinbase [0x53, 0] [⟨0, opTrue⟩], lockedPegin lockHeight,
      markHogEx (spend [⟨(lockedPegin lockHeight).getHash, 0⟩]
        [⟨10, .mwebHogAddr mwebBlock.header.getHash⟩]) ⟨rfl, by simp [spend]⟩]
    (some mwebBlock)

/-- The extension block with a kernel that is locked up to height 3. -/
def unlockedMint : Mw.Block sym := (lockedMint 3).toOption.get (by decide +kernel)

/-- The extension block with a kernel that is locked up to height 1000. -/
def earlyMint : Mw.Block sym := (lockedMint 1000).toOption.get (by decide +kernel)

/-- In the block whose kernel is unlocked at its height, the lock heights are kept. -/
theorem lockHeights_le_iff_unlockedMint :
    checkBlock lenientEnv earlyParams (lockedBlock 3 unlockedMint) = .ok () ∧
      contextualCheckBlock earlyParams plainChain (lockedBlock 3 unlockedMint) = .ok () ∧
      ∀ k ∈ unlockedMint.body.kernels, (k.getLockHeight : ℤ) ≤ Chain.nHeight plainChain + 1 := by
  have hcheck : checkBlock lenientEnv earlyParams (lockedBlock 3 unlockedMint) = .ok () := by
    decide +kernel
  have hcontext :
      contextualCheckBlock earlyParams plainChain (lockedBlock 3 unlockedMint) = .ok () := by
    decide +kernel
  have hok : (MwebNode.connectBlock earlyParams plainChain (lockedBlock 3 unlockedMint)
      .empty).isOk = true := by
    decide +kernel
  obtain ⟨⟨undo, view'⟩, hconnect⟩ := exists_eq_ok_of_isOk hok
  refine ⟨hcheck, hcontext, ?_⟩
  obtain ⟨hogex, hlast, hiff⟩ := lockHeights_le_iff lenientEnv earlyParams plainChain
    (lockedBlock 3 unlockedMint) unlockedMint .empty view' undo hcheck hcontext hconnect rfl
  refine hiff.mpr fun mwebTx hbody => ?_
  have hfinal := isFinalTx_of_contextualCheckBlock hcontext (List.mem_of_getLast? hlast)
  rw [isFinalTx_withMWEBTx hfinal, hbody]
  decide +kernel

/-- A block at height 3 with a kernel that is locked up to height 1000 is accepted. -/
theorem earlyMint_accepted :
    checkBlock lenientEnv earlyParams (lockedBlock 1000 earlyMint) = .ok () ∧
      contextualCheckBlock earlyParams plainChain (lockedBlock 1000 earlyMint) = .ok () ∧
      (MwebNode.connectBlock earlyParams plainChain (lockedBlock 1000 earlyMint)
        .empty).isOk = true ∧
      Chain.nHeight plainChain + 1 = 3 ∧
      ∃ k ∈ earlyMint.body.kernels, k.getLockHeight = 1000 := by
  refine ⟨?_, ?_, ?_, rfl, ?_⟩
  all_goals decide +kernel

end Example

end Aegisum
