import Aegisum.Node.TemplateHogEx

/-!
# The weight of a template

The weight of an entry is fixed when its transaction enters the mempool.  The block then has the
canonical part of the transaction, and the HogEx has its peg-ins and peg-outs.  The weights of the
entries pay for both, byte by byte: what is left is the block with an empty HogEx, and the length
prefixes of the HogEx, which grow with the numbers of its inputs and outputs.
-/

namespace Aegisum

open CTransaction List

variable {P : Primitives}

/-! ### Transactions and blocks -/

/-- The weight of a transaction by its own size, without MWEB data. -/
def CTransaction.baseWeight (tx : CTransaction P) : ℕ :=
  tx.strippedSize * (witnessScaleFactor - 1) + tx.totalSize

/-- The weight of a block is that of the header, the number of transactions and the transactions. -/
lemma CBlock.getBlockWeight_eq (b : CBlock P) : b.getBlockWeight =
    witnessScaleFactor * (80 + compactSizeLength b.vtx.length) +
      (b.vtx.map CTransaction.baseWeight).sum := by
  have hsum : (b.vtx.map CTransaction.baseWeight).sum =
      (b.vtx.map CTransaction.strippedSize).sum * (witnessScaleFactor - 1) +
        (b.vtx.map CTransaction.totalSize).sum := by
    rw [← sum_map_mul_right, ← sum_map_add]
    rfl
  rw [hsum, CBlock.getBlockWeight, CBlock.strippedSize, CBlock.totalSize]
  unfold witnessScaleFactor
  omega

/-- The weight of a transaction whose inputs have neither scripts nor witnesses. -/
lemma CTransaction.baseWeight_eq {tx : CTransaction P}
    (h : ∀ txin ∈ tx.vin, txin.scriptSig = [] ∧ txin.scriptWitness = []) :
    tx.baseWeight = witnessScaleFactor * (8 + compactSizeLength tx.vin.length +
      41 * tx.vin.length + compactSizeLength tx.vout.length +
      (tx.vout.map CTxOut.serializeSize).sum) := by
  have hvin : (tx.vin.map fun txin => 36 + (compactSizeLength txin.scriptSig.length +
      txin.scriptSig.length) + 4).sum = 41 * tx.vin.length := by
    rw [map_congr_left (g := fun _ => 41) fun txin htxin => by rw [(h txin htxin).1]; rfl,
      map_const', sum_replicate, smul_eq_mul, Nat.mul_comm]
  have hwitness : tx.hasWitness = false :=
    any_eq_false.mpr fun txin htxin => by simp [(h txin htxin).2]
  rw [baseWeight, totalSize, hwitness, if_neg Bool.false_ne_true, strippedSize, hvin]
  unfold CTxOut.serializeSize witnessScaleFactor
  omega

lemma CTransaction.baseWeight_withoutMWEBTx (tx : CTransaction P) :
    tx.withoutMWEBTx.baseWeight = tx.baseWeight := rfl

variable [NodeCrypto P]

/-- What a transaction takes in the HogEx. -/
def CTransaction.hogexSize (tx : CTransaction P) : ℕ :=
  41 * tx.peginOutPoints.length +
    (((tx.mwebTx.elim [] (·.body.getPegOuts)).map pegoutOutput).map CTxOut.serializeSize).sum

namespace BlockAssembler

/-- The peg-in outputs of a checked transaction are those of its kernels. -/
lemma length_peginOutPoints_of_check {tx : CTransaction P}
    (h : MwebNode.checkTransaction tx = .ok ()) :
    tx.peginOutPoints.length = (tx.mwebTx.elim [] (·.body.getPegIns)).length := by
  rw [length_peginOutPoints]
  cases hmweb : tx.mwebTx with
  | none =>
    have hcheck := of_rejectIf h
    obtain ⟨hcount, -⟩ := rejectIf_bind_eq_ok.mp hcheck
    rw [hmweb, not_not] at hcount
    exact hcount.symm
  | some mwtx =>
    obtain ⟨-, hperm, -⟩ := MwebNode.pegins_perm_of_checkTransaction hmweb h
    rw [Option.elim_some, hperm.length_eq]

/-- The weight of a checked transaction is that of its canonical part, if it has one, and that of
its part of the HogEx. -/
lemma getTransactionWeight_eq {tx : CTransaction P} (h : MwebNode.checkTransaction tx = .ok ()) :
    getTransactionWeight tx =
      (if tx.isMWEBOnly then 0 else tx.baseWeight) + witnessScaleFactor * tx.hogexSize := by
  have hpegins := length_peginOutPoints_of_check h
  unfold getTransactionWeight hogexSize
  rw [sum_map_mul_right, map_map, Function.comp_def]
  dsimp only
  split
  · next honly =>
    have hnil : tx.peginOutPoints.length = 0 := by
      simp [peginOutPoints, (eq_nil_of_isMWEBOnly honly).2]
    rw [hnil]
    unfold witnessScaleFactor
    omega
  · rw [← hpegins, baseWeight]
    unfold witnessScaleFactor
    omega

variable {a a' : BlockAssembler P} {entries : List (CTxMemPoolEntry P)} {prevBlock : CBlock P}

/-- The block and the HogEx have the parts of the entries that were added. -/
structure Counted (a : BlockAssembler P) : Prop where
  checked : ∀ entry ∈ a.inBlock, MwebNode.checkTransaction entry.tx = .ok ()
  vtx_eq : a.vtx = (a.inBlock.filter (!·.tx.isMWEBOnly)).map (·.tx.withoutMWEBTx)
  hogexInputs_eq : a.mwebMiner.hogexInputs = a.inBlock.flatMap (·.tx.peginOutPoints)
  hogexOutputs_eq : a.mwebMiner.hogexOutputs = a.inBlock.flatMap fun entry =>
    (entry.tx.mwebTx.elim [] (·.body.getPegOuts)).map pegoutOutput

/-- One more entry. -/
lemma Counted.tryEntry {entry : CTxMemPoolEntry P} (ha : a.Counted)
    (hentry : MwebNode.checkTransaction entry.tx = .ok ()) (h : a.tryEntry entry = .ok a') :
    a'.Counted := by
  obtain rfl | ⟨miner, hminer, rfl⟩ := tryEntry_eq_ok h
  · exact ha
  -- what the miner gets of the entry
  have hparts : miner.hogexInputs = a.mwebMiner.hogexInputs ++ entry.tx.peginOutPoints ∧
      miner.hogexOutputs = a.mwebMiner.hogexOutputs ++
        (entry.tx.mwebTx.elim [] (·.body.getPegOuts)).map pegoutOutput := by
    unfold addMweb at hminer
    split at hminer
    · next hmweb =>
      have hpegins := length_peginOutPoints_of_check hentry
      rw [hmweb, Option.elim_none, length_nil, length_eq_zero_iff] at hpegins
      obtain rfl := Except.ok.inj hminer
      simp [hpegins, hmweb]
    · next mwtx hmweb =>
      have hadded := Miner.added_of_addMWEBTransaction hminer
      exact ⟨hadded.hogexInputs_eq, by rw [hadded.hogexOutputs_eq, hmweb]; rfl⟩
  refine ⟨?_, ?_, ?_, ?_⟩
  · simpa [or_imp, forall_and] using ⟨ha.checked, hentry⟩
  · simp [vtx_addCanonical, ha.vtx_eq]
  · simp [hparts.1, ha.hogexInputs_eq]
  · simp [hparts.2, ha.hogexOutputs_eq]

/-- However many entries are tried, the template holds the parts of those that were added. -/
lemma Counted.run (ha : a.Counted)
    (hchecked : ∀ entry ∈ entries, MwebNode.checkTransaction entry.tx = .ok ())
    (h : entries.foldlM BlockAssembler.tryEntry a = .ok a') : a'.Counted := by
  refine foldlM_keeps (fun entry hmem a a' ha hentry => ?_) h ha
  exact ha.tryEntry (hchecked entry hmem) hentry

/-- The weights of the entries are those of the canonical transactions and of the peg-ins and
peg-outs of the HogEx. -/
lemma Counted.sum_getTransactionWeight (ha : a.Counted) :
    (a.inBlock.map fun entry => getTransactionWeight entry.tx).sum =
      (a.vtx.map baseWeight).sum + witnessScaleFactor *
        (41 * a.mwebMiner.hogexInputs.length +
          (a.mwebMiner.hogexOutputs.map CTxOut.serializeSize).sum) := by
  have hchecked := ha.checked
  rw [ha.vtx_eq, ha.hogexInputs_eq, ha.hogexOutputs_eq]
  generalize a.inBlock = entries at hchecked
  induction entries with
  | nil => simp
  | cons entry entries ih =>
    rw [forall_mem_cons] at hchecked
    rw [map_cons, sum_cons, ih hchecked.2, getTransactionWeight_eq hchecked.1,
      hogexSize, flatMap_cons, length_append, flatMap_cons,
      map_append, sum_append, filter_cons]
    unfold witnessScaleFactor
    cases entry.tx.isMWEBOnly with
    | true =>
      rw [if_pos rfl, if_neg (by simp)]
      omega
    | false =>
      rw [if_neg Bool.false_ne_true, if_pos Bool.not_false, map_cons, map_cons,
        sum_cons, baseWeight_withoutMWEBTx]
      omega

/-- The weight of the HogEx. -/
lemma baseWeight_addHogExTransaction {m : Miner P} {prev : Option (COutPoint P × CAmount)}
    {hogex : CTransaction P} {mwebBlock : Mw.Block P}
    (hprev : Miner.prevHogAddr prevBlock = .ok prev)
    (h : m.addHogExTransaction prevBlock = .ok (hogex, mwebBlock)) :
    hogex.baseWeight = witnessScaleFactor * (8 + compactSizeLength hogex.vin.length +
      41 * ((prev.map Prod.fst).toList.length + m.hogexInputs.length) +
      compactSizeLength hogex.vout.length +
      (43 + (m.hogexOutputs.map CTxOut.serializeSize).sum)) := by
  unfold Miner.addHogExTransaction at h
  rw [bind_of_eq_ok hprev] at h
  split at h
  · cases h
  · replace h := of_rejectIf h
    obtain ⟨rfl, rfl⟩ := Prod.mk.inj (Except.ok.inj h)
    rw [baseWeight_eq fun txin htxin => by
      obtain ⟨o, -, rfl⟩ := mem_map.mp htxin
      exact ⟨rfl, rfl⟩]
    simp [CTxOut.serializeSize, CScript.size, compactSizeLength]

/-- The weight of the HogEx and that of an empty one. -/
lemma exists_empty_addHogExTransaction {m : Miner P} {hogex : CTransaction P}
    {mwebBlock : Mw.Block P} (h : m.addHogExTransaction prevBlock = .ok (hogex, mwebBlock)) :
    ∃ empty, { m with hogexInputs := [], hogexOutputs := [] }.addHogExTransaction prevBlock =
        .ok (empty, mwebBlock) ∧
      hogex.baseWeight + witnessScaleFactor *
          (compactSizeLength empty.vin.length + compactSizeLength empty.vout.length) =
        empty.baseWeight + witnessScaleFactor *
            (41 * m.hogexInputs.length + (m.hogexOutputs.map CTxOut.serializeSize).sum) +
          witnessScaleFactor *
            (compactSizeLength hogex.vin.length + compactSizeLength hogex.vout.length) := by
  obtain ⟨prev, hprev, hbuild, -⟩ := Miner.addHogExTransaction_eq_ok h
  obtain ⟨hrange, -, -⟩ := addHogExTransaction_parts hprev h
  obtain ⟨empty, hempty⟩ := Miner.exists_addHogExTransaction
    (m := { m with hogexInputs := [], hogexOutputs := [] }) hprev hbuild hrange
  refine ⟨empty, hempty, ?_⟩
  rw [baseWeight_addHogExTransaction hprev h, baseWeight_addHogExTransaction hprev hempty]
  dsimp only
  rw [length_nil, map_nil, sum_nil]
  unfold witnessScaleFactor
  omega

/-- The weights of the entries pay for the HogEx: whatever entries have passed the MWEB checks of
the mempool and were added to a template, the weight of its block is at most that of the header,
the number of transactions, the coinbase and an empty HogEx, the weights of the entries, and four
times the bytes by which the length prefixes of the HogEx are longer than those of the empty one.
-/
theorem getBlockWeight_template_le {env : ScriptEnv P} {view : Mw.CoinsView P} {nHeight : ℤ}
    {header : CBlockHeader P} {coinbase : CTransaction P} {t : CBlockTemplate P}
    (hchecked : ∀ entry ∈ entries, MwebNode.checkTransaction entry.tx = .ok ())
    (hrun : entries.foldlM BlockAssembler.tryEntry (resetBlock view nHeight) = .ok a)
    (hcreate : a.createNewBlock env prevBlock header coinbase = .ok t) :
    ∃ hogex empty mwebBlock, t.block.vtx.getLast? = some hogex ∧
      { a.mwebMiner with hogexInputs := [], hogexOutputs := [] }.addHogExTransaction prevBlock =
        .ok (empty, mwebBlock) ∧
      t.block.getBlockWeight ≤
        witnessScaleFactor * (80 + compactSizeLength t.block.vtx.length) + coinbase.baseWeight +
          empty.baseWeight + (a.inBlock.map fun entry => getTransactionWeight entry.tx).sum +
          witnessScaleFactor *
            ((compactSizeLength hogex.vin.length - compactSizeLength empty.vin.length) +
              (compactSizeLength hogex.vout.length - compactSizeLength empty.vout.length)) := by
  have ha : a.Counted := Counted.run ⟨by simp [resetBlock], rfl, rfl, rfl⟩ hchecked hrun
  obtain ⟨⟨hogex, mwebBlock⟩, hhogex, h⟩ := bind_eq_ok.mp hcreate
  obtain rfl := Except.ok.inj h
  obtain ⟨empty, hempty, hweight⟩ := exists_empty_addHogExTransaction hhogex
  have hblock : (a.blockWith header coinbase hogex mwebBlock).vtx =
      coinbase :: (a.vtx ++ [hogex]) := rfl
  refine ⟨hogex, empty, mwebBlock, getLast?_blockWith .., hempty, ?_⟩
  rw [CBlock.getBlockWeight_eq, ha.sum_getTransactionWeight, hblock, List.map_cons, List.sum_cons,
    List.map_append, List.sum_append, List.map_singleton, List.sum_singleton]
  unfold witnessScaleFactor at hweight ⊢
  omega

open Symbolic in
/-- A template with a peg-in and a peg-out. -/
theorem getBlockWeight_template_le_weighedEntry :
    weighedEntry.tx.peginOutPoints.length = 1 ∧
      (weighedEntry.tx.mwebTx.elim [] (·.body.getPegOuts)).length = 1 ∧
      ∃ t hogex empty mwebBlock,
        weighedAssembler.createNewBlock lenientEnv Miner.plainBlock Miner.plainBlock.header
          templateCoinbase = .ok t ∧ t.block.vtx.getLast? = some hogex ∧
        { weighedAssembler.mwebMiner with
          hogexInputs := [], hogexOutputs := [] }.addHogExTransaction Miner.plainBlock =
            .ok (empty, mwebBlock) ∧
        t.block.getBlockWeight ≤
          witnessScaleFactor * (80 + compactSizeLength t.block.vtx.length) +
            templateCoinbase.baseWeight + empty.baseWeight + getTransactionWeight weighedEntry.tx +
            witnessScaleFactor *
              ((compactSizeLength hogex.vin.length - compactSizeLength empty.vin.length) +
                (compactSizeLength hogex.vout.length - compactSizeLength empty.vout.length)) := by
  have hrun : [weighedEntry].foldlM tryEntry (resetBlock Mw.CoinsView.empty 3) =
      .ok weighedAssembler := eq_ok_toOption_get (by decide +kernel)
  have hok : (weighedAssembler.createNewBlock lenientEnv Miner.plainBlock Miner.plainBlock.header
      templateCoinbase).isOk = true := by decide +kernel
  obtain ⟨t, ht⟩ := exists_eq_ok_of_isOk hok
  have hchecked : ∀ entry ∈ [weighedEntry], MwebNode.checkTransaction entry.tx = .ok () :=
    List.forall_mem_singleton.mpr pooled_pegoutEntry_opTrue.accepted.mwebCheckTransaction
  obtain ⟨hogex, empty, mwebBlock, hlast, hempty, hle⟩ :=
    getBlockWeight_template_le hchecked hrun ht
  exact ⟨by decide +kernel, by decide +kernel, t, hogex, empty, mwebBlock, ht, hlast, hempty, hle⟩

end BlockAssembler

end Aegisum
