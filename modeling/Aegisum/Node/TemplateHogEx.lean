import Aegisum.Node.TemplateFees

/-!
# The HogEx as a transaction

`CheckBlock` runs `CheckTransaction` on every transaction of a block, and so on the HogEx that the
miner has built.  Its references are distinct and not null, each output is in the money range, and
its size is paid for by the weights of the entries, since `GetTransactionWeight` counts the HogEx
inputs and outputs of a transaction with the transaction.  What can fail is that there is nothing
to spend: the first HogEx has no predecessor and possibly no peg-ins.
-/

namespace Aegisum

open CTransaction List

variable {P : Primitives}

/-! ### Weights -/

/-- The serialized size of an output. -/
def CTxOut.serializeSize (out : CTxOut P) : ℕ :=
  8 + (compactSizeLength out.scriptPubKey.size + out.scriptPubKey.size)

/-- The output that pays a peg-out. -/
def pegoutOutput (pegout : Mw.PegOutCoin P) : CTxOut P := ⟨pegout.amount, pegout.scriptPubKey⟩

section Weight

variable [NodeCrypto P]

/-- The weight of a transaction, with the inputs and outputs it adds to the HogEx. -/
def getTransactionWeight (tx : CTransaction P) : ℕ :=
  let pegoutWeight := ((tx.mwebTx.elim [] (·.body.getPegOuts)).map fun pegout =>
    (pegoutOutput pegout).serializeSize * witnessScaleFactor).sum
  if tx.isMWEBOnly then pegoutWeight
  else
    let peginWeight := 164 * (tx.mwebTx.elim [] (·.body.getPegIns)).length
    let weight := tx.strippedSize * (witnessScaleFactor - 1) + tx.totalSize
    weight + pegoutWeight + peginWeight

end Weight

lemma compactSizeLength_le (n : ℕ) : compactSizeLength n ≤ 9 := by
  unfold compactSizeLength
  split_ifs <;> omega

/-- The size of a transaction whose inputs have no scripts. -/
lemma strippedSize_le {tx : CTransaction P} (h : ∀ txin ∈ tx.vin, txin.scriptSig = []) :
    tx.strippedSize ≤ 26 + 41 * tx.vin.length + (tx.vout.map CTxOut.serializeSize).sum := by
  have hvin : (tx.vin.map fun txin => 36 + (compactSizeLength txin.scriptSig.length +
      txin.scriptSig.length) + 4).sum = 41 * tx.vin.length := by
    rw [map_congr_left (g := fun _ => 41) fun txin htxin => by rw [h txin htxin]; rfl,
      map_const', sum_replicate, smul_eq_mul, Nat.mul_comm]
  have hin := compactSizeLength_le tx.vin.length
  have hout := compactSizeLength_le tx.vout.length
  unfold strippedSize
  rw [hvin]
  unfold CTxOut.serializeSize
  omega

/-! ### Passing `CheckTransaction` -/

/-- What a transaction that is neither MWEB-only nor a coinbase needs to pass. -/
lemma checkTransaction_iff {tx : CTransaction P} (honly : tx.isMWEBOnly = false)
    (hcoinbase : tx.isCoinBase = false)
    (hsize : tx.strippedSize * witnessScaleFactor ≤ maxBlockWeight) (hvout : tx.vout ≠ [])
    (hrange : ∀ out ∈ tx.vout, MoneyRange out.nValue) (hnodup : (tx.vin.map CTxIn.prevout).Nodup)
    (hnull : ∀ txin ∈ tx.vin, txin.prevout.isNull = false) :
    checkTransaction tx = .ok () ↔ tx.vin ≠ [] ∧ outputsValue tx.vout ≤ maxMoney.toInt := by
  constructor
  · intro h
    have hchecked := checkedTx_of_checkTransaction h
    exact ⟨hchecked.vin_ne_nil honly, hchecked.total_le⟩
  · rintro ⟨hvin, htotal⟩
    have hstep : ∀ (s : CAmount) (out : CTxOut P), MoneyRange out.nValue →
        MoneyRange (s + out.nValue) →
        addOutputValue s out = (pure (s + out.nValue) : Except TxFailure CAmount) :=
      fun s out hout hsum => by
        unfold addOutputValue
        rw [rejectIf_bind_of_not (Int64.not_lt.mpr hout.1),
          rejectIf_bind_of_not (Int64.not_lt.mpr hout.2),
          rejectIf_bind_of_not (not_not.mpr hsum)]
    obtain ⟨t, hloop, -⟩ := exists_foldlM_eq_pure hstep moneyRange_zero hrange
      (by simpa [outputsValue, intSum] using htotal)
    unfold checkTransaction
    rw [rejectIf_bind_of_not (by simp [hvin]), rejectIf_bind_of_not (by simp [hvout]),
      rejectIf_bind_of_not (by omega)]
    refine (bind_of_eq_ok hloop _).trans ?_
    rw [rejectIf_bind_of_not (not_not.mpr hnodup), checkPrevouts, hcoinbase]
    refine rejectIf_eq_ok.mpr ?_
    simpa using hnull

/-! ### What was counted -/

variable [NodeCrypto P]

namespace BlockAssembler

variable {view : Mw.CoinsView P} {nHeight : ℤ} {a a' : BlockAssembler P}
  {entries : List (CTxMemPoolEntry P)} {prevBlock : CBlock P} {hogex : CTransaction P}
  {mwebBlock : Mw.Block P} {prevOut : Option (COutPoint P × CAmount)}

/-- The weight of the template is the reserved one and that of the entries. -/
def Weighed (a : BlockAssembler P) : Prop :=
  a.nBlockWeight = 4000 + (a.inBlock.map CTxMemPoolEntry.nTxWeight).sum

/-- An entry is not added, or it is the last one of the template. -/
lemma inBlock_tryEntry {entry : CTxMemPoolEntry P} (h : a.tryEntry entry = .ok a') :
    (a'.inBlock = a.inBlock ∨ a'.inBlock = a.inBlock ++ [entry]) ∧ (a.Weighed → a'.Weighed) := by
  obtain rfl | ⟨miner, -, rfl⟩ := tryEntry_eq_ok h
  · exact ⟨.inl rfl, id⟩
  · have hweight : ∀ b : BlockAssembler P,
        (b.addCanonical entry).nBlockWeight = b.nBlockWeight := by
      intro b
      unfold addCanonical
      split <;> rfl
    refine ⟨.inr (by simp), fun hweighed => ?_⟩
    rw [Weighed] at hweighed ⊢
    simp [countEntry, hweight, hweighed]
    omega

/-- The template holds some of the entries, in their order. -/
lemma inBlock_run (h : entries.foldlM BlockAssembler.tryEntry a = .ok a') :
    (∃ added, added.Sublist entries ∧ a'.inBlock = a.inBlock ++ added) ∧
      (a.Weighed → a'.Weighed) := by
  induction entries generalizing a with
  | nil =>
    obtain rfl := Except.ok.inj h
    exact ⟨⟨[], List.Sublist.slnil, by simp⟩, id⟩
  | cons entry entries ih =>
    obtain ⟨a₁, hentry, hrest⟩ := foldlM_cons_eq_ok.mp h
    obtain ⟨⟨added, hsub, hadded⟩, hweighed⟩ := ih hrest
    obtain ⟨hfirst, hweighed₁⟩ := inBlock_tryEntry hentry
    refine ⟨?_, hweighed ∘ hweighed₁⟩
    rcases hfirst with hsame | hnew
    · exact ⟨added, hsub.cons entry, by rw [hadded, hsame]⟩
    · exact ⟨entry :: added, hsub.cons_cons entry, by rw [hadded, hnew]; simp⟩

/-! ### References -/

lemma length_peginOutPoints (tx : CTransaction P) :
    tx.peginOutPoints.length = (MwebNode.txPegins tx).length := by
  unfold peginOutPoints MwebNode.txPegins
  generalize 0 = start
  generalize tx.getHash = hash
  induction tx.vout generalizing start with
  | nil => rfl
  | cons out vout ih =>
    rw [zipIdx_cons, filterMap_cons, filterMap_cons]
    cases hpegin : out.scriptPubKey.isMWEBPegin with
    | none => simpa [CTxOut.isPegin, hpegin] using ih _
    | some id => simpa [CTxOut.isPegin, hpegin] using ih _

lemma nodup_peginOutPoints (tx : CTransaction P) : tx.peginOutPoints.Nodup := by
  have hidx : tx.vout.zipIdx.Pairwise fun x y => x.2 ≠ y.2 := by
    rw [← pairwise_map (f := Prod.snd), zipIdx_map_snd]
    exact nodup_range'
  refine List.Pairwise.filterMap _ (fun x y hne o ho o' ho' => ?_) hidx
  dsimp only at ho ho'
  split at ho <;> split at ho' <;> cases ho <;> cases ho'
  exact fun heq => hne (congrArg COutPoint.n heq)

/-- The peg-ins of different transactions have different references. -/
lemma nodup_flatMap_peginOutPoints {entries : List (CTxMemPoolEntry P)}
    (h : (entries.map (·.tx.getHash)).Nodup) : (entries.flatMap (·.tx.peginOutPoints)).Nodup := by
  rw [nodup_flatMap]
  refine ⟨fun entry _ => nodup_peginOutPoints entry.tx, ?_⟩
  rw [List.Nodup, pairwise_map] at h
  refine h.imp fun hne o ho ho' => hne ?_
  rw [← (mem_peginOutPoints.mp ho).1, (mem_peginOutPoints.mp ho').1]

variable (ha : Assembled view nHeight a) (hhogex : a.mwebMiner.Integrates prevOut mwebBlock hogex)

include ha hhogex in
/-- The references of the HogEx are distinct if the ids of the entries are, and none of them is
that of the previous HogEx. -/
lemma Assembled.nodup_prevouts (hids : (a.inBlock.map (·.tx.getHash)).Nodup)
    (hnew : ∀ o amount, prevOut = some (o, amount) → ∀ entry ∈ a.inBlock,
      entry.tx.getHash ≠ o.hash) : (hogex.vin.map CTxIn.prevout).Nodup := by
  rw [hhogex.prevouts, ha.hogexInputs_eq]
  refine List.Nodup.append ?_ (nodup_flatMap_peginOutPoints hids) ?_
  · cases prevOut <;> simp
  · intro o hold hpegin
    rw [Option.mem_toList, Option.map_eq_some_iff] at hold
    obtain ⟨⟨o', amount⟩, hsome, rfl⟩ := hold
    obtain ⟨entry, hentry, hpegin⟩ := mem_flatMap.mp hpegin
    exact hnew o' amount hsome entry hentry (mem_peginOutPoints.mp hpegin).1.symm

/-! ### Size -/

/-- The weight of an entry covers its inputs and outputs in the HogEx. -/
lemma Pooled.hogex_share_le {entry : CTxMemPoolEntry P} (h : Pooled entry) :
    164 * entry.tx.peginOutPoints.length +
        ((entry.tx.mwebTx.elim [] (·.body.getPegOuts)).map fun pegout =>
          (pegoutOutput pegout).serializeSize * witnessScaleFactor).sum ≤
      getTransactionWeight entry.tx := by
  unfold getTransactionWeight
  dsimp only
  split
  · next honly =>
    have hnil : entry.tx.peginOutPoints = [] := by
      simp [peginOutPoints, (eq_nil_of_isMWEBOnly honly).2]
    rw [hnil, length_nil]
    omega
  · have hpegins : entry.tx.peginOutPoints.length =
        (entry.tx.mwebTx.elim [] (·.body.getPegIns)).length := by
      cases hmweb : entry.tx.mwebTx with
      | none => rw [h.peginOutPoints_eq_nil hmweb]; rfl
      | some mwtx =>
        obtain ⟨-, hperm, -⟩ :=
          MwebNode.pegins_perm_of_checkTransaction hmweb h.accepted.mwebCheckTransaction
        rw [length_peginOutPoints, Option.elim_some, hperm.length_eq]
    rw [hpegins]
    omega

/-- The weights of entries cover their inputs and outputs in the HogEx. -/
lemma hogex_shares_le {added : List (CTxMemPoolEntry P)} (hpooled : ∀ entry ∈ added, Pooled entry)
    (hweights : ∀ entry ∈ added, entry.nTxWeight = getTransactionWeight entry.tx) :
    164 * (added.flatMap (·.tx.peginOutPoints)).length +
        (((added.filterMap (·.tx.mwebTx)).flatMap (·.body.getPegOuts)).map fun pegout =>
          (pegoutOutput pegout).serializeSize).sum * witnessScaleFactor ≤
      (added.map CTxMemPoolEntry.nTxWeight).sum := by
  induction added with
  | nil => simp
  | cons entry added ih =>
    rw [forall_mem_cons] at hpooled hweights
    have hshare := hpooled.1.hogex_share_le
    have hrest := ih hpooled.2 hweights.2
    rw [sum_map_mul_right] at hshare
    rw [map_cons, sum_cons, hweights.1, flatMap_cons, length_append, filterMap_cons]
    cases hmweb : entry.tx.mwebTx with
    | none =>
      dsimp only
      omega
    | some mwtx =>
      rw [hmweb, Option.elim_some] at hshare
      rw [flatMap_cons, map_append, sum_append, Nat.add_mul]
      omega

include ha hhogex in
/-- The HogEx is small enough if the template is. -/
lemma Assembled.strippedSize_hogex_le (hscripts : ∀ txin ∈ hogex.vin, txin.scriptSig = [])
    (hweights : ∀ entry ∈ a.inBlock, entry.nTxWeight = getTransactionWeight entry.tx) :
    hogex.strippedSize * witnessScaleFactor ≤
      440 + (a.inBlock.map CTxMemPoolEntry.nTxWeight).sum := by
  have hinputs : hogex.vin.length ≤ 1 + (a.inBlock.flatMap (·.tx.peginOutPoints)).length := by
    have hlength := congrArg length hhogex.prevouts
    rw [length_map, length_append, ha.hogexInputs_eq] at hlength
    have hone : (prevOut.map Prod.fst).toList.length ≤ 1 := by cases prevOut <;> simp
    omega
  have houtputs : (hogex.vout.map CTxOut.serializeSize).sum = 43 +
      ((a.mwebMiner.builder.stagedTxs.flatMap (·.body.getPegOuts)).map fun pegout =>
        (pegoutOutput pegout).serializeSize).sum := by
    rw [hhogex.vout_eq, ha.hogexOutputs_eq, map_cons, sum_cons, map_map]
    rfl
  have hsize := strippedSize_le hscripts
  have hshares := hogex_shares_le ha.pooled hweights
  rw [← ha.stagedTxs_eq] at hshares
  unfold witnessScaleFactor at hshares ⊢
  omega

/-! ### The check of the HogEx -/

/-- The HogEx has something to spend: the previous HogEx, or a peg-in. -/
def HasInput (a : BlockAssembler P) (prevBlock : CBlock P) : Prop :=
  prevBlock.getHogEx.isSome = true ∨ ∃ entry ∈ a.inBlock, entry.tx.peginOutPoints ≠ []

/-- The new MWEB balance, which is an amount modulo `2 ^ 64`, and the peg-outs are together in the
money range. -/
def TotalInRange (a : BlockAssembler P) (prevBlock : CBlock P) : Prop :=
  ∃ n, 0 ≤ n ∧
    n ≡ (Miner.prevAmount prevBlock).toInt + peginTotal a.mwebMiner.builder.stagedTxs -
      pegoutTotal a.mwebMiner.builder.stagedTxs - feeTotal a.mwebMiner.builder.stagedTxs
      [ZMOD 2 ^ 64] ∧
    n + pegoutTotal a.mwebMiner.builder.stagedTxs ≤ maxMoney.toInt

/-- What else is known of the HogEx that the miner returns. -/
lemma addHogExTransaction_parts {m : Miner P} {prev : Option (COutPoint P × CAmount)}
    (hprev : Miner.prevHogAddr prevBlock = .ok prev)
    (h : m.addHogExTransaction prevBlock = .ok (hogex, mwebBlock)) :
    MoneyRange ((prev.map Prod.snd).getD 0 + m.mwebAmountChange) ∧
      (∀ txin ∈ hogex.vin, txin.scriptSig = []) ∧ hogex.isMWEBOnly = false := by
  unfold Miner.addHogExTransaction at h
  rw [bind_of_eq_ok hprev] at h
  split at h
  · cases h
  · obtain ⟨hrange, h⟩ := rejectIf_bind_eq_ok.mp h
    obtain ⟨rfl, rfl⟩ := Prod.mk.inj (Except.ok.inj h)
    refine ⟨not_not.mp hrange, fun txin htxin => ?_, rfl⟩
    obtain ⟨o, -, rfl⟩ := mem_map.mp htxin
    rfl

/-- The reference of the output that the new HogEx spends. -/
lemma exists_getHogEx_of_prevHogAddr {o : COutPoint P} {amount : CAmount}
    (h : Miner.prevHogAddr prevBlock = .ok (some (o, amount))) :
    ∃ prevHogEx, prevBlock.getHogEx = some prevHogEx ∧ o = ⟨prevHogEx.getHash, 0⟩ := by
  unfold Miner.prevHogAddr at h
  split at h
  · cases Except.ok.inj h
  · next prevHogEx hget =>
    split at h
    · cases h
    · obtain ⟨rfl, -⟩ := Prod.mk.inj (Option.some.inj (Except.ok.inj h))
      exact ⟨prevHogEx, hget, rfl⟩

include ha hhogex in
/-- There is an input just if there is something to spend. -/
lemma Assembled.vin_ne_nil_iff (hprev : Miner.prevHogAddr prevBlock = .ok prevOut) :
    hogex.vin ≠ [] ↔ a.HasInput prevBlock := by
  have hvin : hogex.vin = [] ↔ prevOut = none ∧
      ∀ entry ∈ a.inBlock, entry.tx.peginOutPoints = [] := by
    rw [← map_eq_nil_iff, hhogex.prevouts, append_eq_nil_iff, ha.hogexInputs_eq, flatMap_eq_nil_iff]
    cases prevOut <;> simp
  rw [Ne, hvin, prevHogAddr_eq_none_iff hprev, HasInput, not_and_or, Option.isSome_iff_ne_none]
  push Not
  exact Iff.rfl

include ha hhogex in
/-- The outputs of the HogEx are in the money range together just if the new balance and the
peg-outs are. -/
lemma Assembled.outputsValue_le_iff
    (hamount : (prevOut.map Prod.snd).getD 0 = Miner.prevAmount prevBlock)
    (hhogAddr : MoneyRange ((prevOut.map Prod.snd).getD 0 + a.mwebMiner.mwebAmountChange)) :
    outputsValue hogex.vout ≤ maxMoney.toInt ↔ a.TotalInRange prevBlock := by
  rw [hamount] at hhogAddr
  have htotal : outputsValue hogex.vout =
      (Miner.prevAmount prevBlock + a.mwebMiner.mwebAmountChange).toInt +
        pegoutTotal a.mwebMiner.builder.stagedTxs := by
    rw [outputsValue, hhogex.vout_eq, intSum_cons, hamount, ha.intSum_hogexOutputs]
  have hmod := (toInt_add_modEq (Miner.prevAmount prevBlock) a.mwebMiner.mwebAmountChange).trans
    ((ha.amountTracked.trans (sum_supplySum_modEq _)).add_left (Miner.prevAmount prevBlock).toInt)
  rw [← add_sub_assoc, ← add_sub_assoc] at hmod
  have hnonneg := hhogAddr.nonneg
  have hpegouts := ha.totals_nonneg.2.1
  rw [htotal]
  constructor
  · exact fun hle => ⟨_, hnonneg, hmod, hle⟩
  · rintro ⟨n, hn, hnmod, hle⟩
    have hmax := maxMoney_toInt
    have heq := eq_of_modEq_of_fits (fitsInt64_toInt _) ⟨by omega, by omega⟩
      (hmod.trans hnmod.symm)
    omega

/-- For any entries of the mempool, tried in any order, and any previous block: the HogEx that the
miner builds passes `CheckTransaction` exactly if there is something to spend and its outputs are
together in the money range. -/
theorem checkTransaction_hogex_iff (hpooled : ∀ entry ∈ entries, Pooled entry)
    (hids : (entries.map (·.tx.getHash)).Nodup)
    (hprevId : ∀ prevHogEx, prevBlock.getHogEx = some prevHogEx → ∀ entry ∈ entries,
      entry.tx.getHash ≠ prevHogEx.getHash)
    (hweights : ∀ entry ∈ entries, entry.nTxWeight = getTransactionWeight entry.tx)
    (hrun : entries.foldlM tryEntry (resetBlock view nHeight) = .ok a)
    (hlimit : a.nBlockWeight < maxBlockWeight - 4000)
    (hadd : a.mwebMiner.addHogExTransaction prevBlock = .ok (hogex, mwebBlock)) :
    checkTransaction hogex = .ok () ↔ a.HasInput prevBlock ∧ a.TotalInRange prevBlock := by
  have ha := (assembled_resetBlock view nHeight).run hpooled hrun
  obtain ⟨⟨added, hsub, hadded⟩, hweighed⟩ := inBlock_run hrun
  have hadded : a.inBlock = added := hadded
  have hinBlock : a.inBlock.Sublist entries := hadded ▸ hsub
  have hweighed : a.Weighed := hweighed rfl
  obtain ⟨prevOut, hprev, -, hhogex⟩ := Miner.addHogExTransaction_eq_ok hadd
  obtain ⟨prevOut', hprev', hamount⟩ := Miner.prevHogAddr_eq_ok prevBlock
  obtain rfl := Except.ok.inj (hprev'.symm.trans hprev)
  obtain ⟨hhogAddr, hscripts, honly⟩ := addHogExTransaction_parts hprev hadd
  have hindex : ∀ o amount, prevOut' = some (o, amount) → o.n = 0 := by
    rintro o amount rfl
    obtain ⟨-, -, rfl⟩ := exists_getHogEx_of_prevHogAddr hprev
    rfl
  have hnodup : (hogex.vin.map CTxIn.prevout).Nodup := by
    refine ha.nodup_prevouts hhogex ((hinBlock.map _).nodup hids) ?_
    rintro o amount rfl entry hentry
    obtain ⟨prevHogEx, hget, rfl⟩ := exists_getHogEx_of_prevHogAddr hprev
    exact hprevId prevHogEx hget entry (hinBlock.subset hentry)
  have hsize : hogex.strippedSize * witnessScaleFactor ≤ maxBlockWeight := by
    have hle := ha.strippedSize_hogex_le hhogex hscripts fun entry hentry =>
      hweights entry (hinBlock.subset hentry)
    rw [Weighed] at hweighed
    unfold maxBlockWeight at hlimit ⊢
    omega
  rw [checkTransaction_iff honly (ha.isCoinBase_hogex hhogex hindex) hsize
    (by rw [hhogex.vout_eq]; exact List.cons_ne_nil _ _)
    (ha.hogex_outputs_range hhogex hhogAddr) hnodup (ha.prevouts_ne_null hhogex hindex),
    ha.vin_ne_nil_iff hhogex hprev, ha.outputsValue_le_iff hhogex hamount hhogAddr]

section Example

open Symbolic

/-- The entry with a peg-in and a peg-out, with its weight. -/
def weighedEntry : CTxMemPoolEntry sym :=
  { pegoutEntry opTrue with nTxWeight := getTransactionWeight (pegoutEntry opTrue).tx }

/-- The first template with MWEB, with that entry. -/
def weighedAssembler : BlockAssembler sym :=
  ([weighedEntry].foldlM tryEntry (resetBlock Mw.CoinsView.empty 3)).toOption.get
    (by decide +kernel)

/-- With a peg-in the first HogEx passes. -/
theorem checkTransaction_hogex_pegin :
    ∃ hogex mwebBlock,
      weighedAssembler.mwebMiner.addHogExTransaction Miner.plainBlock = .ok (hogex, mwebBlock) ∧
        checkTransaction hogex = .ok () := by
  have hrun : [weighedEntry].foldlM tryEntry (resetBlock Mw.CoinsView.empty 3) =
      .ok weighedAssembler := eq_ok_toOption_get (by decide +kernel)
  have hpooled : Pooled weighedEntry := ⟨pooled_pegoutEntry_opTrue.accepted,
    pooled_pegoutEntry_opTrue.not_coinBase, pooled_pegoutEntry_opTrue.not_hogEx⟩
  have hok : (weighedAssembler.mwebMiner.addHogExTransaction Miner.plainBlock).isOk = true := by
    decide +kernel
  obtain ⟨⟨hogex, mwebBlock⟩, hadd⟩ := exists_eq_ok_of_isOk hok
  refine ⟨hogex, mwebBlock, hadd, ?_⟩
  refine (checkTransaction_hogex_iff (List.forall_mem_singleton.mpr hpooled)
    (List.nodup_singleton _) (fun prevHogEx hget => ?_) (List.forall_mem_singleton.mpr rfl) hrun
    (by decide +kernel) hadd).mpr ⟨.inr ?_, 6, by decide, by decide +kernel, by decide +kernel⟩
  · cases hget
  · have hlast : weighedAssembler.inBlock = [weighedEntry] := rfl
    exact ⟨weighedEntry, by simp [hlast], by decide +kernel⟩

/-- With an empty mempool the first HogEx spends nothing and is refused. -/
theorem checkTransaction_hogex_empty :
    earlyParams.isMWEBEnabled plainChain = true ∧
      ∃ hogex mwebBlock,
        (resetBlock Mw.CoinsView.empty 3).mwebMiner.addHogExTransaction Miner.plainBlock =
          .ok (hogex, mwebBlock) ∧
        checkTransaction hogex = .error (.invalid .txConsensus "bad-txns-vin-empty") := by
  have hok : ((resetBlock Mw.CoinsView.empty 3).mwebMiner.addHogExTransaction
      Miner.plainBlock).toOption.isSome = true := by decide +kernel
  exact ⟨by decide +kernel, _, _, eq_ok_toOption_get hok, by decide +kernel⟩

end Example

end BlockAssembler

end Aegisum
