import Aegisum.Node.Inflation
import Aegisum.Node.TemplateCheck

/-!
# The fees of a template

An entry of the mempool pays its canonical fee and its MWEB fee together.  In the block the two are
separated: the canonical transaction is stripped of its MWEB data, and all MWEB fees are paid by the
HogEx.  What `ConnectBlock` collects is the sum of the entries' fees again, provided that an
outpoint has the same value wherever it is looked up.
-/

namespace Aegisum

open List

variable {P : Primitives}

/-! ### Values of outpoints -/

/-- Every coin of a view has the value that is assigned to its outpoint. -/
def CoinsPriced (value : COutPoint P → CAmount) (getCoin : COutPoint P → Option (Coin P)) : Prop :=
  ∀ o coin, getCoin o = some coin → coin.out.nValue = value o

/-- Every output of a transaction has the value that is assigned to its outpoint. -/
def OutputsPriced [NodeCrypto P] (value : COutPoint P → CAmount) (tx : CTransaction P) : Prop :=
  ∀ n out, tx.vout[n]? = some out → value ⟨tx.getHash, n⟩ = out.nValue

/-- What the canonical inputs are worth more than the canonical outputs. -/
def canonicalFee (value : COutPoint P → CAmount) (tx : CTransaction P) : ℤ :=
  intSum (fun txin => value txin.prevout) tx.vin - outputsValue tx.vout

/-- The fee of the MWEB transaction. -/
def mwebFee (tx : CTransaction P) : CAmount := tx.mwebTx.elim 0 (·.body.getTotalFee)

variable {value : COutPoint P → CAmount}

variable {inputs : CCoinsView P}

private lemma intSum_prevouts (hpriced : CoinsPriced value inputs.getCoin) {vin : List (CTxIn P)}
    {coins : List (Coin P)} (h : vin.map (fun txin => inputs.getCoin txin.prevout) = coins.map some)
    : intSum (fun txin => value txin.prevout) vin = intSum (fun coin => coin.out.nValue) coins := by
  induction vin generalizing coins with
  | nil =>
    obtain rfl : coins = [] := by simpa using h.symm
    rfl
  | cons txin vin ih =>
    obtain ⟨coin, coins, rfl, hcoin, hcoins⟩ := map_eq_cons_iff.mp h.symm
    rw [intSum_cons, intSum_cons, ih hcoins.symm, hpriced _ coin hcoin.symm]

variable {tx : CTransaction P}

/-- The fee of a transaction without MWEB data. -/
lemma toInt_fee_eq {nSpendHeight : ℤ} {txfee : CAmount} (hmweb : tx.mwebTx = none)
    (hpriced : CoinsPriced value inputs.getCoin)
    (h : inputs.checkTxInputs tx nSpendHeight = .ok txfee) :
    txfee.toInt = canonicalFee value tx := by
  obtain ⟨coins, hchecked⟩ := CCoinsView.inputsChecked_of_checkTxInputs hmweb h
  rw [hchecked.fee_eq, canonicalFee, intSum_prevouts hpriced hchecked.coins_eq]

/-- The canonical part of a transaction passes on its own, and the fee is that of both parts. -/
lemma checkTxInputs_withoutMWEBTx {nSpendHeight : ℤ} {txfee : CAmount}
    (h : inputs.checkTxInputs tx nSpendHeight = .ok txfee) :
    ∃ txfee₀, inputs.checkTxInputs tx.withoutMWEBTx nSpendHeight = .ok txfee₀ ∧
      txfee = txfee₀ + mwebFee tx := by
  obtain ⟨hhave, h⟩ := rejectIf_bind_eq_ok.mp h
  obtain ⟨nValueIn, hin, h⟩ := bind_eq_ok.mp h
  obtain ⟨valueOut, hout, h⟩ := bind_eq_ok.mp h
  obtain ⟨hbelow, h⟩ := rejectIf_bind_eq_ok.mp h
  obtain ⟨hrange, h⟩ := rejectIf_bind_eq_ok.mp h
  refine ⟨nValueIn - valueOut, ?_, ?_⟩
  · have hhave₀ : inputs.haveInputs tx.withoutMWEBTx = true := by
      rw [Bool.not_eq_true', Bool.not_eq_false, CCoinsView.haveInputs, Bool.or_eq_true,
        Bool.and_eq_true] at hhave
      rw [CCoinsView.haveInputs, Bool.or_eq_true, Bool.and_eq_true]
      exact hhave.imp_right fun hvin => ⟨hvin.1, rfl⟩
    refine rejectIf_bind_eq_ok.mpr ⟨by simp [hhave₀], bind_eq_ok.mpr ⟨nValueIn, hin, ?_⟩⟩
    refine bind_eq_ok.mpr ⟨valueOut, hout, rejectIf_bind_eq_ok.mpr ⟨hbelow, ?_⟩⟩
    exact rejectIf_bind_eq_ok.mpr ⟨hrange, rfl⟩
  · unfold mwebFee
    cases hmweb : tx.mwebTx with
    | none =>
      rw [hmweb] at h
      simpa using (Except.ok.inj h).symm
    | some mwtx =>
      rw [hmweb] at h
      obtain ⟨_, -, h⟩ := bind_eq_ok.mp h
      replace h := of_rejectIf h
      exact (Except.ok.inj h).symm

variable [NodeCrypto P] {env : ScriptEnv P} {params : ConsensusParams P} {prev : Chain P}
  {mweb : Mw.CoinsView P}

/-- Connecting a transaction keeps the values of outpoints. -/
lemma coinsPriced_connectTx {s s' : ConnectState P} (hpriced : CoinsPriced value s.view.coins.get)
    (houts : OutputsPriced value tx) (h : connectTx env params prev mweb s tx = .ok s') :
    CoinsPriced value s'.view.coins.get := by
  obtain ⟨vprevout, hconnected⟩ := txConnected_of_connectTx h
  intro o coin hcoin
  rw [hconnected.updated.get_eq] at hcoin
  rcases Option.or_eq_some_iff.mp hcoin with hcreated | ⟨-, hold⟩
  · obtain ⟨hhash, out, hout, -, rfl⟩ := CoinsCache.created_eq_some.mp hcreated
    have hvalue := houts o.n out hout
    rw [← hhash] at hvalue
    exact hvalue.symm
  · split at hold
    case isTrue => cases hold
    case isFalse => exact hpriced o coin hold

/-- The fees of transactions that connect are their canonical fees. -/
lemma nFees_of_connectTxs {txs : List (CTransaction P)} {s s' : ConnectState P}
    (hpriced : CoinsPriced value s.view.coins.get) (houts : ∀ tx ∈ txs, OutputsPriced value tx)
    (hmweb : ∀ tx ∈ txs, tx.mwebTx = none) (hcoinbase : ∀ tx ∈ txs, tx.isCoinBase = false)
    (h : txs.foldlM (connectTx env params prev mweb) s = .ok s') :
    s'.nFees.toInt ≡ s.nFees.toInt + (txs.map (canonicalFee value)).sum [ZMOD 2 ^ 64] := by
  induction txs generalizing s with
  | nil =>
    obtain rfl := Except.ok.inj h
    simp
  | cons tx txs ih =>
    rw [forall_mem_cons] at houts hmweb hcoinbase
    obtain ⟨s₁, htx, hrest⟩ := foldlM_cons_eq_ok.mp h
    obtain ⟨vprevout, hconnected⟩ := txConnected_of_connectTx htx
    obtain ⟨txfee, hfee, hsum, -⟩ := hconnected.fees hcoinbase.1
    have hrec := ih (coinsPriced_connectTx hpriced houts.1 htx) houts.2 hmweb.2 hcoinbase.2 hrest
    have htxfee := toInt_fee_eq hmweb.1 hpriced hfee
    have hstep := toInt_add_modEq s.nFees txfee
    rw [htxfee] at hstep
    rw [hsum] at hrec
    rw [map_cons, sum_cons, ← add_assoc]
    exact hrec.trans (hstep.add_right _)

/-! ### The peg-in inputs -/

omit [NodeCrypto P] in
private lemma intSum_peginOutPoints_from {hash : P.Hash} {outs : List (CTxOut P)} {k : ℕ}
    (h : ∀ n out, outs[n]? = some out → value ⟨hash, k + n⟩ = out.nValue) :
    intSum value ((outs.zipIdx k).filterMap fun (out, nOut) =>
        if out.isPegin then some (⟨hash, nOut⟩ : COutPoint P) else none) =
      intSum CTxOut.nValue (outs.filter CTxOut.isPegin) := by
  induction outs generalizing k with
  | nil => rfl
  | cons out outs ih =>
    have hrest := ih (k := k + 1) fun n out' hout' => by
      have := h (n + 1) out' (by simpa using hout')
      rwa [Nat.add_right_comm]
    have hvalue := h 0 out rfl
    rw [Nat.add_zero] at hvalue
    by_cases hpegin : out.isPegin = true
    · simpa [hpegin, hvalue] using hrest
    · simpa [hpegin] using hrest

/-- The outpoints of the peg-in outputs are worth the outputs. -/
lemma intSum_peginOutPoints (h : OutputsPriced value tx) :
    intSum value tx.peginOutPoints = intSum CTxOut.nValue (tx.vout.filter CTxOut.isPegin) :=
  intSum_peginOutPoints_from fun n out hout => by
    rw [Nat.zero_add]
    exact h n out hout

omit [NodeCrypto P] in
/-- A checked transaction has fewer outputs than the index of a coinbase input. -/
lemma vout_length_lt (h : checkTransaction tx = .ok ()) : tx.vout.length < nullIndex := by
  replace h := of_rejectIf h
  replace h := of_rejectIf h
  obtain ⟨hsize, -⟩ := rejectIf_bind_eq_ok.mp h
  have hle : tx.vout.length • 8 ≤ (tx.vout.map fun out =>
      8 + (compactSizeLength out.scriptPubKey.size + out.scriptPubKey.size)).sum := by
    rw [← length_map (f := fun out : CTxOut P =>
      8 + (compactSizeLength out.scriptPubKey.size + out.scriptPubKey.size))]
    refine card_nsmul_le_sum _ _ fun n hn => ?_
    obtain ⟨out, -, rfl⟩ := mem_map.mp hn
    omega
  unfold CTransaction.strippedSize witnessScaleFactor maxBlockWeight at hsize
  unfold nullIndex
  rw [smul_eq_mul] at hle
  omega

namespace BlockAssembler

variable {view : Mw.CoinsView P} {nHeight : ℤ} {a : BlockAssembler P} {mwebBlock : Mw.Block P}
  {header : CBlockHeader P} {coinbase hogex : CTransaction P} {prevBlock : CBlock P}
  {prevOut : Option (COutPoint P × CAmount)} {mwebAmount : CAmount}

omit [NodeCrypto P] in
/-- The fee of an entry is what `CheckTxInputs` computes on coins with the given values. -/
def FeeComputed (value : COutPoint P → CAmount) (entry : CTxMemPoolEntry P) : Prop :=
  ∃ (inputs : CCoinsView P) (nSpendHeight : ℤ), CoinsPriced value inputs.getCoin ∧
    inputs.checkTxInputs entry.tx nSpendHeight = .ok entry.nFee

/-- Whenever the transactions of the block connect, the coinbase may claim exactly the fees of the
entries: the coins, the outputs of the block and of the previous one, and the coins with which the
fees of the entries were computed give an outpoint the same value. -/
def CollectsFees (params : ConsensusParams P) (prev : Chain P) (prevBlock b : CBlock P)
    (entries : List (CTxMemPoolEntry P)) : Prop :=
  ∀ (value : COutPoint P → CAmount) (env : ScriptEnv P) (tip : CoinsTip P) (s : ConnectState P),
    (∀ entry ∈ entries, FeeComputed value entry) →
    (∀ tx ∈ prevBlock.vtx ++ b.vtx, OutputsPriced value tx) → CoinsPriced value tip.coins.get →
    b.vtx.foldlM (connectTx env params prev tip.mweb) tip.connectState = .ok s →
    s.nFees = accumulate CTxMemPoolEntry.nFee 0 entries

omit [NodeCrypto P] in
/-- The fee of an entry has a canonical and an MWEB part. -/
lemma FeeComputed.modEq {entry : CTxMemPoolEntry P} (h : FeeComputed value entry) :
    entry.nFee.toInt ≡ canonicalFee value entry.tx + (mwebFee entry.tx).toInt [ZMOD 2 ^ 64] := by
  obtain ⟨inputs, nSpendHeight, hpriced, hfee⟩ := h
  obtain ⟨txfee, htxfee, heq⟩ := checkTxInputs_withoutMWEBTx hfee
  have hcanonical := toInt_fee_eq rfl hpriced htxfee
  change txfee.toInt = canonicalFee value entry.tx at hcanonical
  rw [heq, ← hcanonical]
  exact toInt_add_modEq txfee (mwebFee entry.tx)

section

variable (ha : Assembled view nHeight a)

include ha

/-- The canonical fees of the entries are those of the canonical transactions of the block. -/
lemma Assembled.sum_canonicalFee :
    (a.inBlock.map fun entry => canonicalFee value entry.tx).sum =
      (a.vtx.map (canonicalFee value)).sum := by
  rw [ha.vtx_eq]
  induction a.inBlock with
  | nil => rfl
  | cons entry entries ih =>
    by_cases honly : entry.tx.isMWEBOnly = true
    · have hzero : canonicalFee value entry.tx = 0 := by
        obtain ⟨hvin, hvout⟩ := eq_nil_of_isMWEBOnly honly
        simp [canonicalFee, hvin, hvout, outputsValue]
      simpa [honly, hzero] using ih
    · have hsame : canonicalFee value entry.tx.withoutMWEBTx = canonicalFee value entry.tx := rfl
      simpa [honly, hsame] using ih

/-- The MWEB fees of the entries are those of the staged transactions. -/
lemma Assembled.sum_mwebFee :
    (a.inBlock.map fun entry => (mwebFee entry.tx).toInt).sum =
      feeTotal a.mwebMiner.builder.stagedTxs := by
  rw [feeTotal, ha.stagedTxs_eq]
  induction a.inBlock with
  | nil => rfl
  | cons entry entries ih =>
    cases hmweb : entry.tx.mwebTx with
    | none => simpa [mwebFee, hmweb] using ih
    | some mwtx => simpa [mwebFee, hmweb] using ih

variable (hhogex : a.mwebMiner.Integrates prevOut mwebBlock hogex)

include hhogex

/-- The inputs of the HogEx are worth what the previous one held and the peg-ins. -/
lemma Assembled.intSum_hogex_vin
    (hprevOut : ∀ o amount, prevOut = some (o, amount) → value o = amount)
    (houts : ∀ tx ∈ a.vtx, OutputsPriced value tx) :
    intSum (fun txin => value txin.prevout) hogex.vin =
      ((prevOut.map Prod.snd).getD 0).toInt + peginTotal a.mwebMiner.builder.stagedTxs := by
  have hvin : intSum (fun txin => value txin.prevout) hogex.vin =
      intSum value (hogex.vin.map CTxIn.prevout) := by
    simp [intSum, Function.comp_def]
  have hpegins : intSum value a.mwebMiner.hogexInputs =
      peginTotal a.mwebMiner.builder.stagedTxs := by
    rw [peginTotal, ← ha.intSum_pegins, ← ha.peginOutPoints_eq, intSum_flatMap, intSum_flatMap]
    exact congrArg sum (map_congr_left fun tx htx => intSum_peginOutPoints (houts tx htx))
  have hfirst : intSum value (prevOut.map Prod.fst).toList =
      ((prevOut.map Prod.snd).getD 0).toInt := by
    rcases prevOut with _ | ⟨o, amount⟩
    · rfl
    · simp [hprevOut o amount rfl]
  rw [hvin, hhogex.prevouts, intSum_append, hfirst, hpegins]

/-- The HogEx spends no null reference. -/
lemma Assembled.prevouts_ne_null (hprevOut : ∀ o amount, prevOut = some (o, amount) → o.n = 0) :
    ∀ txin ∈ hogex.vin, txin.prevout.isNull = false := by
  intro txin htxin
  have hmem := List.mem_map_of_mem (f := CTxIn.prevout) htxin
  rw [hhogex.prevouts] at hmem
  suffices hne : txin.prevout.n ≠ nullIndex by simp [COutPoint.isNull, hne]
  rcases List.mem_append.mp hmem with hold | hpegin
  · rw [Option.mem_toList, Option.map_eq_some_iff] at hold
    obtain ⟨⟨o', amount⟩, hsome, heq⟩ := hold
    rw [← heq, hprevOut o' amount hsome]
    decide
  · rw [ha.hogexInputs_eq] at hpegin
    obtain ⟨entry, hentry, hpegin⟩ := List.mem_flatMap.mp hpegin
    obtain ⟨-, out, hout, -⟩ := CTransaction.mem_peginOutPoints.mp hpegin
    have hlt := vout_length_lt (ha.pooled entry hentry).accepted.checkTransaction
    have hn := (List.getElem?_eq_some_iff.mp hout).1
    omega

/-- The HogEx is not taken for a coinbase. -/
lemma Assembled.isCoinBase_hogex
    (hprevOut : ∀ o amount, prevOut = some (o, amount) → o.n = 0) : hogex.isCoinBase = false := by
  have hnull := ha.prevouts_ne_null hhogex hprevOut
  unfold CTransaction.isCoinBase
  split
  case h_1 txin hvin => exact hnull txin (by simp [hvin])
  case h_2 => rfl

/-- What the template collects are the fees of the added entries. -/
lemma Assembled.collectsFees (hcoinbase : Coinbase coinbase)
    (hrange : InRange mwebAmount a.mwebMiner.builder.stagedTxs)
    (hamount : (prevOut.map Prod.snd).getD 0 = mwebAmount)
    (hprevOut : ∀ o amount, prevOut = some (o, amount) → o.n = 0 ∧
      ∀ value, (∀ tx ∈ prevBlock.vtx, OutputsPriced value tx) → value o = amount) :
    CollectsFees params prev prevBlock (a.blockWith header coinbase hogex mwebBlock) a.inBlock := by
  intro value env tip s hfees houts hpriced hloop
  rw [forall_mem_append, vtx_blockWith, forall_mem_append, forall_mem_cons,
    forall_mem_singleton] at houts
  obtain ⟨hprevOuts, ⟨hcoinbaseOuts, hmiddleOuts⟩, hhogexOuts⟩ := houts
  -- the coinbase comes first and pays no fee
  obtain ⟨s₁, hfirst, hrest⟩ := foldlM_cons_eq_ok.mp hloop
  obtain ⟨_, hconnected⟩ := txConnected_of_connectTx hfirst
  have hzero : s₁.nFees = 0 := hconnected.fees_coinbase hcoinbase.isCoinBase
  have hkind : ∀ tx ∈ a.vtx ++ [hogex], tx.isCoinBase = false := by
    rw [forall_mem_append, forall_mem_singleton]
    exact ⟨fun tx htx => (ha.middle_kind htx).1,
      ha.isCoinBase_hogex hhogex fun o amount h => (hprevOut o amount h).1⟩
  have hnone : ∀ tx ∈ a.vtx ++ [hogex], tx.mwebTx = none := by
    rw [forall_mem_append, forall_mem_singleton]
    refine ⟨fun tx htx => ?_, (hogex.hogEx_wf hhogex.isHogEx).1⟩
    obtain ⟨entry, -, -, rfl⟩ := ha.exists_entry htx
    rfl
  have hcollected := nFees_of_connectTxs (coinsPriced_connectTx hpriced hcoinbaseOuts hfirst)
    (forall_mem_append.mpr ⟨hmiddleOuts, forall_mem_singleton.mpr hhogexOuts⟩) hnone
    hkind hrest
  -- the HogEx pays the MWEB fees
  have hhogexFee : canonicalFee value hogex = feeTotal a.mwebMiner.builder.stagedTxs := by
    obtain ⟨valueOut, hvalue, hvalueOut⟩ := ha.exists_valueOut hhogex hrange hamount
    have hvin := ha.intSum_hogex_vin hhogex
      (fun o amount h => (hprevOut o amount h).2 value hprevOuts) hmiddleOuts
    rw [hamount] at hvin
    rw [canonicalFee, hvin, ← (getValueOut_eq_some hvalue).1, hvalueOut]
    omega
  rw [hzero, Int64.toInt_zero, zero_add, map_append, sum_append, map_singleton,
    sum_singleton, hhogexFee] at hcollected
  have hentries : intSum CTxMemPoolEntry.nFee a.inBlock ≡
      (a.inBlock.map fun entry => canonicalFee value entry.tx + (mwebFee entry.tx).toInt).sum
      [ZMOD 2 ^ 64] := Int.ModEq.listSum_map fun entry hentry => (hfees entry hentry).modEq
  rw [sum_map_add, ha.sum_canonicalFee, ha.sum_mwebFee] at hentries
  apply eq_of_toInt_modEq
  exact hcollected.trans (hentries.symm.trans (toInt_accumulate_zero_modEq _ _).symm)

end

/-- The output that the new HogEx spends is the first one of the previous HogEx. -/
lemma prevHogAddr_eq_some {o : COutPoint P} {amount : CAmount}
    (h : Miner.prevHogAddr prevBlock = .ok (some (o, amount))) :
    o.n = 0 ∧ ∀ value, (∀ tx ∈ prevBlock.vtx, OutputsPriced value tx) → value o = amount := by
  unfold Miner.prevHogAddr at h
  cases hget : prevBlock.getHogEx with
  | none =>
    rw [hget] at h
    cases Except.ok.inj h
  | some hogex =>
    rw [hget] at h
    dsimp only at h
    have hmem : hogex ∈ prevBlock.vtx := by
      unfold CBlock.getHogEx at hget
      split at hget
      · exact mem_of_getLast? (Option.filter_eq_some_iff.mp hget).1
      · cases hget
    split at h
    · cases h
    case h_2 hogAddr outs hvout =>
      obtain ⟨rfl, rfl⟩ := Prod.mk.inj (Option.some.inj (Except.ok.inj h))
      exact ⟨rfl, fun value houts => houts hogex hmem 0 hogAddr (by rw [hvout]; rfl)⟩

/-- The block of a template is made of what the miner and the assembler have. -/
lemma createNewBlock_eq_ok {t : CBlockTemplate P}
    (h : a.createNewBlock env prevBlock header coinbase = .ok t) :
    ∃ hogex mwebBlock prevOut, Miner.prevHogAddr prevBlock = .ok prevOut ∧
      a.mwebMiner.builder.buildBlock = .ok mwebBlock ∧
      a.mwebMiner.Integrates prevOut mwebBlock hogex ∧
      t.block = a.blockWith header coinbase hogex mwebBlock := by
  obtain ⟨⟨hogex, mwebBlock⟩, hhogex, h⟩ := bind_eq_ok.mp h
  obtain ⟨prevOut, hprevOut, hbuild, hint⟩ := Miner.addHogExTransaction_eq_ok hhogex
  obtain rfl := Except.ok.inj h
  exact ⟨hogex, mwebBlock, prevOut, hprevOut, hbuild, hint, rfl⟩

/-- On every previous block and for every sequence of mempool entries, with amounts in the money
range and a valid extension block: the template passes the checks of `ContextualCheckBlock`, all
checks of `ConnectBlock` up to applying the extension block, and collects the fees of the added
entries, exactly if no peg-out has the script of a peg-in and the previous block carries no HogEx
marker from before MWEB was active. -/
theorem createNewBlock_accepted_iff {rest : Chain P} {prevIndex : CBlockIndex P}
    {entries : List (CTxMemPoolEntry P)}
    (henabled : params.isMWEBEnabled (prevIndex :: rest) = true)
    (hcheck : MwebNode.contextualCheckBlock params rest prevBlock = .ok ())
    (hentry : newEntry prevBlock = .ok prevIndex) (hpooled : ∀ entry ∈ entries, Pooled entry)
    (hrun : entries.foldlM tryEntry
      (resetBlock view (Chain.nHeight (prevIndex :: rest) + 1)) = .ok a)
    (hbuild : a.mwebMiner.builder.buildBlock = .ok mwebBlock)
    (hvalid : Mw.validateBlock mwebBlock mwebBlock.body.getPegIns mwebBlock.body.getPegOuts = true)
    (hrange : InRange prevIndex.mwebAmount a.mwebMiner.builder.stagedTxs)
    (hcoinbase : Coinbase coinbase) :
    (∃ t, a.createNewBlock env prevBlock header coinbase = .ok t ∧
        MwebNode.contextualCheckBlock params (prevIndex :: rest) t.block = .ok () ∧
        (∀ v, MwebNode.connectBlock params (prevIndex :: rest) t.block v =
          MwebNode.applyMwebBlock v mwebBlock) ∧
        CollectsFees params (prevIndex :: rest) prevBlock t.block a.inBlock) ↔
      a.PegoutScriptsAllowed ∧ MarkerAllowed params rest prevBlock := by
  have ha := (assembled_resetBlock view _).run hpooled hrun
  obtain ⟨hvalidate, -, -⟩ := Mw.validateBlock_eq_true.mp hvalid
  constructor
  · rintro ⟨t, ht, hcontext, -, -⟩
    obtain ⟨hogex, mwebBlock', prevOut, hprevOut, hbuild', hhogex, hblock⟩ :=
      createNewBlock_eq_ok ht
    obtain rfl := Except.ok.inj (hbuild'.symm.trans hbuild)
    rw [hblock, contextualCheckBlock_template_iff hbuild hhogex ha henabled hvalidate hcoinbase,
      firstPeginIdx_iff hcheck hentry hprevOut] at hcontext
    exact hcontext
  · rintro ⟨hscripts, hmarker⟩
    obtain ⟨prevOut, hprevOut, -⟩ := Miner.prevHogAddr_eq_ok prevBlock
    -- the miner and the index agree about the previous HogEx
    have hprev : (prevOut.map Prod.snd).getD 0 = prevIndex.mwebAmount ∧
        (MwebNode.isFirstHogex params (prevIndex :: rest) = false →
          prevOut.map Prod.fst = some ⟨prevIndex.hogexHash, 0⟩) := by
      cases hactive : params.isMWEBEnabled rest with
      | true =>
        have hsome := prevHogAddr_of_enabled hcheck hentry hactive
        obtain rfl := Except.ok.inj (hprevOut.symm.trans hsome)
        exact ⟨rfl, fun _ => rfl⟩
      | false =>
        obtain rfl := (prevHogAddr_eq_none_iff hprevOut).mpr (hmarker hactive)
        refine ⟨(mwebAmount_of_not_enabled hcheck hentry hactive).symm, fun hfirst => ?_⟩
        simp [MwebNode.isFirstHogex, hactive] at hfirst
    obtain ⟨hamount, hfirst⟩ := hprev
    have hhogAddr := ha.moneyRange_hogAddr hrange
    rw [← hamount] at hhogAddr
    obtain ⟨hogex, hadd⟩ := Miner.exists_addHogExTransaction hprevOut hbuild hhogAddr
    obtain ⟨prevOut', hprevOut', -, hhogex⟩ := Miner.addHogExTransaction_eq_ok hadd
    obtain rfl := Except.ok.inj (hprevOut'.symm.trans hprevOut)
    refine ⟨_, bind_of_eq_ok hadd _, ?_, ?_, ?_⟩
    · rw [contextualCheckBlock_template_iff hbuild hhogex ha henabled hvalidate hcoinbase]
      exact ⟨hscripts, (firstPeginIdx_iff hcheck hentry hprevOut).mpr hmarker⟩
    · exact ha.connectBlock_eq hbuild hhogex rfl hrange hamount hfirst
    · refine ha.collectsFees hhogex hcoinbase hrange hamount fun o amount hsome => ?_
      rw [hsome] at hprevOut
      exact prevHogAddr_eq_some hprevOut

section Example

open Symbolic

/-- An entry that pegs in 10 units, pegs out 3 of them to the given script, and pays an MWEB fee of
1. -/
def pegoutEntry (script : CScript sym) : CTxMemPoolEntry sym where
  tx :=
    { spend [⟨.word 1, 0⟩]
        [⟨10, .mwebPegin (kernel (some 1) (some 10) [⟨3, script⟩] 7 nonneg_one
          mintKernel.pegin_nonneg (by simp)).getKernelID⟩] with
      mwebTx := some ⟨0, 5, ⟨[], [output 6 7 5 9], [kernel (some 1) (some 10) [⟨3, script⟩] 7
        nonneg_one mintKernel.pegin_nonneg (by simp)]⟩, by simp⟩
      hogEx_wf := by simp [spend] }
  nFee := 1
  sigOpCost := 0
  nTxWeight := 400
  mwebWeight := 20

/-- The assembler after the entry was added to the first template with MWEB. -/
def pegoutAssembler (script : CScript sym) : Except MinerExit (BlockAssembler sym) :=
  [pegoutEntry script].foldlM tryEntry (resetBlock Mw.CoinsView.empty 3)

lemma pooled_pegoutEntry_opTrue : Pooled (pegoutEntry opTrue) :=
  ⟨⟨by decide +kernel, by decide +kernel, Miner.pegoutView, 100, 1, by decide +kernel⟩,
    by decide +kernel, by decide +kernel⟩

/-- The coinbase of the examples. -/
def templateCoinbase : CTransaction sym := Symbolic.coinbase [1, 1] [⟨0, opTrue⟩]

lemma coinbase_templateCoinbase : Coinbase templateCoinbase :=
  ⟨by decide +kernel, by decide +kernel, by decide +kernel⟩

/-- The same block with another transaction at its end, which carries the HogEx marker. -/
def markedBlock : CBlock sym :=
  { Miner.plainBlock with
    vtx := Miner.plainBlock.vtx ++
      [markHogEx (spend [⟨.word 2, 0⟩] [⟨5, opTrue⟩]) ⟨rfl, by simp [spend]⟩] }

/-- The assembler with a peg-out to a script that anyone can spend. -/
def openAssembler : BlockAssembler sym :=
  (pegoutAssembler opTrue).toOption.get (by decide +kernel)

/-- The extension block with that peg-out. -/
def openExtension : Mw.Block sym :=
  openAssembler.mwebMiner.builder.buildBlock.toOption.get (by decide +kernel)

lemma pegoutAssembler_opTrue : pegoutAssembler opTrue = .ok openAssembler :=
  eq_ok_toOption_get (by decide +kernel)

lemma buildBlock_openAssembler : openAssembler.mwebMiner.builder.buildBlock = .ok openExtension :=
  eq_ok_toOption_get (by decide +kernel)

/-- The template with the entry is accepted as the first block with MWEB. -/
theorem createNewBlock_accepted_first :
    pegoutAssembler opTrue = .ok openAssembler ∧ openAssembler.inBlock.length = 1 ∧
      ∃ t, openAssembler.createNewBlock lenientEnv Miner.plainBlock Miner.plainBlock.header
          templateCoinbase = .ok t ∧
        MwebNode.contextualCheckBlock earlyParams (plainEntry 2 :: plainChain.tail) t.block =
          .ok () ∧
        (∀ v, MwebNode.connectBlock earlyParams (plainEntry 2 :: plainChain.tail) t.block v =
          MwebNode.applyMwebBlock v openExtension) ∧
        CollectsFees earlyParams (plainEntry 2 :: plainChain.tail) Miner.plainBlock t.block
          openAssembler.inBlock := by
  refine ⟨pegoutAssembler_opTrue, by decide +kernel, ?_⟩
  have hrun : [pegoutEntry opTrue].foldlM tryEntry (resetBlock Mw.CoinsView.empty
      (Chain.nHeight (plainEntry 2 :: plainChain.tail) + 1)) = .ok openAssembler :=
    pegoutAssembler_opTrue
  refine (createNewBlock_accepted_iff (by decide +kernel) (by decide +kernel) (by decide +kernel)
    (List.forall_mem_singleton.mpr pooled_pegoutEntry_opTrue) hrun buildBlock_openAssembler
    (by decide +kernel) ?_ coinbase_templateCoinbase).mpr ?_
  · exact ⟨by decide +kernel, by decide +kernel, by decide +kernel⟩
  · exact ⟨by decide +kernel, fun _ => by decide +kernel⟩

/-- A peg-out to the script of a peg-in passes the mempool and the validator of the extension
block, and the template that pays it is refused. -/
theorem createNewBlock_peginScript :
    Pooled (pegoutEntry (.mwebPegin (.word 5))) ∧
      ∃ a mwebBlock t, pegoutAssembler (.mwebPegin (.word 5)) = .ok a ∧
        a.mwebMiner.builder.buildBlock = .ok mwebBlock ∧
        Mw.validateBlock mwebBlock mwebBlock.body.getPegIns mwebBlock.body.getPegOuts = true ∧
        InRange (plainEntry 2).mwebAmount a.mwebMiner.builder.stagedTxs ∧
        a.createNewBlock lenientEnv Miner.plainBlock Miner.plainBlock.header templateCoinbase =
          .ok t ∧
        MwebNode.contextualCheckBlock earlyParams plainChain t.block =
          .error (.invalid .blockConsensus "bad-tx-unexpected-pegin") := by
  refine ⟨⟨⟨by decide +kernel, by decide +kernel, Miner.pegoutView, 100, 1, by decide +kernel⟩,
    by decide +kernel, by decide +kernel⟩, _, _, _, eq_ok_toOption_get (by decide +kernel),
    eq_ok_toOption_get (by decide +kernel), by decide +kernel,
    ⟨by decide +kernel, by decide +kernel, by decide +kernel⟩,
    eq_ok_toOption_get (by decide +kernel), by decide +kernel⟩

/-- A marker on the last transaction of the block before the first one with MWEB makes the miner
spend an output that the checks do not expect. -/
example : (openAssembler.createNewBlock lenientEnv markedBlock Miner.plainBlock.header
    templateCoinbase).map (fun t => MwebNode.contextualCheckBlock earlyParams plainChain t.block) =
      .ok (.error (.invalid .blockConsensus "pegin-mismatch")) := by
  decide +kernel

end Example

end BlockAssembler

end Aegisum
