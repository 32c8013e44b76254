import Aegisum.Mweb.BlockBuilder
import Aegisum.Node.ConnectBlock
import Aegisum.Node.Miner

/-!
# Assembling a block

`BlockAssembler::AddToBlock` adds the transactions of the mempool one by one to a block template.
The MWEB part of a transaction goes to the miner, its canonical part into the block, and
`AddHogExTransaction` ties the two together.  The running lists and sums of the assembler are those
of the entries that were added, in their order.
-/

namespace Aegisum

open CTransaction List

variable {P : Primitives}

/-- What block assembly reads of an entry of the mempool. -/
structure CTxMemPoolEntry (P : Primitives) where
  tx : CTransaction P
  nFee : CAmount
  sigOpCost : ℤ
  nTxWeight : ℕ
  mwebWeight : ℕ

/-- The transaction without its MWEB data. -/
def CTransaction.withoutMWEBTx (tx : CTransaction P) : CTransaction P :=
  { tx with
    mwebTx := none
    hogEx_wf := fun h => ⟨rfl, (tx.hogEx_wf h).2⟩ }

/-- A block template in progress.  The lists do not include the coinbase, whose entries are set
when everything else is there. -/
structure BlockAssembler (P : Primitives) where
  mwebMiner : Miner P
  vtx : List (CTransaction P)
  vTxFees : List CAmount
  vTxSigOpsCost : List ℤ
  nBlockTx : ℕ
  nBlockWeight : ℕ
  nBlockSigOpsCost : ℤ
  nBlockMWEBWeight : ℕ
  nFees : CAmount
  inBlock : List (CTxMemPoolEntry P)

/-- A block template with the fee and the cost of signature operations of each transaction. -/
structure CBlockTemplate (P : Primitives) where
  block : CBlock P
  vTxFees : List CAmount
  vTxSigOpsCost : List ℤ

namespace BlockAssembler

/-- An empty template on top of a view; space for the coinbase is reserved. -/
def resetBlock (view : Mw.CoinsView P) (nHeight : ℤ) : BlockAssembler P where
  mwebMiner := Miner.newBlock view nHeight
  vtx := []
  vTxFees := []
  vTxSigOpsCost := []
  nBlockTx := 0
  nBlockWeight := 4000
  nBlockSigOpsCost := 400
  nBlockMWEBWeight := 0
  nFees := 0
  inBlock := []

/-- The canonical part of an entry goes into the block, if it has one. -/
def addCanonical (a : BlockAssembler P) (entry : CTxMemPoolEntry P) : BlockAssembler P :=
  if entry.tx.isMWEBOnly then a
  else
    { a with
      vtx := a.vtx ++ [entry.tx.withoutMWEBTx]
      vTxFees := a.vTxFees ++ [entry.nFee]
      vTxSigOpsCost := a.vTxSigOpsCost ++ [entry.sigOpCost]
      nBlockTx := a.nBlockTx + 1 }

/-- The totals with one more entry. -/
def countEntry (a : BlockAssembler P) (entry : CTxMemPoolEntry P) : BlockAssembler P :=
  { a with
    nBlockWeight := a.nBlockWeight + entry.nTxWeight
    nBlockSigOpsCost := a.nBlockSigOpsCost + entry.sigOpCost
    nBlockMWEBWeight := a.nBlockMWEBWeight + entry.mwebWeight
    nFees := a.nFees + entry.nFee
    inBlock := a.inBlock ++ [entry] }

variable [NodeCrypto P]

/-- The MWEB part of an entry goes to the miner, if it has one. -/
def addMweb (a : BlockAssembler P) (entry : CTxMemPoolEntry P) : Except MinerExit (Miner P) :=
  match entry.tx.mwebTx with
  | none => .ok a.mwebMiner
  | some mwtx => a.mwebMiner.addMWEBTransaction entry.tx mwtx entry.sigOpCost

/-- Add an entry to the template; an entry that the miner refuses is not added. -/
def addToBlock (a : BlockAssembler P) (entry : CTxMemPoolEntry P) :
    Except MinerExit (Bool × BlockAssembler P) :=
  match a.addMweb entry with
  | .ok miner => .ok (true, ({ a with mwebMiner := miner }.addCanonical entry).countEntry entry)
  | .error .refused => .ok (false, a)
  | .error e => .error e

/-- The template after trying an entry. -/
def tryEntry (a : BlockAssembler P) (entry : CTxMemPoolEntry P) :
    Except MinerExit (BlockAssembler P) :=
  (a.addToBlock entry).map Prod.snd

/-- The block with the HogEx as its last transaction. -/
def blockWith (a : BlockAssembler P) (header : CBlockHeader P) (coinbase hogex : CTransaction P)
    (mwebBlock : Mw.Block P) : CBlock P :=
  ⟨header, coinbase :: (a.vtx ++ [hogex]), some mwebBlock⟩

/-- The template with the HogEx as the last transaction of the block.  The header and the coinbase
are what the caller fills in. -/
def createNewBlock (env : ScriptEnv P) (a : BlockAssembler P) (prevBlock : CBlock P)
    (header : CBlockHeader P) (coinbase : CTransaction P) :
    Except MinerExit (CBlockTemplate P) := do
  let (hogex, mwebBlock) ← a.mwebMiner.addHogExTransaction prevBlock
  pure
    { block := a.blockWith header coinbase hogex mwebBlock
      vTxFees := -a.nFees :: (a.vTxFees ++ [a.mwebMiner.hogexFees])
      vTxSigOpsCost := (witnessScaleFactor * getLegacySigOpCount env coinbase : ℕ) ::
        (a.vTxSigOpsCost ++ [a.mwebMiner.hogexSigops]) }

/-! ### What was added -/

/-- What the checks of the mempool establish for an entry. -/
structure Pooled (entry : CTxMemPoolEntry P) : Prop where
  accepted : Miner.Accepted entry.tx
  not_coinBase : entry.tx.isCoinBase = false
  not_hogEx : entry.tx.isHogEx = false

variable {entry : CTxMemPoolEntry P}

/-- A transaction without MWEB data in the mempool has no peg-ins. -/
lemma Pooled.txPegins_eq_nil (h : Pooled entry) (hmweb : entry.tx.mwebTx = none) :
    MwebNode.txPegins entry.tx = [] := by
  obtain ⟨-, hcheck⟩ := rejectIf_bind_eq_ok.mp h.accepted.mwebCheckTransaction
  obtain ⟨hcount, -⟩ := rejectIf_bind_eq_ok.mp hcheck
  rw [hmweb, not_not] at hcount
  exact eq_nil_of_length_eq_zero hcount.symm

lemma Pooled.peginOutPoints_eq_nil (h : Pooled entry) (hmweb : entry.tx.mwebTx = none) :
    entry.tx.peginOutPoints = [] := by
  refine CTransaction.peginOutPoints_eq_nil (any_eq_false.mpr fun out hout => ?_)
  have hnone := filterMap_eq_nil_iff.mp (h.txPegins_eq_nil hmweb) out hout
  rw [Option.map_eq_none_iff] at hnone
  simp [CTxOut.isPegin, hnone]

/-- The lists of the assembler are those of the entries that were added. -/
structure Assembled (view : Mw.CoinsView P) (nHeight : ℤ) (a : BlockAssembler P) : Prop where
  pooled : ∀ entry ∈ a.inBlock, Pooled entry
  coinsView_eq : a.mwebMiner.builder.coinsView = view
  height_eq : a.mwebMiner.builder.height = nHeight
  stagedTxs_eq : a.mwebMiner.builder.stagedTxs = a.inBlock.filterMap (·.tx.mwebTx)
  vtx_eq : a.vtx = (a.inBlock.filter (!·.tx.isMWEBOnly)).map (·.tx.withoutMWEBTx)
  hogexInputs_eq : a.mwebMiner.hogexInputs = a.inBlock.flatMap (·.tx.peginOutPoints)
  hogexOutputs_eq : a.mwebMiner.hogexOutputs =
    (a.mwebMiner.builder.stagedTxs.flatMap (·.body.getPegOuts)).map fun pegout =>
      ⟨pegout.amount, pegout.scriptPubKey⟩
  amountTracked : a.mwebMiner.AmountTracked
  nFees_eq : a.nFees = accumulate CTxMemPoolEntry.nFee 0 a.inBlock
  pegouts_range : ∀ mwtx ∈ a.mwebMiner.builder.stagedTxs, ∀ pegout ∈ mwtx.body.getPegOuts,
    MoneyRange pegout.amount
  fees_range : ∀ mwtx ∈ a.mwebMiner.builder.stagedTxs, MoneyRange mwtx.body.getTotalFee

lemma assembled_resetBlock (view : Mw.CoinsView P) (nHeight : ℤ) :
    Assembled view nHeight (resetBlock view nHeight) where
  pooled _ h := by cases h
  coinsView_eq := rfl
  height_eq := rfl
  stagedTxs_eq := rfl
  vtx_eq := rfl
  hogexInputs_eq := rfl
  hogexOutputs_eq := rfl
  amountTracked := rfl
  nFees_eq := rfl
  pegouts_range _ h := by cases h
  fees_range _ h := by cases h

variable {a' : BlockAssembler P}

/-- An entry is refused and nothing changes, or both of its parts are added. -/
lemma tryEntry_eq_ok {a : BlockAssembler P} (h : a.tryEntry entry = .ok a') :
    a' = a ∨ ∃ miner, a.addMweb entry = .ok miner ∧
      a' = ({ a with mwebMiner := miner }.addCanonical entry).countEntry entry := by
  unfold tryEntry addToBlock at h
  split at h
  case h_1 miner hminer => exact .inr ⟨miner, hminer, (Except.ok.inj h).symm⟩
  case h_2 => exact .inl (Except.ok.inj h).symm
  case h_3 => cases h

section Fields

omit [NodeCrypto P]

variable (a : BlockAssembler P) (entry : CTxMemPoolEntry P)

@[simp] lemma mwebMiner_addCanonical : (a.addCanonical entry).mwebMiner = a.mwebMiner := by
  unfold addCanonical
  split <;> rfl

@[simp] lemma nFees_addCanonical : (a.addCanonical entry).nFees = a.nFees := by
  unfold addCanonical
  split <;> rfl

@[simp] lemma inBlock_addCanonical : (a.addCanonical entry).inBlock = a.inBlock := by
  unfold addCanonical
  split <;> rfl

lemma vtx_addCanonical : (a.addCanonical entry).vtx =
    a.vtx ++ ([entry].filter (!·.tx.isMWEBOnly)).map (·.tx.withoutMWEBTx) := by
  unfold addCanonical
  split
  case isTrue h => simp [h]
  case isFalse h => simp [h]

@[simp] lemma mwebMiner_countEntry : (a.countEntry entry).mwebMiner = a.mwebMiner := rfl

@[simp] lemma nFees_countEntry : (a.countEntry entry).nFees = a.nFees + entry.nFee := rfl

@[simp] lemma inBlock_countEntry : (a.countEntry entry).inBlock = a.inBlock ++ [entry] := rfl

@[simp] lemma vtx_countEntry : (a.countEntry entry).vtx = a.vtx := rfl

end Fields

/-- What the MWEB part of an entry adds to the lists of the miner. -/
lemma addMweb_eq_ok {a : BlockAssembler P} {miner : Miner P} (hentry : Pooled entry)
    (h : a.addMweb entry = .ok miner) :
    (entry.tx.mwebTx = none ∧ miner = a.mwebMiner ∧ entry.tx.peginOutPoints = []) ∨
      ∃ mwtx, entry.tx.mwebTx = some mwtx ∧ a.mwebMiner.Added entry.tx mwtx miner ∧
        (a.mwebMiner.AmountTracked → miner.AmountTracked) := by
  unfold addMweb at h
  split at h
  case h_1 hmweb =>
    exact .inl ⟨hmweb, (Except.ok.inj h).symm, hentry.peginOutPoints_eq_nil hmweb⟩
  case h_2 mwtx hmweb =>
    exact .inr ⟨mwtx, hmweb, Miner.added_of_addMWEBTransaction h, fun htracked =>
      Miner.amountTracked_addMWEBTransaction hentry.accepted hmweb htracked h⟩

/-- One more entry. -/
lemma Assembled.tryEntry {view : Mw.CoinsView P} {nHeight : ℤ} {a : BlockAssembler P}
    (ha : Assembled view nHeight a) (hentry : Pooled entry) (h : a.tryEntry entry = .ok a') :
    Assembled view nHeight a' := by
  obtain rfl | ⟨miner, hminer, rfl⟩ := tryEntry_eq_ok h
  · exact ha
  have hpooled : ∀ e ∈ a.inBlock ++ [entry], Pooled e := by
    simpa [or_imp, forall_and] using ⟨ha.pooled, hentry⟩
  have hvtx : a.vtx ++ ([entry].filter (!·.tx.isMWEBOnly)).map (·.tx.withoutMWEBTx) =
      ((a.inBlock ++ [entry]).filter (!·.tx.isMWEBOnly)).map (·.tx.withoutMWEBTx) := by
    rw [filter_append, map_append, ← ha.vtx_eq]
  have hfees : a.nFees + entry.nFee =
      accumulate CTxMemPoolEntry.nFee 0 (a.inBlock ++ [entry]) := by
    rw [accumulate_append, ← ha.nFees_eq]
    rfl
  obtain ⟨hmweb, rfl, hpegins⟩ | ⟨mwtx, hmweb, hadded, htracked⟩ := addMweb_eq_ok hentry hminer
  · constructor
    · simpa using hpooled
    · simpa using ha.coinsView_eq
    · simpa using ha.height_eq
    · simpa [hmweb] using ha.stagedTxs_eq
    · simpa [vtx_addCanonical] using hvtx
    · simpa [hpegins] using ha.hogexInputs_eq
    · simpa using ha.hogexOutputs_eq
    · simpa using ha.amountTracked
    · simpa using hfees
    · simpa using ha.pegouts_range
    · simpa using ha.fees_range
  · have hstaged : miner.builder.stagedTxs = a.mwebMiner.builder.stagedTxs ++ [mwtx] := by
      rw [hadded.builder_eq]
      rfl
    constructor
    · simpa using hpooled
    · simpa [hadded.builder_eq, Mw.BlockBuilder.stage] using ha.coinsView_eq
    · simpa [hadded.builder_eq, Mw.BlockBuilder.stage] using ha.height_eq
    · simp [hstaged, hmweb, ha.stagedTxs_eq]
    · simpa [vtx_addCanonical] using hvtx
    · simp [hadded.hogexInputs_eq, ha.hogexInputs_eq]
    · simp [hadded.hogexOutputs_eq, ha.hogexOutputs_eq, hstaged]
    · simpa using htracked ha.amountTracked
    · simpa using hfees
    · simpa [hstaged, or_imp, forall_and] using ⟨ha.pegouts_range, hadded.pegouts_range⟩
    · simpa [hstaged, or_imp, forall_and] using ⟨ha.fees_range, hadded.fee_range⟩

/-- However many entries are tried, the template holds what was added. -/
lemma Assembled.run {view : Mw.CoinsView P} {nHeight : ℤ} {entries : List (CTxMemPoolEntry P)}
    {a : BlockAssembler P} (ha : Assembled view nHeight a)
    (hpooled : ∀ entry ∈ entries, Pooled entry)
    (h : entries.foldlM BlockAssembler.tryEntry a = .ok a') : Assembled view nHeight a' := by
  refine foldlM_keeps (fun entry hmem a a' ha hentry => ?_) h ha
  exact ha.tryEntry (hpooled entry hmem) hentry

/-! ### The transactions of the block -/

variable {tx : CTransaction P}

/-- Outside of MWEB-only transactions the id does not depend on the MWEB data. -/
lemma getHash_withoutMWEBTx (h : tx.isMWEBOnly = false) :
    tx.withoutMWEBTx.getHash = tx.getHash := by
  rw [getHash_of_mwebTx_eq_none rfl, getHash, h]
  rfl

omit [NodeCrypto P] in
/-- An MWEB-only transaction has no canonical inputs and outputs. -/
lemma eq_nil_of_isMWEBOnly (h : tx.isMWEBOnly = true) : tx.vin = [] ∧ tx.vout = [] := by
  rw [isMWEBOnly, Bool.and_eq_true, Bool.and_eq_true] at h
  exact ⟨isEmpty_iff.mp h.1.2, isEmpty_iff.mp h.2⟩

variable {view : Mw.CoinsView P} {nHeight : ℤ} {a : BlockAssembler P}

section

variable (ha : Assembled view nHeight a)

include ha

/-- Lists that do not depend on the MWEB data of the transactions, and are empty for MWEB-only
ones, can be read off the entries. -/
lemma Assembled.flatMap_vtx {β : Type} (f : CTransaction P → List β)
    (hstripped : ∀ tx, tx.isMWEBOnly = false → f tx.withoutMWEBTx = f tx)
    (honly : ∀ tx, tx.isMWEBOnly = true → f tx = []) :
    a.vtx.flatMap f = a.inBlock.flatMap fun entry => f entry.tx := by
  rw [ha.vtx_eq]
  induction a.inBlock with
  | nil => rfl
  | cons entry entries ih =>
    by_cases hmweb : entry.tx.isMWEBOnly = true
    · simp [hmweb, ih, honly entry.tx hmweb]
    · simp [hmweb, ih, hstripped entry.tx (by simpa using hmweb)]

/-- The peg-in outputs of the block are those the miner has collected, in the same order. -/
lemma Assembled.peginOutPoints_eq :
    a.vtx.flatMap peginOutPoints = a.mwebMiner.hogexInputs := by
  rw [ha.hogexInputs_eq]
  refine ha.flatMap_vtx _ (fun tx h => ?_) (fun tx h => ?_)
  · unfold peginOutPoints
    rw [getHash_withoutMWEBTx h]
    rfl
  · simp [peginOutPoints, (eq_nil_of_isMWEBOnly h).2]

/-- The peg-ins of the block are those of the kernels. -/
lemma Assembled.txPegins_perm :
    (a.vtx.flatMap MwebNode.txPegins).Perm
      (a.mwebMiner.builder.stagedTxs.flatMap (·.body.getPegIns)) := by
  rw [ha.flatMap_vtx _ (fun tx _ => rfl) (fun tx h => by
    simp [MwebNode.txPegins, (eq_nil_of_isMWEBOnly h).2]), ha.stagedTxs_eq]
  have hpooled := ha.pooled
  generalize a.inBlock = entries at hpooled
  induction entries with
  | nil => exact .refl _
  | cons entry entries ih =>
    rw [forall_mem_cons] at hpooled
    cases hmweb : entry.tx.mwebTx with
    | none => simpa [hmweb, hpooled.1.txPegins_eq_nil hmweb] using ih hpooled.2
    | some mwtx =>
      obtain ⟨-, hperm, -⟩ := MwebNode.pegins_perm_of_checkTransaction hmweb
        hpooled.1.accepted.mwebCheckTransaction
      simpa [hmweb] using hperm.symm.append (ih hpooled.2)

/-- The peg-in outputs of the block are worth the peg-ins of the kernels. -/
lemma Assembled.intSum_pegins :
    intSum CTxOut.nValue (a.vtx.flatMap fun tx => tx.vout.filter CTxOut.isPegin) =
      (a.mwebMiner.builder.stagedTxs.map (·.body.pegInSum)).sum := by
  have hvtx : intSum CTxOut.nValue (a.vtx.flatMap fun tx => tx.vout.filter CTxOut.isPegin) =
      intSum Mw.PegInCoin.amount (a.vtx.flatMap MwebNode.txPegins) := by
    rw [intSum_flatMap, intSum_flatMap]
    exact congrArg sum (map_congr_left fun tx _ => Miner.peginValue_eq_intSum tx)
  rw [hvtx, intSum_perm _ ha.txPegins_perm, intSum_flatMap]
  exact congrArg sum (map_congr_left fun mwtx _ => mwtx.body.intSum_getPegIns)

/-- The canonical transactions of the block come from entries that are not MWEB-only. -/
lemma Assembled.exists_entry (htx : tx ∈ a.vtx) :
    ∃ entry ∈ a.inBlock, entry.tx.isMWEBOnly = false ∧ tx = entry.tx.withoutMWEBTx := by
  rw [ha.vtx_eq] at htx
  obtain ⟨entry, hentry, rfl⟩ := mem_map.mp htx
  obtain ⟨hmem, honly⟩ := mem_filter.mp hentry
  exact ⟨entry, hmem, by simpa using honly, rfl⟩

end

end BlockAssembler

end Aegisum
