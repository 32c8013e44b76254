import Aegisum.Node.Reserve

/-!
# The transactions of a chain

The coins database is updated transaction by transaction.  After any chain of connected blocks it
is what the transactions of the chain say, read as a list: a coin is there if and only if a
transaction created it and no transaction spent it.  The node keeps one block for every index
entry, so the blocks of a chain, and with them its transactions, are determined by the chain.  As
long as coinbases do not repeat, no transaction does: a transaction that is in the chain has spent
its inputs, and they are not created again.
-/

namespace Aegisum

open CTransaction CoinsCache List

variable {P : Primitives}

namespace Chain

end Chain

variable [NodeCrypto P]

/-- The blocks on disk by their hashes. -/
abbrev BlockStore (P : Primitives) := P.Hash → CBlock P

/-- The transactions that connecting the block of an index entry applies; those of the genesis
block are skipped. -/
def BlockStore.txs (stored : BlockStore P) (params : ConsensusParams P) (e : CBlockIndex P) :
    List (CTransaction P) :=
  if e.getBlockHash = params.hashGenesisBlock then [] else (stored e.getBlockHash).vtx

/-- The transactions of a chain with their heights, the newest first. -/
def confirmed (params : ConsensusParams P) (stored : BlockStore P) :
    Chain P → List (ℤ × CTransaction P)
  | [] => []
  | e :: c =>
    ((stored.txs params e).map fun tx => (Chain.nHeight c + 1, tx)).reverse ++
      confirmed params stored c

section Confirmed

variable {params : ConsensusParams P} {stored : BlockStore P}

/-- The transactions of a chain are at the heights of its blocks. -/
lemma height_of_mem_confirmed {c : Chain P} {p : ℤ × CTransaction P}
    (h : p ∈ confirmed params stored c) : 0 ≤ p.1 ∧ p.1 ≤ c.nHeight := by
  induction c with
  | nil => cases h
  | cons e c ih =>
    have hlen : Chain.nHeight (e :: c) = Chain.nHeight c + 1 := by
      simp [Chain.nHeight]
    rw [confirmed, mem_append, mem_reverse, mem_map] at h
    rcases h with ⟨tx, -, rfl⟩ | h
    · exact ⟨by simp [Chain.nHeight], hlen.ge⟩
    · have := ih h
      omega

/-- The transactions of an ancestor are those of the chain up to its height. -/
lemma mem_confirmed_suffix {c c' : Chain P} (hsuffix : c' <:+ c) {p : ℤ × CTransaction P} :
    p ∈ confirmed params stored c' ↔ p ∈ confirmed params stored c ∧ p.1 ≤ c'.nHeight := by
  induction c with
  | nil =>
    rw [suffix_nil.mp hsuffix]
    exact ⟨fun h => ⟨h, (height_of_mem_confirmed h).2⟩, And.left⟩
  | cons e c ih =>
    rcases suffix_cons_iff.mp hsuffix with rfl | hsuffix
    · exact ⟨fun h => ⟨h, (height_of_mem_confirmed h).2⟩, And.left⟩
    · rw [ih hsuffix, confirmed, mem_append]
      refine ⟨fun h => ⟨.inr h.1, h.2⟩, fun ⟨hmem, hle⟩ => ⟨hmem.resolve_left fun hnew => ?_, hle⟩⟩
      -- the transactions of the new block are higher
      obtain ⟨tx, -, rfl⟩ := mem_map.mp (mem_reverse.mp hnew)
      have hlen := hsuffix.length_le
      unfold Chain.nHeight at hle
      simp only at hle
      omega

end Confirmed

/-! ### Chains without repeated transactions -/

/-- A block that may be added to a chain: it meets the rules, it is the block on disk, and its
coinbase is new, as the height in it ensures. -/
structure ExtendsChain (params : ConsensusParams P) (stored : BlockStore P) (c : Chain P)
    (b : CBlock P) : Prop where
  rules : ChainRules params c b
  stored_eq : stored b.getHash = b
  coinbase_new : ∀ tx ∈ b.vtx, tx.isCoinBase = true →
    ∀ p ∈ confirmed params stored c, p.2.isCoinBase = true → p.2.getHash ≠ tx.getHash

/-- The chains that may be active, with the coins of their tips. -/
abbrev ActiveChain (env : ScriptEnv P) (params : ConsensusParams P) (stored : BlockStore P) :
    Chain P → CoinsTip P → Prop :=
  ConnectedChain env params (ExtendsChain params stored)

/-- What the transactions of a chain say about its coins. -/
structure Ledger (log : List (ℤ × CTransaction P)) (coins : Coins P) : Prop where
  mwebTx_eq : ∀ p ∈ log, p.2.mwebTx = none
  ids_nodup : (log.map fun p => p.2.getHash).Nodup
  /-- Every coin is of a transaction in the block at its height. -/
  created : ∀ o coin, coins.get o = some coin →
    ∃ tx, (coin.nHeight, tx) ∈ log ∧ tx.getHash = o.hash
  /-- What a transaction has spent was created by a transaction and stays spent. -/
  spent : ∀ p ∈ log, ∀ o ∈ p.2.spentInputs.map CTxIn.prevout,
    coins.get o = none ∧ ∃ q ∈ log, q.2.getHash = o.hash

namespace Ledger

variable {log : List (ℤ × CTransaction P)} {coins : Coins P}

/-- A transaction with the id of a transaction of the log has inputs that are spent. -/
lemma prevout_spent (hinj : TxHashInjective P) (h : Ledger log coins) {p : ℤ × CTransaction P}
    (hp : p ∈ log) {tx : CTransaction P} (honly : tx.isMWEBOnly = false)
    (heq : p.2.getHash = tx.getHash) (hcb : tx.isCoinBase = false) {o : COutPoint P}
    (ho : o ∈ tx.vin.map CTxIn.prevout) : coins.get o = none ∧ ∃ q ∈ log, q.2.getHash = o.hash := by
  have hhash : NodeCrypto.txHash p.2.basePreimage = NodeCrypto.txHash tx.basePreimage := by
    rw [← getHash_of_mwebTx_eq_none (h.mwebTx_eq p hp), heq]
    simp [getHash, honly]
  have hprevouts := prevouts_eq_of_basePreimage_eq (hinj hhash)
  have hcb' : p.2.isCoinBase = false := by rw [isCoinBase_congr hprevouts, hcb]
  refine h.spent p hp o ?_
  rw [spentInputs, hcb', if_neg Bool.false_ne_true, hprevouts]
  exact ho

variable {env : ScriptEnv P} {params : ConsensusParams P} {prev : Chain P}
  {mweb : Mw.CoinsView P} {s s' : ConnectState P}

variable (hinj : TxHashInjective P)

include hinj

/-- A connected transaction is new, unless it is a coinbase that repeats another. -/
lemma getHash_new (h : Ledger log s.view.coins) {tx : CTransaction P} {vprevout : List (Coin P)}
    (htx : TxConnected prev mweb s tx vprevout s') (hmweb : tx.mwebTx = none) (hvin : tx.vin ≠ [])
    (hcb : tx.isCoinBase = true → ∀ p ∈ log, p.2.isCoinBase = true → p.2.getHash ≠ tx.getHash)
    {p : ℤ × CTransaction P} (hp : p ∈ log) : p.2.getHash ≠ tx.getHash := by
  intro heq
  have honly : tx.isMWEBOnly = false := by
    simp [isMWEBOnly, hasMWEBTx, hmweb]
  cases hisCb : tx.isCoinBase with
  | true =>
    have hbase := basePreimage_eq_of_getHash_eq hinj (h.mwebTx_eq p hp) hmweb heq
    have hsame := isCoinBase_congr
      (prevouts_eq_of_basePreimage_eq hbase)
    exact hcb hisCb p hp (hsame.trans hisCb) heq
  | false =>
    obtain ⟨txin, htxin⟩ := exists_mem_of_ne_nil _ hvin
    have ho := mem_map_of_mem (f := CTxIn.prevout) htxin
    obtain ⟨coin, -, hget⟩ := htx.input_unspent hisCb ho
    have hnone := (h.prevout_spent hinj hp honly heq hisCb ho).1
    rw [hnone] at hget
    cases hget

end Ledger

/-! ### Unspent outputs -/

/-- The outpoints that the transactions of a log spend. -/
def spentOutPoints (log : List (ℤ × CTransaction P)) : List (COutPoint P) :=
  log.flatMap fun p => p.2.spentInputs.map CTxIn.prevout

/-- A transaction of the log creates a coin. -/
def CreatedIn (log : List (ℤ × CTransaction P)) (o : COutPoint P) (coin : Coin P) : Prop :=
  ∃ p ∈ log, CoinsCache.created p.2 p.1 o = some coin

/-- The coins are the unspent outputs of the transactions of a log, the newest of which is first. -/
structure UnspentOf (log : List (ℤ × CTransaction P)) (coins : Coins P) : Prop where
  get_eq_some_iff : ∀ o coin,
    coins.get o = some coin ↔ CreatedIn log o coin ∧ o ∉ spentOutPoints log
  spent_nodup : (spentOutPoints log).Nodup
  /-- What a transaction spends was created before it and has matured. -/
  spent_created : ∀ newer p older, log = newer ++ p :: older →
    ∀ o ∈ p.2.spentInputs.map CTxIn.prevout, ∃ coin, CreatedIn older o coin ∧ coin.Mature p.1

variable {prev : Chain P} {mweb : Mw.CoinsView P} {s s' : ConnectState P} {tx : CTransaction P}
  {vprevout : List (Coin P)} {log : List (ℤ × CTransaction P)}

/-- The outpoints that a transaction spends are unspent before it, and mature. -/
lemma TxConnected.exists_get_eq_some (h : TxConnected prev mweb s tx vprevout s')
    (hmweb : tx.mwebTx = none) {o : COutPoint P} (ho : o ∈ tx.spentInputs.map CTxIn.prevout) :
    ∃ coin, s.view.coins.get o = some coin ∧ coin.Mature (prev.nHeight + 1) := by
  cases hcb : tx.isCoinBase with
  | true => simp [spentInputs, hcb] at ho
  | false =>
    rw [spentInputs, hcb] at ho
    obtain ⟨coin, hcoin, hget⟩ := h.input_unspent hcb ho
    obtain ⟨_, hinputs, -⟩ := h.inputsChecked hcb hmweb
    exact ⟨coin, hget, hinputs.mature _ hcoin⟩

/-- Connecting a transaction that is new. -/
lemma UnspentOf.connectTx (h : UnspentOf log s.view.coins)
    (htx : TxConnected prev mweb s tx vprevout s') (hmweb : tx.mwebTx = none)
    (hnew : ∀ p ∈ log, p.2.getHash ≠ tx.getHash) :
    UnspentOf ((prev.nHeight + 1, tx) :: log) s'.view.coins := by
  -- an outpoint of the transaction is not an outpoint of an older one
  have hother : ∀ {o coin coin'}, created tx (prev.nHeight + 1) o = some coin →
      ¬ CreatedIn log o coin' := by
    rintro o coin coin' hcreated ⟨p, hp, hold⟩
    have hhash := (created_eq_some.mp hold).1
    exact hnew p hp (hhash.symm.trans (created_eq_some.mp hcreated).1)
  have hspent : ∀ o ∈ tx.spentInputs.map CTxIn.prevout,
      (∃ coin, CreatedIn log o coin ∧ coin.Mature (prev.nHeight + 1)) ∧
        o ∉ spentOutPoints log := by
    intro o ho
    obtain ⟨coin, hget, hmature⟩ := htx.exists_get_eq_some hmweb ho
    obtain ⟨hcreated, hunspent⟩ := (h.get_eq_some_iff o coin).mp hget
    exact ⟨⟨coin, hcreated, hmature⟩, hunspent⟩
  have hsplit : spentOutPoints ((prev.nHeight + 1, tx) :: log) =
      tx.spentInputs.map CTxIn.prevout ++ spentOutPoints log := flatMap_cons
  refine ⟨fun o coin => ?_, ?_, fun newer p older heq o ho => ?_⟩
  · rw [hsplit, mem_append, not_or]
    constructor
    · intro hget
      rcases htx.get_eq_some hget with hcreated | ⟨hnot, hold⟩
      · refine ⟨⟨_, mem_cons_self, hcreated⟩, fun ho => ?_, fun ho => ?_⟩
        · obtain ⟨⟨coin', hold, -⟩, -⟩ := hspent o ho
          exact hother hcreated hold
        · -- what an older transaction spent was created by one before it
          obtain ⟨p, hp, hmem⟩ := mem_flatMap.mp ho
          obtain ⟨newer, older, rfl⟩ := append_of_mem hp
          obtain ⟨coin', ⟨q, hq, hold⟩, -⟩ := h.spent_created newer p older rfl o hmem
          exact hother hcreated ⟨q, by simp [hq], hold⟩
      · obtain ⟨⟨p, hp, hcreated⟩, hunspent⟩ := (h.get_eq_some_iff o coin).mp hold
        exact ⟨⟨p, mem_cons_of_mem _ hp, hcreated⟩, hnot, hunspent⟩
    · rintro ⟨⟨p, hp, hcreated⟩, hnot, hunspent⟩
      rw [htx.updated.get_eq, if_neg hnot]
      rcases mem_cons.mp hp with rfl | hp
      · rw [hcreated, Option.some_or]
      · have hnone : created tx (prev.nHeight + 1) o = none :=
          Option.eq_none_iff_forall_ne_some.mpr fun _ hsome => hother hsome ⟨p, hp, hcreated⟩
        rw [hnone, Option.none_or]
        exact (h.get_eq_some_iff o coin).mpr ⟨⟨p, hp, hcreated⟩, hunspent⟩
  · rw [hsplit, nodup_append]
    refine ⟨htx.updated.nodup, h.spent_nodup, fun o ho o' ho' heq => ?_⟩
    exact (hspent o ho).2 (heq ▸ ho')
  · cases newer with
    | nil =>
      obtain ⟨rfl, rfl⟩ := cons.inj heq
      exact (hspent o ho).1
    | cons _ newer => exact h.spent_created newer p older (cons.inj heq).2 o ho

/-- The transactions of a checked block have inputs. -/
lemma vin_ne_nil_of_checked {b : CBlock P} (h : CheckedBlock b) : ∀ tx ∈ b.vtx, tx.vin ≠ [] :=
  fun tx htx => (h.txs tx htx).vin_ne_nil
    (by simp [isMWEBOnly, hasMWEBTx, h.mwebTx_eq tx htx])

/-- What the transactions of a log say about the coins after it. -/
structure Recorded (log : List (ℤ × CTransaction P)) (coins : Coins P) : Prop where
  mwebTx_eq : ∀ p ∈ log, p.2.mwebTx = none
  ids_nodup : (log.map fun p => p.2.getHash).Nodup
  unspent : UnspentOf log coins

namespace Recorded

variable {coins : Coins P}

lemma nil : Recorded [] (CoinsTip.empty (P := P)).coins := by
  refine ⟨by simp, .nil, fun o coin => ?_, .nil, by simp⟩
  simp [CoinsTip.empty, CreatedIn]

lemma ledger (h : Recorded log coins) : Ledger log coins := by
  refine ⟨h.mwebTx_eq, h.ids_nodup, fun o coin hget => ?_, fun p hp o ho => ⟨?_, ?_⟩⟩
  · obtain ⟨⟨p, hp, hcreated⟩, -⟩ := (h.unspent.get_eq_some_iff o coin).mp hget
    obtain ⟨hhash, out, -, -, rfl⟩ := created_eq_some.mp hcreated
    exact ⟨p.2, hp, hhash.symm⟩
  · refine Option.eq_none_iff_forall_ne_some.mpr fun coin hget => ?_
    exact ((h.unspent.get_eq_some_iff o coin).mp hget).2 (mem_flatMap.mpr ⟨p, hp, ho⟩)
  · obtain ⟨newer, older, rfl⟩ := append_of_mem hp
    obtain ⟨coin, ⟨q, hq, hcreated⟩, -⟩ := h.unspent.spent_created newer p older rfl o ho
    exact ⟨q, by simp [hq], (created_eq_some.mp hcreated).1.symm⟩

variable {env : ScriptEnv P} {params : ConsensusParams P} (hinj : TxHashInjective P)

include hinj

/-- Connecting a transaction. -/
lemma connectTx (h : Recorded log s.view.coins) (htx : TxConnected prev mweb s tx vprevout s')
    (hmweb : tx.mwebTx = none) (hvin : tx.vin ≠ [])
    (hcb : tx.isCoinBase = true → ∀ p ∈ log, p.2.isCoinBase = true → p.2.getHash ≠ tx.getHash) :
    Recorded ((prev.nHeight + 1, tx) :: log) s'.view.coins := by
  have hnew : ∀ p ∈ log, p.2.getHash ≠ tx.getHash :=
    fun p hp => h.ledger.getHash_new hinj htx hmweb hvin hcb hp
  refine ⟨forall_mem_cons.mpr ⟨hmweb, h.mwebTx_eq⟩, ?_, h.unspent.connectTx htx hmweb hnew⟩
  rw [map_cons, nodup_cons, mem_map]
  exact ⟨fun ⟨p, hp, heq⟩ => hnew p hp heq, h.ids_nodup⟩

/-- Connecting transactions other than coinbases. -/
lemma connectTxs {txs : List (CTransaction P)} (h : Recorded log s.view.coins)
    (hloop : txs.foldlM (Aegisum.connectTx env params prev mweb) s = .ok s')
    (hmweb : ∀ tx ∈ txs, tx.mwebTx = none) (hvin : ∀ tx ∈ txs, tx.vin ≠ [])
    (hcb : ∀ tx ∈ txs, tx.isCoinBase = false) :
    Recorded ((txs.map fun tx => (prev.nHeight + 1, tx)).reverse ++ log) s'.view.coins := by
  induction txs generalizing s log with
  | nil =>
    obtain rfl := Except.ok.inj hloop
    exact h
  | cons tx txs ih =>
    obtain ⟨s₁, hstep, hrest⟩ := foldlM_cons_eq_ok.mp hloop
    obtain ⟨vprevout, htx⟩ := txConnected_of_connectTx hstep
    rw [forall_mem_cons] at hmweb hvin hcb
    have hnext := h.connectTx hinj htx hmweb.1 hvin.1 (by simp [hcb.1])
    simpa using ih hnext hrest hmweb.2 hvin.2 hcb.2

/-- Connecting a block: its coinbase and the transactions after it. -/
lemma connectBlock {b : CBlock P} {tip : CoinsTip P} {r : ConnectedBlock P}
    (h : Recorded log tip.coins) (hconnected : BlockConnected env params prev b tip s r)
    (hcb : ∀ tx ∈ b.vtx, tx.isCoinBase = true →
      ∀ p ∈ log, p.2.isCoinBase = true → p.2.getHash ≠ tx.getHash) :
    Recorded ((b.vtx.map fun tx => (prev.nHeight + 1, tx)).reverse ++ log) r.tip.coins := by
  have hmweb := hconnected.checked.mwebTx_eq
  have hvin := vin_ne_nil_of_checked hconnected.checked
  have hloop := hconnected.loop
  obtain ⟨coinbase, rest, hvtx, -, hrest⟩ := hconnected.checked.coinbase_first
  rw [hvtx, forall_mem_cons] at hmweb hvin hcb
  rw [hvtx] at hloop ⊢
  rw [hconnected.coins_eq]
  obtain ⟨s₁, hstep, hloop⟩ := foldlM_cons_eq_ok.mp hloop
  obtain ⟨vprevout, htx⟩ := txConnected_of_connectTx hstep
  have hnext := connectTx (s := tip.connectState) hinj h htx hmweb.1 hvin.1 hcb.1
  simpa using hnext.connectTxs hinj hloop hmweb.2 hvin.2 hrest

end Recorded

/-- The transactions that the entry of a connected block stands for. -/
lemma BlockStore.txs_entry {env : ScriptEnv P} {params : ConsensusParams P} {stored : BlockStore P}
    {prev : Chain P} {b : CBlock P} {tip : CoinsTip P} {r : ConnectedBlock P}
    (hstored : stored b.getHash = b) (h : connectBlock env params prev b tip = .ok r) :
    r.entry.header = b.header ∧ stored.txs params r.entry =
      if b.getHash = params.hashGenesisBlock then [] else b.vtx := by
  have hheader : r.entry.header = b.header := by
    obtain ⟨-, ⟨-, rfl⟩ | ⟨-, s, hconnected⟩⟩ := connectBlock_cases h
    · rfl
    · exact newEntry_header hconnected.entry_eq
  have hhash : r.entry.getBlockHash = b.getHash := by
    rw [CBlockIndex.getBlockHash, hheader, CBlock.getHash]
  exact ⟨hheader, by rw [BlockStore.txs, hhash, hstored]⟩

/-- On an active chain no transaction repeats, the coins are the unspent outputs, and times respect
the medians. -/
lemma ConnectedChain.recorded (hinj : TxHashInjective P)
    {env : ScriptEnv P} {params : ConsensusParams P} {stored : BlockStore P} {c : Chain P}
    {tip : CoinsTip P} (h : ActiveChain env params stored c tip) :
    Recorded (confirmed params stored c) tip.coins ∧ ConsensusParams.TimesRespected c := by
  induction h with
  | empty => exact ⟨.nil, .nil⟩
  | @connectBlock c tip b r h hok hconnect ih =>
    obtain ⟨hheader, htxs⟩ := BlockStore.txs_entry hok.stored_eq hconnect
    refine ⟨?_, .cons _ _ ih.2 fun hc => ?_⟩
    · rw [confirmed, htxs]
      obtain ⟨-, ⟨hgenesis, rfl⟩ | ⟨hgenesis, s, hconnected⟩⟩ := connectBlock_cases hconnect
      · simpa [hgenesis] using ih.1
      · rw [if_neg hgenesis]
        exact ih.1.connectBlock hinj hconnected hok.coinbase_new
    · rw [hheader]
      exact (hok.rules hc).time

/-- On an active chain every coin is of a transaction of the block at its height. -/
lemma ConnectedChain.ledger (hinj : TxHashInjective P)
    {env : ScriptEnv P} {params : ConsensusParams P} {stored : BlockStore P} {c : Chain P}
    {tip : CoinsTip P} (h : ActiveChain env params stored c tip) :
    Ledger (confirmed params stored c) tip.coins ∧ ConsensusParams.TimesRespected c :=
  (h.recorded hinj).imp_left Recorded.ledger

/-- The coins database refines the list of transactions: on every chain of connected blocks, from
an empty database on, the coins are exactly the unspent outputs of the confirmed transactions, with
their heights and flags, no outpoint is spent twice, and everything spent was created before and had
matured. -/
theorem ActiveChain.coins_unspentOf (hinj : TxHashInjective P) (env : ScriptEnv P)
    (params : ConsensusParams P) (stored : BlockStore P) (c : Chain P) (tip : CoinsTip P)
    (h : ActiveChain env params stored c tip) :
    UnspentOf (confirmed params stored c) tip.coins :=
  (h.recorded hinj).1.unspent

/-! ### An example -/

section Stored

variable {env : ScriptEnv P} {params : ConsensusParams P} {stored : BlockStore P}

instance (c : Chain P) (b : CBlock P) : Decidable (ExtendsChain params stored c b) :=
  decidable_of_iff (ChainRules params c b ∧ stored b.getHash = b ∧
      ∀ tx ∈ b.vtx, tx.isCoinBase = true →
        ∀ p ∈ confirmed params stored c, p.2.isCoinBase = true → p.2.getHash ≠ tx.getHash)
    ⟨fun h => ⟨h.1, h.2.1, h.2.2⟩, fun h => ⟨h.rules, h.stored_eq, h.coinbase_new⟩⟩

end Stored

namespace Symbolic

/-- The blocks that hold nothing but a coinbase, and the one that spends the first of these. -/
def storedBlocks : BlockStore sym := fun h =>
  (((List.range 21).map coinbaseBlock ++ [maturityBlock]).find? (·.getHash = h)).getD genesis

/-- The chain and the coins after some blocks. -/
def storedTip (blocks : List (CBlock sym)) : Except BlockFailure (Chain sym × CoinsTip sym) :=
  blocks.foldlM (connectNext lenientEnv maturityParams (ExtendsChain maturityParams storedBlocks))
    ([], CoinsTip.empty)

lemma storedTip_isSome :
    (storedTip ((range 21).map coinbaseBlock ++ [maturityBlock])).toOption.isSome = true := by
  decide +kernel

/-- The chain and the coins at height 21, where the first coinbase is spent and pegged in. -/
def maturityTip : Chain sym × CoinsTip sym :=
  (storedTip ((List.range 21).map coinbaseBlock ++ [maturityBlock])).toOption.get storedTip_isSome

/-- The coins at height 21 are the outputs of 23 transactions, of which two are spent. -/
theorem coins_unspentOf_maturityTip :
    (confirmed maturityParams storedBlocks maturityTip.1).length = 23 ∧
      maturityTip.2.coins.get ⟨maturityPegin.getHash, 0⟩ = none ∧
      UnspentOf (confirmed maturityParams storedBlocks maturityTip.1) maturityTip.2.coins := by
  have hactive : ActiveChain lenientEnv maturityParams storedBlocks maturityTip.1 maturityTip.2 :=
    .connectNext (eq_ok_toOption_get storedTip_isSome)
  exact ⟨by decide +kernel, by decide +kernel,
    ActiveChain.coins_unspentOf (tagged_injective 14) _ _ _ _ _ hactive⟩

end Symbolic

end Aegisum
