import Aegisum.Model.Symbolic
import Aegisum.Node.Disconnect

/-!
# Disconnecting restores the coins

A block is connected, its undo data are written to the disk and read back, and the block is
disconnected.  This succeeds cleanly, and it restores the coins as they were unless the block has
spent a coin with the pegout flag: that flag is not part of the undo data, although the coins
database keeps it.
-/

namespace Aegisum

open CoinsCache List

variable {P : Primitives} [NodeCrypto P]

/-- No coin that the block takes from the coins before it has the pegout flag. -/
def CBlock.SpendsNoPegout (block : CBlock P) (coins : Coins P) : Prop :=
  ∀ tx ∈ block.vtx, ∀ txin ∈ tx.spentInputs, ∀ coin,
    coins.get txin.prevout = some coin → coin.fPegout = false

namespace CoinsCache

variable {nHeight : ℤ} {txs : List (CTransaction P)} {a : COutPoint P}

/-- The outpoint of an input is touched. -/
lemma firstTouch_ne_untouched {tx : CTransaction P} (htx : tx ∈ txs) {txin : CTxIn P}
    (htxin : txin ∈ tx.spentInputs) : firstTouch nHeight txs txin.prevout ≠ .untouched := by
  induction txs with
  | nil => cases htx
  | cons t txs ih =>
    rw [firstTouch]
    split_ifs with hspent hcreated
    · simp
    · simp
    · rcases mem_cons.mp htx with rfl | htx
      · exact absurd (mem_map_of_mem htxin) hspent
      · exact ih htx

/-- A first touch that spends is an input of a transaction. -/
lemma exists_of_firstTouch_eq_spent (h : firstTouch nHeight txs a = .spent) :
    ∃ tx ∈ txs, ∃ txin ∈ tx.spentInputs, txin.prevout = a := by
  induction txs with
  | nil => cases h
  | cons t txs ih =>
    rw [firstTouch] at h
    split_ifs at h with hspent
    · obtain ⟨txin, htxin, heq⟩ := mem_map.mp hspent
      exact ⟨t, mem_cons_self, txin, htxin, heq⟩
    · obtain ⟨tx, htx, hrest⟩ := ih h
      exact ⟨tx, mem_cons_of_mem _ htx, hrest⟩

/-- A first touch that creates is an output of a transaction. -/
lemma exists_of_firstTouch_eq_created (h : firstTouch nHeight txs a = .created) :
    ∃ tx ∈ txs, a.hash = tx.getHash ∧ a.n < tx.vout.length := by
  induction txs with
  | nil => cases h
  | cons t txs ih =>
    rw [firstTouch] at h
    split_ifs at h with hspent hcreated
    · obtain ⟨coin, hcoin⟩ := Option.isSome_iff_exists.mp hcreated
      obtain ⟨hhash, out, hout, -⟩ := created_eq_some.mp hcoin
      exact ⟨t, List.mem_cons_self, hhash, (List.getElem?_eq_some_iff.mp hout).1⟩
    · obtain ⟨tx, htx, hrest⟩ := ih h
      exact ⟨tx, List.mem_cons_of_mem _ htx, hrest⟩

end CoinsCache

/-- Where a block that overwrites no coin creates a coin, there was none. -/
lemma get_eq_none_of_firstTouch_eq_created {coins : Coins P} {block : CBlock P}
    (hbip30 : overwritesCoin coins block = false) {nHeight : ℤ} {a : COutPoint P}
    (h : firstTouch nHeight block.vtx a = .created) : coins.get a = none := by
  obtain ⟨tx, htx, hhash, hn⟩ := exists_of_firstTouch_eq_created h
  have hsome := any_eq_false.mp hbip30 tx htx
  rw [Bool.not_eq_true, any_eq_false] at hsome
  have hget := hsome a.n (mem_range.mpr hn)
  rw [← hhash] at hget
  exact Option.not_isSome_iff_eq_none.mp hget

/-- The coins after a block was undone are the coins before it exactly if no pegout was spent. -/
lemma undoneMap_eq_get_iff {coins : Coins P} {block : CBlock P} {nHeight : ℤ}
    {vtxundo : List (List (Coin P))} {c' : CoinsCache P}
    (h : CoinsCache.TxsConnected nHeight ⟨coins, []⟩ block.vtx vtxundo c')
    (hbip30 : overwritesCoin coins block = false) :
    undoneMap nHeight block.vtx coins c'.coins.get = coins.get ↔ block.SpendsNoPegout coins := by
  constructor
  · intro heq tx htx txin htxin coin hget
    have hat := congrFun heq txin.prevout
    rw [undoneMap, hget] at hat
    cases htouch : firstTouch nHeight block.vtx txin.prevout with
    | untouched => exact absurd htouch (firstTouch_ne_untouched htx htxin)
    | created =>
      rw [get_eq_none_of_firstTouch_eq_created hbip30 htouch] at hget
      cases hget
    | spent =>
      rw [htouch] at hat
      exact Coin.withoutPegout_eq_iff.mp (Option.some.inj hat)
  · intro hspends
    funext a
    rw [undoneMap]
    cases htouch : firstTouch nHeight block.vtx a with
    | untouched => exact h.get_of_untouched htouch
    | created => exact (get_eq_none_of_firstTouch_eq_created hbip30 htouch).symm
    | spent =>
      obtain ⟨tx, htx, txin, htxin, rfl⟩ := exists_of_firstTouch_eq_spent htouch
      cases hget : coins.get txin.prevout with
      | none => rfl
      | some coin =>
        exact congrArg some (Coin.withoutPegout_eq_iff.mpr (hspends tx htx txin htxin coin hget))

namespace CachedCoins

variable [HashBytes P] (keys : PubKeyOps) (mw : MwUndoFormat P) {ω : Type}
  {undoMweb : Mw.BlockUndo P → ω → Option ω} {coins : Coins P} {block : CBlock P} {nHeight : ℤ}
  {vtxundo : List (List (Coin P))} {c' : CoinsCache P} {mwundo : Option (Mw.BlockUndo P)}
  {mweb mweb' : ω} {view : CachedCoins P} {ms : List (CoinMap P)}

/-- The undo data of a connected block are read back with all pegout flags unset. -/
lemma undoThroughDisk_of_connectTxs (hcoins : coins.WellFormed) (hblock : block.Undoable)
    (hpos : 0 < nHeight) (hlt : nHeight < 2 ^ 31)
    (hconnect : connectTxs nHeight block.vtx ⟨coins, []⟩ = .ok (vtxundo, c'))
    (hmw : ∀ u, mwundo = some u → mw.Keeps u) :
    undoThroughDisk keys mw ⟨vtxundo.tail, mwundo⟩ =
      some ⟨vtxundo.tail.map (map Coin.withoutPegout), mwundo⟩ := by
  have hconnected := txsConnected_of_connectTxs hconnect
  obtain ⟨-, hundo⟩ := hconnected.vtxundo_wellFormed hblock.values hblock.inputs_le hpos hlt hcoins
  have hlength : vtxundo.tail.length ≤ maxSize := by
    have hle := hblock.length_le
    rw [length_tail, hconnected.length_eq]
    omega
  exact undoThroughDisk_eq (fun v hv => (hundo v (mem_of_mem_tail hv)).1) hlength
    (fun v hv => (hundo v (mem_of_mem_tail hv)).2) hmw

/-- The undo data of a block can be read back, and the block is disconnected cleanly. -/
lemma exists_disconnectBlock_eq (hcoins : coins.WellFormed) (hblock : block.Undoable)
    (hpos : 0 < nHeight) (hlt : nHeight < 2 ^ 31)
    (hconnect : connectTxs nHeight block.vtx ⟨coins, []⟩ = .ok (vtxundo, c'))
    (hmw : ∀ u, mwundo = some u → mw.Keeps u)
    (hmweb : undoMwebPart undoMweb mwundo mweb = some mweb') (hview : view.Shows c'.coins.get ms) :
    ∃ undo view', undoThroughDisk keys mw ⟨vtxundo.tail, mwundo⟩ = some undo ∧
      disconnectBlock undoMweb block nHeight undo view mweb = .ok (true, view', mweb') ∧
      view'.Shows (undoneMap nHeight block.vtx coins c'.coins.get) ms := by
  obtain ⟨clean, view', hdisconnect, hshows, hclean⟩ :=
    disconnectBlock_spec hcoins hblock hpos hlt hconnect hmweb hview
  rw [hclean rfl] at hdisconnect
  exact ⟨_, view', undoThroughDisk_of_connectTxs keys mw hcoins hblock hpos hlt hconnect hmw,
    hdisconnect, hshows⟩

/-- Connecting a block, writing and reading its undo data and disconnecting it gives
`DISCONNECT_OK` and the coins as they were exactly if the block spends none with the pegout flag. -/
theorem disconnectBlock_restores_iff (hcoins : coins.WellFormed) (hblock : block.Undoable)
    (hbip30 : overwritesCoin coins block = false) (hpos : 0 < nHeight) (hlt : nHeight < 2 ^ 31)
    (hconnect : CoinsCache.connectTxs nHeight block.vtx ⟨coins, []⟩ = .ok (vtxundo, c'))
    (hmw : ∀ u, mwundo = some u → mw.Keeps u)
    (hmweb : undoMwebPart undoMweb mwundo mweb = some mweb')
    (hview : view.Shows c'.coins.get ms) :
    (∃ undo view', undoThroughDisk keys mw ⟨vtxundo.tail, mwundo⟩ = some undo ∧
      disconnectBlock undoMweb block nHeight undo view mweb = .ok (true, view', mweb') ∧
      view'.Shows coins.get ms) ↔ block.SpendsNoPegout coins := by
  have hconnected := CoinsCache.txsConnected_of_connectTxs hconnect
  obtain ⟨undo, view', hdisk, hdisconnect, hshows⟩ := exists_disconnectBlock_eq keys mw
    hcoins hblock hpos hlt hconnect hmw hmweb hview
  rw [← undoneMap_eq_get_iff hconnected hbip30]
  constructor
  · rintro ⟨undo₂, view₂, hdisk₂, hdisconnect₂, hshows₂⟩
    obtain rfl := Option.some.inj (hdisk₂.symm.trans hdisk)
    obtain ⟨-, hview₂⟩ := Prod.mk.inj (Except.ok.inj (hdisconnect₂.symm.trans hdisconnect))
    obtain ⟨rfl, -⟩ := Prod.mk.inj hview₂
    exact hshows.unique hshows₂
  · intro heq
    exact ⟨undo, view', hdisk, hdisconnect, heq ▸ hshows⟩

omit [NodeCrypto P] [HashBytes P] in
/-- A new cache on top of well-formed coins. -/
lemma shows_new (hcoins : coins.WellFormed) :
    (⟨coins, .empty, []⟩ : CachedCoins P).Shows coins.get [coins.get] :=
  ⟨CCoinsViewCache.agrees_empty _, hcoins.view_eq.symm⟩

end CachedCoins

/-! ### A pegout coin that loses its flag -/

namespace Symbolic

/-- Digests of one byte, for transactions that are told apart by their lock time. -/
abbrev octets : Primitives :=
  { sym with
    Hash := UInt8
    decEqHash := inferInstance
    hashLt := fun a b => a < b
    zeroHash := 0
    hashToScalar := fun _ => 1 }

instance : NodeCrypto octets where
  kernelHash _ := 0
  kernelMessageHash _ _ _ _ _ _ _ _ := 0
  inputMessageHash _ _ _ := 0
  keyHash _ _ := 0
  outputMessageHash _ := 0
  rangeProofHash _ := 0
  outputHash _ _ _ _ _ _ := 0
  outputSignatureHash _ _ _ _ _ := 0
  headerHash _ := 0
  outputLeafHash _ _ := 0
  kernelLeafHash _ _ := 0
  parentHash _ _ _ := 0
  leafSetHash _ := 0
  schnorrVerify _ := true
  bulletproofVerify _ := true
  txHash tx := tx.nLockTime.toUInt8
  merkleHash _ _ := 0
  blockHash _ := 0
  witnessCommitmentHash _ _ := 0

instance : HashBytes octets where
  toBytes h := h :: List.replicate 31 0
  ofBytes bytes := bytes.headD 0
  length_toBytes _ := rfl
  ofBytes_toBytes _ := rfl

/-- No uncompressed key is valid. -/
def noKeys : PubKeyOps := ⟨fun _ => false, fun _ => none, by simp⟩

lemma isTemplate_opTrue : isTemplate [0x51] = false := rfl

/-- An output that anyone can spend. -/
def plainOut (nValue : CAmount) : CTxOut octets := ⟨nValue, .raw ⟨[0x51], isTemplate_opTrue⟩⟩

/-- A transaction with one input and one output. -/
def plainTx (prevout : COutPoint octets) (nValue : CAmount) (nLockTime : ℕ) :
    CTransaction octets where
  vin := [⟨prevout, [], 0, []⟩]
  vout := [plainOut nValue]
  nVersion := 2
  nLockTime := nLockTime
  mwebTx := none
  hogEx := false
  hogEx_wf := by simp

/-- A block that spends the coin of transaction 7. -/
def spendingBlock : CBlock octets where
  header := ⟨0, 0, 0, 0, 0, 0⟩
  vtx := [plainTx ⟨0, nullIndex⟩ 25 1, plainTx ⟨7, 0⟩ 40 2]
  mwebBlock := none

/-- The only coin is that of transaction 7. -/
def oneCoin (fPegout : Bool) : Coins octets :=
  FiniteMap.empty.set ⟨7, 0⟩ (some ⟨plainOut 50, 1, false, fPegout⟩)

lemma oneCoin_wellFormed (fPegout : Bool) : (oneCoin fPegout).WellFormed := by
  intro a coin hget
  rw [oneCoin, FiniteMap.get_set] at hget
  split at hget
  · obtain rfl := Option.some.inj hget
    exact ⟨show MoneyRange 50 by decide, rfl, Int.one_pos, show (1 : ℤ) < 2 ^ 31 by decide⟩
  · cases hget

lemma spendingBlock_undoable : spendingBlock.Undoable where
  coinbase := ⟨_, _, rfl, by decide, by decide⟩
  values := by decide
  length_le := by decide
  inputs_le := by decide

lemma exists_connectTxs_spendingBlock (fPegout : Bool) :
    ∃ vtxundo c', connectTxs 2 spendingBlock.vtx ⟨oneCoin fPegout, []⟩ =
      .ok (vtxundo, c') := by
  cases fPegout with
  | false => exact ⟨_, _, eq_ok_toOption_get (by decide +kernel)⟩
  | true => exact ⟨_, _, eq_ok_toOption_get (by decide +kernel)⟩

/-- There is no extension block to undo. -/
def noMweb : Mw.BlockUndo octets → Unit → Option Unit := fun _ _ => none

/-- There is no extension block in the undo data. -/
def noMwUndo : MwUndoFormat octets := ⟨fun _ => [], Get.fail⟩

lemma oneCoin_kept (fPegout : Bool) : overwritesCoin (oneCoin fPegout) spendingBlock = false := by
  cases fPegout <;> decide

/-- The block spends a coin without the pegout flag, and disconnecting it restores that coin. -/
theorem disconnectBlock_restores_iff_spend :
    ∃ vtxundo c', CoinsCache.connectTxs 2 spendingBlock.vtx ⟨oneCoin false, []⟩ =
        .ok (vtxundo, c') ∧
      ∃ undo view', undoThroughDisk noKeys noMwUndo ⟨vtxundo.tail, none⟩ = some undo ∧
        CachedCoins.disconnectBlock noMweb spendingBlock 2 undo ⟨c'.coins, .empty, []⟩ () =
          .ok (true, view', ()) ∧
        view'.Shows (oneCoin false).get [c'.coins.get] := by
  obtain ⟨vtxundo, c', hconnect⟩ := exists_connectTxs_spendingBlock false
  have hc' := ((CoinsCache.txsConnected_of_connectTxs hconnect).vtxundo_wellFormed
    spendingBlock_undoable.values spendingBlock_undoable.inputs_le (by decide) (by decide)
    (oneCoin_wellFormed false)).1
  refine ⟨vtxundo, c', hconnect, (CachedCoins.disconnectBlock_restores_iff noKeys noMwUndo
    (oneCoin_wellFormed false) spendingBlock_undoable (oneCoin_kept false) (by decide) (by decide)
    hconnect (by simp) rfl (CachedCoins.shows_new hc')).mpr ?_⟩
  intro tx _ txin _ coin hget
  rw [oneCoin, FiniteMap.get_set] at hget
  split at hget
  · obtain rfl := Option.some.inj hget
    rfl
  · cases hget

/-- The block spends a coin with the pegout flag.  Disconnecting it succeeds, but the coins are not
as they were. -/
theorem disconnectBlock_loses_pegout :
    ∃ vtxundo c', CoinsCache.connectTxs 2 spendingBlock.vtx ⟨oneCoin true, []⟩ =
        .ok (vtxundo, c') ∧ (oneCoin true).WellFormed ∧ spendingBlock.Undoable ∧
      overwritesCoin (oneCoin true) spendingBlock = false ∧
      (⟨c'.coins, .empty, []⟩ : CachedCoins octets).Shows c'.coins.get [c'.coins.get] ∧
      ¬ ∃ undo view', undoThroughDisk noKeys noMwUndo ⟨vtxundo.tail, none⟩ = some undo ∧
        CachedCoins.disconnectBlock noMweb spendingBlock 2 undo ⟨c'.coins, .empty, []⟩ () =
          .ok (true, view', ()) ∧
        view'.Shows (oneCoin true).get [c'.coins.get] := by
  obtain ⟨vtxundo, c', hconnect⟩ := exists_connectTxs_spendingBlock true
  have hconnected := CoinsCache.txsConnected_of_connectTxs hconnect
  have hc' := (hconnected.vtxundo_wellFormed spendingBlock_undoable.values
    spendingBlock_undoable.inputs_le (by decide) (by decide) (oneCoin_wellFormed true)).1
  have hview := CachedCoins.shows_new hc'
  refine ⟨vtxundo, c', hconnect, oneCoin_wellFormed true, spendingBlock_undoable,
    oneCoin_kept true, hview, ?_⟩
  rintro ⟨undo, view', hdisk, hdisconnect, hshows⟩
  have hmw : ∀ u, (none : Option (Mw.BlockUndo octets)) = some u → noMwUndo.Keeps u := by simp
  have hmweb : undoMwebPart noMweb none () = some () := rfl
  obtain ⟨undo₂, view₂, hdisk₂, hdisconnect₂, hshows₂⟩ := CachedCoins.exists_disconnectBlock_eq
    noKeys noMwUndo (oneCoin_wellFormed true) spendingBlock_undoable (by decide) (by decide)
    hconnect hmw hmweb hview
  obtain rfl := Option.some.inj (hdisk.symm.trans hdisk₂)
  obtain ⟨-, hpair⟩ := Prod.mk.inj (Except.ok.inj (hdisconnect.symm.trans hdisconnect₂))
  obtain ⟨rfl, -⟩ := Prod.mk.inj hpair
  have hspends := (undoneMap_eq_get_iff hconnected (oneCoin_kept true)).mp (hshows₂.unique hshows)
  have hflag := hspends (plainTx ⟨7, 0⟩ 40 2) (by decide) ⟨⟨7, 0⟩, [], 0, []⟩ (by decide)
    ⟨plainOut 50, 1, false, true⟩ (by simp [oneCoin])
  cases hflag

end Symbolic

end Aegisum
