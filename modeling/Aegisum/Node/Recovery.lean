import Aegisum.Node.Replay

/-!
# Recovery after interrupted flushes

Undoing a block moves every coin that the block touched to its state before the block, whatever the
database has there, and leaves the others alone; applying a block moves them to the state after it.
Along the old branch and the new one this moves every coin from the state of the old tip to that of
the new tip.  A coin that is not moved is the same at both tips.
-/

namespace Aegisum

open CoinsCache CCoinsViewCache List

variable {P : Primitives} [NodeCrypto P]

/-! ### One block forward -/

namespace CachedCoins

variable {view : CachedCoins P} {m : CoinMap P} {ms : List (CoinMap P)} {nHeight : ℤ}

omit [NodeCrypto P] in
lemma spendInputs_spec (h : view.Shows m ms) (ins : List (CTxIn P)) :
    (ins.foldl (fun view txin => (view.spendCoin txin.prevout).2) view).Shows
      (fun a => if a ∈ ins.map CTxIn.prevout then none else m a) ms := by
  induction ins generalizing view m with
  | nil => simpa using h
  | cons txin ins ih =>
    have hrest := ih (spendCoin_spec h txin.prevout).2
    have hmap : (fun a => if a ∈ ins.map CTxIn.prevout then none
        else Function.update m txin.prevout none a) =
        fun a => if a ∈ (txin :: ins).map CTxIn.prevout then none else m a := by
      funext a
      by_cases ha : a = txin.prevout
      · simp [ha]
      · simp [ha]
    rwa [hmap] at hrest

lemma addOutputs_spec {tx : CTransaction P} {outs : List (CTxOut P)}
    (hvalues : ∀ out ∈ outs, MoneyRange out.nValue) (h : view.Shows m ms) (k : ℕ) :
    ∃ view', (outs.zipIdx k).foldlM (addOutput tx nHeight true) view = .ok view' ∧
      view'.Shows (fun a => (createdFrom tx nHeight outs k a).or (m a)) ms := by
  induction outs generalizing view m k with
  | nil => exact ⟨view, rfl, by simpa [createdFrom] using h⟩
  | cons out outs ih =>
    obtain ⟨hfound, hshows⟩ := haveCoin_spec h ⟨tx.getHash, k⟩
    rcases hhave : view.haveCoin ⟨tx.getHash, k⟩ with ⟨found, view₁⟩
    rw [hhave] at hfound hshows
    dsimp only at hfound hshows
    have hspent : (outputCoin tx nHeight out k).isSpent = false :=
      Coin.isSpent_of_moneyRange (hvalues out mem_cons_self)
    have hown : found = false → m ⟨tx.getHash, k⟩ = none := by
      intro hnot
      simpa [hfound] using hnot
    obtain ⟨view₂, hadd, hshows₂⟩ := addCoin_spec hshows ⟨tx.getHash, k⟩ hspent hown
    obtain ⟨view', hfold, hshows'⟩ :=
      ih (fun o ho => hvalues o (mem_cons_of_mem _ ho)) hshows₂ (k + 1)
    have hstep : addOutput tx nHeight true view (out, k) = .ok view₂ := by
      simpa [addOutput, hhave] using hadd
    refine ⟨view', foldlM_cons_eq_ok.mpr ⟨view₂, hstep, hfold⟩, ?_⟩
    have hmap : (fun a => (createdFrom tx nHeight outs (k + 1) a).or
        (addToMap ⟨tx.getHash, k⟩ (outputCoin tx nHeight out k) m a)) =
        fun a => (createdFrom tx nHeight (out :: outs) k a).or (m a) := by
      funext a
      rw [createdFrom_cons, Option.or_assoc]
      refine congrArg _ ?_
      rw [addToMap]
      cases hun : out.scriptPubKey.isUnspendable with
      | true => simp [outputCoin, hun]
      | false =>
        by_cases ha : a = ⟨tx.getHash, k⟩
        · simp [outputCoin, hun, ha]
        · simp [outputCoin, hun, ha]
    rwa [hmap] at hshows'

/-- Applying a transaction, whether it was applied before or not. -/
lemma rollforwardTx_spec {tx : CTransaction P} (hvalues : ∀ out ∈ tx.vout, MoneyRange out.nValue)
    (h : view.Shows m ms) :
    ∃ view', rollforwardTx nHeight view tx = .ok view' ∧
      view'.Shows (fun a => (created tx nHeight a).or
        (if a ∈ tx.spentInputs.map CTxIn.prevout then none else m a)) ms :=
  addOutputs_spec hvalues (spendInputs_spec h tx.spentInputs) 0

/-- Applying transactions moves the coins to the state that they led to. -/
lemma rollforwardTxs_spec {c c' : CoinsCache P} {txs : List (CTransaction P)}
    {vtxundo : List (List (Coin P))} (hconnected : CoinsCache.TxsConnected nHeight c txs vtxundo c')
    (hvalues : ∀ tx ∈ txs, ∀ out ∈ tx.vout, MoneyRange out.nValue) (h : view.Shows m ms) :
    ∃ view' m', txs.foldlM (rollforwardTx nHeight) view = .ok view' ∧ view'.Shows m' ms ∧
      Moves c.coins.get c'.coins.get m m' := by
  induction hconnected generalizing view m with
  | nil c => exact ⟨view, m, rfl, h, .refl _ _⟩
  | @cons c c₁ c' tx txs vprevout vtxundo first rest ih =>
    obtain ⟨view₁, hfirst, hshows₁⟩ := rollforwardTx_spec (hvalues tx mem_cons_self) h
    obtain ⟨view', m', hrest, hshows', hmoves⟩ :=
      ih (fun t ht => hvalues t (mem_cons_of_mem _ ht)) hshows₁
    refine ⟨view', m', foldlM_cons_eq_ok.mpr ⟨view₁, hfirst, hrest⟩, hshows', .trans ?_ hmoves⟩
    intro a
    rw [first.get_eq a]
    cases hcreated : created tx nHeight a with
    | some coin => exact .inl (by simp [hcreated])
    | none =>
      by_cases ha : a ∈ tx.spentInputs.map CTxIn.prevout
      · exact .inl (by simp [hcreated, ha])
      · exact .inr (by simp [hcreated, ha])

end CachedCoins

/-! ### Chains -/

/-- The blocks of a branch connected one after the other, from the coins at its fork on. -/
inductive BlocksConnected (fork : BlockPath P) (coinsFork : Coins P) :
    BlockPath P → Coins P → Prop
  | fork : BlocksConnected fork coinsFork fork coinsFork
  | block {chain : BlockPath P} {coins : Coins P} {b : CBlock P} {vtxundo : List (List (Coin P))}
    {c' : CoinsCache P} (below : BlocksConnected fork coinsFork chain coins) (hblock : b.Undoable)
    (hconnect : CoinsCache.connectTxs chain.length b.vtx ⟨coins, []⟩ = .ok (vtxundo, c')) :
    BlocksConnected fork coinsFork (b :: chain) c'.coins

lemma BlocksConnected.suffix {fork chain : BlockPath P} {coinsFork coins : Coins P}
    (h : BlocksConnected fork coinsFork chain coins) : fork <:+ chain := by
  induction h with
  | fork => exact suffix_rfl
  | block _ _ _ ih => exact ih.trans (suffix_cons _ _)

section Chains

variable [HashBytes P] (keys : PubKeyOps) (mw : MwUndoFormat P)
  (undoData : BlockPath P → Option (CBlockUndo P)) (genesis : CBlock P)

/-- The coins at an entry of a block tree without HogEx transactions, in which no output has the
outpoint of an unspent coin.  The undo data of every block are on the disk. -/
inductive ChainCoins : BlockPath P → Coins P → Prop
  | genesis : ChainCoins [genesis] FiniteMap.empty
  | block {chain : BlockPath P} {coins : Coins P} {b : CBlock P} {vtxundo : List (List (Coin P))}
    {c' : CoinsCache P} (below : ChainCoins chain coins) (hblock : b.Undoable)
    (hhogEx : ∀ tx ∈ b.vtx, tx.isHogEx = false) (hbip30 : overwritesCoin coins b = false)
    (hheight : chain.length < 2 ^ 31)
    (hconnect : CoinsCache.connectTxs chain.length b.vtx ⟨coins, []⟩ = .ok (vtxundo, c'))
    (hundo : undoData (b :: chain) = undoThroughDisk keys mw ⟨vtxundo.tail, none⟩) :
    ChainCoins (b :: chain) c'.coins

end Chains

/-- No coin has the pegout flag. -/
def Coins.NoPegout (coins : Coins P) : Prop :=
  ∀ a coin, coins.get a = some coin → coin.fPegout = false

/-- Without HogEx transactions no coin gets the pegout flag. -/
lemma CoinsCache.TxsConnected.noPegout {nHeight : ℤ} {c c' : CoinsCache P}
    {txs : List (CTransaction P)} {vtxundo : List (List (Coin P))}
    (h : CoinsCache.TxsConnected nHeight c txs vtxundo c')
    (hhogEx : ∀ tx ∈ txs, tx.isHogEx = false) (hc : c.coins.NoPegout) : c'.coins.NoPegout := by
  induction h with
  | nil c => exact hc
  | @cons c c₁ c' tx txs vprevout vtxundo first rest ih =>
    refine ih (fun t ht => hhogEx t (mem_cons_of_mem _ ht)) fun a coin hget => ?_
    rw [first.get_eq a] at hget
    rcases Option.or_eq_some_iff.mp hget with hcreated | ⟨-, hold⟩
    · obtain ⟨-, out, -, -, rfl⟩ := created_eq_some.mp hcreated
      simp [outputCoin, hhogEx tx mem_cons_self]
    · split at hold
      · cases hold
      · exact hc a coin hold

namespace ChainCoins

variable [HashBytes P] {keys : PubKeyOps} {mw : MwUndoFormat P}
  {undoData : BlockPath P → Option (CBlockUndo P)} {genesis : CBlock P} {chain fork : BlockPath P}
  {coins coins' : Coins P}

section

variable (h : ChainCoins keys mw undoData genesis chain coins)

include h

lemma ne_nil : chain ≠ [] := by
  cases h <;> simp

lemma wellFormed : coins.WellFormed ∧ coins.NoPegout := by
  induction h with
  | genesis => exact ⟨fun a coin hget => by simp at hget, fun a coin hget => by simp at hget⟩
  | @block chain coins b vtxundo c' below hblock hhogEx _ hheight hconnect _ ih =>
    have hconnected := txsConnected_of_connectTxs hconnect
    have hpos : 0 < (chain.length : ℤ) := by
      exact_mod_cast length_pos_iff.mpr below.ne_nil
    exact ⟨(hconnected.vtxundo_wellFormed hblock.values hblock.inputs_le hpos
      (by exact_mod_cast hheight) ih.1).1, hconnected.noPegout hhogEx ih.2⟩

/-- The coins are determined by the entry. -/
lemma unique (h' : ChainCoins keys mw undoData genesis chain coins') : coins = coins' := by
  induction h generalizing coins' with
  | genesis =>
    cases h' with
    | genesis => rfl
    | block below => exact absurd rfl below.ne_nil
  | @block chain coins b vtxundo c' below _ _ _ _ hconnect _ ih =>
    cases h' with
    | genesis => exact absurd rfl below.ne_nil
    | block below' _ _ _ _ hconnect' _ =>
      obtain rfl := ih below'
      obtain ⟨-, rfl⟩ := Prod.mk.inj (Except.ok.inj (hconnect.symm.trans hconnect'))
      rfl

/-- The entries below an entry have coins, too, and the blocks above were connected to them. -/
lemma exists_of_suffix (hsuffix : fork <:+ chain) (hne : fork ≠ []) :
    ∃ coinsFork, ChainCoins keys mw undoData genesis fork coinsFork ∧
      BlocksConnected fork coinsFork chain coins := by
  induction h with
  | genesis =>
    rcases suffix_cons_iff.mp hsuffix with rfl | hnil
    · exact ⟨_, .genesis, .fork⟩
    · exact absurd (suffix_nil.mp hnil) hne
  | @block chain coins b vtxundo c' below hblock hhogEx hbip30 hheight hconnect hundo ih =>
    rcases suffix_cons_iff.mp hsuffix with rfl | hbelow
    · exact ⟨_, .block below hblock hhogEx hbip30 hheight hconnect hundo, .fork⟩
    · obtain ⟨coinsFork, hfork, hblocks⟩ := ih hbelow
      exact ⟨coinsFork, hfork, .block hblocks hblock hconnect⟩

lemma getLast?_eq : chain.getLast? = some genesis := by
  induction h with
  | genesis => rfl
  | @block chain coins b _ _ below _ _ _ _ _ _ ih =>
    obtain ⟨b', chain', rfl⟩ := exists_cons_of_ne_nil below.ne_nil
    rw [getLast?_cons_cons]
    exact ih

end

end ChainCoins

/-! ### The common ancestor -/

omit [NodeCrypto P] in
lemma commonAncestor_spec {as bs : BlockPath P} (hlength : as.length = bs.length)
    (hne : as ≠ []) (hlast : as.getLast? = bs.getLast?) :
    commonAncestor as bs ≠ [] ∧ commonAncestor as bs <:+ as ∧ commonAncestor as bs <:+ bs := by
  induction as generalizing bs with
  | nil => exact absurd rfl hne
  | cons a as ih =>
    obtain ⟨b, bs, rfl⟩ := exists_cons_of_length_eq_add_one hlength.symm
    rw [commonAncestor]
    split
    case isTrue heq => exact ⟨by simp, suffix_rfl, heq ▸ suffix_rfl⟩
    case isFalse hdiff =>
      have hlength' : as.length = bs.length := by simpa using hlength
      have hne' : as ≠ [] := by
        rintro rfl
        obtain rfl : bs = [] := eq_nil_of_length_eq_zero hlength'.symm
        exact hdiff (by simpa using hlast)
      have hne'' : bs ≠ [] := by
        rintro rfl
        exact hne' (eq_nil_of_length_eq_zero hlength')
      rw [getLast?_cons_of_ne_nil hne', getLast?_cons_of_ne_nil hne''] at hlast
      obtain ⟨h1, h2, h3⟩ := ih hlength' hne' hlast
      exact ⟨h1, h2.trans (suffix_cons _ _), h3.trans (suffix_cons _ _)⟩

omit [NodeCrypto P] in
/-- The last common ancestor of two entries above the same genesis block. -/
lemma lastCommonAncestor_spec {pa pb : BlockPath P} (hpa : pa ≠ []) (hpb : pb ≠ [])
    (hlast : pa.getLast? = pb.getLast?) :
    lastCommonAncestor pa pb ≠ [] ∧ lastCommonAncestor pa pb <:+ pa ∧
      lastCommonAncestor pa pb <:+ pb := by
  have ha := length_pos_iff.mpr hpa
  have hb := length_pos_iff.mpr hpb
  have hlength : (pa.drop (pa.length - pb.length)).length =
      (pb.drop (pb.length - pa.length)).length := by
    simp only [length_drop]
    omega
  have hne : pa.drop (pa.length - pb.length) ≠ [] := by
    rw [Ne, drop_eq_nil_iff]
    omega
  have hlast' : (pa.drop (pa.length - pb.length)).getLast? =
      (pb.drop (pb.length - pa.length)).getLast? := by
    rw [getLast?_drop, getLast?_drop, if_neg (by omega), if_neg (by omega), hlast]
  obtain ⟨h1, h2, h3⟩ := commonAncestor_spec hlength hne hlast'
  exact ⟨h1, h2.trans (drop_suffix _ _), h3.trans (drop_suffix _ _)⟩

/-! ### Along a branch -/

section Branches

variable [HashBytes P] {keys : PubKeyOps} {mw : MwUndoFormat P}
  {undoData : BlockPath P → Option (CBlockUndo P)} {genesis : CBlock P} {chain fork : BlockPath P}
  {coins coinsFork : Coins P} {ω : Type} {undoMweb : Mw.BlockUndo P → ω → Option ω}
  {mweb mweb' : ω} {view : CachedCoins P} {m : CoinMap P} {ms : List (CoinMap P)}

/-- Undoing a block with its undo data from the disk, whatever the view shows. -/
lemma rollbackBlock_shows (hcoins : coins.WellFormed) (hne : chain ≠ []) {b : CBlock P}
    {vtxundo : List (List (Coin P))} {c' : CoinsCache P} (hblock : b.Undoable)
    (hheight : chain.length < 2 ^ 31)
    (hconnect : connectTxs chain.length b.vtx ⟨coins, []⟩ = .ok (vtxundo, c'))
    {mwundo : Option (Mw.BlockUndo P)} (hmw : ∀ u, mwundo = some u → mw.Keeps u)
    (hundo : undoData (b :: chain) = undoThroughDisk keys mw ⟨vtxundo.tail, mwundo⟩)
    (hmweb : undoMwebPart undoMweb mwundo mweb = some mweb') (h : view.Shows m ms) :
    ∃ view', rollbackBlock undoMweb undoData b chain (view, mweb) = .ok (view', mweb') ∧
      view'.Shows (undoneMap chain.length b.vtx coins m) ms := by
  have hpos : 0 < (chain.length : ℤ) := by
    exact_mod_cast length_pos_iff.mpr hne
  have hlt : (chain.length : ℤ) < 2 ^ 31 := by exact_mod_cast hheight
  have hdisk :=
    CachedCoins.undoThroughDisk_of_connectTxs keys mw hcoins hblock hpos hlt hconnect hmw
  obtain ⟨clean, view', hdisconnect, hshows, -⟩ :=
    CachedCoins.disconnectBlock_spec hcoins hblock hpos hlt hconnect hmweb h
  refine ⟨view', ?_, hshows⟩
  simp only [rollbackBlock, hundo, hdisk, hdisconnect]

/-- Undoing a block moves the coins to the state before it. -/
lemma rollbackBlock_spec (below : ChainCoins keys mw undoData genesis chain coins) {b : CBlock P}
    {vtxundo : List (List (Coin P))} {c' : CoinsCache P} (hblock : b.Undoable)
    (hbip30 : overwritesCoin coins b = false) (hheight : chain.length < 2 ^ 31)
    (hconnect : connectTxs chain.length b.vtx ⟨coins, []⟩ = .ok (vtxundo, c'))
    (hundo : undoData (b :: chain) = undoThroughDisk keys mw ⟨vtxundo.tail, none⟩)
    (h : view.Shows m ms) :
    ∃ view' m', rollbackBlock undoMweb undoData b chain (view, mweb) = .ok (view', mweb) ∧
      view'.Shows m' ms ∧ Moves c'.coins.get coins.get m m' := by
  obtain ⟨hcoins, hpegout⟩ := below.wellFormed
  have hconnected := txsConnected_of_connectTxs hconnect
  obtain ⟨view', hback, hshows⟩ := rollbackBlock_shows hcoins below.ne_nil hblock hheight hconnect
    (show ∀ u, none = some u → mw.Keeps u by simp) hundo
    (show undoMwebPart undoMweb none mweb = some mweb from rfl) h
  refine ⟨view', _, hback, hshows, fun a => ?_⟩
  rw [undoneMap]
  cases htouch : firstTouch chain.length b.vtx a with
  | untouched => exact .inr ⟨rfl, hconnected.get_of_untouched htouch⟩
  | created => exact .inl (get_eq_none_of_firstTouch_eq_created hbip30 htouch).symm
  | spent =>
    left
    cases hget : coins.get a with
    | none => rfl
    | some coin => exact congrArg some (Coin.withoutPegout_eq_iff.mpr (hpegout a coin hget))

/-- Undoing the blocks down to the fork moves the coins to the state there. -/
lemma rollback_spec (hchain : ChainCoins keys mw undoData genesis chain coins)
    (hfork : ChainCoins keys mw undoData genesis fork coinsFork) (hsuffix : fork <:+ chain)
    (h : view.Shows m ms) :
    ∃ view' m', rollback undoMweb undoData fork chain (view, mweb) = .ok (view', mweb) ∧
      view'.Shows m' ms ∧ Moves coins.get coinsFork.get m m' := by
  induction hchain generalizing view m with
  | genesis =>
    rcases suffix_cons_iff.mp hsuffix with rfl | hnil
    · obtain rfl := hfork.unique .genesis
      exact ⟨view, m, by simp [rollback], h, .refl _ _⟩
    · exact absurd (suffix_nil.mp hnil) hfork.ne_nil
  | @block chain coins b vtxundo c' below hblock hhogEx hbip30 hheight hconnect hundo ih =>
    by_cases heq : b :: chain = fork
    · subst heq
      obtain rfl := hfork.unique (.block below hblock hhogEx hbip30 hheight hconnect hundo)
      exact ⟨view, m, by rw [rollback, if_pos rfl], h, .refl _ _⟩
    · have hbelow : fork <:+ chain :=
        (suffix_cons_iff.mp hsuffix).resolve_left fun hf => heq hf.symm
      obtain ⟨view₁, m₁, hblock₁, hshows₁, hmoves₁⟩ :=
        rollbackBlock_spec below hblock hbip30 hheight hconnect hundo h
      obtain ⟨view', m', hrest, hshows', hmoves'⟩ := ih hbelow hshows₁
      refine ⟨view', m', ?_, hshows', hmoves₁.trans hmoves'⟩
      rw [rollback, if_neg heq, if_neg below.ne_nil]
      exact (bind_of_eq_ok hblock₁ _).trans hrest

omit [HashBytes P] in
/-- Applying the blocks above the fork moves the coins from the state there to that of the tip. -/
lemma rollforward_spec (hne : fork ≠ []) (hblocks : BlocksConnected fork coinsFork chain coins)
    (h : view.Shows m ms) :
    ∃ view' m', rollforward (fork.length - 1) chain view = .ok view' ∧
      view'.Shows m' ms ∧ Moves coinsFork.get coins.get m m' := by
  induction hblocks with
  | fork =>
    obtain ⟨b, below, rfl⟩ := exists_cons_of_ne_nil hne
    exact ⟨view, m, by simp [rollforward], h, .refl _ _⟩
  | @block chain coins b vtxundo c' hblocks hblock hconnect ih =>
    obtain ⟨view₁, m₁, hrest, hshows₁, hmoves₁⟩ := ih
    have hconnected := txsConnected_of_connectTxs hconnect
    obtain ⟨view', m', hroll, hshows', hmoves'⟩ :=
      CachedCoins.rollforwardTxs_spec hconnected hblock.values hshows₁
    refine ⟨view', m', ?_, hshows', hmoves₁.trans hmoves'⟩
    have hlength : ¬ chain.length ≤ fork.length - 1 := by
      have hpos := length_pos_iff.mpr hne
      have hle := hblocks.suffix.length_le
      omega
    rw [rollforward, if_neg hlength]
    refine (bind_of_eq_ok hrest _).trans ?_
    rw [CachedCoins.rollforwardBlock, hroll]

end Branches

/-! ### Writing to the database -/

omit [NodeCrypto P] in
/-- An entry that is written leaves the coin of its layer. -/
lemma CellAgrees.writeEntry_eq {entry : CCoinsCacheEntry P} {own stored : Option (Coin P)}
    (h : CellAgrees (some entry) own stored) : writeEntry entry stored = own := by
  obtain ⟨hcoin, -, -, hclean⟩ := h
  cases hd : entry.dirty with
  | true => simp [writeEntry, hd, hcoin]
  | false => simp [writeEntry, hd, hclean hd]

omit [NodeCrypto P] in
/-- A cache that is written completely leaves its coins in the database. -/
lemma get_writeTo_of_agrees {coins : Coins P} {cache : CCoinsViewCache P} {own : CoinMap P}
    (h : cache.Agrees own coins.get) :
    (CellMap.writeTo writeEntry coins cache.cacheCoins).get = own := by
  funext a
  have hcell := h a
  rw [CellMap.get_writeTo]
  cases hlookup : cache.cacheCoins.lookup a with
  | none =>
    rw [hlookup] at hcell
    exact hcell.symm
  | some entry =>
    rw [hlookup] at hcell
    exact hcell.writeEntry_eq

omit [NodeCrypto P] in
/-- A cache that is written in part leaves a mixture. -/
lemma CoinsDB.Interrupted.mixed {db db' : CoinsDB P} {cache : CCoinsViewCache P}
    {tip : BlockPath P} {own : CoinMap P} (h : db.Interrupted cache tip db')
    (hcache : cache.Agrees own db.coins.get) (a : COutPoint P) :
    db'.coins.get a = db.coins.get a ∨ db'.coins.get a = own a := by
  rcases h.coins a with hold | ⟨entry, hlookup, hwritten⟩
  · exact .inl hold
  · have hcell := hcache a
    rw [hlookup] at hcell
    exact .inr (hwritten.trans hcell.writeEntry_eq)

omit [NodeCrypto P] in
/-- Every change of the coins is the content of some cache. -/
lemma exists_agrees {own : Coins P} (hown : own.WellFormed) (below : Coins P) :
    ∃ cache : CCoinsViewCache P, cache.Agrees own.get below.get := by
  have hpart : ∀ s : Finset (COutPoint P), ∃ cache : CCoinsViewCache P,
      cache.Agrees (fun a => if a ∈ s then own.get a else below.get a) below.get := by
    intro s
    induction s using Finset.induction_on with
    | empty => exact ⟨.empty, fun _ => rfl⟩
    | insert a s _ ih =>
      obtain ⟨cache, hcache⟩ := ih
      have hcell : CellAgrees (some ⟨(own.get a).getD .cleared, true, false⟩) (own.get a)
          (below.get a) := by
        cases hget : own.get a with
        | none => exact ⟨rfl, rfl, by simp, by simp⟩
        | some coin =>
          have hspent := (hown a coin hget).isSpent
          exact ⟨by simp [Coin.unspent?, hspent], by simp [CCoinsCacheEntry.Valid, hspent], by simp,
            by simp⟩
      refine ⟨_, (hcache.setCell a _ _ hcell).congr fun x => ?_⟩
      by_cases hx : x = a <;> simp [hx, Function.update]
  obtain ⟨cache, hcache⟩ := hpart (own.finite_bound.union below.finite_bound).toFinset
  refine ⟨cache, hcache.congr fun a => ?_⟩
  by_cases ha : own.get a = none ∧ below.get a = none
  · simp [ha.1, ha.2]
  · rw [if_pos (by simpa [imp_iff_not_or, not_and_or] using ha)]

omit [NodeCrypto P] in
/-- Every mixture of the old and the new coins is left by an interrupted flush. -/
lemma CoinsDB.exists_interrupted (db : CoinsDB P) (tip : BlockPath P) {own : Coins P}
    (hown : own.WellFormed) (coins : Coins P)
    (hmixed : ∀ a, coins.get a = db.coins.get a ∨ coins.get a = own.get a) :
    ∃ cache : CCoinsViewCache P, cache.Agrees own.get db.coins.get ∧
      db.Interrupted cache tip ⟨coins, none, some (tip, db.oldTip)⟩ := by
  obtain ⟨cache, hcache⟩ := exists_agrees hown db.coins
  refine ⟨cache, hcache, rfl, rfl, fun a => ?_⟩
  have hcell := hcache a
  cases hlookup : cache.cacheCoins.lookup a with
  | none =>
    rw [hlookup] at hcell
    exact .inl ((hmixed a).elim id (·.trans hcell))
  | some entry =>
    rw [hlookup] at hcell
    exact (hmixed a).imp_right fun h => ⟨entry, rfl, h.trans hcell.writeEntry_eq.symm⟩

/-! ### Crashes and the replay -/

section Recovery

variable [HashBytes P] (keys : PubKeyOps) (mw : MwUndoFormat P)
  (undoData : BlockPath P → Option (CBlockUndo P)) (genesis : CBlock P) {ω : Type}
  (undoMweb : Mw.BlockUndo P → ω → Option ω)

/-- The coins at a tip; before the first flush there is no tip and there are no coins. -/
def TipCoins (tip : Option (BlockPath P)) (coins : Coins P) : Prop :=
  match tip with
  | none => coins = FiniteMap.empty
  | some chain => ChainCoins keys mw undoData genesis chain coins

/-- The databases that interrupted flushes leave: the flush from the old tip to the new one, with
any cache that has the coins of the new tip, and then any number of flushes at the end of a
replay. -/
inductive Crashed (oldTip : Option (BlockPath P)) (newTip : BlockPath P)
    (coinsOld coinsNew : Coins P) : CoinsDB P → Prop
  | flush {db db' : CoinsDB P} {cache : CCoinsViewCache P} (hbest : db.bestBlock = oldTip)
    (hheads : db.headBlocks = none) (hcoins : db.coins = coinsOld)
    (hcache : cache.Agrees coinsNew.get db.coins.get) (hflush : db.Interrupted cache newTip db') :
    Crashed oldTip newTip coinsOld coinsNew db'
  | replay {db db' : CoinsDB P} {view : CachedCoins P} {mweb mweb' : ω}
    (crashed : Crashed oldTip newTip coinsOld coinsNew db)
    (hreplay : replayView undoMweb undoData newTip oldTip db.coins mweb = .ok (view, mweb'))
    (hflush : db.Interrupted view.cache newTip db') : Crashed oldTip newTip coinsOld coinsNew db'

end Recovery

section Recovery

variable [HashBytes P] {keys : PubKeyOps} {mw : MwUndoFormat P}
  {undoData : BlockPath P → Option (CBlockUndo P)} {genesis : CBlock P} {ω : Type}
  {undoMweb : Mw.BlockUndo P → ω → Option ω} {oldTip : Option (BlockPath P)} {newTip : BlockPath P}
  {coinsOld coinsNew : Coins P} {db : CoinsDB P}

lemma TipCoins.wellFormed (h : TipCoins keys mw undoData genesis oldTip coinsOld) :
    coinsOld.WellFormed := by
  cases oldTip with
  | none =>
    obtain rfl : coinsOld = FiniteMap.empty := h
    intro a coin hget
    simp at hget
  | some chain => exact (ChainCoins.wellFormed h).1

omit [NodeCrypto P] [HashBytes P] in
lemma wellFormed_of_mixed {coins : Coins P} (hold : coinsOld.WellFormed)
    (hnew : coinsNew.WellFormed)
    (hmixed : ∀ a, coins.get a = coinsOld.get a ∨ coins.get a = coinsNew.get a) :
    coins.WellFormed := by
  intro a coin hget
  rcases hmixed a with h | h
  · exact hold a coin (h ▸ hget)
  · exact hnew a coin (h ▸ hget)

/-- The replay on a mixture ends with a cache that has the coins of the new tip. -/
lemma replayView_spec (hold : TipCoins keys mw undoData genesis oldTip coinsOld)
    (hnew : ChainCoins keys mw undoData genesis newTip coinsNew) {coins : Coins P}
    (hmixed : ∀ a, coins.get a = coinsOld.get a ∨ coins.get a = coinsNew.get a) (mweb : ω) :
    ∃ view, replayView undoMweb undoData newTip oldTip coins mweb = .ok (view, mweb) ∧
      view.Shows coinsNew.get [coins.get] := by
  have hview := CachedCoins.shows_new (wellFormed_of_mixed hold.wellFormed hnew.wellFormed.1 hmixed)
  cases oldTip with
  | none =>
    obtain rfl : coinsOld = FiniteMap.empty := hold
    obtain ⟨above, habove⟩ := getLast?_eq_some_iff.mp hnew.getLast?_eq
    obtain ⟨coinsFork, hfork, hblocks⟩ := hnew.exists_of_suffix ⟨above, habove.symm⟩ (by simp)
    obtain rfl := hfork.unique .genesis
    obtain ⟨view, m', hroll, hshows, hmoves⟩ := rollforward_spec hfork.ne_nil hblocks hview
    refine ⟨view, bind_of_eq_ok hroll _, ?_⟩
    rwa [hmoves.eq_of_mixed hmixed] at hshows
  | some old =>
    have hchain : ChainCoins keys mw undoData genesis old coinsOld := hold
    obtain ⟨hne, hsuffixOld, hsuffixNew⟩ := lastCommonAncestor_spec hchain.ne_nil hnew.ne_nil
      (hchain.getLast?_eq.trans hnew.getLast?_eq.symm)
    obtain ⟨coinsFork, hfork, hblocks⟩ := hnew.exists_of_suffix hsuffixNew hne
    obtain ⟨view₁, m₁, hback, hshows₁, hmoves₁⟩ := rollback_spec hchain hfork hsuffixOld hview
    obtain ⟨view, m', hroll, hshows, hmoves⟩ := rollforward_spec hne hblocks hshows₁
    refine ⟨view, (bind_of_eq_ok hback _).trans (bind_of_eq_ok hroll _), ?_⟩
    rwa [(hmoves₁.trans hmoves).eq_of_mixed hmixed] at hshows

/-- What is known of the database after any number of crashes. -/
lemma Crashed.spec (hold : TipCoins keys mw undoData genesis oldTip coinsOld)
    (hnew : ChainCoins keys mw undoData genesis newTip coinsNew)
    (h : Crashed undoData undoMweb oldTip newTip coinsOld coinsNew db) :
    db.bestBlock = none ∧ db.headBlocks = some (newTip, oldTip) ∧
      ∀ a, db.coins.get a = coinsOld.get a ∨ db.coins.get a = coinsNew.get a := by
  induction h with
  | @flush db db' cache hbest hheads hcoins hcache hflush =>
    refine ⟨hflush.bestBlock, ?_, fun a => ?_⟩
    · rw [hflush.headBlocks, CoinsDB.oldTip, hbest, hheads]
      cases oldTip <;> rfl
    · rw [← hcoins]
      exact hflush.mixed hcache a
  | @replay db db' view mweb mweb' crashed hreplay hflush ih =>
    obtain ⟨hbest, hheads, hmixed⟩ := ih
    obtain ⟨view₂, hview₂, hshows⟩ := replayView_spec hold hnew hmixed mweb
    obtain ⟨rfl, -⟩ := Prod.mk.inj (Except.ok.inj (hreplay.symm.trans hview₂))
    refine ⟨hflush.bestBlock, ?_, fun a => ?_⟩
    · rw [hflush.headBlocks, CoinsDB.oldTip, hbest, hheads]
      rfl
    · rcases hflush.mixed hshows.1 a with hkept | hwritten
      · rw [hkept]
        exact hmixed a
      · exact .inr hwritten

/-- After any number of interrupted flushes the replay does not fail, and the database then has
exactly the coins of the new tip. -/
theorem replayBlocks_recovers (hold : TipCoins keys mw undoData genesis oldTip coinsOld)
    (hnew : ChainCoins keys mw undoData genesis newTip coinsNew)
    (h : Crashed undoData undoMweb oldTip newTip coinsOld coinsNew db) (mweb : ω) :
    ∃ db', replayBlocks undoMweb undoData db mweb = .ok (db', mweb) ∧ db'.coins = coinsNew ∧
      db'.bestBlock = some newTip ∧ db'.headBlocks = none := by
  obtain ⟨-, hheads, hmixed⟩ := h.spec hold hnew
  obtain ⟨view, hview, hshows⟩ := replayView_spec hold hnew hmixed mweb
  refine ⟨db.batchWrite view.cache newTip, ?_, ?_, rfl, rfl⟩
  · rw [replayBlocks, hheads]
    exact bind_of_eq_ok hview _
  · ext1 a
    exact congrFun (get_writeTo_of_agrees hshows.1) a

end Recovery

namespace Symbolic

/-- A genesis block. -/
def firstBlock : CBlock octets := ⟨⟨0, 0, 0, 0, 0, 0⟩, [plainTx ⟨0, nullIndex⟩ 50 0], none⟩

/-- A block with a coinbase only. -/
def rewardBlock (nLockTime : ℕ) : CBlock octets :=
  ⟨⟨0, 0, 0, 0, 0, 0⟩, [plainTx ⟨0, nullIndex⟩ 25 nLockTime], none⟩

/-- The coin that it creates at height 1. -/
def rewardCoins (nLockTime : ℕ) : Coins octets :=
  FiniteMap.empty.set ⟨nLockTime.toUInt8, 0⟩ (some ⟨plainOut 25, 1, true, false⟩)

lemma rewardBlock_undoable (nLockTime : ℕ) : (rewardBlock nLockTime).Undoable where
  coinbase := ⟨_, _, rfl, rfl, nofun⟩
  values := by
    intro tx htx out hout
    obtain rfl := mem_singleton.mp htx
    obtain rfl := mem_singleton.mp hout
    exact show MoneyRange 25 by decide
  length_le := show 1 ≤ maxSize by decide
  inputs_le := by
    intro tx htx
    obtain rfl := mem_singleton.mp htx
    exact show 1 ≤ maxSize by decide

/-- The coins after one of these blocks. -/
lemma chainCoins_reward (nLockTime : ℕ) :
    ChainCoins noKeys noMwUndo (fun _ => undoThroughDisk noKeys noMwUndo ⟨[], none⟩) firstBlock
      [rewardBlock nLockTime, firstBlock] (rewardCoins nLockTime) :=
  .block .genesis (rewardBlock_undoable nLockTime) (fun tx htx => by
    obtain rfl := mem_singleton.mp htx
    rfl) rfl (by decide) rfl rfl

/-- The flush in which one block replaces another is interrupted when the coin of the new one is
written and that of the old one not yet erased; the replay rolls the old one back. -/
theorem replayBlocks_recovers_fork :
    ∃ db', replayBlocks noMweb (fun _ => undoThroughDisk noKeys noMwUndo ⟨[], none⟩)
        ⟨(rewardCoins 1).set ⟨2, 0⟩ (some ⟨plainOut 25, 1, true, false⟩), none,
          some ([rewardBlock 2, firstBlock], some [rewardBlock 1, firstBlock])⟩ () =
          .ok (db', ()) ∧
      db'.coins.get ⟨1, 0⟩ = none ∧
      db'.coins.get ⟨2, 0⟩ = some ⟨plainOut 25, 1, true, false⟩ := by
  obtain ⟨cache, hcache, hflush⟩ := CoinsDB.exists_interrupted
    ⟨rewardCoins 1, some [rewardBlock 1, firstBlock], none⟩ [rewardBlock 2, firstBlock]
    (chainCoins_reward 2).wellFormed.1
    ((rewardCoins 1).set ⟨2, 0⟩ (some ⟨plainOut 25, 1, true, false⟩)) fun a => by
      by_cases ha : a = ⟨2, 0⟩
      · exact .inr (by simp [ha, rewardCoins])
      · exact .inl (by simp [ha])
  have hold : TipCoins noKeys noMwUndo (fun _ => undoThroughDisk noKeys noMwUndo ⟨[], none⟩)
      firstBlock (some [rewardBlock 1, firstBlock]) (rewardCoins 1) := chainCoins_reward 1
  obtain ⟨db', hreplay, hcoins, -⟩ := replayBlocks_recovers hold (chainCoins_reward 2)
    (.flush rfl rfl rfl hcache hflush) ()
  refine ⟨db', hreplay, ?_⟩
  rw [hcoins]
  exact ⟨rfl, rfl⟩

end Symbolic

end Aegisum
