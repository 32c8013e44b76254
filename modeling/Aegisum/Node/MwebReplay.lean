import Aegisum.Mweb.ViewStack
import Aegisum.Node.Recovery

/-!
# Extension blocks and interrupted flushes

`InitCoinsDB`, and what `ReplayBlocks` does to the view of the extension blocks.  Their tables are
written with the last batch of a flush only, so that an interrupted flush leaves them as they were
at the old tip.  The best header is not stored: it is that of the best block, which an interrupted
flush has erased.  Undoing a block finds the header again in its undo data; rolling a block forward
leaves its extension block out.
-/

namespace Aegisum

namespace Mw

variable {P : Primitives}

/-- The view with another best header. -/
def CoinsView.withHeader (v : CoinsView P) (hdr : Option (Header P)) : CoinsView P :=
  { v with bestHeader := hdr }

/-- The data on disk after a flush that was interrupted before its last batch: at most the files of
the next index were written. -/
structure MwStorage.Interrupted (st st' : MwStorage P) : Prop where
  coins : st'.coins = st.coins
  leaves : st'.leaves = st.leaves
  mmrIndex : st'.mmrIndex = st.mmrIndex
  leafSetFiles : ∀ i, i ≠ st.fileIndex + 1 → st'.leafSetFiles i = st.leafSetFiles i
  hashFiles : ∀ i, i ≠ st.fileIndex + 1 → st'.hashFiles i = st.hashFiles i

variable [MwCrypto P]

/-- The data on disk are those of the view, apart from the best header. -/
def MwStorage.Keeps (st : MwStorage P) (v : CoinsView P) : Prop :=
  (CoinsViewDB.open st v.bestHeader).Stores st v

/-- Opened with any header, the data on disk hold the view with that header. -/
lemma MwStorage.Keeps.stores {st : MwStorage P} {v : CoinsView P} (h : st.Keeps v)
    (hdr : Option (Header P)) : (CoinsViewDB.open st hdr).Stores st (v.withHeader hdr) where
  bestHeader := rfl
  coins := h.coins
  leafSet := h.leafSet
  outputPMMR := h.outputPMMR
  leaves := h.leaves

/-- An interrupted flush keeps the data on disk. -/
lemma MwStorage.Keeps.interrupted {st st' : MwStorage P} {v : CoinsView P} (h : st.Keeps v)
    (hflush : st.Interrupted st') : st'.Keeps v := by
  have hindex : st'.fileIndex = st.fileIndex := by
    rw [fileIndex, hflush.mmrIndex]
    rfl
  have hne : st.fileIndex ≠ st.fileIndex + 1 := by omega
  have hopen : CoinsViewDB.open st' v.bestHeader = CoinsViewDB.open st v.bestHeader := by
    rw [CoinsViewDB.open, CoinsViewDB.open, hindex, hflush.leafSetFiles _ hne,
      hflush.hashFiles _ hne]
  rw [Keeps, hopen]
  refine ⟨h.bestHeader, hflush.coins.trans h.coins, h.leafSet, h.outputPMMR, ?_⟩
  rw [hflush.leaves]
  exact h.leaves

namespace CoinsViewCache

variable {base : ICoinsView P} {vb v v' : CoinsView P} {c c' : CoinsViewCache P}
  {undo : BlockUndo P}

/-- The best header of a cache has no influence on undoing a block in it. -/
lemma StandsFor.undoBlock_withHeader (hbase : base.Answers vb) (hv : v.Synced) {b : Block P}
    (happly : v.applyBlock b = .ok (undo, v')) {hdr : Option (Header P)}
    (hc : c.StandsFor vb (v'.withHeader hdr)) :
    ∃ c', c.undoBlock base undo = .ok c' ∧ c'.StandsFor vb v := by
  have hc' : StandsFor vb { c with bestHeader := v'.bestHeader } v' :=
    ⟨rfl, hc.coins, hc.leafSet, hc.outputPMMR⟩
  obtain ⟨c'', hundo, hstands⟩ := StandsFor.undoBlock hbase hv happly hc'
  exact ⟨c'', hundo, hstands⟩

/-- Undoing blocks does not add nodes. -/
lemma nodes_undoBlock (hundo : c.undoBlock base undo = .ok c') (hnodes : c.outputPMMR.nodes = []) :
    c'.outputPMMR.nodes = [] := by
  have hrewind : ∀ n, (c.outputPMMR.rewind n).nodes = [] := by
    intro n
    rw [PMMRCache.rewind]
    split
    · rfl
    · split
      · exact hnodes
      · simp [hnodes]
  rw [undoBlock] at hundo
  cases hprev : undo.prevHeader with
  | none =>
    rw [hprev] at hundo
    obtain rfl := Except.ok.inj hundo
    exact hrewind 0
  | some hdr =>
    rw [hprev] at hundo
    obtain ⟨_, -, hundo⟩ := bind_eq_ok.mp hundo
    obtain rfl := Except.ok.inj hundo
    exact hrewind _

end CoinsViewCache

end Mw

variable {P : Primitives}

/-! ### Starting again -/

open Mw (MwStorage CoinsViewDB CoinsViewCache ICoinsView CoinsView)

/-- The header of the extension block of the best block. -/
def bestMwebHeader (bestBlock : Option (BlockPath P)) : Option (Mw.Header P) := do
  let chain ← bestBlock
  let block ← chain.head?
  let mwebBlock ← block.mwebBlock
  pure mwebBlock.header

lemma bestMwebHeader_cons (block : CBlock P) (chain : BlockPath P) :
    bestMwebHeader (some (block :: chain)) = block.mwebBlock.map Mw.Block.header := by
  cases hblock : block.mwebBlock <;> simp [bestMwebHeader, hblock]

/-- `InitCoinsDB`: the view of the extension blocks is opened with the header of the best block. -/
def initCoinsDB (db : CoinsDB P) (st : MwStorage P) : CoinsViewDB P :=
  .open st (bestMwebHeader db.bestBlock)

/-- Ways in which starting again fails. -/
inductive RestartError
  | replay (error : ReplayError)
  | flush (error : Mw.ViewError)

variable [NodeCrypto P]

/-- `UndoBlock` in the cache on top of the given view; an exception makes `DisconnectBlock` fail. -/
def undoMwebBlock (base : ICoinsView P) (undo : Mw.BlockUndo P) (cache : CoinsViewCache P) :
    Option (CoinsViewCache P) :=
  (cache.undoBlock base undo).toOption

/-- `InitCoinsDB` and `ReplayBlocks`, with the view of the extension blocks that is flushed with
the coins if there was something to replay. -/
def restart (undoData : BlockPath P → Option (CBlockUndo P)) (db : CoinsDB P) (st : MwStorage P) :
    Except RestartError (CoinsDB P × MwStorage P × CoinsViewDB P) := do
  let view := initCoinsDB db st
  let base := view.toView st
  let (db', cache) ←
    (replayBlocks (undoMwebBlock base) undoData db (.new base)).mapError RestartError.replay
  if db.headBlocks.isNone then pure (db', st, view)
  else do
    let (_, view', st', batch) ← (cache.flushToDB st view).mapError RestartError.flush
    pure (db', st'.write batch, view')

/-! ### Chains with extension blocks -/

section Chains

variable [HashBytes P] (keys : PubKeyOps) (mw : MwUndoFormat P)
  (undoData : BlockPath P → Option (CBlockUndo P)) (genesis : CBlock P)

/-- The extension block of a block at a height, connected to a view.  There is none before the
first one, and from then on there is one in every block, with the height of the block. -/
inductive MwebConnected (nHeight : ℤ) (v : CoinsView P) (b : CBlock P) :
    Option (Mw.BlockUndo P) → CoinsView P → Prop
  | inactive (hinactive : v.bestHeader = none) (hnone : b.mwebBlock = none) :
    MwebConnected nHeight v b none v
  | active {mwebBlock : Mw.Block P} {undo : Mw.BlockUndo P} {v' : CoinsView P}
    (hsome : b.mwebBlock = some mwebBlock) (hheight : mwebBlock.header.height = nHeight)
    (happly : v.applyBlock mwebBlock = .ok (undo, v')) (hkeeps : mw.Keeps undo) :
    MwebConnected nHeight v b (some undo) v'

/-- The coins and the view of the extension blocks at an entry of a block tree.  The undo data of
every block are on the disk. -/
inductive ChainViews : BlockPath P → Coins P → CoinsView P → Prop
  | genesis (hnone : genesis.mwebBlock = none) : ChainViews [genesis] FiniteMap.empty .empty
  | block {chain : BlockPath P} {coins : Coins P} {v v' : CoinsView P} {b : CBlock P}
    {vtxundo : List (List (Coin P))} {c' : CoinsCache P} {mwundo : Option (Mw.BlockUndo P)}
    (below : ChainViews chain coins v) (hblock : b.Undoable) (hheight : chain.length < 2 ^ 31)
    (hconnect : CoinsCache.connectTxs chain.length b.vtx ⟨coins, []⟩ = .ok (vtxundo, c'))
    (hmweb : MwebConnected mw chain.length v b mwundo v')
    (hundo : undoData (b :: chain) = undoThroughDisk keys mw ⟨vtxundo.tail, mwundo⟩) :
    ChainViews (b :: chain) c'.coins v'

end Chains

namespace MwebConnected

variable {mw : MwUndoFormat P} {nHeight : ℤ} {v v₁ v₂ : CoinsView P} {b : CBlock P}
  {mwundo mwundo₁ mwundo₂ : Option (Mw.BlockUndo P)}

lemma unique (h₁ : MwebConnected mw nHeight v b mwundo₁ v₁)
    (h₂ : MwebConnected mw nHeight v b mwundo₂ v₂) : mwundo₁ = mwundo₂ ∧ v₁ = v₂ := by
  cases h₁ with
  | inactive _ hnone =>
    cases h₂ with
    | inactive => exact ⟨rfl, rfl⟩
    | active hsome => cases hnone.symm.trans hsome
  | active hsome _ happly =>
    cases h₂ with
    | inactive _ hnone => cases hnone.symm.trans hsome
    | active hsome' _ happly' =>
      obtain rfl := Option.some.inj (hsome.symm.trans hsome')
      obtain ⟨rfl, rfl⟩ := Prod.mk.inj (Except.ok.inj (happly.symm.trans happly'))
      exact ⟨rfl, rfl⟩

/-- The best header is that of the block. -/
lemma bestHeader (h : MwebConnected mw nHeight v b mwundo v₁) :
    v₁.bestHeader = b.mwebBlock.map Mw.Block.header := by
  cases h with
  | inactive hinactive hnone => rw [hinactive, hnone, Option.map_none]
  | active hsome _ happly =>
    obtain ⟨mid, happ⟩ := CoinsView.applied_of_applyBlock happly
    rw [happ.bestHeader, hsome, Option.map_some]

lemma built (h : MwebConnected mw nHeight v b mwundo v₁)
    (hv : ∃ s, CoinsView.Built v s) : ∃ s, CoinsView.Built v₁ s := by
  obtain ⟨s, hs⟩ := hv
  cases h with
  | inactive => exact ⟨s, hs⟩
  | active _ _ happly => exact ⟨_, .applyBlock hs happly⟩

lemma keeps (h : MwebConnected mw nHeight v b mwundo v₁) : ∀ u, mwundo = some u → mw.Keeps u := by
  cases h with
  | inactive => simp
  | active _ _ _ hkeeps =>
    rintro u ⟨⟩
    exact hkeeps

end MwebConnected

namespace ChainViews

variable [HashBytes P] {keys : PubKeyOps} {mw : MwUndoFormat P}
  {undoData : BlockPath P → Option (CBlockUndo P)} {genesis : CBlock P} {chain fork : BlockPath P}
  {coins coins' : Coins P} {v v' : CoinsView P}

section

variable (h : ChainViews keys mw undoData genesis chain coins v)

include h

lemma ne_nil : chain ≠ [] := by
  cases h <;> simp

lemma wellFormed : coins.WellFormed := by
  induction h with
  | genesis => exact fun a coin hget => by simp at hget
  | @block chain coins v v' b vtxundo c' mwundo below hblock hheight hconnect _ _ ih =>
    have hconnected := CoinsCache.txsConnected_of_connectTxs hconnect
    have hpos : 0 < (chain.length : ℤ) := by
      exact_mod_cast List.length_pos_iff.mpr below.ne_nil
    exact (hconnected.vtxundo_wellFormed hblock.values hblock.inputs_le hpos
      (by exact_mod_cast hheight) ih).1

lemma built : ∃ s, CoinsView.Built v s := by
  induction h with
  | genesis => exact ⟨[], .empty⟩
  | block _ _ _ _ hmweb _ ih => exact hmweb.built ih

lemma synced : v.Synced := by
  obtain ⟨s, hs⟩ := h.built
  exact hs.synced

/-- The coins and the view are determined by the entry. -/
lemma unique (h' : ChainViews keys mw undoData genesis chain coins' v') :
    coins = coins' ∧ v = v' := by
  induction h generalizing coins' v' with
  | genesis =>
    cases h' with
    | genesis => exact ⟨rfl, rfl⟩
    | block below => exact absurd rfl below.ne_nil
  | @block chain coins v v₁ b vtxundo c' mwundo below _ _ hconnect hmweb _ ih =>
    cases h' with
    | genesis => exact absurd rfl below.ne_nil
    | block below' _ _ hconnect' hmweb' _ =>
      obtain ⟨rfl, rfl⟩ := ih below'
      obtain ⟨-, rfl⟩ := Prod.mk.inj (Except.ok.inj (hconnect.symm.trans hconnect'))
      exact ⟨rfl, (hmweb.unique hmweb').2⟩

/-- The best header is the one that is found for the entry. -/
lemma bestHeader : v.bestHeader = bestMwebHeader (some chain) := by
  cases h with
  | genesis hnone =>
    rw [bestMwebHeader_cons, hnone]
    rfl
  | block _ _ _ _ hmweb _ => rw [bestMwebHeader_cons, hmweb.bestHeader]

/-- The best header has the height of the entry. -/
lemma height {hdr : Mw.Header P} (hhdr : v.bestHeader = some hdr) :
    hdr.height + 1 = chain.length := by
  cases h with
  | genesis => cases hhdr
  | @block chain _ _ _ _ _ _ _ _ _ _ _ hmweb _ =>
    rw [hmweb.bestHeader] at hhdr
    cases hmweb with
    | inactive _ hnone =>
      rw [hnone] at hhdr
      cases hhdr
    | active hsome hheight _ _ =>
      rw [hsome, Option.map_some] at hhdr
      obtain rfl := Option.some.inj hhdr
      rw [hheight]
      simp

/-- The entries below an entry have coins and a view, too, and the blocks above were connected to
the coins. -/
lemma exists_of_suffix (hsuffix : fork <:+ chain) (hne : fork ≠ []) :
    ∃ coinsFork vFork, ChainViews keys mw undoData genesis fork coinsFork vFork ∧
      BlocksConnected fork coinsFork chain coins := by
  induction h with
  | genesis hnone =>
    rcases List.suffix_cons_iff.mp hsuffix with rfl | hnil
    · exact ⟨_, _, .genesis hnone, .fork⟩
    · exact absurd (List.suffix_nil.mp hnil) hne
  | @block chain coins v v' b vtxundo c' mwundo below hblock hheight hconnect hmweb hundo ih =>
    rcases List.suffix_cons_iff.mp hsuffix with rfl | hbelow
    · exact ⟨_, _, .block below hblock hheight hconnect hmweb hundo, .fork⟩
    · obtain ⟨coinsFork, vFork, hfork, hblocks⟩ := ih hbelow
      exact ⟨coinsFork, vFork, hfork, .block hblocks hblock hconnect⟩

lemma getLast?_eq : chain.getLast? = some genesis := by
  induction h with
  | genesis => rfl
  | block below _ _ _ _ _ ih => rw [List.getLast?_cons_of_ne_nil below.ne_nil, ih]

end

end ChainViews

/-! ### Undoing the blocks of a branch -/

/-- All coins of the map are well-formed. -/
def CoinMap.WellFormed (m : CoinMap P) : Prop := ∀ a coin, m a = some coin → coin.WellFormed

/-- Undoing a block leaves well-formed coins. -/
lemma undoneMap_wellFormed {nHeight : ℤ} {txs : List (CTransaction P)} {before : Coins P}
    {m : CoinMap P} (hbefore : before.WellFormed) (hm : CoinMap.WellFormed m) :
    CoinMap.WellFormed (undoneMap nHeight txs before m) := by
  intro a coin hget
  rw [undoneMap] at hget
  split at hget
  · exact hm a coin hget
  · obtain ⟨old, hold, rfl⟩ := Option.map_eq_some_iff.mp hget
    obtain ⟨hvalue, hspendable, hpos, hlt⟩ := hbefore a old hold
    exact ⟨hvalue, hspendable, hpos, hlt⟩
  · cases hget

omit [NodeCrypto P] in
/-- Moving to well-formed coins leaves well-formed coins. -/
lemma Moves.wellFormed {source : CoinMap P} {target : Coins P} {m m' : CoinMap P}
    (h : Moves source target.get m m') (htarget : target.WellFormed) (hm : CoinMap.WellFormed m) :
    CoinMap.WellFormed m' := by
  intro a coin hget
  rcases h a with heq | ⟨heq, -⟩
  · exact htarget a coin (heq ▸ hget)
  · exact hm a coin (heq ▸ hget)

section Branch

variable {mw : MwUndoFormat P} {base : ICoinsView P} {vb v v' : CoinsView P} {b : CBlock P}
  {c : CoinsViewCache P} {hdr : Option (Mw.Header P)} {mwundo : Option (Mw.BlockUndo P)}

/-- Undoing a block in a cache that has no best header or the right one; the cache then has the
right one. -/
lemma MwebConnected.undo {nHeight : ℤ} (h : MwebConnected mw nHeight v b mwundo v') (hv : v.Synced)
    (hbase : base.Answers vb) (hc : c.StandsFor vb (v'.withHeader hdr))
    (hhdr : hdr = none ∨ hdr = v'.bestHeader) (hnodes : c.outputPMMR.nodes = []) :
    ∃ c', undoMwebPart (undoMwebBlock base) mwundo c = some c' ∧ c'.StandsFor vb v ∧
      c'.outputPMMR.nodes = [] := by
  cases h with
  | inactive hinactive _ =>
    have hnone : hdr = v.bestHeader := by
      rcases hhdr with rfl | rfl
      · exact hinactive.symm
      · rfl
    subst hnone
    exact ⟨c, rfl, hc, hnodes⟩
  | active _ _ happly _ =>
    obtain ⟨c', hundo, hstands⟩ := hc.undoBlock_withHeader hbase hv happly
    refine ⟨c', ?_, hstands, CoinsViewCache.nodes_undoBlock hundo hnodes⟩
    rw [undoMwebPart, Option.elim_some, undoMwebBlock, hundo]
    rfl

variable [HashBytes P] {keys : PubKeyOps} {undoData : BlockPath P → Option (CBlockUndo P)}
  {genesis : CBlock P} {chain fork : BlockPath P} {coins coinsFork : Coins P} {vFork : CoinsView P}
  {view : CachedCoins P} {m : CoinMap P} {ms : List (CoinMap P)}

/-- Undoing the blocks down to the fork.  If this is at least one block the cache then stands for
the view at the fork with its best header. -/
lemma rollback_views (hchain : ChainViews keys mw undoData genesis chain coins v)
    (hfork : ChainViews keys mw undoData genesis fork coinsFork vFork) (hsuffix : fork <:+ chain)
    (hbase : base.Answers vb) (hc : c.StandsFor vb (v.withHeader hdr))
    (hhdr : hdr = none ∨ hdr = v.bestHeader) (hnodes : c.outputPMMR.nodes = [])
    (hm : CoinMap.WellFormed m) (h : view.Shows m ms) :
    ∃ view' m' c', rollback (undoMwebBlock base) undoData fork chain (view, c) = .ok (view', c') ∧
      view'.Shows m' ms ∧ CoinMap.WellFormed m' ∧ c'.outputPMMR.nodes = [] ∧
      c'.StandsFor vb (vFork.withHeader (if chain = fork then hdr else vFork.bestHeader)) := by
  induction hchain generalizing view m c hdr with
  | genesis hnone =>
    rcases List.suffix_cons_iff.mp hsuffix with rfl | hnil
    · obtain ⟨-, rfl⟩ := hfork.unique (.genesis hnone)
      exact ⟨view, m, c, by simp [rollback], h, hm, hnodes, by rwa [if_pos rfl]⟩
    · exact absurd (List.suffix_nil.mp hnil) hfork.ne_nil
  | @block chain coins v v' b vtxundo c₀ mwundo below hblock hheight hconnect hmweb hundo ih =>
    by_cases heq : b :: chain = fork
    · subst heq
      obtain ⟨-, rfl⟩ := hfork.unique (.block below hblock hheight hconnect hmweb hundo)
      exact ⟨view, m, c, by rw [rollback, if_pos rfl], h, hm, hnodes, by rwa [if_pos rfl]⟩
    · have hbelow : fork <:+ chain :=
        (List.suffix_cons_iff.mp hsuffix).resolve_left fun hf => heq hf.symm
      obtain ⟨c₁, hpart, hc₁, hnodes₁⟩ := hmweb.undo below.synced hbase hc hhdr hnodes
      obtain ⟨view₁, hback, hshows₁⟩ := rollbackBlock_shows below.wellFormed below.ne_nil hblock
        hheight hconnect hmweb.keeps hundo hpart h
      obtain ⟨view', m', c', hrest, hshows', hm', hnodes', hc'⟩ := ih hbelow
        (show c₁.StandsFor vb (v.withHeader v.bestHeader) from hc₁) (.inr rfl) hnodes₁
        (undoneMap_wellFormed below.wellFormed hm) hshows₁
      refine ⟨view', m', c', ?_, hshows', hm', hnodes', ?_⟩
      · rw [rollback, if_neg heq, if_neg below.ne_nil]
        exact (bind_of_eq_ok hback _).trans hrest
      · rw [if_neg heq]
        split at hc'
        case isTrue hchain =>
          subst hchain
          obtain ⟨-, rfl⟩ := hfork.unique below
          exact hc'
        case isFalse => exact hc'

end Branch

end Aegisum
