import Aegisum.Node.MwebReplay

/-!
# Recovery of the view of the extension blocks

After an interrupted flush the tables and files of the extension blocks are those of the old tip,
and the view is opened without a best header.  The replay rolls the view back to the fork, which
gives it a best header again, but it does not roll it forward; and if it has no best header it is
not written.  The view is that of the new tip exactly if the new tip is below the old one.
-/

namespace Aegisum

open Mw (MwStorage CoinsViewDB CoinsViewCache ICoinsView CoinsView)

variable {P : Primitives} [NodeCrypto P]

/-! ### The common ancestor -/

omit [NodeCrypto P] in
lemma commonAncestor_self {chain : BlockPath P} (hne : chain ≠ []) :
    commonAncestor chain chain = chain := by
  obtain ⟨b, chain, rfl⟩ := List.exists_cons_of_ne_nil hne
  rw [commonAncestor, if_pos rfl]

omit [NodeCrypto P] in
/-- The last common ancestor with an entry below is that entry. -/
lemma lastCommonAncestor_eq_of_suffix {pa pb : BlockPath P} (hpb : pb ≠ []) (h : pb <:+ pa) :
    lastCommonAncestor pa pb = pb := by
  have hle := h.length_le
  rw [lastCommonAncestor, ← List.suffix_iff_eq_drop.mp h, Nat.sub_eq_zero_of_le hle, List.drop_zero,
    commonAncestor_self hpb]

section Recovery

variable [HashBytes P] (keys : PubKeyOps) (mw : MwUndoFormat P)
  (undoData : BlockPath P → Option (CBlockUndo P)) (genesis : CBlock P)

/-- The coins and the view at a tip; before the first flush there is no tip and they are empty. -/
def TipViews (tip : Option (BlockPath P)) (coins : Coins P) (v : CoinsView P) : Prop :=
  match tip with
  | none => coins = FiniteMap.empty ∧ v = .empty
  | some chain => ChainViews keys mw undoData genesis chain coins v

omit [HashBytes P] in
/-- What interrupted flushes leave on disk: the flush from the old tip to the new one, and then any
number of flushes at the end of a replay. -/
inductive MwebCrashed (oldTip : Option (BlockPath P)) (newTip : BlockPath P)
    (coinsOld coinsNew : Coins P) (vOld : CoinsView P) : CoinsDB P → MwStorage P → Prop
  | flush {db db' : CoinsDB P} {st st' : MwStorage P} {cache : CCoinsViewCache P}
    (hbest : db.bestBlock = oldTip) (hheads : db.headBlocks = none) (hcoins : db.coins = coinsOld)
    (hst : st.Keeps vOld) (hcache : cache.Agrees coinsNew.get db.coins.get)
    (hflush : db.Interrupted cache newTip db') (hmweb : st.Interrupted st') :
    MwebCrashed oldTip newTip coinsOld coinsNew vOld db' st'
  | replay {db db' : CoinsDB P} {st st' : MwStorage P} {view : CachedCoins P}
    {cache : CoinsViewCache P} (crashed : MwebCrashed oldTip newTip coinsOld coinsNew vOld db st)
    (hreplay : replayView (undoMwebBlock ((initCoinsDB db st).toView st)) undoData newTip oldTip
      db.coins (.new ((initCoinsDB db st).toView st)) = .ok (view, cache))
    (hflush : db.Interrupted view.cache newTip db') (hmweb : st.Interrupted st') :
    MwebCrashed oldTip newTip coinsOld coinsNew vOld db' st'

/-- The view at the end of the replay: without a best header if nothing was undone, and that of the
fork otherwise. -/
inductive RolledBack (oldTip : Option (BlockPath P)) (newTip : BlockPath P) (vOld : CoinsView P) :
    CoinsView P → Prop
  | nothing (h : ∀ old, oldTip = some old → old <:+ newTip) :
    RolledBack oldTip newTip vOld (vOld.withHeader none)
  | fork {old : BlockPath P} {coinsFork : Coins P} {vFork : CoinsView P} (hold : oldTip = some old)
    (hne : old ≠ lastCommonAncestor old newTip)
    (hbelow : lastCommonAncestor old newTip <:+ old)
    (hsuffix : lastCommonAncestor old newTip <:+ newTip)
    (hfork : ChainViews keys mw undoData genesis (lastCommonAncestor old newTip) coinsFork vFork) :
    RolledBack oldTip newTip vOld vFork

end Recovery

/-- With an extension block at the new tip, the new tip is below the old one; without one, no
output was ever added up to the old tip. -/
def MwebRecovers (oldTip : Option (BlockPath P)) (newTip : BlockPath P) (vOld : CoinsView P) :
    Prop :=
  if (bestMwebHeader (some newTip)).isSome then
    ∃ old, oldTip = some old ∧ newTip <:+ old ∧ newTip ≠ old
  else vOld.outputPMMR.leaves = []

section Recovery

variable [HashBytes P] {keys : PubKeyOps} {mw : MwUndoFormat P}
  {undoData : BlockPath P → Option (CBlockUndo P)} {genesis : CBlock P}
  {oldTip : Option (BlockPath P)} {newTip : BlockPath P} {coins coinsOld coinsNew : Coins P}
  {vOld vNew : CoinsView P} {db : CoinsDB P} {st : MwStorage P} {base : ICoinsView P}

variable (hold : TipViews keys mw undoData genesis oldTip coinsOld vOld)
  (hnew : ChainViews keys mw undoData genesis newTip coinsNew vNew)

include hold in
lemma TipViews.wellFormed_and_synced : coinsOld.WellFormed ∧ vOld.Synced := by
  cases oldTip with
  | none =>
    obtain ⟨rfl, rfl⟩ : coinsOld = FiniteMap.empty ∧ vOld = .empty := hold
    exact ⟨fun a coin hget => by simp at hget, CoinsView.synced_empty⟩
  | some chain => exact ⟨ChainViews.wellFormed hold, ChainViews.synced hold⟩

include hold hnew in
/-- The replay on well-formed coins and the view of the old tip without its best header. -/
lemma replayView_views (hcoins : coins.WellFormed)
    (hbase : base.Answers (vOld.withHeader none)) :
    ∃ view m c vr, replayView (undoMwebBlock base) undoData newTip oldTip coins (.new base) =
        .ok (view, c) ∧
      view.Shows m [coins.get] ∧ CoinMap.WellFormed m ∧ c.outputPMMR.nodes = [] ∧
      c.StandsFor (vOld.withHeader none) vr ∧
      RolledBack keys mw undoData genesis oldTip newTip vOld vr := by
  have hview := CachedCoins.shows_new hcoins
  have hstands := CoinsViewCache.standsFor_new hbase
  cases oldTip with
  | none =>
    obtain ⟨above, habove⟩ := List.getLast?_eq_some_iff.mp hnew.getLast?_eq
    obtain ⟨coinsFork, vFork, hfork, hblocks⟩ :=
      hnew.exists_of_suffix ⟨above, habove.symm⟩ (by simp)
    obtain ⟨view, m, hroll, hshows, hmoves⟩ := rollforward_spec hfork.ne_nil hblocks hview
    exact ⟨view, m, _, _, bind_of_eq_ok hroll _, hshows, hmoves.wellFormed hnew.wellFormed hcoins,
      rfl, hstands, .nothing (by simp)⟩
  | some old =>
    have hchain : ChainViews keys mw undoData genesis old coinsOld vOld := hold
    obtain ⟨hne, hsuffixOld, hsuffixNew⟩ := lastCommonAncestor_spec hchain.ne_nil hnew.ne_nil
      (hchain.getLast?_eq.trans hnew.getLast?_eq.symm)
    obtain ⟨coinsFork, vFork, hfork, hblocks⟩ := hnew.exists_of_suffix hsuffixNew hne
    obtain ⟨view₁, m₁, c, hback, hshows₁, hm₁, hnodes, hc⟩ :=
      rollback_views hchain hfork hsuffixOld hbase hstands (.inl rfl) rfl hcoins hview
    obtain ⟨view, m, hroll, hshows, hmoves⟩ := rollforward_spec hne hblocks hshows₁
    refine ⟨view, m, c, _, (bind_of_eq_ok hback _).trans (bind_of_eq_ok hroll _), hshows,
      hmoves.wellFormed hnew.wellFormed hm₁, hnodes, hc, ?_⟩
    split
    case isTrue heq =>
      obtain ⟨-, rfl⟩ := hchain.unique (by rw [heq]; exact hfork)
      refine .nothing fun old' hold' => ?_
      obtain rfl := Option.some.inj hold'
      rw [heq]
      exact hsuffixNew
    case isFalse hdiff => exact .fork rfl hdiff hsuffixOld hsuffixNew hfork

include hold hnew in
/-- What is known of the data on disk after any number of crashes. -/
lemma MwebCrashed.spec
    (h : MwebCrashed undoData oldTip newTip coinsOld coinsNew vOld db st) :
    db.bestBlock = none ∧ db.headBlocks = some (newTip, oldTip) ∧ db.coins.WellFormed ∧
      st.Keeps vOld := by
  induction h with
  | @flush db db' st st' cache hbest hheads hcoins hst hcache hflush hmweb =>
    refine ⟨hflush.bestBlock, ?_, ?_, hst.interrupted hmweb⟩
    · rw [hflush.headBlocks, CoinsDB.oldTip, hbest, hheads]
      cases oldTip <;> rfl
    · refine wellFormed_of_mixed hold.wellFormed_and_synced.1 hnew.wellFormed fun a => ?_
      rw [← hcoins]
      exact hflush.mixed hcache a
  | @replay db db' st st' view cache crashed hreplay hflush hmweb ih =>
    obtain ⟨hbest, hheads, hcoins, hst⟩ := ih
    have hbase : ((initCoinsDB db st).toView st).Answers (vOld.withHeader none) := by
      rw [initCoinsDB, hbest]
      exact (hst.stores none).answers
    obtain ⟨view₂, m, c, vr, hview₂, hshows, hm, -⟩ := replayView_views hold hnew hcoins hbase
    obtain ⟨rfl, -⟩ := Prod.mk.inj (Except.ok.inj (hreplay.symm.trans hview₂))
    refine ⟨hflush.bestBlock, ?_, fun a coin hget => ?_, hst.interrupted hmweb⟩
    · rw [hflush.headBlocks, CoinsDB.oldTip, hbest, hheads]
      rfl
    · rcases hflush.mixed hshows.1 a with hkept | hwritten
      · exact hcoins a coin (hkept ▸ hget)
      · exact hm a coin (hwritten ▸ hget)

/-! ### The view after the flush -/

omit [HashBytes P] in
/-- Flushing the cache at the end of the replay: nothing is written without a best header, and
otherwise the data on disk are those of the cache. -/
lemma flushToDB_answers {c : CoinsViewCache P} {vr : CoinsView P} (hst : st.Keeps vOld)
    (hc : c.StandsFor (vOld.withHeader none) vr) (hnodes : c.outputPMMR.nodes = [])
    (hvr : vr.bestHeader.isNone = false → vr.Synced) :
    ∃ c' view' st' batch, c.flushToDB st (.open st none) = .ok (c', view', st', batch) ∧
      (view'.toView (st'.write batch)).Answers
        (if vr.bestHeader.isNone then vOld.withHeader none else vr) := by
  cases hheader : vr.bestHeader.isNone with
  | true =>
    have hflush : c.flushToDB st (.open st none) = .ok (c, .open st none, st, .empty) := by
      rw [CoinsViewCache.flushToDB, hc.bestHeader, hheader]
      rfl
    exact ⟨_, _, _, _, hflush, (hst.stores none).answers⟩
  | false =>
    have hsome : c.bestHeader.isNone = false := by rw [hc.bestHeader, hheader]
    obtain ⟨disk, batch, hflush, -, hcoins, hleaves, -, hiff⟩ :=
      CoinsViewCache.flushToDB_eq (hst.stores none) hc (hvr hheader) hsome
    -- no node was added, so the hash file is only cut
    have hdisk := hiff.mpr (by rw [hnodes]; exact List.nil_prefix)
    exact ⟨_, _, _, _, hflush,
      (Mw.ViewStack.stores_flushed ⟨rfl, rfl⟩ hcoins hleaves hdisk).answers⟩

lemma RolledBack.synced {vr : CoinsView P}
    (h : RolledBack keys mw undoData genesis oldTip newTip vOld vr)
    (hheader : vr.bestHeader.isNone = false) : vr.Synced := by
  cases h with
  | nothing => cases hheader
  | fork _ _ _ _ hfork => exact hfork.synced

include hold hnew in
/-- Starting again never fails. -/
lemma restart_answers
    (h : MwebCrashed undoData oldTip newTip coinsOld coinsNew vOld db st) :
    ∃ db' st' view' vr, restart undoData db st = .ok (db', st', view') ∧
      RolledBack keys mw undoData genesis oldTip newTip vOld vr ∧
      (view'.toView st').Answers (if vr.bestHeader.isNone then vOld.withHeader none else vr) := by
  obtain ⟨hbest, hheads, hcoins, hst⟩ := h.spec hold hnew
  have hinit : initCoinsDB db st = .open st none := by
    rw [initCoinsDB, hbest]
    rfl
  obtain ⟨view, m, c, vr, hview, -, -, hnodes, hc, hrolled⟩ :=
    replayView_views hold hnew hcoins (hst.stores none).answers
  obtain ⟨c', view', st', batch, hflush, hanswers⟩ := flushToDB_answers hst hc hnodes hrolled.synced
  refine ⟨db.batchWrite view.cache newTip, st'.write batch, view', vr, ?_, hrolled, hanswers⟩
  have hreplay : replayBlocks (undoMwebBlock ((CoinsViewDB.open st none).toView st)) undoData db
      (.new ((CoinsViewDB.open st none).toView st)) = .ok (db.batchWrite view.cache newTip, c) := by
    rw [replayBlocks, hheads]
    exact bind_of_eq_ok hview _
  rw [restart, hinit]
  dsimp only
  rw [hreplay, hheads]
  exact bind_of_eq_ok (congrArg (Except.mapError RestartError.flush) hflush) _

/-! ### The view of the new tip -/

/-- Above an entry with a best header there is always one. -/
lemma ChainViews.bestHeader_of_suffix {chain fork : BlockPath P} {coinsFork : Coins P}
    {v vFork : CoinsView P} (hchain : ChainViews keys mw undoData genesis chain coins v)
    (hfork : ChainViews keys mw undoData genesis fork coinsFork vFork) (hsuffix : fork <:+ chain)
    (hsome : vFork.bestHeader.isSome = true) : v.bestHeader.isSome = true := by
  induction hchain with
  | genesis hnone =>
    rcases List.suffix_cons_iff.mp hsuffix with rfl | hnil
    · obtain ⟨-, rfl⟩ := hfork.unique (.genesis hnone)
      exact hsome
    · exact absurd (List.suffix_nil.mp hnil) hfork.ne_nil
  | @block chain coins v v' b vtxundo c' mwundo below hblock hheight hconnect hmweb hundo ih =>
    rcases List.suffix_cons_iff.mp hsuffix with rfl | hbelow
    · obtain ⟨-, rfl⟩ := hfork.unique (.block below hblock hheight hconnect hmweb hundo)
      exact hsome
    · have hv := ih hbelow
      cases hmweb with
      | inactive hinactive _ => exact hv
      | active _ _ happly _ =>
        obtain ⟨mid, happ⟩ := CoinsView.applied_of_applyBlock happly
        rw [happ.bestHeader]
        rfl

omit [HashBytes P] in
/-- The view of the old tip without its best header is that of a tip without extension blocks
exactly if no output was ever added. -/
lemma answers_withoutHeader_iff (hbase : base.Answers (vOld.withHeader none)) (hvOld : vOld.Synced)
    (hvNew : vNew.Synced) (hnone : vNew.bestHeader = none) :
    base.Answers vNew ↔ vOld.outputPMMR.leaves = [] := by
  obtain rfl := hvNew.eq_empty hnone
  constructor
  · intro hempty
    have hnext : vOld.outputPMMR.leaves.length = 0 :=
      hbase.outputPMMR.next.symm.trans hempty.outputPMMR.next
    exact List.eq_nil_of_length_eq_zero hnext
  · intro hleaves
    have hsynced : (vOld.withHeader none).Synced :=
      ⟨hvOld.consistent.setBestHeader none, hvOld.keyed, hvOld.bits, by simp [CoinsView.withHeader],
        fun _ => hleaves⟩
    rwa [hsynced.eq_empty rfl] at hbase

/-- The view at the fork is that of the new tip exactly if the new tip is the fork. -/
lemma answers_fork_iff {fork : BlockPath P} {coinsFork : Coins P} {vFork : CoinsView P}
    (hfork : ChainViews keys mw undoData genesis fork coinsFork vFork)
    (hnew : ChainViews keys mw undoData genesis newTip coinsNew vNew) (hsuffix : fork <:+ newTip)
    (hsome : vFork.bestHeader.isNone = false) (hbase : base.Answers vFork) :
    base.Answers vNew ↔ newTip = fork := by
  constructor
  · intro hanswers
    have hheader : vFork.bestHeader = vNew.bestHeader :=
      hbase.bestHeader.symm.trans hanswers.bestHeader
    obtain ⟨hdr, hhdr⟩ := Option.isSome_iff_exists.mp (Option.isNone_eq_false_iff.mp hsome)
    have hheight := hfork.height hhdr
    rw [hnew.height (hheader ▸ hhdr)] at hheight
    exact (hsuffix.eq_of_length (by exact_mod_cast hheight.symm)).symm
  · rintro rfl
    obtain ⟨-, rfl⟩ := hfork.unique hnew
    exact hbase

/-- After any number of interrupted flushes starting again never fails.  The view of the extension
blocks is then that of the new tip exactly if the new tip is below the old one or, for a new tip
without an extension block, no output was ever added; and then the next block that connects to the
view of the new tip connects. -/
theorem restart_recovers_iff (hold : TipViews keys mw undoData genesis oldTip coinsOld vOld)
    (hnew : ChainViews keys mw undoData genesis newTip coinsNew vNew)
    (h : MwebCrashed undoData oldTip newTip coinsOld coinsNew vOld db st) :
    ∃ db' st' view', restart undoData db st = .ok (db', st', view') ∧
      ((view'.toView st').Answers vNew ↔ MwebRecovers oldTip newTip vOld) ∧
      (MwebRecovers oldTip newTip vOld → ∀ b undo v', vNew.applyBlock b = .ok (undo, v') →
        ∃ c, (CoinsViewCache.new (view'.toView st')).applyBlock (view'.toView st') b =
          .ok (undo, c)) := by
  obtain ⟨db', st', view', vr, hrestart, hrolled, hanswers⟩ := restart_answers hold hnew h
  have hiff : (view'.toView st').Answers vNew ↔ MwebRecovers oldTip newTip vOld := by
    rw [MwebRecovers, ← hnew.bestHeader]
    cases hheader : vr.bestHeader.isNone with
    | true =>
      rw [hheader] at hanswers
      cases hnewHeader : vNew.bestHeader with
      | none =>
        have hvOld := hold.wellFormed_and_synced.2
        exact answers_withoutHeader_iff hanswers hvOld hnew.synced hnewHeader
      | some hdr =>
        refine iff_of_false (fun hnewAnswers => ?_) ?_
        · have hnone := hnewAnswers.bestHeader.symm.trans hanswers.bestHeader
          rw [hnewHeader] at hnone
          cases hnone
        · rintro ⟨old, rfl, hbelow, hne⟩
          cases hrolled with
          | nothing hsuffix =>
            have hle := (hsuffix old rfl).length_le
            exact hne (hbelow.eq_of_length (Nat.le_antisymm hbelow.length_le hle))
          | fork hold' _ _ _ hfork =>
            obtain rfl := Option.some.inj hold'
            rw [lastCommonAncestor_eq_of_suffix hnew.ne_nil hbelow] at hfork
            obtain ⟨-, rfl⟩ := hfork.unique hnew
            rw [hnewHeader] at hheader
            cases hheader
    | false =>
      rw [hheader] at hanswers
      cases hrolled with
      | nothing => cases hheader
      | @fork old coinsFork vFork hold' hdiff hbelow hsuffix hfork =>
        have hsome : vNew.bestHeader.isSome = true :=
          hnew.bestHeader_of_suffix hfork hsuffix (Option.isNone_eq_false_iff.mp hheader)
        rw [if_pos hsome, answers_fork_iff hfork hnew hsuffix hheader hanswers]
        constructor
        · intro heq
          rw [heq]
          exact ⟨old, hold', hbelow, hdiff.symm⟩
        · rintro ⟨old', hold'', hbelow, -⟩
          obtain rfl := Option.some.inj (hold'.symm.trans hold'')
          exact (lastCommonAncestor_eq_of_suffix hnew.ne_nil hbelow).symm
  refine ⟨db', st', view', hrestart, hiff, fun hrecovers b undo v' happly => ?_⟩
  have hbase := hiff.mpr hrecovers
  obtain ⟨⟨undo', c⟩, hcache, rfl, -⟩ := (CoinsViewCache.inStep_applyBlock hbase
    ⟨CoinsViewCache.standsFor_new hbase, hnew.synced.consistent⟩ b).exists_of_ok happly
  exact ⟨c, hcache⟩

end Recovery

/-! ### Two extension blocks -/

/-- Connecting an extension block without inputs and outputs changes the best header only. -/
lemma applyBlock_of_kernels {v : CoinsView P} {b : Mw.Block P} (hinputs : b.body.inputs = [])
    (houtputs : b.body.outputs = [])
    (hbalance : Mw.validateForBlock b.body b.header.kernelOffset v.kernelOffset = .ok ())
    (hmatch : v.matchesHeader b.header) :
    v.applyBlock b = .ok (⟨v.bestHeader, [], []⟩, v.withHeader (some b.header)) := by
  have hids : b.body.getSpentIDs = [] := by rw [Mw.TxBody.getSpentIDs, hinputs, List.map_nil]
  have hadded : b.body.getOutputIDs = [] := by rw [Mw.TxBody.getOutputIDs, houtputs, List.map_nil]
  rw [CoinsView.applyBlock, hbalance, houtputs, hids, hadded]
  exact rejectIf_bind_eq_ok.mpr ⟨not_not.mpr hmatch, rfl⟩

namespace Symbolic

/-- An extension block that has only kernels. -/
def kernelExtension (height : ℤ) (kernels : List (Mw.Kernel octets)) : Mw.Block octets :=
  ⟨⟨height, 0, 0, 0, 0, 0, 0, kernels.length⟩, ⟨[], [], kernels⟩⟩

/-- The first extension block: one unit is pegged in and paid as a fee. -/
def extension1 : Mw.Block octets :=
  kernelExtension 2
    [⟨3, some 1, some 1, [], none, none, [], (0, 0), [], by decide, by decide, nofun⟩]

/-- The second one, which is empty. -/
def extension2 : Mw.Block octets := kernelExtension 3 []

/-- The view after an extension block without inputs and outputs. -/
def viewAfter (b : Mw.Block octets) : CoinsView octets := CoinsView.empty.withHeader (some b.header)

/-- The transaction whose output is pegged in. -/
def peginTx : CTransaction octets :=
  { plainTx ⟨1, 0⟩ 25 3 with
    vout := [⟨1, .mwebPegin 0⟩, plainOut 24]
    hogEx_wf := nofun }

/-- A HogEx transaction with one input, after which no amount is left. -/
def plainHogEx (prevout : COutPoint octets) (nLockTime : ℕ) : CTransaction octets where
  vin := [⟨prevout, [], 0, []⟩]
  vout := [⟨0, .mwebHogAddr 0⟩]
  nVersion := 2
  nLockTime := nLockTime
  mwebTx := none
  hogEx := true
  hogEx_wf := by simp

/-- The block at height 2, with the first extension block.  Its HogEx spends the peg-in. -/
def extensionBlock1 : CBlock octets where
  header := ⟨0, 0, 0, 0, 0, 0⟩
  vtx := [plainTx ⟨0, nullIndex⟩ 25 2, peginTx, plainHogEx ⟨3, 0⟩ 4]
  mwebBlock := some extension1

/-- The block at height 3, with an empty extension block. -/
def extensionBlock2 : CBlock octets where
  header := ⟨0, 0, 0, 0, 0, 0⟩
  vtx := [plainTx ⟨0, nullIndex⟩ 25 5, plainHogEx ⟨4, 0⟩ 6]
  mwebBlock := some extension2

/-- The chain up to the first extension block. -/
def path1 : BlockPath octets := [extensionBlock1, rewardBlock 1, firstBlock]

/-- The chain up to the second one. -/
def path2 : BlockPath octets := extensionBlock2 :: path1

/-- Undo data of which only the first header is stored. -/
def headerUndo : MwUndoFormat octets where
  put undo := [if undo.prevHeader.isSome then 1 else 0]
  get := do
    let b ← Get.byte
    pure ⟨if b = 0 then none else some extension1.header, [], []⟩

lemma keeps_headerUndo1 : headerUndo.Keeps ⟨none, [], []⟩ :=
  ⟨by simp [headerUndo], fun _ => rfl⟩

lemma keeps_headerUndo2 : headerUndo.Keeps ⟨some extension1.header, [], []⟩ :=
  ⟨by simp [headerUndo], fun _ => rfl⟩

/-- Connecting the transactions of the block at height 2. -/
def connected1 : List (List (Coin octets)) × CoinsCache octets :=
  (CoinsCache.connectTxs 2 extensionBlock1.vtx ⟨rewardCoins 1, []⟩).toOption.get
    (by decide +kernel)

/-- Connecting the transactions of the block at height 3. -/
def connected2 : List (List (Coin octets)) × CoinsCache octets :=
  (CoinsCache.connectTxs 3 extensionBlock2.vtx ⟨connected1.2.coins, []⟩).toOption.get
    (by decide +kernel)

/-- The undo data of the blocks. -/
def extensionUndo (chain : BlockPath octets) : Option (CBlockUndo octets) :=
  undoThroughDisk noKeys headerUndo <|
    match chain.length with
    | 4 => ⟨connected2.1.tail, some ⟨some extension1.header, [], []⟩⟩
    | 3 => ⟨connected1.1.tail, some ⟨none, [], []⟩⟩
    | _ => ⟨[], none⟩

lemma extensionBlock1_undoable : extensionBlock1.Undoable where
  coinbase := ⟨_, _, rfl, by decide, by decide⟩
  values := by decide
  length_le := by decide
  inputs_le := by decide

lemma extensionBlock2_undoable : extensionBlock2.Undoable where
  coinbase := ⟨_, _, rfl, by decide, by decide⟩
  values := by decide
  length_le := by decide
  inputs_le := by decide

lemma chainViews1 : ChainViews noKeys headerUndo extensionUndo firstBlock path1
    connected1.2.coins (viewAfter extension1) := by
  have happly : CoinsView.empty.applyBlock extension1 =
      .ok (⟨none, [], []⟩, viewAfter extension1) :=
    applyBlock_of_kernels rfl rfl (by decide +kernel) (by decide +kernel)
  have hreward : ChainViews noKeys headerUndo extensionUndo firstBlock [rewardBlock 1, firstBlock]
      (rewardCoins 1) .empty :=
    .block (.genesis rfl) (rewardBlock_undoable 1) (by decide) rfl (.inactive rfl rfl) rfl
  exact .block hreward extensionBlock1_undoable (by decide) (eq_ok_toOption_get (by decide +kernel))
    (.active rfl rfl happly keeps_headerUndo1) rfl

lemma chainViews2 : ChainViews noKeys headerUndo extensionUndo firstBlock path2
    connected2.2.coins (viewAfter extension2) := by
  have happly : (viewAfter extension1).applyBlock extension2 =
      .ok (⟨some extension1.header, [], []⟩, viewAfter extension2) :=
    applyBlock_of_kernels rfl rfl (by decide +kernel) (by decide +kernel)
  exact .block chainViews1 extensionBlock2_undoable (by decide)
    (eq_ok_toOption_get (by decide +kernel)) (.active rfl rfl happly keeps_headerUndo2) rfl

/-- Nothing is stored for extension blocks without outputs. -/
lemma keeps_viewAfter (b : Mw.Block octets) : MwStorage.empty.Keeps (viewAfter b) where
  bestHeader := rfl
  coins := rfl
  leafSet := rfl
  outputPMMR := rfl
  leaves _ _ h := by cases h

/-- A flush that is interrupted when no coin is written yet. -/
lemma mwebCrashed_at_once {oldTip newTip : BlockPath octets} {coinsOld coinsNew : Coins octets}
    (hnew : coinsNew.WellFormed) (b : Mw.Block octets) :
    MwebCrashed extensionUndo (some oldTip) newTip coinsOld coinsNew (viewAfter b)
      ⟨coinsOld, none, some (newTip, some oldTip)⟩ .empty := by
  obtain ⟨cache, hcache, hflush⟩ := CoinsDB.exists_interrupted ⟨coinsOld, some oldTip, none⟩ newTip
    hnew coinsOld fun _ => .inl rfl
  exact .flush rfl rfl rfl (keeps_viewAfter b) hcache hflush
    ⟨rfl, rfl, rfl, fun _ _ => rfl, fun _ _ => rfl⟩

/-- The flush after the block at height 3 was disconnected is interrupted, and starting again
recovers the view at height 2. -/
theorem restart_recovers_iff_below :
    ∃ db' st' view',
      restart extensionUndo ⟨connected2.2.coins, none, some (path1, some path2)⟩ .empty =
        .ok (db', st', view') ∧ (view'.toView st').Answers (viewAfter extension1) := by
  have hold : TipViews noKeys headerUndo extensionUndo firstBlock (some path2) connected2.2.coins
      (viewAfter extension2) := chainViews2
  obtain ⟨db', st', view', hrestart, hiff, -⟩ := restart_recovers_iff hold chainViews1
    (mwebCrashed_at_once chainViews1.wellFormed extension2)
  refine ⟨db', st', view', hrestart, hiff.mpr ?_⟩
  rw [MwebRecovers, if_pos (by decide)]
  exact ⟨_, rfl, List.suffix_cons _ _, by decide⟩

/-- The flush after the block at height 3 was connected is interrupted.  After starting again the
view has no best header. -/
theorem restart_loses_best_header :
    ∃ (db db' : CoinsDB octets) (st' : MwStorage octets) (view' : CoinsViewDB octets),
      TipViews noKeys headerUndo extensionUndo firstBlock (some path1) connected1.2.coins
        (viewAfter extension1) ∧
      ChainViews noKeys headerUndo extensionUndo firstBlock path2 connected2.2.coins
        (viewAfter extension2) ∧
      MwebCrashed extensionUndo (some path1) path2 connected1.2.coins connected2.2.coins
        (viewAfter extension1) db .empty ∧
      restart extensionUndo db .empty = .ok (db', st', view') ∧
      view'.bestHeader = none ∧ ¬ (view'.toView st').Answers (viewAfter extension2) := by
  have hold : TipViews noKeys headerUndo extensionUndo firstBlock (some path1) connected1.2.coins
      (viewAfter extension1) := chainViews1
  have hcrashed : MwebCrashed extensionUndo (some path1) path2 connected1.2.coins
      connected2.2.coins (viewAfter extension1) _ _ :=
    mwebCrashed_at_once chainViews2.wellFormed extension1
  obtain ⟨db', st', view', vr, hrestart, hrolled, hanswers⟩ :=
    restart_answers hold chainViews2 hcrashed
  have hnone : vr.bestHeader.isNone = true := by
    cases hrolled with
    | nothing => rfl
    | fork hold' hne =>
      obtain rfl := Option.some.inj hold'
      exact absurd (by decide) hne
  rw [if_pos hnone] at hanswers
  refine ⟨_, db', st', view', hold, chainViews2, hcrashed, hrestart, hanswers.bestHeader,
    fun hnew => ?_⟩
  have hheader : none = (viewAfter extension2).bestHeader :=
    hanswers.bestHeader.symm.trans hnew.bestHeader
  cases hheader

end Symbolic

end Aegisum
