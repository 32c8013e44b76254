import Aegisum.Mweb.ViewState
import Aegisum.Node.Commitments
import Aegisum.Node.PegConservation
import Aegisum.Node.Reserve

/-!
# The state as a function of the header chain

Two blocks with the same header have the same transaction ids, and an extension block is fixed by
its hash in the HogEx as far as it changes the view.  What the header does not commit to is the
HogEx marker, which `AddCoins` turns into the peg-out flag of the coins.  When MWEB is active the
checks of the block fix the marker; before that nothing does, and the state is a function of the
header chain only as far as the markers agree.
-/

namespace Aegisum

open CTransaction CoinsCache List

variable {P : Primitives} [NodeCrypto P]

/-- Nobody finds two values with the same hash, also not a transaction and a pair of hashes. -/
structure IdealNodeHashes (P : Primitives) [NodeCrypto P] : Prop extends Mw.IdealHashes P where
  block : Function.Injective (NodeCrypto.blockHash (P := P))
  tx : Function.Injective (NodeCrypto.txHash (P := P))
  merkle : Function.Injective2 (NodeCrypto.merkleHash (P := P))
  tx_ne_merkle : ∀ t a b, NodeCrypto.txHash (P := P) t ≠ NodeCrypto.merkleHash a b

/-- Checked blocks with the same hash have the same transaction ids. -/
lemma sameIds_of_blockHash_eq (hideal : IdealNodeHashes P) {b' b : CBlock P}
    (hb' : CheckedBlock b') (hb : CheckedBlock b) (h : b'.getHash = b.getHash) : SameIds b' b := by
  have hheader : b'.header = b.header := hideal.block h
  have hne : ∀ {b : CBlock P}, CheckedBlock b → b.vtx.map getHash ≠ [] := by
    intro b hb
    obtain ⟨coinbase, rest, hvtx, -⟩ := hb.coinbase_first
    simp [hvtx]
  have hleaf : ∀ {b : CBlock P}, CheckedBlock b → ∀ x ∈ b.vtx.map getHash,
      ∃ t, x = NodeCrypto.txHash (P := P) t := by
    intro b hb x hx
    obtain ⟨tx, htx, rfl⟩ := mem_map.mp hx
    exact ⟨_, getHash_of_mwebTx_eq_none (hb.mwebTx_eq tx htx)⟩
  refine sameIds_of_getHash hideal.tx hb' hb hheader ?_
  refine computeMerkleRoot_injective hideal.merkle ?_ (hne hb') (hne hb) (hleaf hb') (hleaf hb)
    hb'.not_mutated hb.not_mutated ?_
  · rintro a b ⟨t, ht⟩
    exact hideal.tx_ne_merkle t a b ht.symm
  · have hroot := hb'.merkleRoot.symm
    rw [hheader] at hroot
    exact hroot.trans hb.merkleRoot

/-! ### Markers that are turned into peg-out flags -/

/-- The transaction adds coins with the peg-out flag: it has the HogEx marker and a spendable
output after the first one. -/
def CTransaction.addsPegouts (tx : CTransaction P) : Bool :=
  tx.isHogEx && tx.vout.tail.any fun out => !out.scriptPubKey.isUnspendable

/-- The two blocks add the same coins with the peg-out flag, or it is fixed that they do. -/
def MarkersAgree (params : ConsensusParams P) (prev : Chain P) (b b' : CBlock P) : Prop :=
  b.getHash = params.hashGenesisBlock ∨ params.isMWEBEnabled prev = true ∨
    b'.vtx.map CTransaction.addsPegouts = b.vtx.map CTransaction.addsPegouts

namespace SameBase

variable {tx' tx : CTransaction P} (h : SameBase tx' tx)

include h

omit [NodeCrypto P] in
lemma spentPrevouts_eq : tx'.spentInputs.map CTxIn.prevout = tx.spentInputs.map CTxIn.prevout := by
  unfold spentInputs
  rw [h.isCoinBase_eq]
  split
  · rfl
  · exact h.prevouts_eq

/-- A transaction and its copy create the same outpoints. -/
lemma created_of_created {nHeight : ℤ} {a : COutPoint P} {coin : Coin P}
    (hcreated : created tx nHeight a = some coin) :
    created tx' nHeight a =
      some { coin with fPegout := tx'.isHogEx && 0 < a.n } := by
  obtain ⟨hhash, out, hout, hspendable, rfl⟩ := created_eq_some.mp hcreated
  refine created_eq_some.mpr ⟨hhash.trans h.getHash_eq.symm, out, ?_, hspendable, ?_⟩
  · rw [h.vout_eq, hout]
  · simp [outputCoin, h.isCoinBase_eq]

/-- With the same markers, as far as they matter, the same coins are created. -/
lemma created_eq (hmark : tx'.addsPegouts = tx.addsPegouts) (nHeight : ℤ) (a : COutPoint P) :
    created tx' nHeight a = created tx nHeight a := by
  cases hcreated : created tx nHeight a with
  | none =>
    rw [Option.eq_none_iff_forall_ne_some]
    intro coin hcoin
    obtain ⟨hhash, out, hout, hspendable, -⟩ := created_eq_some.mp hcoin
    rw [created_eq_some.mpr ⟨hhash.trans h.getHash_eq, out, by rw [← h.vout_eq, hout],
      hspendable, rfl⟩] at hcreated
    cases hcreated
  | some coin =>
    rw [h.created_of_created hcreated]
    obtain ⟨-, out, hout, hspendable, rfl⟩ := created_eq_some.mp hcreated
    rcases Nat.eq_zero_or_pos a.n with hzero | hpos
    · simp [outputCoin, hzero]
    · -- the output itself makes the marker matter
      have hany : tx.vout.tail.any (fun out => !out.scriptPubKey.isUnspendable) = true := by
        refine any_eq_true.mpr ⟨out, ?_, by simp [hspendable]⟩
        refine mem_of_getElem? (i := a.n - 1) ?_
        rw [getElem?_tail, Nat.sub_add_cancel hpos, hout]
      rw [addsPegouts, addsPegouts, h.vout_eq, hany, Bool.and_true, Bool.and_true] at hmark
      simp [outputCoin, hmark]

/-- Markers that matter and differ show in some coin. -/
lemma exists_created_of_ne (hmark : tx'.addsPegouts ≠ tx.addsPegouts) (nHeight : ℤ) :
    ∃ a coin' coin, created tx' nHeight a = some coin' ∧
      created tx nHeight a = some coin ∧ coin'.fPegout ≠ coin.fPegout ∧
      coin'.nHeight = nHeight ∧ coin.nHeight = nHeight := by
  rw [addsPegouts, addsPegouts, h.vout_eq] at hmark
  cases hany : tx.vout.tail.any fun out => !out.scriptPubKey.isUnspendable with
  | false => simp [hany] at hmark
  | true =>
    obtain ⟨out, hout, hspendable⟩ := any_eq_true.mp hany
    obtain ⟨i, hi⟩ := getElem?_of_mem hout
    rw [getElem?_tail] at hi
    have hcreated : created tx nHeight ⟨tx.getHash, i + 1⟩ =
        some (outputCoin tx nHeight out (i + 1)) :=
      created_eq_some.mpr ⟨rfl, out, hi, by simpa using hspendable, rfl⟩
    refine ⟨_, _, _, h.created_of_created hcreated, hcreated, ?_, rfl, rfl⟩
    simpa [hany, outputCoin] using hmark

end SameBase

/-! ### Two runs of the loop over the transactions -/

section Loop

variable {env : ScriptEnv P} {params : ConsensusParams P} {prev : Chain P}
  {mweb : Mw.CoinsView P} {s' s t' t : ConnectState P}

/-- Transactions that create the same coins give the same coins. -/
lemma coins_eq_of_loop {txs' txs : List (CTransaction P)}
    (htxs : List.Forall₂ (fun tx' tx => SameBase tx' tx ∧ tx'.addsPegouts = tx.addsPegouts)
      txs' txs) (h' : txs'.foldlM (connectTx env params prev mweb) s' = .ok t')
    (h : txs.foldlM (connectTx env params prev mweb) s = .ok t)
    (hs : s'.view.coins = s.view.coins) : t'.view.coins = t.view.coins := by
  induction htxs generalizing s' s with
  | nil =>
    obtain rfl := Except.ok.inj h'
    obtain rfl := Except.ok.inj h
    exact hs
  | cons hpair _ ih =>
    obtain ⟨s₁', hstep', hrest'⟩ := foldlM_cons_eq_ok.mp h'
    obtain ⟨s₁, hstep, hrest⟩ := foldlM_cons_eq_ok.mp h
    obtain ⟨_, htx'⟩ := txConnected_of_connectTx hstep'
    obtain ⟨_, htx⟩ := txConnected_of_connectTx hstep
    refine ih hrest' hrest (FiniteMap.ext fun a => ?_)
    rw [htx'.updated.get_eq, htx.updated.get_eq, hpair.1.created_eq hpair.2,
      hpair.1.spentPrevouts_eq, hs]

/-- A coin that the block has added and that a transaction does not spend stays. -/
lemma TxConnected.kept {tx : CTransaction P} {vprevout : List (Coin P)}
    (h : TxConnected prev mweb s tx vprevout t) (hcb : tx.isCoinBase = false) {a : COutPoint P}
    {coin : Coin P} (ha : a ∈ s.view.added) (hget : s.view.coins.get a = some coin)
    (hnot : a ∉ tx.spentInputs.map CTxIn.prevout) :
    a ∈ t.view.added ∧ t.view.coins.get a = some coin := by
  refine ⟨h.updated.added_subset a ha, ?_⟩
  rw [h.updated.get_eq a, h.updated.no_overwrite hcb a ha hnot (by simp [hget]), if_neg hnot, hget]
  rfl

/-- A peg-out is not spent in its own block. -/
lemma TxConnected.not_mem_of_fPegout {tx : CTransaction P} {vprevout : List (Coin P)}
    (h : TxConnected prev mweb s tx vprevout t) (hcb : tx.isCoinBase = false)
    (hmweb : tx.mwebTx = none) {a : COutPoint P} {coin : Coin P}
    (hget : s.view.coins.get a = some coin) (hheight : coin.nHeight = prev.nHeight + 1)
    (hpegout : coin.fPegout = true) : a ∉ tx.spentInputs.map CTxIn.prevout := by
  intro ha
  rw [spentInputs, hcb] at ha
  obtain ⟨coin', hmem, hget'⟩ := h.input_unspent hcb ha
  obtain rfl := Option.some.inj (hget.symm.trans hget')
  obtain ⟨_, hinputs, -⟩ := h.inputsChecked hcb hmweb
  have hmature := (hinputs.mature coin hmem).pegout hpegout
  rw [hheight, sub_self] at hmature
  exact absurd hmature (by decide)

/-- Two versions of a coin of which one is a peg-out both stay to the end of the block. -/
lemma coins_kept_of_loop {txs' txs : List (CTransaction P)}
    (htxs : List.Forall₂ SameBase txs' txs) (hcb : ∀ tx ∈ txs, tx.isCoinBase = false)
    (h' : txs'.foldlM (connectTx env params prev mweb) s' = .ok t')
    (h : txs.foldlM (connectTx env params prev mweb) s = .ok t) {a : COutPoint P}
    {coin' coin : Coin P} (ha' : a ∈ s'.view.added) (ha : a ∈ s.view.added)
    (hget' : s'.view.coins.get a = some coin') (hget : s.view.coins.get a = some coin)
    (hheight' : coin'.nHeight = prev.nHeight + 1) (hheight : coin.nHeight = prev.nHeight + 1)
    (hpegout : coin'.fPegout = true ∨ coin.fPegout = true) :
    t'.view.coins.get a = some coin' ∧ t.view.coins.get a = some coin := by
  induction htxs generalizing s' s with
  | nil =>
    obtain rfl := Except.ok.inj h'
    obtain rfl := Except.ok.inj h
    exact ⟨hget', hget⟩
  | @cons tx' tx _ _ hsame _ ih =>
    obtain ⟨s₁', hstep', hrest'⟩ := foldlM_cons_eq_ok.mp h'
    obtain ⟨s₁, hstep, hrest⟩ := foldlM_cons_eq_ok.mp h
    obtain ⟨_, htx'⟩ := txConnected_of_connectTx hstep'
    obtain ⟨_, htx⟩ := txConnected_of_connectTx hstep
    rw [forall_mem_cons] at hcb
    have hcb' : tx'.isCoinBase = false := hsame.isCoinBase_eq.trans hcb.1
    -- the version that is a peg-out cannot be spent, and both transactions have the same inputs
    have hnot : a ∉ tx.spentInputs.map CTxIn.prevout := by
      rcases hpegout with hpegout | hpegout
      · rw [← hsame.spentPrevouts_eq]
        exact htx'.not_mem_of_fPegout hcb' hsame.mwebTx' hget' hheight' hpegout
      · exact htx.not_mem_of_fPegout hcb.1 hsame.mwebTx hget hheight hpegout
    obtain ⟨ha₁', hget₁'⟩ := htx'.kept hcb' ha' hget' (by rwa [hsame.spentPrevouts_eq])
    obtain ⟨ha₁, hget₁⟩ := htx.kept hcb.1 ha hget hnot
    exact ih hcb.2 hrest' hrest ha₁' ha₁ hget₁' hget₁

end Loop

/-! ### Two connected blocks -/

section Blocks

variable {env : ScriptEnv P} {params : ConsensusParams P} {prev : Chain P} {tip : CoinsTip P}
  {b' b : CBlock P} {s' s : ConnectState P} {r' r : ConnectedBlock P}

/-- Blocks with the same ids and the same markers give the same coins. -/
lemma BlockConnected.coins_eq_of_markers (h' : BlockConnected env params prev b' tip s' r')
    (h : BlockConnected env params prev b tip s r) (hids : SameIds b' b)
    (hmarks : b'.vtx.map addsPegouts = b.vtx.map addsPegouts) :
    r'.tip.coins = r.tip.coins := by
  rw [h'.coins_eq, h.coins_eq]
  exact coins_eq_of_loop (forall₂_and_of_map_eq hids.txs hmarks) h'.loop h.loop rfl

/-- Different markers give different coins. -/
lemma BlockConnected.markers_of_coins_eq (h' : BlockConnected env params prev b' tip s' r')
    (h : BlockConnected env params prev b tip s r) (hids : SameIds b' b)
    (hcoins : r'.tip.coins = r.tip.coins) :
    b'.vtx.map addsPegouts = b.vtx.map addsPegouts := by
  by_contra hne
  obtain ⟨pre', tx', post', pre, tx, post, hvtx', hvtx, hsame, hpost, hmark⟩ :=
    forall₂_split_of_map_ne hids.txs hne
  obtain ⟨a, coin', coin, hcreated', hcreated, hflag, hheight', hheight⟩ :=
    hsame.exists_created_of_ne hmark (prev.nHeight + 1)
  -- both runs up to the pair with different markers
  have hloop' := h'.loop
  have hloop := h.loop
  rw [hvtx'] at hloop'
  rw [hvtx] at hloop
  obtain ⟨s₀', -, hloop'⟩ := foldlM_append_eq_ok.mp hloop'
  obtain ⟨s₀, -, hloop⟩ := foldlM_append_eq_ok.mp hloop
  obtain ⟨s₁', hstep', hrest'⟩ := foldlM_cons_eq_ok.mp hloop'
  obtain ⟨s₁, hstep, hrest⟩ := foldlM_cons_eq_ok.mp hloop
  obtain ⟨_, htx'⟩ := txConnected_of_connectTx hstep'
  obtain ⟨_, htx⟩ := txConnected_of_connectTx hstep
  have hcb : ∀ tx ∈ post, tx.isCoinBase = false := by
    intro x hx
    obtain ⟨coinbase, rest, hfirst, -, hothers⟩ := h.checked.coinbase_first
    refine hothers x ?_
    have htail : (pre ++ tx :: post).tail = rest := by rw [← hvtx, hfirst, tail_cons]
    rw [← htail]
    cases pre with
    | nil => simpa using hx
    | cons => simp [hx]
  have hpegout : coin'.fPegout = true ∨ coin.fPegout = true := by
    cases hp' : coin'.fPegout <;> cases hp : coin.fPegout <;> simp_all
  obtain ⟨hfinal', hfinal⟩ := coins_kept_of_loop hpost hcb hrest' hrest
    (htx'.updated.created_added a coin' hcreated') (htx.updated.created_added a coin hcreated)
    (by rw [htx'.updated.get_eq, hcreated']; rfl) (by rw [htx.updated.get_eq, hcreated]; rfl)
    hheight' hheight hpegout
  rw [h'.coins_eq, h.coins_eq] at hcoins
  rw [hcoins, hfinal] at hfinal'
  exact hflag (by rw [Option.some.inj hfinal'])

/-- With an extension block exactly the last transaction has the marker. -/
lemma MwebNode.Integrated.map_isHogEx {hogex : CTransaction P} {mwebBlock : Mw.Block P}
    (h : MwebNode.Integrated params prev b hogex mwebBlock) :
    b.vtx.map CTransaction.isHogEx = replicate (b.vtx.length - 1) false ++ [true] := by
  have hsplit := dropLast_append_getLast? hogex h.last
  have hfront : b.vtx.dropLast.map CTransaction.isHogEx =
      replicate (b.vtx.length - 1) false := by
    refine eq_replicate_iff.mpr ⟨by simp, fun x hx => ?_⟩
    obtain ⟨tx, htx, rfl⟩ := mem_map.mp hx
    exact h.only_last tx htx
  calc b.vtx.map CTransaction.isHogEx
      = (b.vtx.dropLast ++ [hogex]).map CTransaction.isHogEx := by rw [hsplit]
    _ = replicate (b.vtx.length - 1) false ++ [true] := by
        rw [map_append, hfront, map_singleton, h.isHogEx]

/-- When MWEB is active the checks fix the markers. -/
lemma SameIds.markers_eq (hids : SameIds b' b) (henabled : params.isMWEBEnabled prev = true)
    (hcheck' : MwebNode.contextualCheckBlock params prev b' = .ok ())
    (hcheck : MwebNode.contextualCheckBlock params prev b = .ok ()) :
    b'.vtx.map CTransaction.addsPegouts = b.vtx.map CTransaction.addsPegouts := by
  obtain ⟨_, hattached'⟩ := MwebNode.exists_mwebBlock hcheck' henabled
  obtain ⟨_, hattached⟩ := MwebNode.exists_mwebBlock hcheck henabled
  obtain ⟨_, hint'⟩ := MwebNode.integrated_of_contextualCheckBlock hattached' hcheck'
  obtain ⟨_, hint⟩ := MwebNode.integrated_of_contextualCheckBlock hattached hcheck
  have hmarks : b'.vtx.map CTransaction.isHogEx = b.vtx.map CTransaction.isHogEx := by
    rw [hint'.map_isHogEx, hint.map_isHogEx, List.Forall₂.length_eq hids.txs]
  refine map_eq_of_forall₂ (forall₂_and_of_map_eq hids.txs hmarks) fun tx' _ tx _ htx => ?_
  rw [CTransaction.addsPegouts, CTransaction.addsPegouts, htx.1.vout_eq, htx.2]

/-- Blocks with the same ids have the same effect on the MWEB view and on the index. -/
lemma BlockConnected.mweb_eq (hideal : IdealNodeHashes P) (hview : tip.mweb.Consistent)
    (h' : BlockConnected env params prev b' tip s' r')
    (h : BlockConnected env params prev b tip s r) (hids : SameIds b' b)
    (hcheck' : MwebNode.contextualCheckBlock params prev b' = .ok ())
    (hcheck : MwebNode.contextualCheckBlock params prev b = .ok ()) :
    r'.tip.mweb = r.tip.mweb ∧ r'.entry = r.entry := by
  have hconnect' := h'.mweb_connected
  have hconnect := h.mweb_connected
  cases henabled : params.isMWEBEnabled prev with
  | false =>
    have hnone' := MwebNode.mwebBlock_eq_none hcheck' henabled
    have hnone := MwebNode.mwebBlock_eq_none hcheck henabled
    have hentry' := Except.ok.inj ((newEntry_of_none hnone').symm.trans h'.entry_eq)
    have hentry := Except.ok.inj ((newEntry_of_none hnone).symm.trans h.entry_eq)
    simp only [MwebNode.connectBlock, hnone', hnone, Except.ok.injEq, Prod.mk.injEq]
      at hconnect' hconnect
    exact ⟨hconnect'.2.symm.trans hconnect.2, by rw [← hentry', ← hentry, hids.header]⟩
  | true =>
    obtain ⟨mwebBlock', hattached'⟩ := MwebNode.exists_mwebBlock hcheck' henabled
    obtain ⟨mwebBlock, hattached⟩ := MwebNode.exists_mwebBlock hcheck henabled
    obtain ⟨hogex', _, _, _, _, _, -, hint', hcon'⟩ :=
      MwebNode.accepted_facts hcheck' hconnect' hattached'
    obtain ⟨hogex, _, _, _, _, _, -, hint, hcon⟩ :=
      MwebNode.accepted_facts hcheck hconnect hattached
    have hsame := forall₂_getLast? hids.txs hint'.last hint.last
    -- the first output of the HogEx commits to the header of the extension block
    have hheader : mwebBlock'.header = mwebBlock.header := by
      obtain ⟨out', hout', hscript'⟩ := hint'.hogAddr
      obtain ⟨out, hout, hscript⟩ := hint.hogAddr
      rw [hsame.vout_eq, hout] at hout'
      obtain rfl := Option.some.inj hout'
      exact hideal.header (CScript.mwebHogAddr.inj (hscript'.symm.trans hscript))
    refine ⟨hview.applyBlock_eq hideal.toIdealHashes hheader hcon'.applied hcon.applied, ?_⟩
    obtain ⟨_, hogAddr', -, hlast', hvout', hentry'⟩ := newEntry_of_some hattached' h'.entry_eq
    obtain ⟨_, hogAddr, -, hlast, hvout, hentry⟩ := newEntry_of_some hattached h.entry_eq
    obtain rfl := Option.some.inj (hint'.last.symm.trans hlast')
    obtain rfl := Option.some.inj (hint.last.symm.trans hlast)
    rw [hsame.vout_eq, hvout] at hvout'
    rw [hentry', hentry, hids.header, hheader, hsame.getHash_eq, Option.some.inj hvout']

/-- Connecting a block keeps the parts of the MWEB view together. -/
lemma connectBlock_consistent (hview : tip.mweb.Consistent)
    (h : connectBlock env params prev b tip = .ok r) : r.tip.mweb.Consistent := by
  obtain ⟨-, ⟨-, rfl⟩ | ⟨-, s, hconnected⟩⟩ := connectBlock_cases h
  · exact hview
  · have hconnect := hconnected.mweb_connected
    cases hattached : b.mwebBlock with
    | none =>
      simp only [MwebNode.connectBlock, hattached, Except.ok.injEq, Prod.mk.injEq] at hconnect
      rw [← hconnect.2]
      exact hview
    | some mwebBlock =>
      obtain ⟨_, _, _, _, _, _, -, hcon⟩ := MwebNode.connected_of_connectBlock hattached hconnect
      obtain ⟨_, -, -, hleft, -⟩ := hview.applyBlock hcon.applied
      exact hleft.consistent

lemma ConnectedChain.consistent {ok : Chain P → CBlock P → Prop} {c : Chain P}
    (h : ConnectedChain env params ok c tip) : tip.mweb.Consistent := by
  induction h with
  | empty => exact Mw.CoinsView.consistent_empty
  | connectBlock _ _ hconnect ih => exact connectBlock_consistent ih hconnect

/-- The block passes the checks of `AcceptBlock`; the genesis block is not checked in context. -/
structure Accepted (env : ScriptEnv P) (params : ConsensusParams P) (prev : Chain P)
    (b : CBlock P) : Prop where
  check : checkBlock env params b = .ok ()
  context : b.getHash ≠ params.hashGenesisBlock → contextualCheckBlock params prev b = .ok ()

/-- Two blocks with the same hash give the same state and the same index entry exactly if their
markers agree. -/
lemma connectBlock_eq_iff (hideal : IdealNodeHashes P) (hview : tip.mweb.Consistent)
    (hhash : b'.getHash = b.getHash) (hb : Accepted env params prev b)
    (hb' : Accepted env params prev b') (h : connectBlock env params prev b tip = .ok r)
    (h' : connectBlock env params prev b' tip = .ok r') :
    (r'.tip.coins = r.tip.coins ∧ r'.tip.mweb = r.tip.mweb ∧ r'.entry = r.entry) ↔
      MarkersAgree params prev b b' := by
  have hids := sameIds_of_blockHash_eq hideal (checkedBlock_of_checkBlock hb'.check)
    (checkedBlock_of_checkBlock hb.check) hhash
  obtain ⟨-, ⟨hgenesis, rfl⟩ | ⟨hne, s, hcon⟩⟩ := connectBlock_cases h
  · obtain ⟨-, ⟨-, rfl⟩ | ⟨hne', -⟩⟩ := connectBlock_cases h'
    · exact ⟨fun _ => .inl hgenesis, fun _ => ⟨rfl, rfl, by rw [hids.header]⟩⟩
    · exact absurd (hhash.trans hgenesis) hne'
  · obtain ⟨-, ⟨hgenesis', -⟩ | ⟨hne', s', hcon'⟩⟩ := connectBlock_cases h'
    · exact absurd (hhash.symm.trans hgenesis') hne
    · have hcheck := mweb_of_contextualCheckBlock (hb.context hne)
      have hcheck' := mweb_of_contextualCheckBlock (hb'.context hne')
      obtain ⟨hmweb, hentry⟩ := hcon'.mweb_eq hideal hview hcon hids hcheck' hcheck
      refine ⟨fun heq => .inr (.inr (hcon'.markers_of_coins_eq hcon hids heq.1)), fun hmarks => ?_⟩
      refine ⟨hcon'.coins_eq_of_markers hcon hids ?_, hmweb, hentry⟩
      rcases hmarks with hgenesis | henabled | hmarks
      · exact absurd hgenesis hne
      · exact hids.markers_eq henabled hcheck' hcheck
      · exact hmarks

end Blocks

/-! ### Two nodes on the same header chain -/

/-- Two nodes have connected blocks with the same headers, one after the other, and the markers
of the blocks agree. -/
inductive SameHeaders (env : ScriptEnv P) (params : ConsensusParams P) :
    Chain P → CoinsTip P → Chain P → CoinsTip P → Prop
  | empty : SameHeaders env params [] CoinsTip.empty [] CoinsTip.empty
  | connectBlock {c c' : Chain P} {tip tip' : CoinsTip P} {b b' : CBlock P}
      {r r' : ConnectedBlock P} (h : SameHeaders env params c tip c' tip')
      (hhash : b'.getHash = b.getHash) (hmarks : MarkersAgree params c b b')
      (hb : Accepted env params c b) (hb' : Accepted env params c' b')
      (hconnect : connectBlock env params c b tip = .ok r)
      (hconnect' : connectBlock env params c' b' tip' = .ok r') :
      SameHeaders env params (r.entry :: c) r.tip (r'.entry :: c') r'.tip

/-- Two nodes that have connected the same blocks. -/
lemma SameHeaders.refl {env : ScriptEnv P} {params : ConsensusParams P} {c : Chain P}
    {tip : CoinsTip P} (h : ConnectedChain env params (Accepted env params) c tip) :
    SameHeaders env params c tip c tip := by
  induction h with
  | empty => exact .empty
  | connectBlock _ hok hconnect ih =>
    exact ih.connectBlock rfl (.inr (.inr rfl)) hok hok hconnect hconnect

/-- The nodes have the same index and the same state. -/
lemma SameHeaders.eq (hideal : IdealNodeHashes P) {env : ScriptEnv P} {params : ConsensusParams P}
    {c c' : Chain P} {tip tip' : CoinsTip P} (h : SameHeaders env params c tip c' tip') :
    c' = c ∧ tip' = tip ∧ tip.mweb.Consistent := by
  induction h with
  | empty => exact ⟨rfl, rfl, Mw.CoinsView.consistent_empty⟩
  | @connectBlock c c' tip tip' b b' r r' _ hhash hmarks hb hb' hconnect hconnect' ih =>
    obtain ⟨rfl, rfl, hview⟩ := ih
    obtain ⟨hcoins, hmweb, hentry⟩ :=
      (connectBlock_eq_iff hideal hview hhash hb hb' hconnect hconnect').mpr hmarks
    refine ⟨by rw [hentry], ?_, connectBlock_consistent hview hconnect⟩
    cases htip : r.tip
    cases htip' : r'.tip
    simp_all

/-- The state is a function of the header chain exactly as far as the HogEx markers agree.  Two
accepted blocks with the same hash that are connected to the same state give the same coins, MWEB
view and index entry exactly if their markers agree; and nodes that have connected blocks with
the same headers and agreeing markers have the same state and accept the same next blocks. -/
theorem state_of_headers_iff (hideal : IdealNodeHashes P) (env : ScriptEnv P)
    (params : ConsensusParams P) :
    (∀ ok prev tip b b' r r', ConnectedChain env params ok prev tip → b'.getHash = b.getHash →
      Accepted env params prev b → Accepted env params prev b' →
      connectBlock env params prev b tip = .ok r → connectBlock env params prev b' tip = .ok r' →
      ((r'.tip.coins = r.tip.coins ∧ r'.tip.mweb = r.tip.mweb ∧ r'.entry = r.entry) ↔
        MarkersAgree params prev b b')) ∧
    (∀ c tip c' tip', SameHeaders env params c tip c' tip' →
      c' = c ∧ tip' = tip ∧ ∀ next,
        (Accepted env params c' next ↔ Accepted env params c next) ∧
        connectBlock env params c' next tip' = connectBlock env params c next tip) := by
  refine ⟨?_, ?_⟩
  · intro ok prev tip b b' r r' hchain hhash hb hb' h h'
    exact connectBlock_eq_iff hideal hchain.consistent hhash hb hb' h h'
  · intro c tip c' tip' h
    obtain ⟨rfl, rfl, -⟩ := h.eq hideal
    exact ⟨rfl, rfl, fun next => ⟨Iff.rfl, rfl⟩⟩

section Example

open Symbolic

instance (env : ScriptEnv P) (params : ConsensusParams P) (c : Chain P) (b : CBlock P) :
    Decidable (Accepted env params c b) :=
  decidable_of_iff (checkBlock env params b = .ok () ∧
      (b.getHash ≠ params.hashGenesisBlock → contextualCheckBlock params c b = .ok ()))
    ⟨fun h => ⟨h.1, h.2⟩, fun h => ⟨h.check, h.context⟩⟩

/-- The symbolic hashes are ideal. -/
lemma idealNodeHashes_sym : IdealNodeHashes sym where
  header := tagged_injective 9
  outputMessage := tagged_injective 5
  rangeProof := tagged_injective (α := List UInt8) 6
  output h := by
    have hfields := tagged_injective 7 h
    simpa only [Prod.mk.injEq] using hfields
  outputLeaf _ _ _ h := (Prod.mk.inj (tagged_injective (α := ℕ × Digest) 10 h)).2
  outputLeaf_ne_zero _ _ h := by cases h
  parent _ _ _ _ _ h :=
    Prod.mk.inj (Prod.mk.inj (tagged_injective (α := ℕ × Digest × Digest) 12 h)).2
  parent_ne_zero _ _ _ h := by cases h
  leafSet := tagged_injective (α := List UInt8) 13
  block := tagged_injective 16
  tx := tagged_injective 14
  merkle _ _ _ _ h := Prod.mk.inj (tagged_injective (α := Digest × Digest) 15 h)
  tx_ne_merkle _ _ _ h := by cases h

/-- Connecting accepted blocks until the first coinbase is mature. -/
def connectCoinbases : Except BlockFailure (Chain sym × CoinsTip sym) :=
  ((List.range 21).map coinbaseBlock).foldlM
    (connectNext lenientEnv lateParams (Accepted lenientEnv lateParams)) ([], CoinsTip.empty)

lemma connectCoinbases_isSome : connectCoinbases.toOption.isSome = true := by decide +kernel

/-- The state when the first coinbase is mature. -/
def coinbaseState : Chain sym × CoinsTip sym :=
  connectCoinbases.toOption.get connectCoinbases_isSome

/-- The next block with one transaction after the coinbase. -/
def paymentBlock (tx : CTransaction sym) : CBlock sym :=
  mine (coinbaseBlock 20).getHash 21
    [coinbase (scriptPushHeight 21 ++ [0]) [⟨1000, opTrue⟩], tx] none

/-- A payment with one output. -/
def onePayment : CTransaction sym := payment [⟨1000, opTrue⟩]

/-- The payment with one output and the HogEx marker. -/
def markedOnePayment : CTransaction sym :=
  markHogEx onePayment ⟨rfl, by simp [onePayment, payment, spend]⟩

/-- A payment with two outputs. -/
def twoPayments : CTransaction sym := payment [⟨500, opTrue⟩, ⟨500, opTrue⟩]

/-- The payment with two outputs and the HogEx marker. -/
def markedTwoPayments : CTransaction sym :=
  markHogEx twoPayments ⟨rfl, by simp [twoPayments, payment, spend]⟩

/-- The result of connecting a block with one transaction after the coinbase. -/
def connectPayment (tx : CTransaction sym) : Except BlockFailure (ConnectedBlock sym) :=
  connectBlock lenientEnv lateParams coinbaseState.1 (paymentBlock tx) coinbaseState.2

/-- A block that spends the second output of `twoPayments`. -/
def spendSecond : CBlock sym :=
  mine (paymentBlock twoPayments).getHash 22
    [coinbase (scriptPushHeight 22 ++ [0]) [⟨1000, opTrue⟩],
      spend [⟨twoPayments.getHash, 1⟩] [⟨500, opTrue⟩]] none

private lemma connectedChain_coinbaseState :
    ConnectedChain lenientEnv lateParams (Accepted lenientEnv lateParams) coinbaseState.1
      coinbaseState.2 :=
  .connectNext (eq_ok_toOption_get connectCoinbases_isSome)

/-- A marker on a transaction with one output has no effect on the state, nor on what is connected
to it. -/
theorem state_of_headers_iff_onePayment :
    (paymentBlock markedOnePayment).getHash = (paymentBlock onePayment).getHash ∧
      (paymentBlock markedOnePayment).vtx ≠ (paymentBlock onePayment).vtx ∧
      ∃ r r', connectPayment onePayment = .ok r ∧ connectPayment markedOnePayment = .ok r' ∧
        (r'.tip.coins = r.tip.coins ∧ r'.tip.mweb = r.tip.mweb ∧ r'.entry = r.entry) ∧
        ∀ next, connectBlock lenientEnv lateParams (r'.entry :: coinbaseState.1) next r'.tip =
          connectBlock lenientEnv lateParams (r.entry :: coinbaseState.1) next r.tip := by
  obtain ⟨r, hr⟩ : ∃ r, connectPayment onePayment = .ok r :=
    exists_eq_ok_of_isOk (by decide +kernel)
  obtain ⟨r', hr'⟩ : ∃ r', connectPayment markedOnePayment = .ok r' :=
    exists_eq_ok_of_isOk (by decide +kernel)
  have hhash : (paymentBlock markedOnePayment).getHash = (paymentBlock onePayment).getHash := by
    decide +kernel
  have hmarks : MarkersAgree lateParams coinbaseState.1 (paymentBlock onePayment)
      (paymentBlock markedOnePayment) := .inr (.inr (by decide +kernel))
  have hone : Accepted lenientEnv lateParams coinbaseState.1 (paymentBlock onePayment) := by
    decide +kernel
  have hmarked : Accepted lenientEnv lateParams coinbaseState.1
      (paymentBlock markedOnePayment) := by
    decide +kernel
  obtain ⟨hstep, hrun⟩ := state_of_headers_iff idealNodeHashes_sym lenientEnv lateParams
  refine ⟨hhash, by decide +kernel, r, r', hr, hr', ?_, fun next => ?_⟩
  · exact (hstep _ _ _ _ _ r r' connectedChain_coinbaseState hhash hone hmarked hr hr').mpr hmarks
  · exact ((hrun _ _ _ _ ((SameHeaders.refl connectedChain_coinbaseState).connectBlock hhash hmarks
      hone hmarked hr hr')).2.2 next).2

private lemma connectPayment_twoPayments :
    (connectPayment twoPayments).toOption.isSome = true := by decide +kernel

private lemma connectPayment_markedTwoPayments :
    (connectPayment markedTwoPayments).toOption.isSome = true := by decide +kernel

/-- A marker on a transaction with two outputs makes the second one a peg-out, so that one node
refuses a next block that the other one connects. -/
theorem markedTwoPayments_diverges :
    (paymentBlock markedTwoPayments).getHash = (paymentBlock twoPayments).getHash ∧
      Accepted lenientEnv lateParams coinbaseState.1 (paymentBlock twoPayments) ∧
      Accepted lenientEnv lateParams coinbaseState.1 (paymentBlock markedTwoPayments) ∧
      ∃ r r', connectPayment twoPayments = .ok r ∧ connectPayment markedTwoPayments = .ok r' ∧
        r'.tip.coins ≠ r.tip.coins ∧
        (connectBlock lenientEnv lateParams (r.entry :: coinbaseState.1) spendSecond
          r.tip).map (fun _ => ()) = .ok () ∧
        (connectBlock lenientEnv lateParams (r'.entry :: coinbaseState.1) spendSecond
          r'.tip).map (fun _ => ()) =
          .error (.invalid .blockConsensus "bad-txns-premature-spend-of-pegout") := by
  refine ⟨by decide +kernel, by decide +kernel, by decide +kernel, _, _,
    eq_ok_toOption_get connectPayment_twoPayments,
    eq_ok_toOption_get connectPayment_markedTwoPayments, ?_, ?_, ?_⟩
  · intro heq
    have hcoin := congrArg (fun coins : Coins sym => coins.get ⟨twoPayments.getHash, 1⟩) heq
    revert hcoin
    decide +kernel
  · decide +kernel
  · decide +kernel

end Example

end Aegisum
