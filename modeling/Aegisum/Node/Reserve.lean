import Aegisum.Chain.ThresholdState
import Aegisum.Node.Inflation
import Aegisum.Node.PegConservation

/-!
# The MWEB reserve

Since activation the whole MWEB balance is held by one canonical coin, the first output of the
last HogEx, and no peg-in output is left unspent.  Neither kind of output needs a signature: they
are protected because the HogEx, as the last transaction of its block, must still find them.

An old HogEx cannot come back under the same transaction id.  It would have to spend the output of
its own predecessor, or peg-ins of its own block, and these are gone; going back along the
sequence of HogExes, one of them would have to be in the block first.
-/

namespace Aegisum

open CTransaction CoinsCache List

variable {P : Primitives} [NodeCrypto P]

/-! ### Coins inside a block -/

section Loop

variable {env : ScriptEnv P} {params : ConsensusParams P} {prev : Chain P}
  {mweb : Mw.CoinsView P} {s s' : ConnectState P}

variable {tx : CTransaction P} {coin : Coin P} {vprevout : List (Coin P)}

/-- A coin after a transaction was there before or is an output of the transaction. -/
lemma TxConnected.get_eq_some (h : TxConnected prev mweb s tx vprevout s') {a : COutPoint P}
    (hget : s'.view.coins.get a = some coin) :
    created tx (prev.nHeight + 1) a = some coin ∨
      (a ∉ tx.spentInputs.map CTxIn.prevout ∧ s.view.coins.get a = some coin) := by
  rw [h.updated.get_eq a] at hget
  rcases Option.or_eq_some_iff.mp hget with hcreated | ⟨-, hold⟩
  · exact .inl hcreated
  · split at hold
    case isTrue => cases hold
    case isFalse hmem => exact .inr ⟨hmem, hold⟩

/-- A coin after some transactions was there before or is an output of one of them. -/
lemma get_eq_some_of_loop {txs : List (CTransaction P)}
    (h : txs.foldlM (connectTx env params prev mweb) s = .ok s') {a : COutPoint P}
    (hget : s'.view.coins.get a = some coin) :
    s.view.coins.get a = some coin ∨
      ∃ tx ∈ txs, created tx (prev.nHeight + 1) a = some coin := by
  induction txs generalizing s with
  | nil =>
    obtain rfl := Except.ok.inj h
    exact .inl hget
  | cons tx txs ih =>
    obtain ⟨s₁, hstep, hrest⟩ := foldlM_cons_eq_ok.mp h
    obtain ⟨vprevout, htx⟩ := txConnected_of_connectTx hstep
    rcases ih hrest with hget₁ | ⟨tx', htx', hcreated⟩
    · rcases htx.get_eq_some hget₁ with hcreated | ⟨-, hold⟩
      · exact .inr ⟨tx, by simp, hcreated⟩
      · exact .inl hold
    · exact .inr ⟨tx', by simp [htx'], hcreated⟩

/-- The inputs of a transaction other than the coinbase are unspent before it. -/
lemma TxConnected.input_unspent (h : TxConnected prev mweb s tx vprevout s')
    (hcb : tx.isCoinBase = false) {o : COutPoint P} (ho : o ∈ tx.vin.map CTxIn.prevout) :
    ∃ coin ∈ vprevout, s.view.coins.get o = some coin := by
  obtain ⟨txin, htxin, rfl⟩ := mem_map.mp ho
  have hcoins := h.updated.coins_eq
  rw [spentInputs, hcb] at hcoins
  have hmem : s.view.coins.get txin.prevout ∈ vprevout.map some := by
    rw [← hcoins]
    exact mem_map_of_mem htxin
  obtain ⟨coin, hcoin, heq⟩ := mem_map.mp hmem
  exact ⟨coin, hcoin, heq.symm⟩

/-- A coin that a transaction spends is there afterwards only if the transaction creates it. -/
lemma TxConnected.created_of_spent (h : TxConnected prev mweb s tx vprevout s')
    (hcb : tx.isCoinBase = false) {o : COutPoint P} (ho : o ∈ tx.vin.map CTxIn.prevout)
    (hget : s'.view.coins.get o = some coin) :
    created tx (prev.nHeight + 1) o = some coin := by
  rcases h.get_eq_some hget with hcreated | ⟨hnot, -⟩
  · exact hcreated
  · rw [spentInputs, hcb] at hnot
    exact absurd ho hnot

end Loop

/-! ### Peg-in outpoints -/

/-- The outpoint of a peg-in output of some transaction. -/
def PeginPoint (o : COutPoint P) : Prop :=
  ∃ tx : CTransaction P, tx.mwebTx = none ∧ o ∈ tx.peginOutPoints

/-- Whatever transaction has the id of a peg-in outpoint has the peg-in output. -/
lemma PeginPoint.mem (hinj : TxHashInjective P) {o : COutPoint P}
    (h : PeginPoint o) {tx : CTransaction P} (hmweb : tx.mwebTx = none)
    (hhash : tx.getHash = o.hash) : o ∈ tx.peginOutPoints := by
  obtain ⟨tx', hmweb', hmem⟩ := h
  obtain ⟨hhash', out, hout, hpegin⟩ := mem_peginOutPoints.mp hmem
  have hbase := basePreimage_eq_of_getHash_eq hinj hmweb hmweb'
    (hhash.trans hhash')
  refine mem_peginOutPoints.mpr ⟨hhash.symm, out, ?_, hpegin⟩
  rw [vout_eq_of_basePreimage_eq hbase]
  exact hout

/-- A coin that a transaction creates at a peg-in outpoint is a peg-in output of it. -/
lemma PeginPoint.mem_of_created (hinj : TxHashInjective P) {o : COutPoint P} (h : PeginPoint o)
    {tx : CTransaction P} (hmweb : tx.mwebTx = none) {nHeight : ℤ} {coin : Coin P}
    (hcreated : created tx nHeight o = some coin) : o ∈ tx.peginOutPoints :=
  h.mem hinj hmweb (created_eq_some.mp hcreated).1.symm

/-! ### The sequence of HogExes -/

/-- What later blocks need to know of a HogEx. -/
structure HogExTx (tx : CTransaction P) : Prop where
  mwebTx_eq : tx.mwebTx = none
  not_coinbase : tx.isCoinBase = false
  vin_ne_nil : tx.vin ≠ []
  hogAddr : ∃ out hash, tx.vout[0]? = some out ∧ out.scriptPubKey = .mwebHogAddr hash

/-- The HogExes of a chain, newest first: the oldest one spends peg-ins only, every other one
spends the first output of its predecessor and then peg-ins. -/
inductive HogExHistory : List (CTransaction P) → Prop
  | first {hogex : CTransaction P} (h : HogExTx hogex)
      (hvin : ∀ o ∈ hogex.vin.map CTxIn.prevout, PeginPoint o) : HogExHistory [hogex]
  | next {hogex prevHogex : CTransaction P} {rest : List (CTransaction P)}
      {pegins : List (COutPoint P)} (hrest : HogExHistory (prevHogex :: rest))
      (h : HogExTx hogex)
      (hvin : hogex.vin.map CTxIn.prevout = ⟨prevHogex.getHash, 0⟩ :: pegins)
      (hpegins : ∀ o ∈ pegins, PeginPoint o) : HogExHistory (hogex :: prevHogex :: rest)

/-- The HogAddr output of a HogEx is no peg-in output. -/
lemma HogExTx.not_peginPoint (hinj : TxHashInjective P)
    {tx : CTransaction P} (h : HogExTx tx) : ¬ PeginPoint ⟨tx.getHash, 0⟩ := by
  intro hpegin
  obtain ⟨-, out, hout, hisPegin⟩ := mem_peginOutPoints.mp (hpegin.mem hinj h.mwebTx_eq rfl)
  obtain ⟨out', hash, hout', hscript⟩ := h.hogAddr
  obtain rfl : out = out' := Option.some.inj (hout.symm.trans hout')
  simp [CTxOut.isPegin, hscript, CScript.isMWEBPegin] at hisPegin

/-- The coins as seen from the sequence of HogExes: the first output of the newest one is
unspent, those of the older ones and all peg-ins they spent are gone. -/
structure ReserveCoins (coins : Coins P) (hogexes : List (CTransaction P)) : Prop where
  history : hogexes ≠ [] → HogExHistory hogexes
  head : ∀ hogex ∈ hogexes.head?, ∃ coin, coins.get ⟨hogex.getHash, 0⟩ = some coin ∧
    hogex.vout[0]? = some coin.out
  tail_spent : ∀ hogex ∈ hogexes.tail, coins.get ⟨hogex.getHash, 0⟩ = none
  pegins_spent : ∀ hogex ∈ hogexes, ∀ o ∈ hogex.vin.map CTxIn.prevout, PeginPoint o →
    coins.get o = none

/-! ### Blocks with a HogEx -/

/-- What is used of a connected block with an extension block: its transactions are a coinbase,
the ones in the middle and the HogEx, and the HogEx spends the given outpoints first and then all
peg-ins of the block. -/
structure HogExBlock (b : CBlock P) (coinbase : CTransaction P) (mid : List (CTransaction P))
    (hogex : CTransaction P) (first : List (COutPoint P)) : Prop where
  vtx_eq : b.vtx = (coinbase :: mid) ++ [hogex]
  isCoinBase : coinbase.isCoinBase = true
  not_coinbase : ∀ tx ∈ mid ++ [hogex], tx.isCoinBase = false
  mwebTx_eq : ∀ tx ∈ b.vtx, tx.mwebTx = none
  coinbase_pegin : coinbase.peginOutPoints = []
  hogex_pegin : hogex.peginOutPoints = []
  vin_eq : hogex.vin.map CTxIn.prevout = first ++ mid.flatMap CTransaction.peginOutPoints
  vin_ne_nil : hogex.vin ≠ []
  vin_nodup : (hogex.vin.map CTxIn.prevout).Nodup
  hogAddr : ∃ out hash, hogex.vout[0]? = some out ∧ out.scriptPubKey = .mwebHogAddr hash

namespace HogExBlock

variable {b : CBlock P} {coinbase hogex : CTransaction P} {mid : List (CTransaction P)}
  {first : List (COutPoint P)} (h : HogExBlock b coinbase mid hogex first)

include h

/-- The peg-ins of all transactions before the HogEx. -/
lemma flatMap_eq : (coinbase :: mid).flatMap peginOutPoints =
    mid.flatMap peginOutPoints := by
  rw [flatMap_cons, h.coinbase_pegin, nil_append]

variable {tx : CTransaction P}

/-- A peg-in of the block is an input of the HogEx. -/
lemma mem_vin (htx : tx ∈ coinbase :: mid) {o : COutPoint P} (ho : o ∈ tx.peginOutPoints) :
    o ∈ hogex.vin.map CTxIn.prevout := by
  rw [h.vin_eq, ← h.flatMap_eq]
  exact mem_append_right _ (mem_flatMap.mpr ⟨tx, htx, ho⟩)

/-- No peg-in outpoint is created both before and after a point in the block. -/
lemma not_created_twice {pre post : List (CTransaction P)} (hsplit : coinbase :: mid = pre ++ post)
    {tx' : CTransaction P} (htx : tx ∈ pre) (htx' : tx' ∈ post) {o : COutPoint P}
    (ho : o ∈ tx.peginOutPoints) (ho' : o ∈ tx'.peginOutPoints) : False := by
  have hnodup := h.vin_nodup
  rw [h.vin_eq, ← h.flatMap_eq, hsplit, flatMap_append] at hnodup
  have hdisj := disjoint_of_nodup_append (List.Nodup.of_append_right hnodup)
  exact hdisj (mem_flatMap.mpr ⟨tx, htx, ho⟩) (mem_flatMap.mpr ⟨tx', htx', ho'⟩)

lemma mem_vtx (htx : tx ∈ coinbase :: mid) : tx ∈ b.vtx := by
  rw [h.vtx_eq]
  exact mem_append_left _ htx

lemma hogex_mem_vtx : hogex ∈ b.vtx := by
  rw [h.vtx_eq]
  simp

lemma hogex_not_coinbase : hogex.isCoinBase = false := h.not_coinbase hogex (by simp)

variable {env : ScriptEnv P} {params : ConsensusParams P} {prev : Chain P} {tip : CoinsTip P}
  {s₁ s₂ : ConnectState P} {vprevout : List (Coin P)}

lemma hogExTx : HogExTx hogex :=
  ⟨h.mwebTx_eq hogex h.hogex_mem_vtx, h.hogex_not_coinbase, h.vin_ne_nil, h.hogAddr⟩

/-- The HogEx does not have the id of an older one. -/
lemma hogex_getHash_ne (hinj : TxHashInjective P) {prevHogex : CTransaction P}
    {rest : List (CTransaction P)} (hfirst : first = [⟨prevHogex.getHash, 0⟩]) {coins : Coins P}
    (hreserve : ReserveCoins coins (prevHogex :: rest)) :
    ∀ old ∈ prevHogex :: rest, hogex.getHash ≠ old.getHash := by
  obtain ⟨coin, hcoin, -⟩ := hreserve.head prevHogex (by simp)
  have hprev : HogExTx prevHogex := by
    rcases hreserve.history (by simp) with ⟨hprev, -⟩ | ⟨-, hprev, -, -⟩
    · exact hprev
    · exact hprev
  have hsuffix : ∀ hogexes : List (CTransaction P), HogExHistory hogexes →
      (∀ old ∈ hogexes.tail, coins.get ⟨old.getHash, 0⟩ = none) →
      ∀ old ∈ hogexes, hogex.getHash ≠ old.getHash := by
    intro hogexes hhistory htail
    -- equal ids mean equal inputs, and the first input is the output of the predecessor
    have hhead : ∀ {old : CTransaction P}, HogExTx old → hogex.getHash = old.getHash →
        (old.vin.map CTxIn.prevout).head? = some ⟨prevHogex.getHash, 0⟩ := by
      intro old hold hhash
      have hbase := basePreimage_eq_of_getHash_eq hinj h.hogExTx.mwebTx_eq
        hold.mwebTx_eq hhash
      rw [← prevouts_eq_of_basePreimage_eq hbase, h.vin_eq, hfirst]
      rfl
    induction hhistory with
    | @first old hold hvin =>
      intro old' hold' hhash
      obtain rfl := mem_singleton.mp hold'
      have hmem := mem_of_mem_head? (hhead hold hhash)
      exact hprev.not_peginPoint hinj (hvin _ hmem)
    | @next old prevOld _ pegins hrest hold hvin hpegin ih =>
      intro old' hold' hhash
      rcases mem_cons.mp hold' with rfl | hold'
      · have heq := hhead hold hhash
        rw [hvin, head?_cons, Option.some.injEq] at heq
        have hgone := htail prevOld (by simp)
        rw [heq, hcoin] at hgone
        cases hgone
      · exact ih (fun x hx => htail x (mem_of_mem_tail hx)) old' hold' hhash
  exact hsuffix _ (hreserve.history (by simp)) hreserve.tail_spent

omit h in
/-- The inputs of a HogEx that are no peg-ins: the first output of the previous HogEx, if there
is one. -/
def prevHogAddr : List (CTransaction P) → List (COutPoint P)
  | [] => []
  | prevHogex :: _ => [⟨prevHogex.getHash, 0⟩]

/-- The first output of the HogEx is unspent after the block. -/
lemma hogAddr_unspent (hhogex : TxConnected prev tip.mweb s₁ hogex vprevout s₂) :
    ∃ coin, s₂.view.coins.get ⟨hogex.getHash, 0⟩ = some coin ∧
      hogex.vout[0]? = some coin.out := by
  obtain ⟨out, hash, hout, hscript⟩ := h.hogAddr
  have hcreated : created hogex (prev.nHeight + 1) ⟨hogex.getHash, 0⟩ =
      some (outputCoin hogex (prev.nHeight + 1) out 0) :=
    created_eq_some.mpr ⟨rfl, out, hout, by rw [hscript]; rfl, rfl⟩
  refine ⟨outputCoin hogex (prev.nHeight + 1) out 0, ?_, hout⟩
  rw [hhogex.updated.get_eq, hcreated, Option.some_or]

section Connected

variable
  (hloop : (coinbase :: mid).foldlM (connectTx env params prev tip.mweb) tip.connectState = .ok s₁)
  (hhogex : TxConnected prev tip.mweb s₁ hogex vprevout s₂)

include hloop hhogex

/-- No coin that a block with a HogEx creates is a peg-in output. -/
lemma not_isPegin_of_new {a : COutPoint P} {coin : Coin P}
    (hget : s₂.view.coins.get a = some coin) (hnew : tip.coins.get a ≠ some coin) :
    coin.out.isPegin = false := by
  -- a peg-in output of the block would be an input of the HogEx
  have hpegin : ∀ tx, created tx (prev.nHeight + 1) a = some coin →
      coin.out.isPegin = true → a ∈ tx.peginOutPoints := by
    intro tx hcreated hisPegin
    obtain ⟨hhash, out, hout, -, rfl⟩ := created_eq_some.mp hcreated
    exact mem_peginOutPoints.mpr ⟨hhash, out, hout, hisPegin⟩
  rw [Bool.eq_false_iff]
  intro hisPegin
  rcases hhogex.get_eq_some hget with hcreated | ⟨hnot, hget⟩
  · have hmem := hpegin hogex hcreated hisPegin
    simp [h.hogex_pegin] at hmem
  · rcases get_eq_some_of_loop hloop hget with hold | ⟨tx, htx, hcreated⟩
    · exact hnew hold
    · refine hnot ?_
      rw [spentInputs, h.hogex_not_coinbase]
      exact h.mem_vin htx (hpegin tx hcreated hisPegin)

variable (hinj : TxHashInjective P)

include hinj

/-- No transaction before the HogEx spends a peg-in outpoint that is not unspent before the
block: the HogEx could not find it any more. -/
lemma not_spends_pegin {pre post : List (CTransaction P)}
    (hsplit : coinbase :: mid = pre ++ tx :: post) (hcb : tx.isCoinBase = false) {o : COutPoint P}
    (hpegin : PeginPoint o) (hnone : tip.coins.get o = none) : o ∉ tx.vin.map CTxIn.prevout := by
  intro ho
  rw [hsplit, foldlM_append_eq_ok] at hloop
  obtain ⟨s, hpre, hloop⟩ := hloop
  obtain ⟨s', hstep, hpost⟩ := foldlM_cons_eq_ok.mp hloop
  obtain ⟨spent, htx⟩ := txConnected_of_connectTx hstep
  have hmem : ∀ tx' ∈ pre ++ tx :: post, tx' ∈ coinbase :: mid := by
    rw [hsplit]
    exact fun _ h => h
  have hcreates : ∀ tx' ∈ pre ++ tx :: post, ∀ coin,
      created tx' (prev.nHeight + 1) o = some coin → o ∈ tx'.peginOutPoints :=
    fun tx' htx' coin hcreated =>
      hpegin.mem_of_created hinj (h.mwebTx_eq tx' (h.mem_vtx (hmem tx' htx'))) hcreated
  -- the coin that `tx` spends is created in the block before it
  obtain ⟨coin, -, hcoin⟩ := htx.input_unspent hcb ho
  obtain ⟨tx₁, htx₁, hcreated₁⟩ : ∃ tx₁ ∈ pre, o ∈ tx₁.peginOutPoints := by
    rcases get_eq_some_of_loop hpre hcoin with hold | ⟨tx₁, htx₁, hcreated⟩
    · exact absurd (hold.symm.trans hnone) (by simp)
    · exact ⟨tx₁, htx₁, hcreates tx₁ (by simp [htx₁]) coin hcreated⟩
  -- the HogEx must spend it too, so it is created again
  have hvin := h.mem_vin (hmem tx₁ (by simp [htx₁])) hcreated₁
  obtain ⟨coin', -, hcoin'⟩ := hhogex.input_unspent h.hogex_not_coinbase hvin
  obtain ⟨tx₂, htx₂, hcreated₂⟩ : ∃ tx₂ ∈ tx :: post, o ∈ tx₂.peginOutPoints := by
    rcases get_eq_some_of_loop hpost hcoin' with hget | ⟨tx₂, htx₂, hcreated⟩
    · have hself := htx.created_of_spent hcb ho hget
      exact ⟨tx, by simp, hcreates tx (by simp) coin' hself⟩
    · exact ⟨tx₂, by simp [htx₂], hcreates tx₂ (by simp [htx₂]) coin' hcreated⟩
  exact h.not_created_twice hsplit htx₁ htx₂ hcreated₁ hcreated₂

/-- No transaction before the HogEx has the id of an older HogEx. -/
lemma getHash_ne {hogexes : List (CTransaction P)} (hhistory : HogExHistory hogexes)
    (htail : ∀ old ∈ hogexes.tail, tip.coins.get ⟨old.getHash, 0⟩ = none)
    (hpegins : ∀ old ∈ hogexes, ∀ o ∈ old.vin.map CTxIn.prevout, PeginPoint o →
      tip.coins.get o = none) :
    ∀ old ∈ hogexes, ∀ tx ∈ coinbase :: mid, tx.getHash ≠ old.getHash := by
  -- a transaction with the id of an old HogEx spends the same outpoints and is no coinbase
  have hsame : ∀ {old tx : CTransaction P}, HogExTx old → tx ∈ coinbase :: mid →
      tx.getHash = old.getHash →
      tx.vin.map CTxIn.prevout = old.vin.map CTxIn.prevout ∧ tx.isCoinBase = false := by
    intro old tx hold htx hhash
    have hbase := basePreimage_eq_of_getHash_eq hinj
      (h.mwebTx_eq tx (h.mem_vtx htx)) hold.mwebTx_eq hhash
    have hprevouts := prevouts_eq_of_basePreimage_eq hbase
    exact ⟨hprevouts, (isCoinBase_congr hprevouts).trans hold.not_coinbase⟩
  induction hhistory with
  | @first old hold hvin =>
    intro old' hold' tx htx hhash
    obtain rfl := mem_singleton.mp hold'
    obtain ⟨hprevouts, hcb⟩ := hsame hold htx hhash
    obtain ⟨txin, htxin⟩ := exists_mem_of_ne_nil _ hold.vin_ne_nil
    have ho : txin.prevout ∈ old'.vin.map CTxIn.prevout := mem_map_of_mem htxin
    obtain ⟨pre, post, hsplit⟩ := append_of_mem htx
    refine h.not_spends_pegin hloop hhogex hinj hsplit hcb (hvin _ ho)
      (hpegins old' (by simp) _ ho (hvin _ ho)) ?_
    rw [hprevouts]
    exact ho
  | @next old prevOld rest pegins hrest hold hvin hpegin ih =>
    have hih := ih (fun x hx => htail x (mem_of_mem_tail hx))
      (fun x hx => hpegins x (mem_cons_of_mem _ hx))
    intro old' hold' tx htx hhash
    rcases mem_cons.mp hold' with rfl | hold'
    case inr => exact hih old' hold' tx htx hhash
    case inl =>
      obtain ⟨hprevouts, hcb⟩ := hsame hold htx hhash
      obtain ⟨pre, post, hsplit⟩ := append_of_mem htx
      have hloop' := hloop
      rw [hsplit, foldlM_append_eq_ok] at hloop'
      obtain ⟨s, hpre, hloop'⟩ := hloop'
      obtain ⟨s', hstep, -⟩ := foldlM_cons_eq_ok.mp hloop'
      obtain ⟨spent, htx'⟩ := txConnected_of_connectTx hstep
      have ho : (⟨prevOld.getHash, 0⟩ : COutPoint P) ∈ tx.vin.map CTxIn.prevout := by
        rw [hprevouts, hvin]
        simp
      -- the output of the predecessor is gone, so the predecessor is in the block as well
      obtain ⟨coin, -, hcoin⟩ := htx'.input_unspent hcb ho
      rcases get_eq_some_of_loop hpre hcoin with hget | ⟨tx₁, htx₁, hcreated⟩
      · have hgone := htail prevOld (by simp)
        exact absurd (hget.symm.trans hgone) (by simp)
      · have hmem : tx₁ ∈ coinbase :: mid := by
          rw [hsplit]
          simp [htx₁]
        exact hih prevOld (by simp) tx₁ hmem (created_eq_some.mp hcreated).1.symm

/-- A peg-in outpoint that is not unspent before the block, or that the HogEx spends, is not
unspent after it. -/
lemma pegin_spent {o : COutPoint P} (hpegin : PeginPoint o)
    (ho : o ∈ hogex.vin.map CTxIn.prevout ∨ tip.coins.get o = none) :
    s₂.view.coins.get o = none := by
  rw [Option.eq_none_iff_forall_not_mem]
  intro coin hcoin
  have hspent : hogex.spentInputs = hogex.vin := by
    simp [spentInputs, h.hogex_not_coinbase]
  rcases hhogex.get_eq_some hcoin with hcreated | ⟨hnot, hget⟩
  · have hmem := hpegin.mem_of_created hinj (h.mwebTx_eq hogex h.hogex_mem_vtx) hcreated
    simp [h.hogex_pegin] at hmem
  · rw [hspent] at hnot
    have hnone := ho.resolve_left hnot
    rcases get_eq_some_of_loop hloop hget with hold | ⟨tx, htx, hcreated⟩
    · exact absurd (hold.symm.trans hnone) (by simp)
    · exact hnot (h.mem_vin htx
        (hpegin.mem_of_created hinj (h.mwebTx_eq tx (h.mem_vtx htx)) hcreated))

/-- The first output of an older HogEx is not unspent after the block. -/
lemma hogAddr_spent {hogexes : List (CTransaction P)} (hfirst : first = prevHogAddr hogexes)
    (hreserve : ReserveCoins tip.coins hogexes) {old : CTransaction P} (hold : old ∈ hogexes) :
    s₂.view.coins.get ⟨old.getHash, 0⟩ = none := by
  cases hogexes with
  | nil => cases hold
  | cons prevHogex rest =>
    rw [Option.eq_none_iff_forall_not_mem]
    intro coin hcoin
    rcases hhogex.get_eq_some hcoin with hcreated | ⟨hnot, hget⟩
    · exact h.hogex_getHash_ne hinj hfirst hreserve old hold
        (created_eq_some.mp hcreated).1.symm
    · rcases get_eq_some_of_loop hloop hget with hget | ⟨tx, htx, hcreated⟩
      · rcases mem_cons.mp hold with rfl | hrest
        · refine hnot ?_
          rw [spentInputs, h.hogex_not_coinbase]
          change _ ∈ hogex.vin.map CTxIn.prevout
          rw [h.vin_eq, hfirst]
          simp [prevHogAddr]
        · have hgone := hreserve.tail_spent old hrest
          exact absurd (hget.symm.trans hgone) (by simp)
      · exact h.getHash_ne hloop hhogex hinj (hreserve.history (by simp)) hreserve.tail_spent
          hreserve.pegins_spent old hold tx htx (created_eq_some.mp hcreated).1.symm

/-- A block with a HogEx continues the sequence of HogExes. -/
lemma reserveCoins {hogexes : List (CTransaction P)} (hfirst : first = prevHogAddr hogexes)
    (hreserve : ReserveCoins tip.coins hogexes) :
    ReserveCoins s₂.view.coins (hogex :: hogexes) := by
  have hpegins : ∀ o ∈ mid.flatMap peginOutPoints, PeginPoint o := by
    intro o ho
    obtain ⟨tx, htx, ho⟩ := mem_flatMap.mp ho
    exact ⟨tx, h.mwebTx_eq tx (h.mem_vtx (by simp [htx])), ho⟩
  refine ⟨fun _ => ?_, ?_, fun old hold => ?_, fun old hold o ho hpegin => ?_⟩
  · have hvin := h.vin_eq
    cases hogexes with
    | nil =>
      rw [hfirst] at hvin
      exact .first h.hogExTx (by rw [hvin]; exact hpegins)
    | cons prevHogex rest =>
      rw [hfirst] at hvin
      exact .next (hreserve.history (by simp)) h.hogExTx hvin hpegins
  · simpa using h.hogAddr_unspent hhogex
  · exact h.hogAddr_spent hloop hhogex hinj hfirst hreserve hold
  · refine h.pegin_spent hloop hhogex hinj hpegin ?_
    rcases mem_cons.mp hold with rfl | hold
    · exact .inl ho
    · exact .inr (hreserve.pegins_spent old hold o ho hpegin)

end Connected

end HogExBlock

variable {b : CBlock P} {prev : Chain P} {tip : CoinsTip P} {s : ConnectState P}
  {r : ConnectedBlock P} {params : ConsensusParams P} {env : ScriptEnv P}

/-- A connected and checked block with an extension block has the form above; its index entry
holds id and value of the first output of its HogEx. -/
lemma BlockConnected.hogExBlock (h : BlockConnected env params prev b tip s r)
    {mwebBlock : Mw.Block P} (hattached : b.mwebBlock = some mwebBlock)
    (hcheck : MwebNode.contextualCheckBlock params prev b = .ok ()) :
    ∃ coinbase mid hogex prevIndex hogAddr, prev.head? = some prevIndex ∧
      HogExBlock b coinbase mid hogex
        (if MwebNode.isFirstHogex params prev then [] else [⟨prevIndex.hogexHash, 0⟩]) ∧
      hogex.vout.head? = some hogAddr ∧
      r.entry = ⟨b.header, some mwebBlock.header, hogex.getHash, hogAddr.nValue⟩ := by
  obtain ⟨hogex, prevIndex, _, _, _, mwundo, -, hint, hcon⟩ :=
    MwebNode.accepted_facts hcheck h.mweb_connected hattached
  obtain ⟨hogex', hogAddr, hlen, hlast, hhogAddr, hentry⟩ := newEntry_of_some hattached h.entry_eq
  obtain rfl : hogex' = hogex := Option.some.inj (hlast.symm.trans hint.last)
  obtain ⟨coinbase, rest, hvtx, hcb, hrest⟩ := h.checked.coinbase_first
  obtain ⟨mid, hmid⟩ : ∃ mid, rest = mid ++ [hogex'] := by
    have hne : rest ≠ [] := by
      rintro rfl
      simp [hvtx] at hlen
    refine ⟨rest.dropLast, ?_⟩
    rw [hvtx, getLast?_cons_of_ne_nil hne] at hlast
    rw [← dropLast_append_getLast? hogex' hlast]
    simp
  subst hmid
  have hmem : hogex' ∈ b.vtx := by simp [hvtx]
  have hpegin : ∀ tx ∈ b.vtx, (tx.isCoinBase || tx.isHogEx) = true → tx.peginOutPoints = [] :=
    fun tx htx hkind => peginOutPoints_eq_nil (hint.no_pegin tx htx hkind)
  have hmiddle : b.peginOutPoints = mid.flatMap peginOutPoints := by
    simp [CBlock.peginOutPoints, CBlock.middleTxs, hvtx]
  have hnotOnly : hogex'.isMWEBOnly = false := by
    simp [isMWEBOnly, hasMWEBTx, h.checked.mwebTx_eq hogex' hmem]
  refine ⟨coinbase, mid, hogex', prevIndex, hogAddr, hcon.prev_eq, ?_, hhogAddr, hentry⟩
  refine ⟨by rw [hvtx]; simp, hcb, hrest, h.checked.mwebTx_eq, ?_, ?_, ?_, ?_, ?_, ?_⟩
  · exact hpegin coinbase (by simp [hvtx]) (by simp [hcb])
  · exact hpegin hogex' hmem (by simp [hint.isHogEx])
  · have hpegins := hint.pegins
    rw [hmiddle] at hpegins
    unfold MwebNode.firstPeginIdx at hpegins
    cases hfirst : MwebNode.isFirstHogex params prev with
    | true => simpa [hfirst] using hpegins
    | false =>
      obtain ⟨txin, hhead, hprevout⟩ := hcon.prev_hogex hfirst
      obtain ⟨ins, hvin⟩ : ∃ ins, hogex'.vin = txin :: ins := by
        cases hvin : hogex'.vin with
        | nil => simp [hvin] at hhead
        | cons a ins => exact ⟨ins, by simpa [hvin] using hhead⟩
      rw [hvin] at hpegins ⊢
      simpa [hfirst, hprevout] using hpegins
  · exact (h.checked.txs hogex' hmem).vin_ne_nil hnotOnly
  · exact (h.checked.txs hogex' hmem).prevouts_nodup
  · obtain ⟨out, hout, hscript⟩ := hint.hogAddr
    refine ⟨out, _, ?_, hscript⟩
    rw [← head?_eq_getElem?]
    exact hout

/-! ### Chains -/

/-- The rules for a block that is added to a chain after the genesis block: it is another block
than the genesis block, later than the median time past, and passes the checks in context. -/
structure AddedTo (params : ConsensusParams P) (c : Chain P) (b : CBlock P) : Prop where
  not_genesis : b.getHash ≠ params.hashGenesisBlock
  time : c.getMedianTimePast < b.header.nTime
  checked : contextualCheckBlock params c b = .ok ()

/-- The genesis block is added without these checks. -/
def ChainRules (params : ConsensusParams P) (c : Chain P) (b : CBlock P) : Prop :=
  c ≠ [] → AddedTo params c b

/-- What holds on every chain; `hogexes` are the HogExes of its blocks, newest first. -/
structure ReserveChain (params : ConsensusParams P) (c : Chain P) (coins : Coins P)
    (hogexes : List (CTransaction P)) : Prop where
  times : ConsensusParams.TimesRespected c
  heights : ∀ a coin, coins.get a = some coin → coin.nHeight ≤ c.nHeight
  /-- Before the second block there are no coins. -/
  no_coins : c.length ≤ 1 → ∀ a, coins.get a = none
  reserve : ReserveCoins coins hogexes
  entries : (c.filter fun e => e.mwebHeader.isSome).map CBlockIndex.hogexHash =
    hogexes.map CTransaction.getHash
  /-- Every block after activation has a HogEx, which its index entry describes. -/
  active : ∀ e c', c = e :: c' → c' ≠ [] → params.isMWEBEnabled c' = true →
    ∃ hogex ∈ hogexes.head?, ∃ hogAddr, e.mwebHeader.isSome = true ∧
      e.hogexHash = hogex.getHash ∧ hogex.vout.head? = some hogAddr ∧
      e.mwebAmount = hogAddr.nValue
  inactive : ∀ e c', c = e :: c' → c' = [] ∨ params.isMWEBEnabled c' = false → hogexes = []
  /-- Unspent peg-in outputs are older than the activation. -/
  pegins : ∀ a coin, coins.get a = some coin → coin.out.isPegin = true →
    params.isMWEBEnabled (c.getAncestor (coin.nHeight - 1)) = false

/-- Without coins, the only transaction of a block is its coinbase: coinbase outputs are not yet
mature. -/
lemma BlockConnected.length_lt_two (h : BlockConnected env params prev b tip s r)
    (hempty : ∀ a, tip.coins.get a = none) : b.vtx.length < 2 := by
  obtain ⟨coinbase, rest, hvtx, hcb, hrest⟩ := h.checked.coinbase_first
  cases rest with
  | nil => simp [hvtx]
  | cons tx rest =>
    exfalso
    have hmem : tx ∈ b.vtx := by simp [hvtx]
    have hmweb := h.checked.mwebTx_eq tx hmem
    have hloop := h.loop
    rw [hvtx] at hloop
    obtain ⟨s₁, hfirst, hloop⟩ := foldlM_cons_eq_ok.mp hloop
    obtain ⟨s₂, hsecond, -⟩ := foldlM_cons_eq_ok.mp hloop
    obtain ⟨_, hcoinbase⟩ := txConnected_of_connectTx hfirst
    obtain ⟨vprevout, htx⟩ := txConnected_of_connectTx hsecond
    have hnotCb : tx.isCoinBase = false := hrest tx (by simp)
    have hvin : tx.vin ≠ [] := (h.checked.txs tx hmem).vin_ne_nil
      (by simp [isMWEBOnly, hasMWEBTx, hmweb])
    obtain ⟨txin, htxin⟩ := exists_mem_of_ne_nil _ hvin
    obtain ⟨coin, hcoin, hget⟩ := htx.input_unspent hnotCb (mem_map_of_mem htxin)
    obtain ⟨_, hinputs, -⟩ := htx.inputsChecked hnotCb hmweb
    -- the coin can only come from the coinbase of this block
    rcases hcoinbase.get_eq_some hget with hcreated | ⟨-, hold⟩
    · obtain ⟨-, out, -, -, rfl⟩ := created_eq_some.mp hcreated
      have hmature := (hinputs.mature _ hcoin).coinbase hcb
      simp [outputCoin, coinbaseMaturity] at hmature
    · exact absurd (hold.symm.trans (hempty _)) (by simp)

/-- A coin after a block was there before or has the height of the block. -/
lemma BlockConnected.get_eq_some (h : BlockConnected env params prev b tip s r) {a : COutPoint P}
    {coin : Coin P} (hget : r.tip.coins.get a = some coin) :
    tip.coins.get a = some coin ∨ coin.nHeight = prev.nHeight + 1 := by
  rw [h.coins_eq] at hget
  rcases get_eq_some_of_loop h.loop hget with hold | ⟨tx, -, hcreated⟩
  · exact .inl hold
  · obtain ⟨-, out, -, -, rfl⟩ := created_eq_some.mp hcreated
    exact .inr rfl

namespace ReserveChain

variable {env : ScriptEnv P} {params : ConsensusParams P} {c : Chain P} {tip : CoinsTip P}
  {hogexes : List (CTransaction P)} {b : CBlock P} {s : ConnectState P} {r : ConnectedBlock P}

lemma empty (params : ConsensusParams P) :
    ReserveChain params [] (CoinsTip.empty (P := P)).coins [] where
  times := .nil
  heights _ _ h := by cases h
  no_coins _ _ := rfl
  reserve := ⟨fun h => absurd rfl h, by simp, by simp, by simp⟩
  entries := rfl
  active _ _ h := by cases h
  inactive _ _ h := by cases h
  pegins _ _ h := by cases h

/-- The genesis block changes nothing. -/
lemma genesis (h : ReserveChain params [] tip.coins hogexes) (header : CBlockHeader P) :
    ReserveChain params [⟨header, none, P.zeroHash, 0⟩] tip.coins hogexes := by
  have hnone := h.no_coins (by simp)
  have hnil : hogexes = [] := by simpa using h.entries
  refine ⟨.cons _ _ .nil (fun hne => absurd rfl hne), ?_, fun _ => hnone, h.reserve, ?_, ?_, ?_, ?_⟩
  · intro a coin hget
    exact absurd (hget.symm.trans (hnone a)) (by simp)
  · simp [hnil]
  · rintro e c' ⟨⟩ hne
    exact absurd rfl hne
  · exact fun _ _ _ _ => hnil
  · intro a coin hget
    exact absurd (hget.symm.trans (hnone a)) (by simp)

section

variable (h : ReserveChain params c tip.coins hogexes)

include h

/-- The times, heights and coins of a chain with one more block. -/
lemma heights_cons (hconnected : BlockConnected env params c b tip s r) (a : COutPoint P)
    (coin : Coin P) (hget : r.tip.coins.get a = some coin) :
    coin.nHeight ≤ Chain.nHeight (r.entry :: c) := by
  have hcons : Chain.nHeight (r.entry :: c) = c.nHeight + 1 := by simp [Chain.nHeight]
  rw [hcons]
  rcases hconnected.get_eq_some hget with hold | hnew
  · have := h.heights a coin hold
    omega
  · omega

lemma times_cons (hconnected : BlockConnected env params c b tip s r)
    (htime : c.getMedianTimePast < b.header.nTime) :
    ConsensusParams.TimesRespected (r.entry :: c) := by
  refine .cons _ _ h.times fun _ => ?_
  rw [newEntry_header hconnected.entry_eq]
  exact htime

/-- Peg-in outputs that were unspent before the block are older than the activation. -/
lemma pegins_old (e : CBlockIndex P) {a : COutPoint P} {coin : Coin P}
    (hget : tip.coins.get a = some coin) (hpegin : coin.out.isPegin = true) :
    params.isMWEBEnabled (Chain.getAncestor (e :: c) (coin.nHeight - 1)) = false := by
  have hheight := h.heights a coin hget
  rw [Chain.getAncestor_cons (by omega)]
  exact h.pegins a coin hget hpegin

/-- On a chain without active MWEB there was no HogEx yet. -/
lemma hogexes_eq_nil (hdisabled : params.isMWEBEnabled c = false) : hogexes = [] := by
  cases c with
  | nil => simpa using h.entries
  | cons e c =>
    refine h.inactive e c rfl ?_
    by_contra hcon
    rw [not_or, Bool.not_eq_false] at hcon
    have henabled := ConsensusParams.isMWEBEnabled_cons h.times hcon.2
    rw [hdisabled] at henabled
    cases henabled

/-- A block before activation. -/
lemma cons_of_disabled (hconnected : BlockConnected env params c b tip s r)
    (hadded : AddedTo params c b) (hdisabled : params.isMWEBEnabled c = false) :
    ReserveChain params (r.entry :: c) r.tip.coins [] := by
  have hnone := MwebNode.mwebBlock_eq_none (mweb_of_contextualCheckBlock hadded.checked) hdisabled
  have hentry := Except.ok.inj ((newEntry_of_none hnone).symm.trans hconnected.entry_eq)
  have hnil := h.hogexes_eq_nil hdisabled
  refine ⟨h.times_cons hconnected hadded.time, h.heights_cons hconnected, fun hlen => ?_,
    ⟨fun hne => absurd rfl hne, by simp, by simp, by simp⟩, ?_, ?_, fun _ _ _ _ => rfl, ?_⟩
  · have hpos := length_pos_of_ne_nil hconnected.prev_ne_nil
    rw [length_cons] at hlen
    omega
  · have hold := h.entries
    rw [hnil] at hold
    rw [← hentry]
    simpa using hold
  · rintro e c' ⟨⟩ - henabled
    rw [hdisabled] at henabled
    cases henabled
  · intro a coin hget hpegin
    rcases hconnected.get_eq_some hget with hold | hnew
    · exact h.pegins_old _ hold hpegin
    · rw [hnew, add_sub_cancel_right, Chain.getAncestor_parent]
      exact hdisabled

/-- The HogEx of a block spends the first output of the last HogEx, if there was one. -/
lemma first_eq_prevHogAddr (hconnected : BlockConnected env params c b tip s r)
    {prevIndex : CBlockIndex P} (hprev : c.head? = some prevIndex) (hlen : 2 ≤ b.vtx.length) :
    (if MwebNode.isFirstHogex params c then [] else [⟨prevIndex.hogexHash, 0⟩]) =
      HogExBlock.prevHogAddr hogexes := by
  cases c with
  | nil => cases hprev
  | cons e c =>
    obtain rfl := Option.some.inj hprev
    rw [MwebNode.isFirstHogex, tail_cons]
    cases henabled : params.isMWEBEnabled c with
    | false =>
      rw [h.inactive e c rfl (.inr henabled)]
      rfl
    | true =>
      -- no block with a HogEx can follow the genesis block directly
      have hne : c ≠ [] := by
        rintro rfl
        have := hconnected.length_lt_two (h.no_coins (by simp))
        omega
      obtain ⟨hogex, hhead, hogAddr, -, hhash, -⟩ := h.active e c rfl hne henabled
      cases hogexes with
      | nil => cases hhead
      | cons prevHogex rest =>
        obtain rfl := Option.some.inj hhead
        simp [HogExBlock.prevHogAddr, hhash]

end

/-- A block since activation. -/
lemma cons_of_enabled (hinj : TxHashInjective P) (h : ReserveChain params c tip.coins hogexes)
    (hconnected : BlockConnected env params c b tip s r) (hadded : AddedTo params c b)
    (henabled : params.isMWEBEnabled c = true) :
    ∃ hogex, ReserveChain params (r.entry :: c) r.tip.coins (hogex :: hogexes) := by
  have hcheck := mweb_of_contextualCheckBlock hadded.checked
  cases hattached : b.mwebBlock with
  | none => simp [MwebNode.contextualCheckBlock, henabled, hattached] at hcheck
  | some mwebBlock =>
    obtain ⟨coinbase, mid, hogex, prevIndex, hogAddr, hprev, hblock, hhogAddr, hentry⟩ :=
      hconnected.hogExBlock hattached hcheck
    have hfirst := h.first_eq_prevHogAddr hconnected hprev (by rw [hblock.vtx_eq]; simp)
    have hloop := hconnected.loop
    rw [hblock.vtx_eq, foldlM_append_eq_ok] at hloop
    obtain ⟨s₁, hloop, hlast⟩ := hloop
    obtain ⟨s₂, hstep, hnil⟩ := foldlM_cons_eq_ok.mp hlast
    obtain rfl := Except.ok.inj hnil
    obtain ⟨vprevout, hhogex⟩ := txConnected_of_connectTx hstep
    have hreserve := hblock.reserveCoins hloop hhogex hinj hfirst h.reserve
    rw [← hconnected.coins_eq] at hreserve
    refine ⟨hogex, h.times_cons hconnected hadded.time, h.heights_cons hconnected, fun hlen => ?_,
      hreserve, ?_, ?_, ?_, ?_⟩
    · have hpos := length_pos_of_ne_nil hconnected.prev_ne_nil
      rw [length_cons] at hlen
      omega
    · rw [hentry]
      simpa using h.entries
    · rintro e c' ⟨⟩ - -
      rw [hentry]
      exact ⟨hogex, rfl, hogAddr, rfl, rfl, hhogAddr, rfl⟩
    · rintro e c' ⟨⟩ (hnil | hdisabled)
      · exact absurd hnil hconnected.prev_ne_nil
      · rw [henabled] at hdisabled
        cases hdisabled
    · intro a coin hget hpegin
      by_cases hold : tip.coins.get a = some coin
      · exact h.pegins_old _ hold hpegin
      · rw [hconnected.coins_eq] at hget
        rw [hblock.not_isPegin_of_new hloop hhogex hget hold] at hpegin
        cases hpegin

end ReserveChain

/-- Every chain of connected blocks has a sequence of HogExes. -/
lemma ConnectedChain.reserveChain (hinj : TxHashInjective P)
    {env : ScriptEnv P} {params : ConsensusParams P} {c : Chain P} {tip : CoinsTip P}
    (h : ConnectedChain env params (ChainRules params) c tip) :
    ∃ hogexes, ReserveChain params c tip.coins hogexes := by
  induction h with
  | empty => exact ⟨[], .empty params⟩
  | @connectBlock c tip b r _ hok hconnect ih =>
    obtain ⟨hogexes, hreserve⟩ := ih
    by_cases hc : c = []
    · subst hc
      obtain ⟨-, ⟨-, rfl⟩ | ⟨-, s, hconnected⟩⟩ := connectBlock_cases hconnect
      · exact ⟨hogexes, hreserve.genesis b.header⟩
      · exact absurd rfl hconnected.prev_ne_nil
    · have hadded := hok hc
      obtain ⟨-, ⟨hgenesis, -⟩ | ⟨-, s, hconnected⟩⟩ := connectBlock_cases hconnect
      · exact absurd hgenesis hadded.not_genesis
      · cases henabled : params.isMWEBEnabled c with
        | false => exact ⟨[], hreserve.cons_of_disabled hconnected hadded henabled⟩
        | true =>
          obtain ⟨hogex, hnext⟩ := hreserve.cons_of_enabled hinj hconnected hadded henabled
          exact ⟨hogex :: hogexes, hnext⟩

/-- After every block since activation, the first output of its HogEx is unspent and worth the
MWEB amount of the index entry, the first outputs of all older HogExes are spent, and every
unspent peg-in output was created before the activation.  The HogEx of a block is the integrating
transaction that its index entry names; a marker in a block before the activation makes none. -/
theorem mweb_reserve (hinj : Function.Injective (NodeCrypto.txHash (P := P)))
    (env : ScriptEnv P) (params : ConsensusParams P) (e : CBlockIndex P) (c : Chain P)
    (tip : CoinsTip P) (h : ConnectedChain env params (ChainRules params) (e :: c) tip)
    (hc : c ≠ []) (henabled : params.isMWEBEnabled c = true) :
    (∃ coin, tip.coins.get ⟨e.hogexHash, 0⟩ = some coin ∧ coin.out.nValue = e.mwebAmount) ∧
      (∀ e' ∈ c, e'.mwebHeader.isSome = true → tip.coins.get ⟨e'.hogexHash, 0⟩ = none) ∧
      ∀ a coin, tip.coins.get a = some coin → coin.out.isPegin = true →
        params.isMWEBEnabled (Chain.getAncestor (e :: c) (coin.nHeight - 1)) = false := by
  obtain ⟨hogexes, hreserve⟩ := h.reserveChain hinj
  obtain ⟨hogex, hhead, hogAddr, hsome, hhash, hhogAddr, hamount⟩ :=
    hreserve.active e c rfl hc henabled
  refine ⟨?_, fun e' he' hsome' => ?_, hreserve.pegins⟩
  · obtain ⟨coin, hcoin, hout⟩ := hreserve.reserve.head hogex hhead
    rw [← List.head?_eq_getElem?, hhogAddr] at hout
    rw [hhash, hamount, Option.some.inj hout]
    exact ⟨coin, hcoin, rfl⟩
  · -- the older entries with MWEB data belong to the older HogExes
    have hentries := hreserve.entries
    simp only [List.filter_cons, hsome, if_true, List.map_cons] at hentries
    have hmem : e'.hogexHash ∈ hogexes.tail.map CTransaction.getHash := by
      rw [List.map_tail, ← hentries, List.tail_cons]
      exact List.mem_map_of_mem (List.mem_filter.mpr ⟨he', hsome'⟩)
    obtain ⟨old, hold, heq⟩ := List.mem_map.mp hmem
    rw [← heq]
    exact hreserve.reserve.tail_spent old hold

section Example

open Symbolic

instance (params : ConsensusParams P) (c : Chain P) (b : CBlock P) :
    Decidable (AddedTo params c b) :=
  decidable_of_iff (b.getHash ≠ params.hashGenesisBlock ∧
      c.getMedianTimePast < b.header.nTime ∧ contextualCheckBlock params c b = .ok ())
    ⟨fun h => ⟨h.1, h.2.1, h.2.2⟩, fun h => ⟨h.not_genesis, h.time, h.checked⟩⟩

instance (params : ConsensusParams P) (c : Chain P) (b : CBlock P) :
    Decidable (ChainRules params c b) :=
  inferInstanceAs (Decidable (c ≠ [] → AddedTo params c b))

/-- Parameters under which MWEB is active from the block at height 21 on, when the first
coinbase is mature. -/
def maturityParams : ConsensusParams sym :=
  { genesisParams with deploymentMweb := ⟨4, 0, 0, 19, 19⟩ }

/-- An extension block at height 21 that mints ten units. -/
def maturityMint : Mw.Block sym :=
  (Mw.CoinsView.empty.buildNextBlock 21 [mintTx]).toOption.get (by decide +kernel)

/-- A transaction that pegs in ten units of the first coinbase. -/
def maturityPegin : CTransaction sym :=
  spend [⟨(coinbase (scriptPushHeight 1 ++ [0]) [⟨1000, opTrue⟩]).getHash, 0⟩]
    [⟨10, .mwebPegin mintKernel.getKernelID⟩]

/-- The first block with a HogEx. -/
def maturityBlock : CBlock sym :=
  mine (coinbaseBlock 20).getHash 21
    [coinbase (scriptPushHeight 21 ++ [0]) [⟨1000, opTrue⟩], maturityPegin,
      markHogEx
        (spend [⟨maturityPegin.getHash, 0⟩] [⟨10, .mwebHogAddr maturityMint.header.getHash⟩])
        ⟨rfl, by simp [spend]⟩]
    (some maturityMint)

/-- Connecting the blocks up to the first one with a HogEx. -/
def connectMaturity : Except BlockFailure (Chain sym × CoinsTip sym) :=
  ((List.range 21).map coinbaseBlock ++ [maturityBlock]).foldlM
    (connectNext lenientEnv maturityParams (ChainRules maturityParams)) ([], CoinsTip.empty)

lemma connectMaturity_isSome : connectMaturity.toOption.isSome = true := by decide +kernel

/-- The chain and the coins after the first block with a HogEx. -/
def maturityState : Chain sym × CoinsTip sym :=
  connectMaturity.toOption.get connectMaturity_isSome

private lemma maturityState_ne_nil : maturityState.1 ≠ [] := by decide +kernel

/-- On this chain the reserve holds the ten units, and no peg-in output is left. -/
theorem mweb_reserve_maturityState :
    ∃ e c, maturityState.1 = e :: c ∧ e.mwebAmount = 10 ∧
      (∃ coin, maturityState.2.coins.get ⟨e.hogexHash, 0⟩ = some coin ∧
        coin.out.nValue = e.mwebAmount) ∧
      (∀ e' ∈ c, e'.mwebHeader.isSome = true →
        maturityState.2.coins.get ⟨e'.hogexHash, 0⟩ = none) ∧
      ∀ a coin, maturityState.2.coins.get a = some coin → coin.out.isPegin = true →
        maturityParams.isMWEBEnabled (Chain.getAncestor (e :: c) (coin.nHeight - 1)) = false := by
  have hchain : ConnectedChain lenientEnv maturityParams (ChainRules maturityParams)
      maturityState.1 maturityState.2 :=
    .connectNext (eq_ok_toOption_get connectMaturity_isSome)
  have hsplit := (List.cons_head_tail maturityState_ne_nil).symm
  rw [hsplit] at hchain
  exact ⟨_, _, hsplit, by decide +kernel,
    mweb_reserve (tagged_injective 14) _ _ _ _ _ hchain (by decide +kernel) (by decide +kernel)⟩

end Example

end Aegisum
