import Aegisum.Node.Ledger

/-!
# Cached lock points

`CheckSequenceLocks` and `TestLockPointValidity`.  An entry of the mempool keeps the height and the
time up to which its relative lock times hold it back, and the newest block these were computed
from.  A reorganisation computes them again only if that block has left the active chain.

An input that was unconfirmed when they were computed counts as one of the next block.  The
transaction was accepted, so it has no relative lock on that input, and then any later height of
the input will do: medians of block times only grow along a chain.
-/

namespace Aegisum

open List

variable {P : Primitives}

/-! ### The checks -/

/-- What `CheckSequenceLocks` has computed; the null pointer is the empty chain. -/
structure LockPoints (P : Primitives) where
  height : ℤ
  time : ℤ
  maxInputBlock : Chain P
deriving DecidableEq

/-- The lock points before they are computed. -/
def LockPoints.new : LockPoints P := ⟨0, 0, []⟩

/-- The block is on the chain. -/
def Chain.contains (c block : Chain P) : Bool := c.getAncestor block.nHeight = block

/-- The lock points need not be computed again. -/
def testLockPointValidity (active : Chain P) (lp : LockPoints P) : Bool :=
  if lp.maxInputBlock ≠ [] then active.contains lp.maxInputBlock else true

/-- The height of the coins of unconfirmed transactions. -/
def memPoolHeight : ℤ := 0x7FFFFFFF

/-- Some kernel pegs out. -/
def CTransaction.hasPegOut (tx : CTransaction P) : Bool :=
  tx.mwebTx.elim false fun t => t.body.kernels.any Mw.Kernel.hasPegOut

/-- `CCoinsViewMemPool::GetCoin`: the outputs of the transactions of the pool, and below them the
coins of the tip. -/
def viewMemPool (coins : Coins P) (pool : P.Hash → Option (CTransaction P))
    (outpoint : COutPoint P) : Option (Coin P) :=
  match pool outpoint.hash with
  | some tx => tx.vout[outpoint.n]?.map fun out => ⟨out, memPoolHeight, false, tx.hasPegOut⟩
  | none => coins.get outpoint

/-- The height an input counts with; an unconfirmed one is taken to be in the next block. -/
def inputHeight (active : Chain P) (coin : Coin P) : ℤ :=
  if coin.nHeight = memPoolHeight then active.nHeight + 1 else coin.nHeight

/-- Relative lock times are in force for the transaction. -/
def enforceBIP68 (enforce : Bool) (tx : CTransaction P) : Bool :=
  2 ≤ tx.nVersion % 2 ^ 32 ∧ enforce

/-- The heights as `CalculateSequenceLocks` leaves them: those of inputs without a lock are
cleared. -/
def relevantHeights (enforce : Bool) (tx : CTransaction P) (prevHeights : List ℤ) : List ℤ :=
  if enforceBIP68 enforce tx then
    (tx.vin.zip prevHeights).map fun input => if input.1.nSequence.testBit 31 then 0 else input.2
  else prevHeights

/-- The largest height of a confirmed input. -/
def maxInputHeight (active : Chain P) (heights : List ℤ) : ℤ :=
  heights.foldl (fun m height => if height ≠ active.nHeight + 1 then max m height else m) 0

/-- The last locked height and time are passed in the next block. -/
def evaluateSequenceLocks (active : Chain P) (lockPair : ℤ × ℤ) : Bool :=
  lockPair.1 < active.nHeight + 1 && lockPair.2 < active.getMedianTimePast

/-- The relative lock times allow the transaction in the next block; returns the lock points too.
An input that is missing fails the check. -/
def checkSequenceLocks (active : Chain P) (view : COutPoint P → Option (Coin P)) (enforce : Bool)
    (tx : CTransaction P) (lp : LockPoints P) (useExistingLockPoints : Bool) :
    Bool × LockPoints P :=
  if useExistingLockPoints then (evaluateSequenceLocks active (lp.height, lp.time), lp)
  else
    match tx.vin.mapM fun txin => (view txin.prevout).map (inputHeight active) with
    | none => (false, lp)
    | some prevHeights =>
      let lockPair := calculateSequenceLocks enforce tx prevHeights active
      (evaluateSequenceLocks active lockPair,
        ⟨lockPair.1, lockPair.2,
          active.getAncestor (maxInputHeight active (relevantHeights enforce tx prevHeights))⟩)

/-! ### What the computed values say -/

section Calculation

variable {active : Chain P} {enforce : Bool} {tx : CTransaction P} {heights : List ℤ}

variable {height time : ℤ} {lockPair : ℤ × ℤ}

end Calculation

/-! ### From one chain to another -/

namespace InputUnlocked

variable {active later : Chain P} {txin : CTxIn P}

end InputUnlocked

/-- What a loop that looks up every element has found. -/
lemma zip_of_mapM_eq_some {α β : Type*} {f : α → Option β} {l : List α} {l' : List β}
    (h : l.mapM f = some l') :
    (∀ x ∈ l, ∃ y, (x, y) ∈ l.zip l') ∧ (∀ p ∈ l.zip l', f p.1 = some p.2) ∧
      ∀ y ∈ l', ∃ x ∈ l, f x = some y := by
  induction l generalizing l' with
  | nil =>
    obtain rfl : [] = l' := by simpa using h
    simp
  | cons a l ih =>
    rw [mapM_cons] at h
    obtain ⟨b, hb, h⟩ := Option.bind_eq_some_iff.mp h
    obtain ⟨l₁, hl₁, h⟩ := Option.bind_eq_some_iff.mp h
    obtain rfl : b :: l₁ = l' := by simpa using h
    obtain ⟨h₁, h₂, h₃⟩ := ih hl₁
    rw [zip_cons_cons]
    refine ⟨forall_mem_cons.mpr ⟨⟨b, mem_cons_self⟩, fun x hx => ?_⟩,
      forall_mem_cons.mpr ⟨hb, h₂⟩,
      forall_mem_cons.mpr ⟨⟨a, mem_cons_self, hb⟩, fun y hy => ?_⟩⟩
    · obtain ⟨y, hy⟩ := h₁ x hx
      exact ⟨y, mem_cons_of_mem _ hy⟩
    · obtain ⟨x, hx, hxy⟩ := h₃ y hy
      exact ⟨x, mem_cons_of_mem _ hx, hxy⟩

variable [NodeCrypto P]

/-- A view that adds unconfirmed coins to those of the tip. -/
def ExtendsCoins (coins : Coins P) (view : COutPoint P → Option (Coin P)) : Prop :=
  ∀ o coin, view o = some coin → coin.nHeight = memPoolHeight ∨ coins.get o = some coin

omit [NodeCrypto P] in
lemma extendsCoins_viewMemPool (coins : Coins P) (pool : P.Hash → Option (CTransaction P)) :
    ExtendsCoins coins (viewMemPool coins pool) := by
  intro o coin hcoin
  unfold viewMemPool at hcoin
  split at hcoin
  · obtain ⟨out, -, rfl⟩ := Option.map_eq_some_iff.mp hcoin
    exact .inl rfl
  · exact .inr hcoin

/-- Lock points that were computed on an active chain where the transaction passed. -/
structure ComputedOn (active : Chain P) (view : COutPoint P → Option (Coin P)) (enforce : Bool)
    (tx : CTransaction P) (lp : LockPoints P) (heights : List ℤ) : Prop where
  heights_eq : tx.vin.mapM (fun txin => (view txin.prevout).map (inputHeight active)) = some heights
  locks_eq : (lp.height, lp.time) = calculateSequenceLocks enforce tx heights active
  passed : evaluateSequenceLocks active (lp.height, lp.time) = true
  maxInputBlock_eq : lp.maxInputBlock =
    active.getAncestor (maxInputHeight active (relevantHeights enforce tx heights))

omit [NodeCrypto P] in
/-- A fresh check that passes computes the lock points. -/
lemma checkSequenceLocks_false_eq_true {active : Chain P} {view : COutPoint P → Option (Coin P)}
    {enforce : Bool} {tx : CTransaction P} {lp lp' : LockPoints P} :
    checkSequenceLocks active view enforce tx lp false = (true, lp') ↔
      ∃ heights, ComputedOn active view enforce tx lp' heights := by
  unfold checkSequenceLocks
  rw [if_neg Bool.false_ne_true]
  constructor
  · intro h
    split at h
    · cases h
    case h_2 heights hheights =>
      obtain ⟨hpassed, rfl⟩ := Prod.mk.inj h
      exact ⟨heights, hheights, rfl, hpassed, rfl⟩
  · rintro ⟨heights, hheights, hlocks, hpassed, hblock⟩
    rw [hheights]
    simp only
    rw [← hlocks, hpassed, ← hblock]

section Ledgers

variable {env : ScriptEnv P} {params : ConsensusParams P} {stored : BlockStore P}
  {active later : Chain P} {tip laterTip : CoinsTip P} {view : COutPoint P → Option (Coin P)}
  {enforce : Bool} {tx : CTransaction P} {lp : LockPoints P} {heights : List ℤ}

/-- The transactions of the pool are not in the chain. -/
def Unconfirmed (params : ConsensusParams P) (stored : BlockStore P) (c : Chain P)
    (tx : CTransaction P) : Prop :=
  ∀ p ∈ confirmed params stored c, p.2.getHash ≠ tx.getHash

section

variable (hledger : Ledger (confirmed params stored active) tip.coins)
  (hview : ExtendsCoins tip.coins view)

include hledger hview

variable (h : ComputedOn active view enforce tx lp heights) (hactive : active ≠ [])

include h hactive

end

end Ledgers

/-! ### The mempool over time -/

/-- An entry of the mempool with its lock points. -/
structure LockedEntry (P : Primitives) where
  tx : CTransaction P
  lockPoints : LockPoints P
deriving DecidableEq

/-- The active chain, the coins of its tip and the mempool. -/
structure LockState (P : Primitives) where
  chain : Chain P
  tip : CoinsTip P
  entries : List (LockedEntry P)

namespace LockState

/-- The transaction of the pool with an id. -/
def get (s : LockState P) (h : P.Hash) : Option (CTransaction P) :=
  (s.entries.find? fun e => e.tx.getHash = h).map LockedEntry.tx

/-- The coins that a transaction of the pool may spend. -/
def view (s : LockState P) : COutPoint P → Option (Coin P) := viewMemPool s.tip.coins s.get

/-- The relative lock times of a transaction in the next block. -/
def check (s : LockState P) (enforce : Bool) (tx : CTransaction P) (lp : LockPoints P)
    (useExistingLockPoints : Bool) : Bool × LockPoints P :=
  checkSequenceLocks s.chain s.view enforce tx lp useExistingLockPoints

/-- How `removeForReorg` looks at an entry: nothing if it is removed, with its lock points computed
again if they were not valid.  `passes` stands for its other checks. -/
def recheck (s : LockState P) (enforce : Bool) (passes : CTransaction P → Bool)
    (e : LockedEntry P) : Option (LockedEntry P) :=
  let validLP := testLockPointValidity s.chain e.lockPoints
  let (ok, lp) := s.check enforce e.tx e.lockPoints validLP
  if passes e.tx && ok then some ⟨e.tx, lp⟩ else none

lemma exists_of_get_eq_some {s : LockState P} {h : P.Hash} {tx : CTransaction P}
    (hget : s.get h = some tx) : ∃ e ∈ s.entries, e.tx = tx ∧ tx.getHash = h := by
  obtain ⟨e, he, rfl⟩ := Option.map_eq_some_iff.mp hget
  exact ⟨e, mem_of_find?_eq_some he, rfl, by simpa using find?_some he⟩

/-- An entry that is kept has valid lock points that pass, or passes with new ones. -/
lemma recheck_eq_some {s : LockState P} {enforce : Bool} {passes : CTransaction P → Bool}
    {e e' : LockedEntry P} (h : s.recheck enforce passes e = some e') :
    e'.tx = e.tx ∧
      (testLockPointValidity s.chain e.lockPoints = true ∧ e'.lockPoints = e.lockPoints ∧
          evaluateSequenceLocks s.chain (e.lockPoints.height, e.lockPoints.time) = true ∨
        s.check enforce e.tx e.lockPoints false = (true, e'.lockPoints)) := by
  unfold recheck at h
  cases hvalid : testLockPointValidity s.chain e.lockPoints with
  | true =>
    simp only [hvalid, check, checkSequenceLocks, if_true] at h
    split at h
    case isTrue hok =>
      obtain rfl := Option.some.inj h
      exact ⟨rfl, .inl ⟨rfl, rfl, (Bool.and_eq_true_iff.mp hok).2⟩⟩
    case isFalse => cases h
  | false =>
    simp only [hvalid] at h
    split at h
    case isTrue hok =>
      obtain rfl := Option.some.inj h
      refine ⟨rfl, .inr (Prod.ext (Bool.and_eq_true_iff.mp hok).2 rfl)⟩
    case isFalse => cases h

end LockState

section Runs

variable (env : ScriptEnv P) (params : ConsensusParams P) (stored : BlockStore P) (enforce : Bool)

/-- What changes the chain and the mempool.  Entries may leave the mempool at any time, for a
conflict, a replacement, a limit or because they descend from an entry that leaves. -/
inductive LockStep : LockState P → LockState P → Prop
  /-- A block is connected and its transactions leave the mempool. -/
  | connectTip {s : LockState P} {b : CBlock P} {r : ConnectedBlock P}
      {kept : List (LockedEntry P)} (hextends : ExtendsChain params stored s.chain b)
      (hconnect : connectBlock env params s.chain b s.tip = .ok r) (hkept : kept.Sublist s.entries)
      (hremoved : ∀ e ∈ kept, ∀ tx ∈ b.vtx, tx.getHash ≠ e.tx.getHash) :
      LockStep s ⟨r.entry :: s.chain, r.tip, kept⟩
  /-- The block at the tip is disconnected.  The coins are taken to be those of its parent again;
  the code loses a peg-out mark here, which no lock depends on. -/
  | disconnectTip {s : LockState P} {e : CBlockIndex P} {c : Chain P} {tip : CoinsTip P}
      {kept : List (LockedEntry P)} (hchain : s.chain = e :: c) (hc : c ≠ [])
      (htip : ActiveChain env params stored c tip) (hkept : kept.Sublist s.entries) :
      LockStep s ⟨c, tip, kept⟩
  /-- A transaction is accepted, from a peer or from a disconnected block. -/
  | acceptToMemoryPool {s : LockState P} {tx : CTransaction P} {lp : LockPoints P}
      {kept : List (LockedEntry P)} (hchecked : checkTransaction tx = .ok ())
      (hcoinbase : tx.isCoinBase = false) (hnew : s.get tx.getHash = none)
      (hlocks : s.check enforce tx .new false = (true, lp)) (hkept : kept.Sublist s.entries) :
      LockStep s ⟨s.chain, s.tip, ⟨tx, lp⟩ :: kept⟩
  /-- The entries are checked again at the end of a reorganisation. -/
  | removeForReorg {s : LockState P} (passes : CTransaction P → Bool)
      {kept : List (LockedEntry P)}
      (hkept : kept.Sublist (s.entries.filterMap (s.recheck enforce passes))) :
      LockStep s ⟨s.chain, s.tip, kept⟩

/-- What holds in every state. -/
structure LocksSound (s : LockState P) : Prop where
  active : ActiveChain env params stored s.chain s.tip
  chain_ne_nil : s.chain ≠ []
  unconfirmed : ∀ e ∈ s.entries, e.tx.isMWEBOnly = false → Unconfirmed params stored s.chain e.tx
  computed : ∀ e ∈ s.entries, ∃ c tip view heights, ActiveChain env params stored c tip ∧ c ≠ [] ∧
    ExtendsCoins tip.coins view ∧ ComputedOn c view enforce e.tx e.lockPoints heights

variable {env params stored enforce}

namespace LocksSound

variable {s s' : LockState P} (h : LocksSound env params stored enforce s)

include h

/-- A transaction of the pool with outputs is not in the chain. -/
lemma get_unconfirmed {id : P.Hash} {tx : CTransaction P} (hget : s.get id = some tx)
    (hvout : tx.vout ≠ []) :
    tx.getHash = id ∧ Unconfirmed params stored s.chain tx := by
  obtain ⟨e, he, rfl, hid⟩ := LockState.exists_of_get_eq_some hget
  exact ⟨hid, h.unconfirmed e he (by simp [CTransaction.isMWEBOnly, hvout])⟩

/-- Fresh lock points are computed on the active chain. -/
lemma computed_of_check {tx : CTransaction P} {lp lp' : LockPoints P}
    (hcheck : s.check enforce tx lp false = (true, lp')) :
    ∃ c tip view heights, ActiveChain env params stored c tip ∧ c ≠ [] ∧
      ExtendsCoins tip.coins view ∧ ComputedOn c view enforce tx lp' heights := by
  obtain ⟨heights, hcomputed⟩ := checkSequenceLocks_false_eq_true.mp hcheck
  exact ⟨s.chain, s.tip, s.view, heights, h.active, h.chain_ne_nil,
    extendsCoins_viewMemPool _ _, hcomputed⟩

variable (hinj : TxHashInjective P)

include hinj

/-- A transaction whose inputs are available is not in the chain. -/
lemma unconfirmed_of_view {tx : CTransaction P} (hchecked : checkTransaction tx = .ok ())
    (hcoinbase : tx.isCoinBase = false) (honly : tx.isMWEBOnly = false)
    (havailable : ∀ txin ∈ tx.vin, s.view txin.prevout ≠ none) :
    Unconfirmed params stored s.chain tx := by
  intro p hp heq
  obtain ⟨txin, htxin⟩ := exists_mem_of_ne_nil _
    ((checkedTx_of_checkTransaction hchecked).vin_ne_nil honly)
  obtain ⟨hnone, q, hq, hhash⟩ := (h.active.ledger hinj).1.prevout_spent hinj hp honly heq
    hcoinbase (mem_map_of_mem htxin)
  refine havailable txin htxin ?_
  unfold LockState.view viewMemPool
  split
  case h_1 parent hparent =>
    by_cases hvout : parent.vout = []
    · simp [hvout]
    · obtain ⟨hid, hunconfirmed⟩ := h.get_unconfirmed hparent hvout
      exact absurd (hhash.trans hid.symm) (hunconfirmed q hq)
  case h_2 => exact hnone

/-- Every step keeps the lock points sound. -/
lemma step (hstep : LockStep env params stored enforce s s') :
    LocksSound env params stored enforce s' := by
  cases hstep with
  | @connectTip b r kept hextends hconnect hkept hremoved =>
    refine ⟨h.active.connectBlock hextends hconnect, by simp, fun e he honly p hp => ?_,
      fun e he => h.computed e (hkept.subset he)⟩
    rw [confirmed, (BlockStore.txs_entry hextends.stored_eq hconnect).2, mem_append] at hp
    rcases hp with hp | hp
    · split at hp
      · simp at hp
      · obtain ⟨tx, htx, rfl⟩ := mem_map.mp (mem_reverse.mp hp)
        exact hremoved e he tx htx
    · exact h.unconfirmed e (hkept.subset he) honly p hp
  | @disconnectTip e c tip kept hchain hc htip hkept =>
    refine ⟨htip, hc, fun e' he' honly p hp => ?_, fun e' he' => h.computed e' (hkept.subset he')⟩
    have hsuffix : c <:+ s.chain := by rw [hchain]; exact suffix_cons e c
    exact h.unconfirmed e' (hkept.subset he') honly p ((mem_confirmed_suffix hsuffix).mp hp).1
  | @acceptToMemoryPool tx lp kept hchecked hcoinbase hnew hlocks hkept =>
    refine ⟨h.active, h.chain_ne_nil, ?_, ?_⟩
    · refine forall_mem_cons.mpr ⟨fun honly => ?_, fun e he => h.unconfirmed e (hkept.subset he)⟩
      obtain ⟨heights, hcomputed⟩ := checkSequenceLocks_false_eq_true.mp hlocks
      refine h.unconfirmed_of_view hinj hchecked hcoinbase honly fun txin htxin hnone => ?_
      obtain ⟨hfound, hlookups, -⟩ := zip_of_mapM_eq_some hcomputed.heights_eq
      obtain ⟨height, hmem⟩ := hfound txin htxin
      have hlookup := hlookups _ hmem
      simp [hnone] at hlookup
    · exact forall_mem_cons.mpr ⟨h.computed_of_check hlocks,
        fun e he => h.computed e (hkept.subset he)⟩
  | @removeForReorg passes kept hkept =>
    refine ⟨h.active, h.chain_ne_nil, fun e' he' => ?_, fun e' he' => ?_⟩ <;>
      obtain ⟨e, he, hrecheck⟩ := mem_filterMap.mp (hkept.subset he') <;>
      obtain ⟨htx, hlp⟩ := LockState.recheck_eq_some hrecheck
    · rw [htx]
      exact h.unconfirmed e he
    · rw [htx]
      rcases hlp with ⟨-, heq, -⟩ | hcheck
      · rw [heq]
        exact h.computed e he
      · exact h.computed_of_check hcheck

/-- Every run keeps the lock points sound. -/
lemma run (hrun : Relation.ReflTransGen (LockStep env params stored enforce) s s') :
    LocksSound env params stored enforce s' := by
  induction hrun with
  | refl => exact h
  | tail _ hstep ih => exact ih.step hinj hstep

end LocksSound

end Runs

namespace Symbolic

end Symbolic

end Aegisum
