import Aegisum.Node.CoinsStack
import Aegisum.Node.UndoFormat

/-!
# Disconnecting a block

`ApplyTxInUndo` and `DisconnectBlock` on a cache, and what they do to the map that the cache stands
for.  What is at an outpoint after a block was disconnected depends on the first transaction of the
block that touched it: if that one spent the coin, the coin is restored from the undo data; if that
one created a coin, there is none; and if there is no such transaction, the outpoint is left alone.
-/

namespace Aegisum

open CoinsCache CCoinsViewCache List

variable {P : Primitives}

/-- A cache with the layers it stands on. -/
structure CachedCoins (P : Primitives) where
  db : Coins P
  cache : CCoinsViewCache P
  below : List (CCoinsViewCache P)

namespace CachedCoins

/-- There is an unspent coin at the outpoint. -/
def haveCoin (view : CachedCoins P) (outpoint : COutPoint P) : Bool × CachedCoins P :=
  let (found, cache, below) := view.cache.haveCoin view.db view.below outpoint
  (found, ⟨view.db, cache, below⟩)

/-- The coin at the outpoint, or an empty one. -/
def accessCoin (view : CachedCoins P) (outpoint : COutPoint P) : Coin P × CachedCoins P :=
  let (coin, cache, below) := view.cache.accessCoin view.db view.below outpoint
  (coin, ⟨view.db, cache, below⟩)

/-- Spend a coin. -/
def spendCoin (view : CachedCoins P) (outpoint : COutPoint P) :
    Option (Coin P) × CachedCoins P :=
  let (coin, cache, below) := view.cache.spendCoin view.db view.below outpoint
  (coin, ⟨view.db, cache, below⟩)

/-- Add a coin. -/
def addCoin (view : CachedCoins P) (outpoint : COutPoint P) (coin : Coin P)
    (possibleOverwrite : Bool) : Except CoinsError (CachedCoins P) := do
  let cache ← view.cache.addCoin outpoint coin possibleOverwrite
  pure ⟨view.db, cache, view.below⟩

/-- The cache stands for the map `m` over layers that stand for `ms`. -/
def Shows (view : CachedCoins P) (m : CoinMap P) (ms : List (CoinMap P)) : Prop :=
  StackAgrees view.db (view.cache :: view.below) (m :: ms)

section Shows

variable {view : CachedCoins P} {m : CoinMap P} {ms : List (CoinMap P)}

lemma Shows.exists_below (h : view.Shows m ms) : ∃ below ms', ms = below :: ms' := by
  cases ms with
  | nil => exact h.elim
  | cons below ms' => exact ⟨below, ms', rfl⟩

lemma haveCoin_spec (h : view.Shows m ms) (outpoint : COutPoint P) :
    (view.haveCoin outpoint).1 = (m outpoint).isSome ∧ (view.haveCoin outpoint).2.Shows m ms := by
  obtain ⟨below, ms, rfl⟩ := h.exists_below
  exact ⟨haveCoin_eq h outpoint, (fetched h outpoint).agrees⟩

lemma accessCoin_spec (h : view.Shows m ms) (outpoint : COutPoint P) :
    (view.accessCoin outpoint).1.unspent? = m outpoint ∧
      (view.accessCoin outpoint).2.Shows m ms := by
  obtain ⟨below, ms, rfl⟩ := h.exists_below
  exact ⟨unspent?_accessCoin h outpoint,
    (fetched h outpoint).agrees⟩

lemma spendCoin_spec (h : view.Shows m ms) (outpoint : COutPoint P) :
    (view.spendCoin outpoint).1.bind Coin.unspent? = m outpoint ∧
      (view.spendCoin outpoint).2.Shows (Function.update m outpoint none) ms := by
  obtain ⟨below, ms, rfl⟩ := h.exists_below
  exact spendCoin_spec h outpoint

lemma addCoin_spec (h : view.Shows m ms) (outpoint : COutPoint P) {coin : Coin P}
    (hcoin : coin.isSpent = false) {possibleOverwrite : Bool}
    (hown : possibleOverwrite = false → m outpoint = none) :
    ∃ view', view.addCoin outpoint coin possibleOverwrite = .ok view' ∧
      view'.Shows (addToMap outpoint coin m) ms := by
  obtain ⟨below, ms, rfl⟩ := h.exists_below
  obtain ⟨cache, hadd, hagrees⟩ := addCoin_spec h.1 outpoint hcoin hown
  exact ⟨⟨view.db, cache, view.below⟩, bind_of_eq_ok hadd _, hagrees, h.2⟩

/-- A cache stands for one map only. -/
lemma Shows.unique {m' : CoinMap P} {ms' : List (CoinMap P)} (h : view.Shows m ms)
    (h' : view.Shows m' ms') : m = m' := by
  funext outpoint
  rw [← (accessCoin_spec h outpoint).1, (accessCoin_spec h' outpoint).1]

end Shows

end CachedCoins

/-! ### `DisconnectBlock` -/

/-- Ways in which a block is not disconnected. -/
inductive DisconnectError
  /-- `DISCONNECT_FAILED`. -/
  | failed
  | exception (error : CoinsError)

/-- The most outputs that a transaction in a block can have. -/
def maxOutputsPerBlock : ℕ := maxBlockWeight / 36

namespace CachedCoins

/-- Look through the outputs of a transaction from number `n` on. -/
def accessFrom (txid : P.Hash) : ℕ → ℕ → CachedCoins P → Coin P × CachedCoins P
  | 0, _, view => (.cleared, view)
  | k + 1, n, view =>
    let (alternate, view) := view.accessCoin ⟨txid, n⟩
    if alternate.isSpent then accessFrom txid k (n + 1) view else (alternate, view)

/-- `AccessByTxid`: an unspent output of a transaction. -/
def accessByTxid (view : CachedCoins P) (txid : P.Hash) : Coin P × CachedCoins P :=
  accessFrom txid maxOutputsPerBlock 0 view

/-- Add a restored coin. -/
def addRestored (view : CachedCoins P) (out : COutPoint P) (undo : Coin P) (fClean : Bool) :
    Except DisconnectError (Bool × CachedCoins P) :=
  match view.addCoin out undo (!fClean) with
  | .ok view => .ok (fClean, view)
  | .error e => .error (.exception e)

/-- `ApplyTxInUndo`.  The flag says whether there was no coin at the outpoint. -/
def applyTxInUndo (undo : Coin P) (view : CachedCoins P) (out : COutPoint P) :
    Except DisconnectError (Bool × CachedCoins P) :=
  let (found, view) := view.haveCoin out
  if undo.nHeight = 0 then
    let (alternate, view) := view.accessByTxid out.hash
    if alternate.isSpent then .error .failed
    else
      view.addRestored out
        { undo with nHeight := alternate.nHeight, fCoinBase := alternate.fCoinBase } (!found)
  else view.addRestored out undo (!found)

/-- Restore the inputs of a transaction, the last one first. -/
def restoreInputs : List (CTxIn P × Coin P) → Bool × CachedCoins P →
    Except DisconnectError (Bool × CachedCoins P)
  | [], s => .ok s
  | (txin, undo) :: rest, s => do
    let s ← restoreInputs rest s
    let (clean, view) ← applyTxInUndo undo s.2 txin.prevout
    pure (s.1 && clean, view)

variable [NodeCrypto P]

/-- Remove an output of a transaction; it should be the one that the block created. -/
def removeOutput (tx : CTransaction P) (nHeight : ℤ) (s : Bool × CachedCoins P)
    (out : CTxOut P × ℕ) : Bool × CachedCoins P :=
  if out.1.scriptPubKey.isUnspendable then s
  else
    let (coin, view) := s.2.spendCoin ⟨tx.getHash, out.2⟩
    (s.1 && coin.any fun coin =>
      out.1 = coin.out ∧ nHeight = coin.nHeight ∧ tx.isCoinBase = coin.fCoinBase, view)

/-- Undo one transaction; there are no undo data for the first one of a block. -/
def disconnectTx (nHeight : ℤ) (tx : CTransaction P) (vprevout : Option (List (Coin P)))
    (s : Bool × CachedCoins P) : Except DisconnectError (Bool × CachedCoins P) :=
  let s := tx.vout.zipIdx.foldl (removeOutput tx nHeight) s
  match vprevout with
  | none => .ok s
  | some vprevout => do
    rejectIf (vprevout.length ≠ tx.vin.length) .failed
    restoreInputs (tx.vin.zip vprevout) s

/-- Undo transactions, the last one first. -/
def disconnectTxs (nHeight : ℤ) : List (CTransaction P × Option (List (Coin P))) →
    Bool × CachedCoins P → Except DisconnectError (Bool × CachedCoins P)
  | [], s => .ok s
  | (tx, vprevout) :: txs, s => do
    let s ← disconnectTxs nHeight txs s
    disconnectTx nHeight tx vprevout s

/-- `DisconnectBlock` for the undo data that were read.  The result is `DISCONNECT_OK` if the flag
is set and `DISCONNECT_UNCLEAN` otherwise.  The extension block is undone in its own view. -/
def disconnectBlock {ω : Type} (undoMweb : Mw.BlockUndo P → ω → Option ω) (block : CBlock P)
    (nHeight : ℤ) (undo : CBlockUndo P) (view : CachedCoins P) (mweb : ω) :
    Except DisconnectError (Bool × CachedCoins P × ω) := do
  rejectIf (undo.vtxundo.length + 1 ≠ block.vtx.length) .failed
  let (clean, view) ← disconnectTxs nHeight
    (block.vtx.zip (none :: undo.vtxundo.map some)) (true, view)
  match undo.mwundo with
  | none => pure (clean, view, mweb)
  | some mwundo =>
    match undoMweb mwundo mweb with
    | none => .error .failed
    | some mweb => pure (clean, view, mweb)

end CachedCoins

/-! ### What the steps do to the map -/

variable {coin : Coin P}

lemma Coin.isSpent_of_moneyRange (h : MoneyRange coin.out.nValue) : coin.isSpent = false := by
  have h0 := h.1
  cases hs : coin.isSpent with
  | false => rfl
  | true =>
    have hnull : coin.out.nValue = -1 := by simpa [Coin.isSpent] using hs
    rw [hnull] at h0
    exact absurd h0 (by decide)

lemma Coin.WellFormed.isSpent (h : coin.WellFormed) : coin.isSpent = false :=
  Coin.isSpent_of_moneyRange h.value

lemma Coin.eq_of_unspent?_eq_some {coin' : Coin P} (h : coin.unspent? = some coin') :
    coin = coin' := by
  unfold Coin.unspent? at h
  split at h
  · cases h
  · exact Option.some.inj h

lemma Coin.WellFormed.withoutPegout (h : coin.WellFormed) :
    coin.withoutPegout.WellFormed := ⟨h.value, h.spendable, h.height_pos, h.height_lt⟩

namespace CachedCoins

variable {view : CachedCoins P} {m : CoinMap P} {ms : List (CoinMap P)}

/-- A well-formed coin is restored, whatever was at the outpoint. -/
lemma applyTxInUndo_spec (h : view.Shows m ms) {undo : Coin P} (hundo : undo.WellFormed)
    (out : COutPoint P) :
    ∃ view', applyTxInUndo undo view out = .ok ((m out).isNone, view') ∧
      view'.Shows (Function.update m out (some undo)) ms := by
  obtain ⟨hfound, hshows⟩ := haveCoin_spec h out
  rcases hhave : view.haveCoin out with ⟨found, view₁⟩
  rw [hhave] at hfound hshows
  dsimp only at hfound hshows
  have hown : (!!found) = false → m out = none := by
    intro hnot
    simpa [hfound] using hnot
  obtain ⟨view', hadd, hshows'⟩ := addCoin_spec hshows out hundo.isSpent hown
  have hmap : addToMap out undo m = Function.update m out (some undo) := by
    simp [addToMap, hundo.spendable]
  have hheight : undo.nHeight ≠ 0 := hundo.height_pos.ne'
  refine ⟨view', ?_, hmap ▸ hshows'⟩
  have hclean : (!found) = (m out).isNone := by
    rw [hfound]
    cases m out <;> rfl
  rw [Bool.not_not] at hadd
  rw [← hclean]
  simp [applyTxInUndo, hhave, hheight, addRestored, hadd]

/-- The map after coins were restored. -/
def restoredMap (ins : List (CTxIn P × Coin P)) (m : CoinMap P) : CoinMap P :=
  ins.foldr (fun p m => Function.update m p.1.prevout (some p.2)) m

variable {ins : List (CTxIn P × Coin P)}

lemma restoredMap_of_notMem {a : COutPoint P} (ha : a ∉ ins.map fun p => p.1.prevout) :
    restoredMap ins m a = m a := by
  induction ins with
  | nil => rfl
  | cons p ins ih =>
    rw [map_cons, mem_cons, not_or] at ha
    rw [restoredMap, foldr_cons, Function.update_of_ne ha.1]
    exact ih ha.2

lemma restoredMap_of_mem {p : CTxIn P × Coin P} (hnodup : (ins.map fun p => p.1.prevout).Nodup)
    (hp : p ∈ ins) : restoredMap ins m p.1.prevout = some p.2 := by
  induction ins with
  | nil => cases hp
  | cons q ins ih =>
    rw [map_cons, nodup_cons] at hnodup
    rw [restoredMap, foldr_cons]
    rcases mem_cons.mp hp with rfl | hp
    · exact Function.update_self ..
    · have hne : p.1.prevout ≠ q.1.prevout := fun heq =>
        hnodup.1 (heq ▸ mem_map_of_mem hp)
      rw [Function.update_of_ne hne]
      exact ih hnodup.2 hp

/-- Restoring inputs does not fail, and it is clean if the coins are missing. -/
lemma restoreInputs_spec (h : view.Shows m ms) (hins : ∀ p ∈ ins, p.2.WellFormed) (clean : Bool) :
    ∃ clean' view', restoreInputs ins (clean, view) = .ok (clean', view') ∧
      view'.Shows (restoredMap ins m) ms ∧
      ((ins.map fun p => p.1.prevout).Nodup → (∀ p ∈ ins, m p.1.prevout = none) →
        clean' = clean) := by
  induction ins with
  | nil => exact ⟨clean, view, rfl, h, fun _ _ => rfl⟩
  | cons p ins ih =>
    obtain ⟨clean₁, view₁, hrest, hshows₁, hclean₁⟩ := ih fun q hq => hins q (mem_cons_of_mem _ hq)
    obtain ⟨view', happly, hshows'⟩ := applyTxInUndo_spec hshows₁ (hins p mem_cons_self) p.1.prevout
    refine ⟨clean₁ && (restoredMap ins m p.1.prevout).isNone, view', ?_, hshows', ?_⟩
    · have hstep := bind_of_eq_ok happly
        fun r : Bool × CachedCoins P => pure (clean₁ && r.1, r.2)
      exact (bind_of_eq_ok hrest _).trans hstep
    · intro hnodup hnone
      rw [map_cons, nodup_cons] at hnodup
      rw [hclean₁ hnodup.2 fun q hq => hnone q (mem_cons_of_mem _ hq),
        restoredMap_of_notMem hnodup.1, hnone p mem_cons_self]
      simp

variable [NodeCrypto P]

/-- The outputs of a transaction are removed, and this is clean if they are there. -/
lemma removeOutputs_spec (tx : CTransaction P) (nHeight : ℤ) {clean : Bool}
    (h : view.Shows m ms) (outs : List (CTxOut P)) (k : ℕ) :
    ∃ clean' view', (outs.zipIdx k).foldl (removeOutput tx nHeight) (clean, view) =
        (clean', view') ∧
      view'.Shows
        (fun a => if (createdFrom tx nHeight outs k a).isSome then none else m a) ms ∧
      ((∀ a coin, createdFrom tx nHeight outs k a = some coin →
        (m a).map Coin.withoutPegout = some coin.withoutPegout) → clean' = clean) := by
  induction outs generalizing k view m clean with
  | nil =>
    refine ⟨clean, view, rfl, ?_, fun _ => rfl⟩
    simpa [createdFrom] using h
  | cons out outs ih =>
    rw [zipIdx_cons, foldl_cons]
    cases hun : out.scriptPubKey.isUnspendable with
    | true =>
      have hsame : createdFrom tx nHeight (out :: outs) k =
          createdFrom tx nHeight outs (k + 1) := by
        funext a
        simp [createdFrom_cons, hun]
      have hstep : removeOutput tx nHeight (clean, view) (out, k) = (clean, view) := by
        simp [removeOutput, hun]
      rw [hstep, hsame]
      exact ih h (k + 1)
    | false =>
      obtain ⟨hcoin, hshows₁⟩ := spendCoin_spec h ⟨tx.getHash, k⟩
      rcases hspend : view.spendCoin ⟨tx.getHash, k⟩ with ⟨coin, view₁⟩
      rw [hspend] at hcoin hshows₁
      dsimp only at hcoin hshows₁
      have hstep : removeOutput tx nHeight (clean, view) (out, k) =
          (clean && coin.any fun coin =>
            out = coin.out ∧ nHeight = coin.nHeight ∧ tx.isCoinBase = coin.fCoinBase, view₁) := by
        simp [removeOutput, hun, hspend]
      rw [hstep]
      obtain ⟨clean', view', hfold, hshows', hclean⟩ := ih hshows₁ (k + 1)
      refine ⟨clean', view', hfold, ?_, fun hall => ?_⟩
      · have hmap : (fun a => if (createdFrom tx nHeight outs (k + 1) a).isSome then none
            else Function.update m ⟨tx.getHash, k⟩ none a) =
            fun a => if (createdFrom tx nHeight (out :: outs) k a).isSome then none
              else m a := by
          funext a
          rw [createdFrom_cons]
          by_cases ha : a = ⟨tx.getHash, k⟩
          · simp [ha, hun]
          · simp [ha]
        rwa [hmap] at hshows'
      · -- the first output is not among the later ones
        have hself : createdFrom tx nHeight (out :: outs) k ⟨tx.getHash, k⟩ =
            some (outputCoin tx nHeight out k) := by
          rw [createdFrom_cons]
          simp [createdFrom, hun]
        have hmatch := hall _ _ hself
        obtain ⟨found, hfound, hsame⟩ := Option.map_eq_some_iff.mp hmatch
        obtain ⟨coin, rfl, hunspent⟩ := Option.bind_eq_some_iff.mp (hcoin.trans hfound)
        obtain rfl : coin = found := Coin.eq_of_unspent?_eq_some hunspent
        rw [hclean fun a coin ha => ?_]
        · simp only [Coin.withoutPegout, outputCoin, Coin.mk.injEq] at hsame
          simp [hsame]
        · have hne : a ≠ ⟨tx.getHash, k⟩ := by
            rintro rfl
            simp [createdFrom] at ha
          rw [Function.update_of_ne hne]
          apply hall
          rw [createdFrom_cons, ha]
          rfl

end CachedCoins

/-! ### Connected transactions -/

/-- The undo data of a transaction as they come from the disk; there are none for a coinbase. -/
def undoOf (tx : CTransaction P) (vprevout : List (Coin P)) : Option (List (Coin P)) :=
  if tx.isCoinBase then none else some (vprevout.map Coin.withoutPegout)

/-- Every coin is well formed. -/
def Coins.WellFormed (coins : Coins P) : Prop :=
  ∀ a coin, coins.get a = some coin → coin.WellFormed

lemma Coins.WellFormed.view_eq {coins : Coins P} (h : coins.WellFormed) :
    coins.view = coins.get := by
  funext a
  rw [Coins.view]
  cases hget : coins.get a with
  | none => rfl
  | some coin => exact Coin.unspent?_of_not_isSpent (h a coin hget).isSpent

/-- What the first of some transactions that concerns an outpoint does there. -/
inductive Touch
  | untouched
  | spent
  | created
deriving DecidableEq

variable [NodeCrypto P]

namespace CoinsCache

/-- `UpdateCoins` for transactions one after the other; returns the spent coins of each. -/
def connectTxs (nHeight : ℤ) : List (CTransaction P) → CoinsCache P →
    Except BlockFailure (List (List (Coin P)) × CoinsCache P)
  | [], c => .ok ([], c)
  | tx :: txs, c => do
    let (vprevout, c) ← c.updateCoins tx nHeight
    let (vtxundo, c) ← connectTxs nHeight txs c
    pure (vprevout :: vtxundo, c)

/-- What connecting transactions does, one by one. -/
inductive TxsConnected (nHeight : ℤ) : CoinsCache P → List (CTransaction P) →
    List (List (Coin P)) → CoinsCache P → Prop
  | nil (c : CoinsCache P) : TxsConnected nHeight c [] [] c
  | cons {c c₁ c' : CoinsCache P} {tx : CTransaction P} {txs : List (CTransaction P)}
    {vprevout : List (Coin P)} {vtxundo : List (List (Coin P))}
    (first : c.Updated tx nHeight vprevout c₁) (rest : TxsConnected nHeight c₁ txs vtxundo c') :
    TxsConnected nHeight c (tx :: txs) (vprevout :: vtxundo) c'

variable {nHeight : ℤ}

lemma txsConnected_of_connectTxs {txs : List (CTransaction P)} {c c' : CoinsCache P}
    {vtxundo : List (List (Coin P))} (h : connectTxs nHeight txs c = .ok (vtxundo, c')) :
    TxsConnected nHeight c txs vtxundo c' := by
  induction txs generalizing c vtxundo with
  | nil =>
    obtain ⟨rfl, rfl⟩ := Prod.mk.inj (Except.ok.inj h)
    exact .nil c
  | cons tx txs ih =>
    obtain ⟨⟨vprevout, c₁⟩, hupdate, h⟩ := bind_eq_ok.mp h
    obtain ⟨⟨vtxundo₁, c₂⟩, hrest, h⟩ := bind_eq_ok.mp h
    obtain ⟨rfl, rfl⟩ := Prod.mk.inj (Except.ok.inj h)
    exact .cons (updated_of_updateCoins hupdate) (ih hrest)

/-- The first touch of an outpoint by a list of transactions. -/
def firstTouch (nHeight : ℤ) : List (CTransaction P) → COutPoint P → Touch
  | [], _ => .untouched
  | tx :: txs, a =>
    if a ∈ tx.spentInputs.map CTxIn.prevout then .spent
    else if (created tx nHeight a).isSome then .created
    else firstTouch nHeight txs a

namespace TxsConnected

variable {nHeight : ℤ} {c c' : CoinsCache P} {txs : List (CTransaction P)}
  {vtxundo : List (List (Coin P))}

/-- An outpoint that no transaction touches keeps its coin. -/
lemma get_of_untouched (h : TxsConnected nHeight c txs vtxundo c') {a : COutPoint P}
    (ha : firstTouch nHeight txs a = .untouched) : c'.coins.get a = c.coins.get a := by
  induction h with
  | nil c => rfl
  | @cons c c₁ c' tx txs vprevout vtxundo first rest ih =>
    rw [firstTouch] at ha
    split_ifs at ha with hspent hcreated
    rw [ih ha, first.get_eq, Option.not_isSome_iff_eq_none.mp hcreated, if_neg hspent]
    rfl

/-- A coin that was added in the cache and is unspent is not created again before it is spent. -/
lemma firstTouch_ne_created (h : TxsConnected nHeight c txs vtxundo c')
    (htxs : ∀ tx ∈ txs, tx.isCoinBase = false) {a : COutPoint P} (hadded : a ∈ c.added)
    (hget : c.coins.get a ≠ none) : firstTouch nHeight txs a ≠ .created := by
  induction h with
  | nil c => simp [firstTouch]
  | @cons c c₁ c' tx txs vprevout vtxundo first rest ih =>
    rw [firstTouch]
    split
    case isTrue => simp
    case isFalse hspent =>
      have hnone := first.no_overwrite (htxs tx mem_cons_self) a hadded hspent hget
      rw [if_neg (by simp [hnone])]
      refine ih (fun t ht => htxs t (mem_cons_of_mem _ ht)) (first.added_subset a hadded) ?_
      rw [first.get_eq, hnone, if_neg hspent]
      exact hget

end TxsConnected

/-- The coins that a transaction with outputs in the money range creates are well formed. -/
lemma created_wellFormed {tx : CTransaction P} {a : COutPoint P} {coin : Coin P}
    (hvalues : ∀ out ∈ tx.vout, MoneyRange out.nValue) (hpos : 0 < nHeight) (hlt : nHeight < 2 ^ 31)
    (h : created tx nHeight a = some coin) : coin.WellFormed := by
  obtain ⟨-, out, hout, hspendable, rfl⟩ := created_eq_some.mp h
  exact ⟨hvalues out (mem_of_getElem? hout), hspendable, hpos, hlt⟩

/-- Connecting a transaction keeps the coins well formed, and the spent coins were. -/
lemma Updated.wellFormed {c c' : CoinsCache P} {tx : CTransaction P} {vprevout : List (Coin P)}
    (h : c.Updated tx nHeight vprevout c') (hvalues : ∀ out ∈ tx.vout, MoneyRange out.nValue)
    (hpos : 0 < nHeight) (hlt : nHeight < 2 ^ 31) (hc : c.coins.WellFormed) :
    c'.coins.WellFormed ∧ ∀ coin ∈ vprevout, coin.WellFormed := by
  constructor
  · intro a coin hget
    rw [h.get_eq a] at hget
    rcases Option.or_eq_some_iff.mp hget with hcreated | ⟨-, hold⟩
    · exact created_wellFormed hvalues hpos hlt hcreated
    · split at hold
      · cases hold
      · exact hc a coin hold
  · intro coin hmem
    have hin : some coin ∈ tx.spentInputs.map fun txin => c.coins.get txin.prevout := by
      rw [h.coins_eq]
      exact mem_map_of_mem hmem
    obtain ⟨txin, -, hget⟩ := mem_map.mp hin
    exact hc _ _ hget

end CoinsCache

/-! ### Undoing connected transactions -/

/-- The map after transactions were undone that had been connected to the coins `before`. -/
def undoneMap (nHeight : ℤ) (txs : List (CTransaction P)) (before : Coins P) (m : CoinMap P) :
    CoinMap P := fun a =>
  match CoinsCache.firstTouch nHeight txs a with
  | .untouched => m a
  | .spent => (before.get a).map Coin.withoutPegout
  | .created => none

lemma undoneMap_cons (nHeight : ℤ) (tx : CTransaction P) (txs : List (CTransaction P))
    (before : Coins P) (m : CoinMap P) (a : COutPoint P) :
    undoneMap nHeight (tx :: txs) before m a =
      if a ∈ tx.spentInputs.map CTxIn.prevout then (before.get a).map Coin.withoutPegout
      else if (created tx nHeight a).isSome then none
      else undoneMap nHeight txs before m a := by
  rw [undoneMap, firstTouch]
  split_ifs <;> rfl

lemma undoneMap_nil (nHeight : ℤ) (before : Coins P) (m : CoinMap P) :
    undoneMap nHeight [] before m = m := rfl

omit [NodeCrypto P] in
/-- The undo data of the inputs, as they come from the disk, are the coins that were there. -/
lemma map_withoutPegout_of_mem_zip {get : CTxIn P → Option (Coin P)} {vin : List (CTxIn P)}
    {vprevout : List (Coin P)} (h : vin.map get = vprevout.map some) {p : CTxIn P × Coin P}
    (hp : p ∈ vin.zip (vprevout.map Coin.withoutPegout)) :
    (get p.1).map Coin.withoutPegout = some p.2 := by
  induction vin generalizing vprevout with
  | nil => simp at hp
  | cons txin vin ih =>
    cases vprevout with
    | nil => simp at hp
    | cons coin vprevout =>
      obtain ⟨hcoin, hrest⟩ := cons.inj h
      rcases mem_cons.mp hp with rfl | hp
      · simp [hcoin]
      · exact ih hrest hp

namespace CachedCoins

variable {view : CachedCoins P} {m : CoinMap P} {ms : List (CoinMap P)} {nHeight : ℤ}

variable {c : CoinsCache P}

/-- Undoing one transaction. -/
lemma disconnectTx_spec {c₁ : CoinsCache P} {tx : CTransaction P} {vprevout : List (Coin P)}
    (first : c.Updated tx nHeight vprevout c₁) (hvprevout : ∀ coin ∈ vprevout, coin.WellFormed)
    (h : view.Shows m ms) (clean : Bool) :
    ∃ clean' view', disconnectTx nHeight tx (undoOf tx vprevout) (clean, view) =
        .ok (clean', view') ∧
      view'.Shows (undoneMap nHeight [tx] c.coins m) ms ∧
      ((∀ a coin, created tx nHeight a = some coin →
          (m a).map Coin.withoutPegout = some coin.withoutPegout) →
        (∀ a ∈ tx.spentInputs.map CTxIn.prevout, created tx nHeight a = none →
          m a = none) → clean' = clean) := by
  obtain ⟨clean₁, view₁, hfold, hshows₁, hclean₁⟩ := removeOutputs_spec tx nHeight h tx.vout 0
  have hfold' : tx.vout.zipIdx.foldl (removeOutput tx nHeight) (clean, view) = (clean₁, view₁) :=
    hfold
  cases hcb : tx.isCoinBase with
  | true =>
    refine ⟨clean₁, view₁, ?_, ?_, fun hthere _ => hclean₁ hthere⟩
    · simp [disconnectTx, undoOf, hcb, hfold']
    · have hmap : undoneMap nHeight [tx] c.coins m = fun a =>
          if (createdFrom tx nHeight tx.vout 0 a).isSome then none else m a := by
        funext a
        rw [undoneMap_cons, if_neg (by simp [CTransaction.spentInputs, hcb])]
        rfl
      rwa [hmap]
  | false =>
    have hins : tx.spentInputs = tx.vin := by simp [CTransaction.spentInputs, hcb]
    have hcoins := first.coins_eq
    have hnodup := first.nodup
    rw [hins] at hcoins hnodup
    have hlength : vprevout.length = tx.vin.length := by
      simpa using (congrArg length hcoins).symm
    have hfst : ((tx.vin.zip (vprevout.map Coin.withoutPegout)).map fun p => p.1.prevout) =
        tx.vin.map CTxIn.prevout := by
      rw [show (fun p : CTxIn P × Coin P => p.1.prevout) = CTxIn.prevout ∘ Prod.fst from rfl,
        ← map_map, map_fst_zip (by simp [hlength])]
    have hwellFormed : ∀ p ∈ tx.vin.zip (vprevout.map Coin.withoutPegout), p.2.WellFormed := by
      intro p hp
      obtain ⟨coin, hcoin, heq⟩ := mem_map.mp (of_mem_zip hp).2
      exact heq ▸ (hvprevout coin hcoin).withoutPegout
    obtain ⟨clean', view', hrestore, hshows', hclean'⟩ :=
      restoreInputs_spec hshows₁ hwellFormed clean₁
    refine ⟨clean', view', ?_, ?_, fun hthere hmissing => ?_⟩
    · simp only [disconnectTx, undoOf, hcb, hfold', Bool.false_eq_true, if_false]
      exact rejectIf_bind_eq_ok.mpr ⟨by simp [hlength], hrestore⟩
    · have hmap : undoneMap nHeight [tx] c.coins m =
          restoredMap (tx.vin.zip (vprevout.map Coin.withoutPegout)) fun a =>
            if (createdFrom tx nHeight tx.vout 0 a).isSome then none else m a := by
        funext a
        rw [undoneMap_cons, hins, undoneMap_nil]
        split
        case isTrue hmem =>
          rw [← hfst] at hmem
          obtain ⟨p, hp, rfl⟩ := mem_map.mp hmem
          rw [restoredMap_of_mem (hfst ▸ hnodup) hp]
          exact map_withoutPegout_of_mem_zip hcoins hp
        case isFalse hmem =>
          rw [restoredMap_of_notMem (hfst ▸ hmem)]
          rfl
      rwa [hmap]
    · rw [hclean' (hfst ▸ hnodup) fun p hp => ?_, hclean₁ hthere]
      have hmem : p.1.prevout ∈ tx.spentInputs.map CTxIn.prevout := by
        rw [hins, ← hfst]
        exact mem_map_of_mem hp
      cases hcreated : created tx nHeight p.1.prevout with
      | some coin =>
        rw [created] at hcreated
        simp [hcreated]
      | none =>
        have hnone := hmissing _ hmem hcreated
        rw [created] at hcreated
        simp [hcreated, hnone]

variable {txs : List (CTransaction P)}

/-- What is at an outpoint after transactions were undone depends on the coin there before. -/
lemma undoneMap_congr {before before' : Coins P} {a : COutPoint P}
    (h : before.get a = before'.get a) :
    undoneMap nHeight txs before m a = undoneMap nHeight txs before' m a := by
  rw [undoneMap, undoneMap, h]

/-- Where transactions left no coin there is none after they were undone, and where the first of
them finds one that was added in the same cache, it is there up to its pegout flag. -/
lemma undoneMap_of_get {c' : CoinsCache P} {vtxundo : List (List (Coin P))}
    (h : CoinsCache.TxsConnected nHeight c txs vtxundo c') (a : COutPoint P) :
    (c.coins.get a = none → undoneMap nHeight txs c.coins c'.coins.get a = none) ∧
      ∀ coin, c.coins.get a = some coin → firstTouch nHeight txs a ≠ .created →
        (undoneMap nHeight txs c.coins c'.coins.get a).map Coin.withoutPegout =
          some coin.withoutPegout := by
  rw [undoneMap]
  cases htouch : firstTouch nHeight txs a with
  | untouched =>
    simp only [h.get_of_untouched htouch]
    exact ⟨id, fun coin hget _ => by rw [hget]; rfl⟩
  | spent =>
    refine ⟨fun hget => by simp [hget], fun coin hget _ => ?_⟩
    simp only [hget]
    rfl
  | created => exact ⟨fun _ => rfl, fun _ _ hne => absurd rfl hne⟩

/-- Undoing transactions that were connected does not fail, on any map; it is clean on the map that
they left. -/
lemma disconnectTxs_spec {c' : CoinsCache P} {vtxundo : List (List (Coin P))}
    (hconnected : CoinsCache.TxsConnected nHeight c txs vtxundo c')
    (hvalues : ∀ tx ∈ txs, ∀ out ∈ tx.vout, MoneyRange out.nValue) (hpos : 0 < nHeight)
    (hlt : nHeight < 2 ^ 31) (hc : c.coins.WellFormed) (h : view.Shows m ms) (clean : Bool) :
    ∃ clean' view', disconnectTxs nHeight
        (zipWith (fun tx vprevout => (tx, undoOf tx vprevout)) txs vtxundo) (clean, view) =
          .ok (clean', view') ∧
      view'.Shows (undoneMap nHeight txs c.coins m) ms ∧
      ((∀ tx ∈ txs.tail, tx.isCoinBase = false) → m = c'.coins.get → clean' = clean) := by
  induction hconnected with
  | nil c => exact ⟨clean, view, rfl, h, fun _ _ => rfl⟩
  | @cons c c₁ c' tx txs vprevout vtxundo first rest ih =>
    obtain ⟨hc₁, hvprevout⟩ := first.wellFormed (hvalues tx mem_cons_self) hpos hlt hc
    obtain ⟨clean₁, view₁, hrest, hshows₁, hclean₁⟩ :=
      ih (fun t ht => hvalues t (mem_cons_of_mem _ ht)) hc₁
    obtain ⟨clean', view', htx, hshows', hclean'⟩ :=
      disconnectTx_spec first hvprevout hshows₁ clean₁
    refine ⟨clean', view', (bind_of_eq_ok hrest _).trans htx, ?_, fun hcb hm => ?_⟩
    · have hmap : undoneMap nHeight [tx] c.coins (undoneMap nHeight txs c₁.coins m) =
          undoneMap nHeight (tx :: txs) c.coins m := by
        funext a
        rw [undoneMap_cons, undoneMap_cons, undoneMap_nil]
        split_ifs with hspent hcreated
        · rfl
        · rfl
        · refine undoneMap_congr ?_
          rw [first.get_eq, Option.not_isSome_iff_eq_none.mp hcreated, if_neg hspent]
          rfl
      rwa [hmap] at hshows'
    · subst hm
      have hclean₁' := hclean₁ (fun t ht => hcb t (mem_of_mem_tail ht)) rfl
      rw [← hclean₁']
      apply hclean'
      · intro a coin hcreated
        have hget : c₁.coins.get a = some coin := by
          rw [first.get_eq, hcreated]
          rfl
        -- the coin was added in this cache, so it is not overwritten later
        exact (undoneMap_of_get rest a).2 coin hget (rest.firstTouch_ne_created hcb
          (first.created_added a coin hcreated) (by simp [hget]))
      · intro a hspent hcreated
        refine (undoneMap_of_get rest a).1 ?_
        rw [first.get_eq, hcreated, if_pos hspent]
        rfl

end CachedCoins

/-! ### Undoing a block -/

/-- The shape of a block: the first transaction and no other one is a coinbase, the values of the
outputs are in the money range, and the block itself can be read from the disk. -/
structure CBlock.Undoable (block : CBlock P) : Prop where
  coinbase : ∃ tx txs, block.vtx = tx :: txs ∧ tx.isCoinBase = true ∧
    ∀ t ∈ txs, t.isCoinBase = false
  values : ∀ tx ∈ block.vtx, ∀ out ∈ tx.vout, MoneyRange out.nValue
  length_le : block.vtx.length ≤ maxSize
  inputs_le : ∀ tx ∈ block.vtx, tx.vin.length ≤ maxSize

/-- The extension block is undone if there are undo data for it. -/
def undoMwebPart {ω : Type} (undoMweb : Mw.BlockUndo P → ω → Option ω)
    (mwundo : Option (Mw.BlockUndo P)) (mweb : ω) : Option ω :=
  mwundo.elim (some mweb) fun mwundo => undoMweb mwundo mweb

namespace CoinsCache

variable {nHeight : ℤ} {c c' : CoinsCache P} {txs : List (CTransaction P)}
  {vtxundo : List (List (Coin P))}

lemma TxsConnected.length_eq (h : TxsConnected nHeight c txs vtxundo c') :
    vtxundo.length = txs.length := by
  induction h with
  | nil c => rfl
  | cons first rest ih => simp [ih]

/-- The undo data are well-formed coins, one for every input that is spent. -/
lemma TxsConnected.vtxundo_wellFormed (h : TxsConnected nHeight c txs vtxundo c')
    (hvalues : ∀ tx ∈ txs, ∀ out ∈ tx.vout, MoneyRange out.nValue)
    (hinputs : ∀ tx ∈ txs, tx.vin.length ≤ maxSize) (hpos : 0 < nHeight) (hlt : nHeight < 2 ^ 31)
    (hc : c.coins.WellFormed) :
    c'.coins.WellFormed ∧ ∀ vprevout ∈ vtxundo,
      (∀ coin ∈ vprevout, coin.WellFormed) ∧ vprevout.length ≤ maxSize := by
  induction h with
  | nil c => exact ⟨hc, by simp⟩
  | @cons c c₁ c' tx txs vprevout vtxundo first rest ih =>
    obtain ⟨hc₁, hvprevout⟩ := first.wellFormed (hvalues tx mem_cons_self) hpos hlt hc
    obtain ⟨hc', hrest⟩ := ih (fun t ht => hvalues t (mem_cons_of_mem _ ht))
      (fun t ht => hinputs t (mem_cons_of_mem _ ht)) hc₁
    refine ⟨hc', fun v hv => ?_⟩
    rcases mem_cons.mp hv with rfl | hv
    · have hlength : tx.spentInputs.length = v.length := by
        simpa using congrArg length first.coins_eq
      have hle : tx.spentInputs.length ≤ tx.vin.length := by
        rw [CTransaction.spentInputs]
        split <;> simp
      have := hinputs tx mem_cons_self
      exact ⟨hvprevout, by omega⟩
    · exact hrest v hv

end CoinsCache

namespace CachedCoins

variable {view : CachedCoins P} {m : CoinMap P} {ms : List (CoinMap P)} {nHeight : ℤ}

omit [NodeCrypto P] in
lemma zip_map_some {txs : List (CTransaction P)} (htxs : ∀ tx ∈ txs, tx.isCoinBase = false)
    (vtxundo : List (List (Coin P))) :
    txs.zip ((vtxundo.map (map Coin.withoutPegout)).map some) =
      zipWith (fun tx vprevout => (tx, undoOf tx vprevout)) txs vtxundo := by
  induction txs generalizing vtxundo with
  | nil => rfl
  | cons tx txs ih =>
    cases vtxundo with
    | nil => rfl
    | cons vprevout vtxundo =>
      have hundo : undoOf tx vprevout = some (vprevout.map Coin.withoutPegout) := by
        simp [undoOf, htxs tx mem_cons_self]
      rw [map_cons, map_cons, zip_cons_cons, zipWith_cons_cons, hundo,
        ih fun t ht => htxs t (mem_cons_of_mem _ ht)]

/-- `DisconnectBlock` with the undo data from the disk, on any map. -/
lemma disconnectBlock_spec {ω : Type} {undoMweb : Mw.BlockUndo P → ω → Option ω} {coins : Coins P}
    (hcoins : coins.WellFormed) {block : CBlock P} (hblock : block.Undoable) (hpos : 0 < nHeight)
    (hlt : nHeight < 2 ^ 31) {vtxundo : List (List (Coin P))} {c' : CoinsCache P}
    (hconnect : connectTxs nHeight block.vtx ⟨coins, []⟩ = .ok (vtxundo, c'))
    {mwundo : Option (Mw.BlockUndo P)} {mweb mweb' : ω}
    (hmweb : undoMwebPart undoMweb mwundo mweb = some mweb') (h : view.Shows m ms) :
    ∃ clean view', disconnectBlock undoMweb block nHeight
        ⟨vtxundo.tail.map (map Coin.withoutPegout), mwundo⟩ view mweb =
          .ok (clean, view', mweb') ∧
      view'.Shows (undoneMap nHeight block.vtx coins m) ms ∧
      (m = c'.coins.get → clean = true) := by
  have hconnected := txsConnected_of_connectTxs hconnect
  obtain ⟨clean, view', htxs, hshows, hclean⟩ :=
    disconnectTxs_spec hconnected hblock.values hpos hlt hcoins h true
  obtain ⟨tx, txs, hvtx, hcb, hothers⟩ := hblock.coinbase
  refine ⟨clean, view', ?_, hshows, hclean (by simpa [hvtx] using hothers)⟩
  -- the pairs of transactions and undo data are those of the connected transactions
  have hlength := hconnected.length_eq
  rw [hvtx] at hlength
  obtain ⟨vprevout, vtxundo, rfl⟩ := exists_cons_of_length_eq_add_one hlength
  have hpairs : block.vtx.zip (none :: (vtxundo.map (map Coin.withoutPegout)).map some) =
      zipWith (fun tx vprevout => (tx, undoOf tx vprevout)) block.vtx
        (vprevout :: vtxundo) := by
    rw [hvtx, zip_cons_cons, zipWith_cons_cons, zip_map_some hothers]
    simp [undoOf, hcb]
  rw [← hpairs] at htxs
  refine rejectIf_bind_eq_ok.mpr ⟨?_, (bind_of_eq_ok htxs _).trans ?_⟩
  · rw [hvtx]
    simpa using hlength
  · cases mwundo with
    | none => simpa [undoMwebPart, pure, Except.pure] using hmweb
    | some mwundo =>
      have hundo : undoMweb mwundo mweb = some mweb' := hmweb
      simp [hundo, pure, Except.pure]

end CachedCoins

end Aegisum
