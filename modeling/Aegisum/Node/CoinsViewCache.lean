import Aegisum.Foundations.Cells
import Aegisum.Node.Coins

/-!
# Layers of coins caches

`CCoinsViewCache` as it is stored: a map from outpoints to entries, each with a coin, which may be
a spent one, and the flags DIRTY and FRESH.  Caches stand on top of each other, with the database at
the bottom.  A query that is not answered by a cache is passed on to the layer below, and the
answer is kept in the cache.
-/

namespace Aegisum

variable {P : Primitives}

/-! ### Coins and entries -/

namespace Coin

/-- A coin is spent if its output is null. -/
def isSpent (coin : Coin P) : Bool := coin.out.nValue == -1

/-- A coin that was cleared, or was never set. -/
def cleared : Coin P := ⟨⟨-1, .raw ⟨[], rfl⟩⟩, 0, false, false⟩

/-- The coin if it is unspent. -/
def unspent? (coin : Coin P) : Option (Coin P) := if coin.isSpent then none else some coin

end Coin

/-- A coin in one layer with its flags. -/
structure CCoinsCacheEntry (P : Primitives) where
  coin : Coin P
  dirty : Bool
  fresh : Bool
deriving DecidableEq

/-- The entry that is made when an outpoint is looked up for writing. -/
def CCoinsCacheEntry.new : CCoinsCacheEntry P := ⟨.cleared, false, false⟩

/-- The entries of a cache. -/
abbrev CCoinsMap (P : Primitives) := CellMap (COutPoint P) (CCoinsCacheEntry P)

/-- A cache. -/
structure CCoinsViewCache (P : Primitives) where
  cacheCoins : CCoinsMap P

/-- The exceptions of the coins classes. -/
inductive CoinsError
  /-- The assertion of `AddCoin` that the coin is unspent. -/
  | spentCoin
  /-- "Attempted to overwrite an unspent coin (when possible_overwrite is false)". -/
  | overwriteUnspent
  /-- "FRESH flag misapplied to coin that exists in parent cache". -/
  | freshMisapplied
deriving DecidableEq

namespace CCoinsViewCache

/-- A cache without entries. -/
def empty : CCoinsViewCache P := ⟨∅⟩

/-- Find the entry of an outpoint, or make one from what the layer below answers. -/
def fetchCoin {σ : Type} (c : CCoinsViewCache P) (base : σ)
    (getBase : COutPoint P → Option (Coin P) × σ) (outpoint : COutPoint P) :
    Option (CCoinsCacheEntry P) × CCoinsViewCache P × σ :=
  match c.cacheCoins.lookup outpoint with
  | some entry => (some entry, c, base)
  | none =>
    match getBase outpoint with
    | (none, base') => (none, c, base')
    | (some coin, base') =>
      let entry : CCoinsCacheEntry P := ⟨coin, false, coin.isSpent⟩
      (some entry, ⟨c.cacheCoins.insert outpoint entry⟩, base')

/-- The unspent coin at an outpoint, as the layers `cs` over the database answer it. -/
def getCoin (db : Coins P) :
    List (CCoinsViewCache P) → COutPoint P → Option (Coin P) × List (CCoinsViewCache P)
  | [], outpoint => (db.get outpoint, [])
  | c :: cs, outpoint =>
    let (entry, c', cs') := c.fetchCoin cs (getCoin db cs) outpoint
    (entry.bind fun e => e.coin.unspent?, c' :: cs')

/-- There is an unspent coin at the outpoint. -/
def haveCoin (db : Coins P) (c : CCoinsViewCache P) (cs : List (CCoinsViewCache P))
    (outpoint : COutPoint P) : Bool × CCoinsViewCache P × List (CCoinsViewCache P) :=
  let (entry, c', cs') := c.fetchCoin cs (getCoin db cs) outpoint
  (entry.any fun e => !e.coin.isSpent, c', cs')

/-- The coin at the outpoint, or an empty one. -/
def accessCoin (db : Coins P) (c : CCoinsViewCache P) (cs : List (CCoinsViewCache P))
    (outpoint : COutPoint P) : Coin P × CCoinsViewCache P × List (CCoinsViewCache P) :=
  let (entry, c', cs') := c.fetchCoin cs (getCoin db cs) outpoint
  (entry.elim .cleared CCoinsCacheEntry.coin, c', cs')

/-- Add a coin. -/
def addCoin (c : CCoinsViewCache P) (outpoint : COutPoint P) (coin : Coin P)
    (possibleOverwrite : Bool) : Except CoinsError (CCoinsViewCache P) := do
  rejectIf coin.isSpent .spentCoin
  if coin.out.scriptPubKey.isUnspendable then pure c
  else do
    let old := (c.cacheCoins.lookup outpoint).getD .new
    rejectIf (possibleOverwrite = false ∧ old.coin.isSpent = false) .overwriteUnspent
    let fresh := !possibleOverwrite && !old.dirty
    pure ⟨c.cacheCoins.insert outpoint ⟨coin, true, old.fresh || fresh⟩⟩

/-- Spend a coin.  Returned is the coin of the entry, if there is an entry. -/
def spendCoin (db : Coins P) (c : CCoinsViewCache P) (cs : List (CCoinsViewCache P))
    (outpoint : COutPoint P) :
    Option (Coin P) × CCoinsViewCache P × List (CCoinsViewCache P) :=
  match c.fetchCoin cs (getCoin db cs) outpoint with
  | (none, c', cs') => (none, c', cs')
  | (some entry, c', cs') =>
    (some entry.coin,
      ⟨c'.cacheCoins.setCell outpoint
        (if entry.fresh then none else some ⟨.cleared, true, entry.fresh⟩)⟩, cs')

/-- Drop an entry without flags. -/
def uncache (c : CCoinsViewCache P) (outpoint : COutPoint P) : CCoinsViewCache P :=
  match c.cacheCoins.lookup outpoint with
  | none => c
  | some entry =>
    if !entry.dirty && !entry.fresh then ⟨c.cacheCoins.erase outpoint⟩ else c

/-- What a dirty entry of the cache on top does to the own entry in `BatchWrite`. -/
def mergeEntry (entry : CCoinsCacheEntry P) (us : Option (CCoinsCacheEntry P)) :
    Except CoinsError (Option (CCoinsCacheEntry P)) :=
  if !entry.dirty then .ok us
  else
    match us with
    | none =>
      if entry.fresh && entry.coin.isSpent then .ok none
      else .ok (some ⟨entry.coin, true, entry.fresh⟩)
    | some own =>
      if entry.fresh && !own.coin.isSpent then .error .freshMisapplied
      else if own.fresh && entry.coin.isSpent then .ok none
      else .ok (some ⟨entry.coin, true, own.fresh⟩)

/-- What a dirty entry does to the database in `BatchWrite`. -/
def writeEntry (entry : CCoinsCacheEntry P) (stored : Option (Coin P)) : Option (Coin P) :=
  if entry.dirty then entry.coin.unspent? else stored

/-- Push the changes of the cache on top to the layer below. -/
def flush (db : Coins P) :
    List (CCoinsViewCache P) → Except CoinsError (Coins P × List (CCoinsViewCache P))
  | [] => .ok (db, [])
  | [c] => .ok (CellMap.writeTo writeEntry db c.cacheCoins, [empty])
  | c :: below :: cs => do
    let merged ← CellMap.mergeFrom mergeEntry below.cacheCoins c.cacheCoins
    pure (db, empty :: ⟨merged⟩ :: cs)

end CCoinsViewCache

/-! ### Operations on a stack -/

/-- The operations of a cache. -/
inductive CoinsOp (P : Primitives)
  | addCoin (outpoint : COutPoint P) (coin : Coin P) (possibleOverwrite : Bool)
  | spendCoin (outpoint : COutPoint P)
  | getCoin (outpoint : COutPoint P)
  | haveCoin (outpoint : COutPoint P)
  | accessCoin (outpoint : COutPoint P)
  | uncache (outpoint : COutPoint P)
  | flush

namespace CoinsOp

/-- The layers after an operation on the cache on top of them. -/
def exec (db : Coins P) (op : CoinsOp P) :
    List (CCoinsViewCache P) → Except CoinsError (Coins P × List (CCoinsViewCache P))
  | [] => .ok (db, [])
  | c :: cs =>
    match op with
    | .addCoin outpoint coin possibleOverwrite => do
      let c' ← c.addCoin outpoint coin possibleOverwrite
      pure (db, c' :: cs)
    | .spendCoin outpoint =>
      let (_, c', cs') := c.spendCoin db cs outpoint
      .ok (db, c' :: cs')
    | .getCoin outpoint =>
      let (_, cs') := CCoinsViewCache.getCoin db (c :: cs) outpoint
      .ok (db, cs')
    | .haveCoin outpoint =>
      let (_, c', cs') := c.haveCoin db cs outpoint
      .ok (db, c' :: cs')
    | .accessCoin outpoint =>
      let (_, c', cs') := c.accessCoin db cs outpoint
      .ok (db, c' :: cs')
    | .uncache outpoint => .ok (db, c.uncache outpoint :: cs)
    | .flush => CCoinsViewCache.flush db (c :: cs)

/-- The layers after an operation on the cache that has `depth` caches above it. -/
def execAt (db : Coins P) (op : CoinsOp P) :
    ℕ → List (CCoinsViewCache P) → Except CoinsError (Coins P × List (CCoinsViewCache P))
  | 0, cs => op.exec db cs
  | _ + 1, [] => .ok (db, [])
  | depth + 1, c :: cs => do
    let (db', cs') ← execAt db op depth cs
    pure (db', c :: cs')

end CoinsOp

end Aegisum
