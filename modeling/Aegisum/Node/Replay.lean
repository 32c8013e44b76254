import Aegisum.Node.UndoRestore

/-!
# Replaying blocks after a crash

`RollforwardBlock`, `ReplayBlocks` and the flush to the database with its marks for the tips.  A
flush can be interrupted between two batches: then some of the changed coins are written and the
others are not, and the marks say from which old tip to which new tip the database was moving.
`ReplayBlocks` undoes the blocks of the old branch and applies those of the new one on this mixture.
-/

namespace Aegisum

variable {P : Primitives}

/-- An entry of the block index, given by its block and those below it down to the genesis block. -/
abbrev BlockPath (P : Primitives) := List (CBlock P)

/-- The latest common entry of two paths of the same length. -/
def commonAncestor : BlockPath P → BlockPath P → BlockPath P
  | a :: as, b :: bs => if a :: as = b :: bs then a :: as else commonAncestor as bs
  | _, _ => []

/-- `LastCommonAncestor`. -/
def lastCommonAncestor (pa pb : BlockPath P) : BlockPath P :=
  commonAncestor (pa.drop (pa.length - pb.length)) (pb.drop (pb.length - pa.length))

/-! ### The database -/

/-- The coins database with its marks: the best block, or the new and the old tip of a transition.
There is no old tip before the first flush. -/
structure CoinsDB (P : Primitives) where
  coins : Coins P
  bestBlock : Option (BlockPath P)
  headBlocks : Option (BlockPath P × Option (BlockPath P))

namespace CoinsDB

/-- The old tip as `BatchWrite` determines it. -/
def oldTip (db : CoinsDB P) : Option (BlockPath P) :=
  match db.bestBlock with
  | some tip => some tip
  | none => db.headBlocks.bind Prod.snd

/-- A complete `BatchWrite`. -/
def batchWrite (db : CoinsDB P) (cache : CCoinsViewCache P) (tip : BlockPath P) : CoinsDB P :=
  ⟨CellMap.writeTo CCoinsViewCache.writeEntry db.coins cache.cacheCoins, some tip, none⟩

/-- The database after a `BatchWrite` that was interrupted between two batches: any of the changed
coins may be written already. -/
structure Interrupted (db : CoinsDB P) (cache : CCoinsViewCache P) (tip : BlockPath P)
    (db' : CoinsDB P) : Prop where
  bestBlock : db'.bestBlock = none
  headBlocks : db'.headBlocks = some (tip, db.oldTip)
  coins : ∀ a, db'.coins.get a = db.coins.get a ∨ ∃ entry,
    cache.cacheCoins.lookup a = some entry ∧
      db'.coins.get a = CCoinsViewCache.writeEntry entry (db.coins.get a)

end CoinsDB

/-! ### `RollforwardBlock` -/

namespace CachedCoins

variable [NodeCrypto P]

/-- One step of `AddCoins`. -/
def addOutput (tx : CTransaction P) (nHeight : ℤ) (checkForOverwrite : Bool)
    (view : CachedCoins P) (out : CTxOut P × ℕ) : Except CoinsError (CachedCoins P) :=
  if checkForOverwrite then
    let (overwrite, view) := view.haveCoin ⟨tx.getHash, out.2⟩
    view.addCoin ⟨tx.getHash, out.2⟩ (CoinsCache.outputCoin tx nHeight out.1 out.2) overwrite
  else
    view.addCoin ⟨tx.getHash, out.2⟩ (CoinsCache.outputCoin tx nHeight out.1 out.2) tx.isCoinBase

/-- `AddCoins`. -/
def addCoins (view : CachedCoins P) (tx : CTransaction P) (nHeight : ℤ)
    (checkForOverwrite : Bool) : Except CoinsError (CachedCoins P) :=
  tx.vout.zipIdx.foldlM (addOutput tx nHeight checkForOverwrite) view

/-- Spend the inputs of a transaction, whether they are there or not, and add its outputs. -/
def rollforwardTx (nHeight : ℤ) (view : CachedCoins P) (tx : CTransaction P) :
    Except CoinsError (CachedCoins P) :=
  let view := tx.spentInputs.foldl (fun view txin => (view.spendCoin txin.prevout).2) view
  view.addCoins tx nHeight true

/-- `RollforwardBlock`. -/
def rollforwardBlock (view : CachedCoins P) (block : CBlock P) (nHeight : ℤ) :
    Except CoinsError (CachedCoins P) :=
  block.vtx.foldlM (rollforwardTx nHeight) view

end CachedCoins

/-! ### `ReplayBlocks` -/

/-- Ways in which the replay fails. -/
inductive ReplayError
  /-- The undo data of a block could not be read. -/
  | undoNotRead
  /-- A block was not disconnected. -/
  | disconnect (error : DisconnectError)
  | exception (error : CoinsError)

section Replay

variable [NodeCrypto P] {ω : Type} (undoMweb : Mw.BlockUndo P → ω → Option ω)
  (undoData : BlockPath P → Option (CBlockUndo P))

/-- Undo the block of an index entry, also if this is unclean. -/
def rollbackBlock (block : CBlock P) (chain : BlockPath P) (s : CachedCoins P × ω) :
    Except ReplayError (CachedCoins P × ω) :=
  match undoData (block :: chain) with
  | none => .error .undoNotRead
  | some undo =>
    match CachedCoins.disconnectBlock undoMweb block chain.length undo s.1 s.2 with
    | .error e => .error (.disconnect e)
    | .ok (_, view, mweb) => .ok (view, mweb)

/-- Undo the blocks of the old branch down to the fork; the genesis block is not undone. -/
def rollback (fork : BlockPath P) : BlockPath P → CachedCoins P × ω →
    Except ReplayError (CachedCoins P × ω)
  | [], s => .ok s
  | block :: chain, s =>
    if block :: chain = fork then .ok s
    else if chain = [] then .ok s
    else do
      let s ← rollbackBlock undoMweb undoData block chain s
      rollback fork chain s

/-- Apply the blocks of the new branch above the height of the fork, the lowest first. -/
def rollforward (nForkHeight : ℕ) : BlockPath P → CachedCoins P →
    Except ReplayError (CachedCoins P)
  | [], view => .ok view
  | block :: chain, view =>
    if chain.length ≤ nForkHeight then .ok view
    else do
      let view ← rollforward nForkHeight chain view
      match view.rollforwardBlock block chain.length with
      | .error e => .error (.exception e)
      | .ok view => .ok view

/-- The cache of `ReplayBlocks` before it is flushed. -/
def replayView (newTip : BlockPath P) (oldTip : Option (BlockPath P)) (coins : Coins P) (mweb : ω) :
    Except ReplayError (CachedCoins P × ω) :=
  match oldTip with
  | none => do
    let view ← rollforward 0 newTip ⟨coins, .empty, []⟩
    pure (view, mweb)
  | some old => do
    let fork := lastCommonAncestor old newTip
    let (view, mweb) ← rollback undoMweb undoData fork old (⟨coins, .empty, []⟩, mweb)
    let view ← rollforward (fork.length - 1) newTip view
    pure (view, mweb)

/-- `ReplayBlocks`. -/
def replayBlocks (db : CoinsDB P) (mweb : ω) : Except ReplayError (CoinsDB P × ω) :=
  match db.headBlocks with
  | none => .ok (db, mweb)
  | some (newTip, oldTip) => do
    let (view, mweb) ← replayView undoMweb undoData newTip oldTip db.coins mweb
    pure (db.batchWrite view.cache newTip, mweb)

end Replay

end Aegisum
