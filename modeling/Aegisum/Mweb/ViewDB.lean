import Aegisum.Mweb.MmrFile
import Aegisum.Mweb.ViewCache

/-!
# The coins view of the database

`CoinsViewDB` answers from the tables of the coins database, the leaf set file and the file with
the hashes of the output MMR.  Flushing a cache into it writes new files under the next file
index at once, and collects the changes to the tables in a batch that reaches the database later,
together with the index of the new files.
-/

namespace Aegisum

namespace Mw

/-! ### The leaf set file -/

/-- Take over the changes of a cache.  Leaves from the new next index on are cleared. -/
def LeafSet.applyUpdates (s : LeafSet) (nextLeafIdx : ℕ) (modifiedBytes : ℕ → Option UInt8) :
    LeafSet :=
  let written : LeafSet := { s with getByte := fun i => (modifiedBytes i).getD (s.getByte i) }
  let cleared :=
    (List.range' nextLeafIdx (s.nextLeafIdx - nextLeafIdx)).foldl LeafSet.remove written
  { cleared with nextLeafIdx := nextLeafIdx }

/-- The file holds what the cache stood for. -/
lemma LeafSet.applyUpdates_eq {s : LeafSet} {top : LeafSetCache}
    (hrange : (top.toLeafSet s).InRange) :
    s.applyUpdates top.nextLeafIdx top.modifiedBytes = top.toLeafSet s := by
  apply LeafSet.ext_contains
  · rfl
  intro i
  have hwritten : ∀ next i, LeafSet.contains
      { getByte := fun i => (top.modifiedBytes i).getD (s.getByte i), nextLeafIdx := next } i =
        (top.toLeafSet s).contains i := fun _ _ => rfl
  change ((List.range' top.nextLeafIdx (s.nextLeafIdx - top.nextLeafIdx)).foldl LeafSet.remove
    _).contains i = true ↔ _
  rw [LeafSet.contains_foldl_remove, hwritten]
  refine and_iff_right_of_imp fun hset hmem => ?_
  have hlt : i < top.nextLeafIdx := hrange i hset
  have := (List.mem_range'_1.mp hmem).1
  omega

/-! ### Storage -/

variable {P : Primitives}

/-- The MWEB data on disk: the tables of the database with the index of the current files, and
the files by their index. -/
structure MwStorage (P : Primitives) where
  coins : FiniteMap P.Hash (UTXO P)
  leaves : FiniteMap ℕ P.Hash
  mmrIndex : Option ℕ
  leafSetFiles : ℕ → Option LeafSet
  hashFiles : ℕ → Option (List P.Hash)

/-- Changes to the tables that reach the database together. -/
structure MwBatch (P : Primitives) where
  coins : List (P.Hash × Option (UTXO P))
  leaves : List (ℕ × P.Hash)
  mmrIndex : Option ℕ

/-- A batch without changes. -/
def MwBatch.empty : MwBatch P := ⟨[], [], none⟩

namespace MwStorage

/-- Nothing stored. -/
def empty : MwStorage P := ⟨.empty, .empty, none, fun _ => none, fun _ => none⟩

/-- Write a batch, in the order of its entries. -/
def write (st : MwStorage P) (batch : MwBatch P) : MwStorage P :=
  { st with
    coins := batch.coins.foldl (fun m w => m.set w.1 w.2) st.coins
    leaves := batch.leaves.foldl (fun m w => m.set w.1 (some w.2)) st.leaves
    mmrIndex := batch.mmrIndex.or st.mmrIndex }

/-- The index of the current files. -/
def fileIndex (st : MwStorage P) : ℕ := st.mmrIndex.getD 0

end MwStorage

/-! ### The table of unspent outputs -/

/-- `CoinDB` with a batch: the coins added since the batch was opened, which are read before the
database, and the writes so far. -/
structure CoinDB (P : Primitives) where
  added : P.Hash → List (UTXO P)
  batch : List (P.Hash × Option (UTXO P))

namespace CoinDB

/-- A new batch. -/
def new : CoinDB P := ⟨fun _ => [], []⟩

/-- The last coin added under the id, or the one in the database.  A coin of the database is
found even if it was removed in this batch. -/
def getUTXO (committed : FiniteMap P.Hash (UTXO P)) (db : CoinDB P) (id : P.Hash) :
    Option (UTXO P) :=
  (db.added id).getLast?.or (committed.get id)

/-- Remove a coin. -/
def removeUTXO (db : CoinDB P) (id : P.Hash) : CoinDB P where
  added := Function.update db.added id (db.added id).dropLast
  batch := db.batch ++ [(id, none)]

/-- Remove a coin that must be there. -/
def spendUTXO (committed : FiniteMap P.Hash (UTXO P)) (db : CoinDB P) (id : P.Hash) :
    Except ViewError (CoinDB P) :=
  match db.getUTXO committed id with
  | none => .error (.validation .utxoMissing)
  | some _ => .ok (db.removeUTXO id)

variable [MwCrypto P]

/-- Add a coin. -/
def addUTXO (db : CoinDB P) (utxo : UTXO P) : CoinDB P where
  added := Function.update db.added utxo.getOutputID (db.added utxo.getOutputID ++ [utxo])
  batch := db.batch ++ [(utxo.getOutputID, some utxo)]

/-- One recorded action. -/
def applyAction (committed : FiniteMap P.Hash (UTXO P)) (id : P.Hash) (db : CoinDB P)
    (action : CoinAction P) : Except ViewError (CoinDB P) :=
  match action with
  | none => db.spendUTXO committed id
  | some utxo => .ok (db.addUTXO utxo)

/-- All recorded actions, id by id: `CoinsViewDB::WriteBatch`. -/
def writeUpdates (committed : FiniteMap P.Hash (UTXO P)) (updates : CoinsViewUpdates P) :
    Except ViewError (CoinDB P) :=
  updates.actions.foldlM (fun db a => a.2.foldlM (applyAction committed a.1) db) new

end CoinDB

/-! ### The view -/

/-- The part of the view that is kept in memory: the best header and the open files. -/
structure CoinsViewDB (P : Primitives) where
  bestHeader : Option (Header P)
  leafSet : LeafSet
  outputPMMR : PMMR P.Hash P.Hash

namespace CoinsViewDB

/-- Open the current files.  The best header is not stored and has to be given. -/
def «open» (st : MwStorage P) (bestHeader : Option (Header P)) : CoinsViewDB P where
  bestHeader := bestHeader
  leafSet := (st.leafSetFiles st.fileIndex).getD .empty
  outputPMMR := .open ((st.hashFiles st.fileIndex).getD [])

/-- The database as a view. -/
def toView (db : CoinsViewDB P) (st : MwStorage P) : ICoinsView P where
  bestHeader := db.bestHeader
  getUTXO id := .ok (st.coins.get id)
  leafSet := db.leafSet
  outputPMMR := db.outputPMMR.toIMMR st.leaves.get

end CoinsViewDB

namespace CoinsViewCache

/-- What is left of a cache after it was flushed. -/
def flushed (c : CoinsViewCache P) : CoinsViewCache P where
  bestHeader := c.bestHeader
  leafSet := ⟨fun _ => none, c.leafSet.nextLeafIdx⟩
  outputPMMR := ⟨c.outputPMMR.getNextLeafIdx, [], []⟩
  updates := .empty

variable [MwCrypto P]

/-- Record an action of a cache on top of this one. -/
def recordAction (id : P.Hash) (u : CoinsViewUpdates P) (action : CoinAction P) :
    CoinsViewUpdates P :=
  match action with
  | none => u.spendUTXO id
  | some utxo => u.addUTXO utxo

/-- Take over the recorded actions and the best header of a cache on top of this one. -/
def writeBatch (c : CoinsViewCache P) (updates : CoinsViewUpdates P)
    (bestHeader : Option (Header P)) : CoinsViewCache P where
  bestHeader := bestHeader
  leafSet := c.leafSet
  outputPMMR := c.outputPMMR
  updates := updates.actions.foldl (fun u a => a.2.foldl (recordAction a.1) u) c.updates

/-- `Flush` of a cache into the cache `lower` below it, which is on top of `base`.  Without a best
header nothing is done. -/
def flushToCache (base : ICoinsView P) (lower c : CoinsViewCache P) :
    Except ViewError (CoinsViewCache P × CoinsViewCache P) :=
  if c.bestHeader.isNone then .ok (c, lower)
  else do
    let written := lower.writeBatch c.updates c.bestHeader
    let outputPMMR ← written.outputPMMR.batchWrite (outputMmrHasher P) base.outputPMMR
      c.outputPMMR.firstLeaf c.outputPMMR.leaves
    pure (c.flushed,
      { written with
        leafSet := written.leafSet.applyUpdates c.leafSet.nextLeafIdx c.leafSet.modifiedBytes
        outputPMMR := outputPMMR })

/-- `Flush` of a cache into the database.  The files are written at once; the batch is returned.
Without a best header nothing is done. -/
def flushToDB (st : MwStorage P) (db : CoinsViewDB P) (c : CoinsViewCache P) :
    Except ViewError (CoinsViewCache P × CoinsViewDB P × MwStorage P × MwBatch P) :=
  if c.bestHeader.isNone then .ok (c, db, st, .empty)
  else do
    let coinDB ← CoinDB.writeUpdates st.coins c.updates
    let index := st.fileIndex + 1
    let leafSet := db.leafSet.applyUpdates c.leafSet.nextLeafIdx c.leafSet.modifiedBytes
    let (outputPMMR, newLeaves) ← db.outputPMMR.batchWrite (outputMmrHasher P)
      c.outputPMMR.firstLeaf c.outputPMMR.leaves
    pure (c.flushed, ⟨c.bestHeader, leafSet, outputPMMR⟩,
      { st with
        leafSetFiles := Function.update st.leafSetFiles index (some leafSet)
        hashFiles := Function.update st.hashFiles index (some outputPMMR.hashFile.disk) },
      ⟨coinDB.batch, newLeaves.map fun leaf => (leaf.leafIndex, leaf.data), some index⟩)

end CoinsViewCache

end Mw

end Aegisum
