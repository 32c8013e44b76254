import Aegisum.Foundations.Worklist
import Aegisum.Node.BlockAssembler
import Mathlib.Data.List.AList

/-!
# The memory pool

`CTxMemPool`: the entries with the links between them, the statistics that every entry keeps of its
ancestors and descendants, and the indexes of what the entries spend and of the MWEB outputs they
create.  A pointer or an iterator to an entry is the id of its transaction, and sets of entries are
lists without repetitions; nothing that is computed depends on their order.

An assertion that fails stops the node.  Here it sets `aborted`, as does the use of an iterator
without an entry; what is computed after that is of no interest.
-/

namespace Aegisum

variable {P : Primitives}

/-! ### Inputs and outputs -/

/-- A reference to an output, canonical or MWEB. -/
inductive OutputIndex (P : Primitives) where
  | canonical (prevout : COutPoint P)
  | mweb (outputID : P.Hash)
deriving DecidableEq

instance : LawfulBEq (OutputIndex P) := instLawfulBEq

namespace CTransaction

variable [NodeCrypto P]

omit [NodeCrypto P] in
/-- The MWEB outputs that the transaction spends. -/
def mwebSpentIDs (tx : CTransaction P) : List P.Hash :=
  (tx.mwebTx.elim [] fun t => t.body.getSpentIDs).dedup

/-- The MWEB outputs that the transaction creates. -/
def mwebOutputIDs (tx : CTransaction P) : List P.Hash :=
  (tx.mwebTx.elim [] fun t => t.body.getOutputIDs).dedup

/-- The kernels of the transaction. -/
def mwebKernelIDs (tx : CTransaction P) : List P.Hash :=
  (tx.mwebTx.elim [] fun t => t.body.getKernelIDs).dedup

omit [NodeCrypto P] in
/-- What the inputs of the transaction refer to. -/
def getInputs (tx : CTransaction P) : List (OutputIndex P) :=
  tx.vin.map (fun txin => .canonical txin.prevout) ++ tx.mwebSpentIDs.map .mweb

/-- References to the outputs of the transaction. -/
def getOutputs (tx : CTransaction P) : List (OutputIndex P) :=
  (List.range tx.vout.length).map (fun n => .canonical ⟨tx.getHash, n⟩) ++
    tx.mwebOutputIDs.map .mweb

end CTransaction

/-! ### Entries -/

/-- The fee for a unit of MWEB weight. -/
def baseMwebFee : ℤ := 100

/-- The number of bytes that a unit of signature operations counts for, unless it is set. -/
def nBytesPerSigOp : ℤ := 20

namespace CTxMemPoolEntry

/-- The virtual size. -/
def getTxSize (e : CTxMemPoolEntry P) : ℤ :=
  (max (e.nTxWeight : ℤ) (e.sigOpCost * nBytesPerSigOp) + 4 - 1) / 4

end CTxMemPoolEntry

/-- An entry with its links and with the statistics of its packages. -/
structure MemPoolEntry (P : Primitives) extends CTxMemPoolEntry P where
  mParents : List P.Hash
  mChildren : List P.Hash
  feeDelta : ℤ
  nCountWithDescendants : ℤ
  nSizeWithDescendants : ℤ
  nModFeesWithDescendants : ℤ
  nMWEBWeightWithDescendants : ℤ
  nCountWithAncestors : ℤ
  nSizeWithAncestors : ℤ
  nModFeesWithAncestors : ℤ
  nSigOpCostWithAncestors : ℤ
  nMWEBWeightWithAncestors : ℤ

namespace MemPoolEntry

/-- The entry of a transaction that is not linked yet. -/
def new (e : CTxMemPoolEntry P) : MemPoolEntry P where
  toCTxMemPoolEntry := e
  mParents := []
  mChildren := []
  feeDelta := 0
  nCountWithDescendants := 1
  nSizeWithDescendants := e.getTxSize
  nModFeesWithDescendants := e.nFee.toInt
  nMWEBWeightWithDescendants := e.mwebWeight
  nCountWithAncestors := 1
  nSizeWithAncestors := e.getTxSize
  nModFeesWithAncestors := e.nFee.toInt
  nSigOpCostWithAncestors := e.sigOpCost
  nMWEBWeightWithAncestors := e.mwebWeight

def getModifiedFee (e : MemPoolEntry P) : ℤ := e.nFee.toInt + e.feeDelta

def updateFeeDelta (newFeeDelta : ℤ) (e : MemPoolEntry P) : MemPoolEntry P :=
  { e with
    nModFeesWithDescendants := e.nModFeesWithDescendants + (newFeeDelta - e.feeDelta)
    nModFeesWithAncestors := e.nModFeesWithAncestors + (newFeeDelta - e.feeDelta)
    feeDelta := newFeeDelta }

def updateDescendantState (modifySize modifyFee modifyCount modifyMWEBWeight : ℤ)
    (e : MemPoolEntry P) : MemPoolEntry P :=
  { e with
    nSizeWithDescendants := e.nSizeWithDescendants + modifySize
    nModFeesWithDescendants := e.nModFeesWithDescendants + modifyFee
    nCountWithDescendants := e.nCountWithDescendants + modifyCount
    nMWEBWeightWithDescendants := e.nMWEBWeightWithDescendants + modifyMWEBWeight }

def updateAncestorState
    (modifySize modifyFee modifyCount modifySigOps modifyMWEBWeight : ℤ) (e : MemPoolEntry P) :
    MemPoolEntry P :=
  { e with
    nSizeWithAncestors := e.nSizeWithAncestors + modifySize
    nModFeesWithAncestors := e.nModFeesWithAncestors + modifyFee
    nCountWithAncestors := e.nCountWithAncestors + modifyCount
    nSigOpCostWithAncestors := e.nSigOpCostWithAncestors + modifySigOps
    nMWEBWeightWithAncestors := e.nMWEBWeightWithAncestors + modifyMWEBWeight }

/-- The assertions of `UpdateDescendantState`. -/
def descendantAsserts (e : MemPoolEntry P) : Bool :=
  0 ≤ e.nSizeWithDescendants && 0 < e.nCountWithDescendants && 0 ≤ e.nMWEBWeightWithDescendants

/-- The assertions of `UpdateAncestorState`. -/
def ancestorAsserts (e : MemPoolEntry P) : Bool :=
  0 ≤ e.nSizeWithAncestors && 0 < e.nCountWithAncestors && 0 ≤ e.nSigOpCostWithAncestors &&
    0 ≤ e.nMWEBWeightWithAncestors

end MemPoolEntry

/-! ### The pool -/

/-- The memory pool. -/
structure CTxMemPool (P : Primitives) where
  /-- The entries by the ids of their transactions. -/
  mapTx : AList fun _ : P.Hash => MemPoolEntry P
  /-- The entry that spends an output. -/
  mapNextTx : OutputIndex P → Option P.Hash
  /-- The entry that creates an MWEB output. -/
  mapTxOutputsMWEB : P.Hash → Option P.Hash
  /-- What was added to the fee of a transaction. -/
  mapDeltas : P.Hash → ℤ
  /-- An assertion has failed. -/
  aborted : Bool

namespace CTxMemPool

/-- The pool without entries. -/
def empty : CTxMemPool P where
  mapTx := ∅
  mapNextTx _ := none
  mapTxOutputsMWEB _ := none
  mapDeltas _ := 0
  aborted := false

/-- The entry of a transaction. -/
def entry (pool : CTxMemPool P) (h : P.Hash) : Option (MemPoolEntry P) := pool.mapTx.lookup h

def parents (pool : CTxMemPool P) (h : P.Hash) : List P.Hash :=
  (pool.entry h).elim [] MemPoolEntry.mParents

def children (pool : CTxMemPool P) (h : P.Hash) : List P.Hash :=
  (pool.entry h).elim [] MemPoolEntry.mChildren

/-- `assert`. -/
def assertThat (ok : Bool) (pool : CTxMemPool P) : CTxMemPool P :=
  { pool with aborted := pool.aborted || !ok }

/-- Replace an entry, with assertions on the new one. -/
def modify (h : P.Hash) (f : MemPoolEntry P → MemPoolEntry P) (asserts : MemPoolEntry P → Bool)
    (pool : CTxMemPool P) : CTxMemPool P :=
  match pool.entry h with
  | none => pool.assertThat false
  | some e => { pool with mapTx := pool.mapTx.insert h (f e) }.assertThat (asserts (f e))

/-- Replace the entries of a set one by one. -/
def modifyAll (hs : List P.Hash) (f : MemPoolEntry P → MemPoolEntry P)
    (asserts : MemPoolEntry P → Bool) (pool : CTxMemPool P) : CTxMemPool P :=
  hs.foldl (fun pool h => pool.modify h f asserts) pool

/-- Insert into a set or erase from it. -/
def insertOrErase (add : Bool) (h : P.Hash) (hs : List P.Hash) : List P.Hash :=
  if add then hs.insert h else hs.filter (· ≠ h)

def updateChild (entry child : P.Hash) (add : Bool) (pool : CTxMemPool P) : CTxMemPool P :=
  pool.modify entry (fun e => { e with mChildren := insertOrErase add child e.mChildren })
    fun _ => true

def updateParent (entry parent : P.Hash) (add : Bool) (pool : CTxMemPool P) : CTxMemPool P :=
  pool.modify entry (fun e => { e with mParents := insertOrErase add parent e.mParents })
    fun _ => true

/-! ### Ancestors and descendants -/

/-- The limits on packages; `none` is no limit. -/
structure Limits where
  ancestorCount : Option ℕ
  ancestorSize : Option ℕ
  descendantCount : Option ℕ
  descendantSize : Option ℕ

/-- `nNoLimit` for every limit. -/
def noLimits : Limits := ⟨none, none, none, none⟩

/-- A number exceeds a limit. -/
def exceeds (n : ℤ) : Option ℕ → Bool
  | none => false
  | some limit => limit < n

/-- Why the ancestors of a transaction are not acceptable. -/
inductive LimitError (P : Primitives) where
  /-- "too many unconfirmed parents" -/
  | parents
  /-- "exceeds descendant size limit for tx" -/
  | descendantSize (tx : P.Hash)
  /-- "too many descendants for tx" -/
  | descendants (tx : P.Hash)
  /-- "exceeds ancestor size limit" -/
  | ancestorSize
  /-- "too many unconfirmed ancestors" -/
  | ancestors

/-- The entry whose output an input refers to. -/
def getIter (pool : CTxMemPool P) (input : OutputIndex P) : Option P.Hash :=
  match input with
  | .canonical prevout => if prevout.hash ∈ pool.mapTx then some prevout.hash else none
  | .mweb outputID =>
    (pool.mapTxOutputsMWEB outputID).bind fun h => if h ∈ pool.mapTx then some h else none

/-- Stage the entries that the inputs of a transaction refer to. -/
def searchParents (pool : CTxMemPool P) (limits : Limits) :
    List (OutputIndex P) → List P.Hash → Except (LimitError P) (List P.Hash)
  | [], staged => .ok staged
  | input :: inputs, staged =>
    match pool.getIter input with
    | none => pool.searchParents limits inputs staged
    | some parent =>
      if exceeds ((staged.insert parent).length + 1) limits.ancestorCount then .error .parents
      else pool.searchParents limits inputs (staged.insert parent)

/-- Stage the parents of an ancestor that are not known to be ancestors. -/
def stageParents (limits : Limits) (setAncestors : List P.Hash) :
    List P.Hash → List P.Hash → Except (LimitError P) (List P.Hash)
  | [], staged => .ok staged
  | parent :: parents, staged =>
    let staged := if parent ∈ setAncestors then staged else staged.insert parent
    if exceeds (staged.length + setAncestors.length + 1) limits.ancestorCount then
      .error .ancestors
    else stageParents limits setAncestors parents staged

/-- The loop of `CalculateMemPoolAncestors` for a transaction of the given size. -/
def ancestorLoop (pool : CTxMemPool P) (limits : Limits) (txSize : ℤ) :
    ℕ → List P.Hash → List P.Hash → ℤ → Except (LimitError P) (List P.Hash)
  | 0, _, setAncestors, _ => .ok setAncestors
  | _ + 1, [], setAncestors, _ => .ok setAncestors
  | fuel + 1, h :: staged, setAncestors, totalSize =>
    match pool.entry h with
    | none => pool.ancestorLoop limits txSize fuel staged (setAncestors.insert h) totalSize
    | some stage =>
      if exceeds (stage.nSizeWithDescendants + txSize) limits.descendantSize then
        .error (.descendantSize h)
      else if exceeds (stage.nCountWithDescendants + 1) limits.descendantCount then
        .error (.descendants h)
      else if exceeds (totalSize + stage.getTxSize) limits.ancestorSize then
        .error .ancestorSize
      else do
        let staged ← stageParents limits (setAncestors.insert h) stage.mParents staged
        pool.ancestorLoop limits txSize fuel staged (setAncestors.insert h)
          (totalSize + stage.getTxSize)

/-- The ancestors of a transaction.  Its parents are searched for, or they are the ones its entry is
linked to. -/
def calculateMemPoolAncestors (pool : CTxMemPool P) (entry : MemPoolEntry P) (limits : Limits)
    (fSearchForParents : Bool) : Except (LimitError P) (List P.Hash) := do
  let staged ←
    if fSearchForParents then pool.searchParents limits entry.tx.getInputs []
    else .ok entry.mParents
  pool.ancestorLoop limits entry.getTxSize pool.mapTx.keys.length staged [] entry.getTxSize

/-- The ancestors of an entry without limits. -/
def ancestors (pool : CTxMemPool P) (entry : MemPoolEntry P) : List P.Hash :=
  (pool.calculateMemPoolAncestors entry noLimits false).toOption.getD []

/-- Add the descendants of an entry to a set that has all descendants of its elements. -/
def calculateDescendants (pool : CTxMemPool P) (h : P.Hash) (setDescendants : List P.Hash) :
    List P.Hash :=
  Worklist.closure pool.children pool.mapTx.keys.length (if h ∈ setDescendants then [] else [h])
    setDescendants

/-! ### Adding a transaction -/

/-- Add an entry to its parents' children or remove it, and to the statistics of its ancestors. -/
def updateAncestorsOf (add : Bool) (h : P.Hash) (setAncestors : List P.Hash)
    (pool : CTxMemPool P) : CTxMemPool P :=
  match pool.entry h with
  | none => pool.assertThat false
  | some e =>
    let pool := e.mParents.foldl (fun pool parent => pool.updateChild parent h add) pool
    let updateCount : ℤ := if add then 1 else -1
    pool.modifyAll setAncestors
      (.updateDescendantState (updateCount * e.getTxSize) (updateCount * e.getModifiedFee)
        updateCount (updateCount * e.mwebWeight))
      MemPoolEntry.descendantAsserts

/-- The sum of a value over the entries of a set. -/
def sumOver (pool : CTxMemPool P) (hs : List P.Hash) (value : MemPoolEntry P → ℤ) : ℤ :=
  (hs.map fun h => (pool.entry h).elim 0 value).sum

def updateEntryForAncestors (h : P.Hash) (setAncestors : List P.Hash) (pool : CTxMemPool P) :
    CTxMemPool P :=
  pool.modify h
    (.updateAncestorState (pool.sumOver setAncestors (·.getTxSize))
      (pool.sumOver setAncestors MemPoolEntry.getModifiedFee) setAncestors.length
      (pool.sumOver setAncestors (·.sigOpCost)) (pool.sumOver setAncestors (·.mwebWeight)))
    MemPoolEntry.ancestorAsserts

variable [NodeCrypto P]

/-- The entries that the inputs of a transaction refer to. -/
def parentsOf (pool : CTxMemPool P) (tx : CTransaction P) : List P.Hash :=
  (tx.getInputs.filterMap pool.getIter).dedup

/-- `addUnchecked`.  The parents are looked up when the entry is in the pool and before its MWEB
outputs are. -/
def addUnchecked (entry : MemPoolEntry P) (setAncestors : List P.Hash) (pool : CTxMemPool P) :
    CTxMemPool P :=
  let tx := entry.tx
  let h := tx.getHash
  let pool := if h ∈ pool.mapTx then pool else { pool with mapTx := pool.mapTx.insert h entry }
  let pool :=
    if pool.mapDeltas h = 0 then pool
    else pool.modify h (.updateFeeDelta (pool.mapDeltas h)) fun _ => true
  let parents := pool.parentsOf tx
  let pool :=
    { pool with
      mapNextTx := fun i => if i ∈ tx.getInputs then (pool.mapNextTx i).or (some h)
        else pool.mapNextTx i
      mapTxOutputsMWEB := fun id => if id ∈ tx.mwebOutputIDs then
        (pool.mapTxOutputsMWEB id).or (some h) else pool.mapTxOutputsMWEB id }
  let pool := parents.foldl (fun pool parent => pool.updateParent h parent true) pool
  (pool.updateAncestorsOf true h setAncestors).updateEntryForAncestors h setAncestors

/-! ### Removing transactions -/

omit [NodeCrypto P] in
def updateChildrenForRemoval (h : P.Hash) (pool : CTxMemPool P) : CTxMemPool P :=
  (pool.children h).foldl (fun pool child => pool.updateParent child h false) pool

omit [NodeCrypto P] in
/-- Take an entry out of the ancestor statistics of its descendants. -/
def removeFromDescendants (h : P.Hash) (pool : CTxMemPool P) : CTxMemPool P :=
  match pool.entry h with
  | none => pool.assertThat false
  | some e =>
    pool.modifyAll ((pool.calculateDescendants h []).filter (· ≠ h))
      (.updateAncestorState (-e.getTxSize) (-e.getModifiedFee) (-1) (-e.sigOpCost) (-e.mwebWeight))
      MemPoolEntry.ancestorAsserts

omit [NodeCrypto P] in
/-- Take an entry out of the descendant statistics of its ancestors. -/
def removeFromAncestors (h : P.Hash) (pool : CTxMemPool P) : CTxMemPool P :=
  match pool.entry h with
  | none => pool.assertThat false
  | some e => pool.updateAncestorsOf false h (pool.ancestors e)

omit [NodeCrypto P] in
def updateForRemoveFromMempool (entriesToRemove : List P.Hash) (updateDescendants : Bool)
    (pool : CTxMemPool P) : CTxMemPool P :=
  let pool :=
    if updateDescendants then
      entriesToRemove.foldl (fun pool h => pool.removeFromDescendants h) pool
    else pool
  let pool := entriesToRemove.foldl (fun pool h => pool.removeFromAncestors h) pool
  entriesToRemove.foldl (fun pool h => pool.updateChildrenForRemoval h) pool

def removeUnchecked (h : P.Hash) (pool : CTxMemPool P) : CTxMemPool P :=
  match pool.entry h with
  | none => pool.assertThat false
  | some e =>
    { pool with
      mapTx := pool.mapTx.erase h
      mapNextTx := fun i => if i ∈ e.tx.getInputs then none else pool.mapNextTx i
      mapTxOutputsMWEB := fun id => if id ∈ e.tx.mwebOutputIDs then none
        else pool.mapTxOutputsMWEB id }

def removeStaged (stage : List P.Hash) (updateDescendants : Bool) (pool : CTxMemPool P) :
    CTxMemPool P :=
  stage.foldl (fun pool h => pool.removeUnchecked h)
    (pool.updateForRemoveFromMempool stage updateDescendants)

/-- What `removeRecursive` starts from: the transaction, or what spends its outputs. -/
def removalRoots (pool : CTxMemPool P) (origTx : CTransaction P) : List P.Hash :=
  if origTx.getHash ∈ pool.mapTx then [origTx.getHash]
  else (origTx.getOutputs.filterMap pool.mapNextTx).dedup

omit [NodeCrypto P] in
/-- All descendants of some entries. -/
def descendantsOfAll (pool : CTxMemPool P) (txToRemove : List P.Hash) : List P.Hash :=
  txToRemove.foldl (fun setAllRemoves h => pool.calculateDescendants h setAllRemoves) []

def removeRecursive (origTx : CTransaction P) (pool : CTxMemPool P) : CTxMemPool P :=
  let txToRemove := pool.removalRoots origTx
  let pool := pool.assertThat (txToRemove.all (· ∈ pool.mapTx))
  pool.removeStaged (pool.descendantsOfAll txToRemove) false

omit [NodeCrypto P] in
def clearPrioritisation (h : P.Hash) (pool : CTxMemPool P) : CTxMemPool P :=
  { pool with mapDeltas := fun x => if x = h then 0 else pool.mapDeltas x }

/-- Remove the entry that spends an output and that is not the given transaction. -/
def removeConflict (h : P.Hash) (pool : CTxMemPool P) (input : OutputIndex P) : CTxMemPool P :=
  match pool.mapNextTx input with
  | none => pool
  | some conflict =>
    if conflict = h then pool
    else
      match pool.entry conflict with
      | none => pool.assertThat false
      | some e => (pool.clearPrioritisation conflict).removeRecursive e.tx

def removeConflicts (tx : CTransaction P) (pool : CTxMemPool P) : CTxMemPool P :=
  tx.getInputs.foldl (removeConflict tx.getHash) pool

/-- The kernels of the extension block of a block. -/
def blockKernelIDs (block : CBlock P) : List P.Hash :=
  block.mwebBlock.elim [] fun b => b.body.getKernelIDs

/-- The transactions of a block and the entries that have a kernel in its extension block. -/
def blockTxs (pool : CTxMemPool P) (block : CBlock P) : List (CTransaction P) :=
  block.vtx ++ (pool.mapTx.entries.map fun e => e.2.tx).filter fun tx =>
    tx.mwebKernelIDs.any (· ∈ blockKernelIDs block)

/-- Remove a transaction that was in a block and what is in conflict with it. -/
def removeBlockTx (pool : CTxMemPool P) (tx : CTransaction P) : CTxMemPool P :=
  let pool := if tx.getHash ∈ pool.mapTx then pool.removeStaged [tx.getHash] true else pool
  (pool.removeConflicts tx).clearPrioritisation tx.getHash

def removeForBlock (block : CBlock P) (pool : CTxMemPool P) : CTxMemPool P :=
  (pool.blockTxs block).foldl removeBlockTx pool

end CTxMemPool

end Aegisum
