import Aegisum.Mweb.CoinsView
import Aegisum.Mweb.MmrCache

/-!
# Cached coins views

`CoinsViewCache` as it is stored: a list of actions for every output id, the modified bytes of the
leaf set, the new leaves and nodes of the output MMR and the best header.  Whatever is not in the
cache is asked of the view below it, the base, of which only the answers matter: `ICoinsView`.
-/

namespace Aegisum

namespace Mw

/-! ### The interface of leaf sets -/

/-- What differs between the classes of leaf sets; the operations of `ILeafSet` are built on
it. -/
structure ILeafSet (σ : Type) where
  getByte : σ → ℕ → UInt8
  setByte : σ → ℕ → UInt8 → σ
  nextLeafIdx : σ → ℕ
  setNextLeafIdx : σ → ℕ → σ

namespace ILeafSet

variable {σ : Type} (I : ILeafSet σ)

/-- Set the bit of a leaf. -/
def add (s : σ) (idx : ℕ) : σ :=
  let s' := I.setByte s (idx / 8) (I.getByte s (idx / 8) ||| LeafSet.bitToByte (idx % 8))
  if idx ≥ I.nextLeafIdx s' then I.setNextLeafIdx s' (idx + 1) else s'

/-- Clear the bit of a leaf. -/
def remove (s : σ) (idx : ℕ) : σ :=
  I.setByte s (idx / 8) (I.getByte s (idx / 8) &&& (0xff ^^^ LeafSet.bitToByte (idx % 8)))

/-- The bit of a leaf is set. -/
def contains (s : σ) (idx : ℕ) : Bool :=
  I.getByte s (idx / 8) &&& LeafSet.bitToByte (idx % 8) != 0

/-- Go back to the first leaves, with the given leaves unspent again. -/
def rewind (s : σ) (numLeaves : ℕ) (leavesToAdd : List ℕ) : σ :=
  let added := leavesToAdd.foldl I.add s
  let cleared := (List.range' numLeaves (I.nextLeafIdx added - numLeaves)).foldl I.remove added
  I.setNextLeafIdx cleared numLeaves

/-- The leaf set that a state stands for. -/
structure Represents (abs : σ → LeafSet) : Prop where
  getByte : ∀ s, (abs s).getByte = I.getByte s
  setByte : ∀ s i x, abs (I.setByte s i x) = (abs s).setByte i x
  nextLeafIdx : ∀ s, (abs s).nextLeafIdx = I.nextLeafIdx s
  setNextLeafIdx : ∀ s n, abs (I.setNextLeafIdx s n) = { abs s with nextLeafIdx := n }

variable {I} {abs : σ → LeafSet}

namespace Represents

lemma add (h : I.Represents abs) (s : σ) (idx : ℕ) : abs (I.add s idx) = (abs s).add idx := by
  unfold ILeafSet.add LeafSet.add
  dsimp only
  rw [← h.nextLeafIdx, h.setByte, ← h.getByte]
  change abs (if idx ≥ (abs s).nextLeafIdx then _ else _) = _
  split
  · rw [h.setNextLeafIdx, h.setByte]
  · rw [h.setByte]
    rfl

lemma remove (h : I.Represents abs) (s : σ) (idx : ℕ) :
    abs (I.remove s idx) = (abs s).remove idx := by
  rw [ILeafSet.remove, h.setByte, ← h.getByte]
  rfl

lemma contains (h : I.Represents abs) (s : σ) (idx : ℕ) :
    (abs s).contains idx = I.contains s idx := by
  rw [LeafSet.contains, h.getByte]
  rfl

/-- A fold of an operation that is represented is represented. -/
lemma foldl {f : σ → ℕ → σ} {g : LeafSet → ℕ → LeafSet} (h : ∀ s i, abs (f s i) = g (abs s) i)
    (l : List ℕ) (s : σ) : abs (l.foldl f s) = l.foldl g (abs s) := by
  induction l generalizing s with
  | nil => rfl
  | cons i l ih => rw [List.foldl_cons, List.foldl_cons, ih, h]

lemma rewind (h : I.Represents abs) (s : σ) (numLeaves : ℕ) (leavesToAdd : List ℕ) :
    abs (I.rewind s numLeaves leavesToAdd) = (abs s).rewind numLeaves leavesToAdd := by
  rw [ILeafSet.rewind, h.setNextLeafIdx, foldl h.remove, ← h.nextLeafIdx, foldl h.add]
  rfl

end Represents

end ILeafSet

/-! ### The cached leaf set -/

/-- The bytes that were written since the cache was made, and the index of the next leaf. -/
structure LeafSetCache where
  modifiedBytes : ℕ → Option UInt8
  nextLeafIdx : ℕ

namespace LeafSetCache

/-- A cache in which nothing was written. -/
def new (base : LeafSet) : LeafSetCache := ⟨fun _ => none, base.nextLeafIdx⟩

/-- The leaf set with the written bytes. -/
def toLeafSet (base : LeafSet) (c : LeafSetCache) : LeafSet :=
  ⟨fun i => (c.modifiedBytes i).getD (base.getByte i), c.nextLeafIdx⟩

/-- `LeafSetCache` as a class of leaf sets. -/
def iface (base : LeafSet) : ILeafSet LeafSetCache where
  getByte c := (c.toLeafSet base).getByte
  setByte c i x := { c with modifiedBytes := Function.update c.modifiedBytes i (some x) }
  nextLeafIdx := LeafSetCache.nextLeafIdx
  setNextLeafIdx c n := { c with nextLeafIdx := n }

lemma represents (base : LeafSet) : (iface base).Represents (toLeafSet base) where
  getByte _ := rfl
  setByte c i x := by
    refine LeafSet.ext (funext fun j => ?_) rfl
    simp only [toLeafSet, iface, LeafSet.setByte]
    by_cases hj : j = i
    · rw [hj, Function.update_self, Function.update_self]
      rfl
    · rw [Function.update_of_ne hj, Function.update_of_ne hj]
  nextLeafIdx _ := rfl
  setNextLeafIdx _ _ := rfl

@[simp] lemma toLeafSet_new (base : LeafSet) : (new base).toLeafSet base = base := rfl

/-- Take over the changes of a cache on top of this one. -/
def applyUpdates (c : LeafSetCache) (nextLeafIdx : ℕ) (modifiedBytes : ℕ → Option UInt8) :
    LeafSetCache :=
  ⟨fun i => (modifiedBytes i).or (c.modifiedBytes i), nextLeafIdx⟩

/-- The cache below stands for what the cache on top of it stood for. -/
lemma toLeafSet_applyUpdates (base : LeafSet) (c top : LeafSetCache) :
    (c.applyUpdates top.nextLeafIdx top.modifiedBytes).toLeafSet base =
      top.toLeafSet (c.toLeafSet base) := by
  refine LeafSet.ext (funext fun i => ?_) rfl
  simp only [toLeafSet, applyUpdates]
  cases top.modifiedBytes i <;> rfl

end LeafSetCache

/-! ### Actions on coins -/

/-- Adding an unspent output, or spending the one with the id at hand. -/
abbrev CoinAction (P : Primitives) := Option (UTXO P)

/-- The actions by output id, each list in the order of the actions. -/
structure CoinsViewUpdates (P : Primitives) where
  actions : List (P.Hash × List (CoinAction P))
  nodup : (actions.map Prod.fst).Nodup

namespace CoinsViewUpdates

variable {P : Primitives}

/-- No actions. -/
def empty : CoinsViewUpdates P := ⟨[], List.nodup_nil⟩

/-- The actions of an id in a list of actions. -/
def lookup (id : P.Hash) : List (P.Hash × List (CoinAction P)) → List (CoinAction P)
  | [] => []
  | (id', actions) :: rest => if id' = id then actions else lookup id rest

/-- The actions of an id. -/
def getActions (u : CoinsViewUpdates P) (id : P.Hash) : List (CoinAction P) := lookup id u.actions

/-- Append an action to those of an id. -/
def insertAction (id : P.Hash) (action : CoinAction P) :
    List (P.Hash × List (CoinAction P)) → List (P.Hash × List (CoinAction P))
  | [] => [(id, [action])]
  | (id', actions) :: rest =>
    if id' = id then (id', actions ++ [action]) :: rest
    else (id', actions) :: insertAction id action rest

lemma mem_fst_insertAction {id x : P.Hash} {action : CoinAction P}
    {l : List (P.Hash × List (CoinAction P))} :
    x ∈ (insertAction id action l).map Prod.fst ↔ x = id ∨ x ∈ l.map Prod.fst := by
  induction l with
  | nil => simp [insertAction]
  | cons a l ih =>
    obtain ⟨id', actions⟩ := a
    rw [insertAction]
    split
    case isTrue heq =>
      subst heq
      simp
    case isFalse =>
      rw [List.map_cons, List.mem_cons, ih, List.map_cons, List.mem_cons]
      tauto

lemma nodup_insertAction {id : P.Hash} {action : CoinAction P}
    {l : List (P.Hash × List (CoinAction P))} (h : (l.map Prod.fst).Nodup) :
    ((insertAction id action l).map Prod.fst).Nodup := by
  induction l with
  | nil => simp [insertAction]
  | cons a l ih =>
    obtain ⟨id', actions⟩ := a
    rw [List.map_cons, List.nodup_cons] at h
    rw [insertAction]
    split
    case isTrue => exact List.nodup_cons.mpr h
    case isFalse hne =>
      refine List.nodup_cons.mpr ⟨?_, ih h.2⟩
      rw [mem_fst_insertAction, not_or]
      exact ⟨hne, h.1⟩

/-- Append an action. -/
def addAction (u : CoinsViewUpdates P) (id : P.Hash) (action : CoinAction P) :
    CoinsViewUpdates P :=
  ⟨insertAction id action u.actions, nodup_insertAction u.nodup⟩

lemma getActions_addAction (u : CoinsViewUpdates P) (id : P.Hash) (action : CoinAction P)
    (x : P.Hash) :
    (u.addAction id action).getActions x =
      if x = id then u.getActions id ++ [action] else u.getActions x := by
  have hlist : ∀ l : List (P.Hash × List (CoinAction P)), lookup x (insertAction id action l) =
      if x = id then lookup id l ++ [action] else lookup x l := by
    intro l
    induction l with
    | nil =>
      by_cases hx : x = id
      · simp [insertAction, lookup, hx]
      · simp [insertAction, lookup, hx, Ne.symm hx]
    | cons a l ih =>
      obtain ⟨id', actions⟩ := a
      rw [insertAction]
      by_cases hid : id' = id
      · by_cases hx : x = id
        · simp [lookup, hid, hx]
        · simp [lookup, hid, hx, Ne.symm hx]
      · by_cases hx : x = id
        · subst hx
          simp only [if_neg hid, lookup, ih, if_true]
        · simp only [if_neg hid, lookup, ih, if_neg hx]
  exact hlist u.actions

variable [MwCrypto P]

/-- Record that an output was added. -/
def addUTXO (u : CoinsViewUpdates P) (utxo : UTXO P) : CoinsViewUpdates P :=
  u.addAction utxo.getOutputID (some utxo)

omit [MwCrypto P] in
/-- Record that an output was spent. -/
def spendUTXO (u : CoinsViewUpdates P) (id : P.Hash) : CoinsViewUpdates P := u.addAction id none

end CoinsViewUpdates

/-- One action on the coin of an id; adding and spending must alternate. -/
def replayAction {P : Primitives} (coin : Option (UTXO P)) (action : CoinAction P) :
    Except ViewError (Option (UTXO P)) :=
  match coin, action with
  | none, some utxo => .ok (some utxo)
  | some _, none => .ok none
  | _, _ => .error .assertionFailure

/-! ### Views -/

/-- What can be asked of a view. -/
structure ICoinsView (P : Primitives) where
  bestHeader : Option (Header P)
  getUTXO : P.Hash → Except ViewError (Option (UTXO P))
  leafSet : LeafSet
  outputPMMR : IMMR P.Hash P.Hash

/-- A cached view. -/
structure CoinsViewCache (P : Primitives) where
  bestHeader : Option (Header P)
  leafSet : LeafSetCache
  outputPMMR : PMMRCache P.Hash P.Hash
  updates : CoinsViewUpdates P

namespace CoinsViewCache

variable {P : Primitives}

/-- A cache on top of a view. -/
def new (base : ICoinsView P) : CoinsViewCache P :=
  ⟨base.bestHeader, .new base.leafSet, .new base.outputPMMR, .empty⟩

/-- The coin of the base, with the recorded actions replayed on it. -/
def getUTXO (base : ICoinsView P) (c : CoinsViewCache P) (id : P.Hash) :
    Except ViewError (Option (UTXO P)) := do
  let coin ← base.getUTXO id
  (c.updates.getActions id).foldlM replayAction coin

/-- The cache as a view. -/
def toView (base : ICoinsView P) (c : CoinsViewCache P) : ICoinsView P where
  bestHeader := c.bestHeader
  getUTXO := c.getUTXO base
  leafSet := c.leafSet.toLeafSet base.leafSet
  outputPMMR := c.outputPMMR.toIMMR base.outputPMMR

variable [MwCrypto P]

/-- Add an output as the next leaf. -/
def addUTXO (base : ICoinsView P) (c : CoinsViewCache P) (headerHeight : ℤ) (output : Output P) :
    Except ViewError (CoinsViewCache P) := do
  let coin ← c.getUTXO base output.getOutputID
  rejectIf coin.isSome (.validation .duplicates)
  let leafIdx := c.outputPMMR.getNextLeafIdx
  let outputPMMR ← c.outputPMMR.add (outputMmrHasher P) base.outputPMMR output.getOutputID
  pure
    { c with
      outputPMMR := outputPMMR
      leafSet := (LeafSetCache.iface base.leafSet).add c.leafSet leafIdx
      updates := c.updates.addUTXO ⟨headerHeight, leafIdx, output⟩ }

/-- Remove the unspent output with the given id and return it. -/
def spendUTXO (base : ICoinsView P) (c : CoinsViewCache P) (id : P.Hash) :
    Except ViewError (UTXO P × CoinsViewCache P) := do
  let coin ← c.getUTXO base id
  match coin with
  | none => .error (.validation .utxoMissing)
  | some utxo =>
    if (LeafSetCache.iface base.leafSet).contains c.leafSet utxo.leafIndex then
      .ok (utxo,
        { c with
          leafSet := (LeafSetCache.iface base.leafSet).remove c.leafSet utxo.leafIndex
          updates := c.updates.spendUTXO id })
    else .error (.validation .utxoMissing)

/-- Add all outputs of a block. -/
def addOutputs (base : ICoinsView P) (c : CoinsViewCache P) (headerHeight : ℤ)
    (outputs : List (Output P)) : Except ViewError (CoinsViewCache P) :=
  outputs.foldlM (fun c output => c.addUTXO base headerHeight output) c

/-- Spend the outputs with the given ids, collecting what was spent. -/
def spendInputs (base : ICoinsView P) (c : CoinsViewCache P) :
    List P.Hash → Except ViewError (List (UTXO P) × CoinsViewCache P)
  | [] => .ok ([], c)
  | id :: rest => do
    let (utxo, c') ← c.spendUTXO base id
    let (coinsSpent, c'') ← c'.spendInputs base rest
    pure (utxo :: coinsSpent, c'')

/-- The three comparisons of a header with the state of the view. -/
def checkHeader (base : ICoinsView P) (c : CoinsViewCache P) (hdr : Header P) :
    Except ViewError Unit := do
  let root ← (c.toView base).outputPMMR.root (outputMmrHasher P)
  rejectIf (¬ (hdr.outputRoot = root ∧ hdr.numTXOs = c.outputPMMR.getNextLeafIdx ∧
    hdr.leafsetRoot = MwCrypto.leafSetHash (c.toView base).leafSet.toBytes))
    (.validation .mmrMismatch)

/-- Connect an extension block. -/
def applyBlock (base : ICoinsView P) (c : CoinsViewCache P) (b : Block P) :
    Except ViewError (BlockUndo P × CoinsViewCache P) := do
  (validateForBlock b.body b.header.kernelOffset
    ((c.bestHeader.map Header.kernelOffset).getD 0)).mapError ViewError.validation
  let c₁ ← { c with bestHeader := some b.header }.addOutputs base b.header.height b.body.outputs
  let (coinsSpent, c₂) ← c₁.spendInputs base b.body.getSpentIDs
  c₂.checkHeader base b.header
  pure (⟨c.bestHeader, coinsSpent, b.body.getOutputIDs⟩, c₂)

/-- Disconnect the block the undo data belongs to. -/
def undoBlock (base : ICoinsView P) (c : CoinsViewCache P) (undo : BlockUndo P) :
    Except ViewError (CoinsViewCache P) :=
  let updates := undo.coinsAdded.foldl CoinsViewUpdates.spendUTXO
    (undo.coinsSpent.foldl CoinsViewUpdates.addUTXO c.updates)
  match undo.prevHeader with
  | none =>
    .ok
      { bestHeader := none
        leafSet := (LeafSetCache.iface base.leafSet).rewind c.leafSet 0 []
        outputPMMR := c.outputPMMR.rewind 0
        updates := updates }
  | some hdr => do
    let c' : CoinsViewCache P :=
      { bestHeader := some hdr
        leafSet := (LeafSetCache.iface base.leafSet).rewind c.leafSet hdr.numTXOs
          (undo.coinsSpent.map UTXO.leafIndex)
        outputPMMR := c.outputPMMR.rewind hdr.numTXOs
        updates := updates }
    c'.checkHeader base hdr
    pure c'

end CoinsViewCache

end Mw

end Aegisum
