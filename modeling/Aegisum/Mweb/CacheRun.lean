import Aegisum.Mweb.Supply
import Aegisum.Mweb.ViewCacheSim

/-!
# Sequences of blocks in a cache

In a consistent cache `UndoBlock` takes back what `ApplyBlock` did, as far as any question to the
cache goes.  Whatever blocks were connected and disconnected on the way, the cache then gives the
answers of one in which only the blocks that are connected in the end were connected.
-/

namespace Aegisum

namespace Mw

open CoinsView (Connected Built)

variable {P : Primitives} [MwCrypto P]

/-! ### The same answers -/

/-- Two views give the same answers: the best header, the coin of every id, the leaf set with its
next index, and the leaves, nodes and root of the output MMR. -/
structure ICoinsView.SameAnswers (i j : ICoinsView P) : Prop where
  bestHeader : i.bestHeader = j.bestHeader
  getUTXO : ∀ id, i.getUTXO id = j.getUTXO id
  leafSet : i.leafSet = j.leafSet
  nextLeafIdx : i.outputPMMR.nextLeafIdx = j.outputPMMR.nextLeafIdx
  leaf : ∀ idx, idx < i.outputPMMR.nextLeafIdx → i.outputPMMR.getLeaf idx = j.outputPMMR.getLeaf idx
  hash : ∀ pos, pos < i.outputPMMR.getNumNodes → i.outputPMMR.getHash pos = j.outputPMMR.getHash pos
  root : i.outputPMMR.root (outputMmrHasher P) = j.outputPMMR.root (outputMmrHasher P)

/-- Views that answer as the same abstract view give the same answers. -/
lemma ICoinsView.Answers.sameAnswers {i j : ICoinsView P} {v : CoinsView P} (hi : i.Answers v)
    (hj : j.Answers v) : i.SameAnswers j where
  bestHeader := hi.bestHeader.trans hj.bestHeader.symm
  getUTXO id := (hi.getUTXO id).trans (hj.getUTXO id).symm
  leafSet := hi.leafSet.trans hj.leafSet.symm
  nextLeafIdx := hi.outputPMMR.next.trans hj.outputPMMR.next.symm
  leaf idx hidx := by
    rw [hi.outputPMMR.next] at hidx
    have hleaf := List.getElem?_eq_getElem hidx
    rw [hi.outputPMMR.leaf idx _ hleaf, hj.outputPMMR.leaf idx _ hleaf]
  hash pos hpos := by
    rw [IMMR.getNumNodes, hi.outputPMMR.next,
      ← Mmr.length_hashes_ofLeaves (outputMmrHasher P)] at hpos
    have hhash := List.getElem?_eq_getElem hpos
    rw [hi.outputPMMR.hash pos _ hhash, hj.outputPMMR.hash pos _ hhash]
  root := (hi.outputPMMR.root).trans (hj.outputPMMR.root).symm

/-- A view that holds nothing. -/
def ICoinsView.empty : ICoinsView P where
  bestHeader := none
  getUTXO _ := .ok none
  leafSet := .empty
  outputPMMR := ⟨fun _ => .error .outOfRange, fun _ => .error .outOfRange, 0⟩

omit [MwCrypto P] in
lemma ICoinsView.answers_empty [MwCrypto P] : (ICoinsView.empty : ICoinsView P).Answers .empty where
  bestHeader := rfl
  getUTXO _ := rfl
  leafSet := rfl
  outputPMMR :=
    { next := rfl
      hash := fun _ _ h => by cases h
      leaf := fun _ _ h => by cases h }

/-- The view answers as one in which the given blocks were connected one after the other. -/
def ICoinsView.HoldsChain (i : ICoinsView P) (s : Connected P) : Prop :=
  ∃ v, i.Answers v ∧ Built v s

namespace CoinsViewCache

/-! ### Consistent caches -/

/-- The cache stands for a view whose leaf set marks the unspent outputs and whose roots are those
of its best header. -/
def Consistent (base : ICoinsView P) (c : CoinsViewCache P) : Prop :=
  ∃ vb v, base.Answers vb ∧ c.StandsFor vb v ∧ v.Synced

variable {base : ICoinsView P} {c c' : CoinsViewCache P} {b : Block P} {undo : BlockUndo P}

/-- What a successful `ApplyBlock` in a cache does to the view it stands for. -/
lemma StandsFor.applyBlock {vb v : CoinsView P} (hbase : base.Answers vb) (hc : c.StandsFor vb v)
    (hv : v.Consistent) (happly : c.applyBlock base b = .ok (undo, c')) :
    ∃ v', v.applyBlock b = .ok (undo, v') ∧ c'.StandsFor vb v' := by
  obtain ⟨⟨undo', v'⟩, hview, rfl, hc', -⟩ :=
    (inStep_applyBlock hbase ⟨hc, hv⟩ b).exists_of_ok' happly
  exact ⟨v', hview, hc'⟩

/-- Disconnecting the block that was just connected. -/
lemma Consistent.undoBlock (hc : c.Consistent base)
    (happly : c.applyBlock base b = .ok (undo, c')) :
    ∃ c'', c'.undoBlock base undo = .ok c'' ∧ c''.Consistent base ∧
      (c''.toView base).SameAnswers (c.toView base) := by
  obtain ⟨vb, v, hbase, hstands, hv⟩ := hc
  obtain ⟨v', hview, hc'⟩ := hstands.applyBlock hbase hv.consistent happly
  obtain ⟨c'', hundo, hc''⟩ := StandsFor.undoBlock hbase hv hview hc'
  exact ⟨c'', hundo, ⟨vb, v, hbase, hc'', hv⟩,
    (hc''.answers hbase).sameAnswers (hstands.answers hbase)⟩

/-! ### Runs -/

/-- A sequence of blocks connected and disconnected in a new cache on top of a base in which the
blocks `sb` are connected; the last argument lists the blocks that are connected at its end with
their undo data, the newest first. -/
inductive Run (base : ICoinsView P) (sb : Connected P) : CoinsViewCache P → Connected P → Prop
  | new : Run base sb (new base) sb
  | applyBlock {c c' : CoinsViewCache P} {s : Connected P} {b : Block P} {undo : BlockUndo P} :
    Run base sb c s → c.applyBlock base b = .ok (undo, c') → Run base sb c' ((b, undo) :: s)
  | undoBlock {c c' : CoinsViewCache P} {s : Connected P} {b : Block P} {undo : BlockUndo P} :
    Run base sb c ((b, undo) :: s) → c.undoBlock base undo = .ok c' → Run base sb c' s

variable {sb s : Connected P} {vb : CoinsView P}

/-- A cache stands for the view in which the blocks connected at the end of a run were connected
one after the other. -/
lemma Run.standsFor (hrun : Run base sb c s) (hbase : base.Answers vb)
    (hbuilt : Built vb sb) : ∃ v, c.StandsFor vb v ∧ Built v s := by
  induction hrun with
  | new => exact ⟨vb, standsFor_new hbase, hbuilt⟩
  | applyBlock _ happly ih =>
    obtain ⟨v, hc, hv⟩ := ih
    obtain ⟨v', hview, hc'⟩ := hc.applyBlock hbase hv.synced.consistent happly
    exact ⟨v', hc', .applyBlock hv hview⟩
  | undoBlock _ hundo ih =>
    obtain ⟨v', hc', hv'⟩ := ih
    cases hv' with
    | applyBlock hv hview =>
      obtain ⟨c'', hundo', hc''⟩ := StandsFor.undoBlock hbase hv.synced hview hc'
      rw [hundo] at hundo'
      obtain rfl := Except.ok.inj hundo'
      exact ⟨_, hc'', hv⟩

/-- Connect blocks one after the other. -/
def applyBlocks (base : ICoinsView P) (c : CoinsViewCache P) (blocks : List (Block P)) :
    Except ViewError (CoinsViewCache P) :=
  blocks.foldlM (fun c b => Prod.snd <$> c.applyBlock base b) c

/-- Connecting the blocks of a view that was built from them gives a cache that stands for it. -/
lemma exists_applyBlocks {v : CoinsView P} (hbase : base.Answers .empty) (hbuilt : Built v s) :
    ∃ c, applyBlocks base (new base) (s.map Prod.fst).reverse = .ok c ∧
      c.StandsFor .empty v := by
  induction hbuilt with
  | empty => exact ⟨new base, rfl, standsFor_new hbase⟩
  | @applyBlock v v' s b undo hv hview ih =>
    obtain ⟨c, hblocks, hc⟩ := ih
    obtain ⟨⟨undo', c'⟩, happly, -, hc', -⟩ :=
      (inStep_applyBlock hbase ⟨hc, hv.synced.consistent⟩ b).exists_of_ok hview
    refine ⟨c', ?_, hc'⟩
    rw [List.map_cons, List.reverse_cons]
    refine foldlM_append_eq_ok.mpr ⟨c, hblocks, ?_⟩
    simp [happly]

/-- In a consistent cache, `UndoBlock` with the data that `ApplyBlock` returned succeeds and gives
back all answers of the cache before.  In every sequence of the two on top of a base that holds a
chain, disconnecting the last block succeeds, and the cache gives the answers of a new cache on
top of an empty base in which the blocks that are left were connected one after the other. -/
theorem undoBlock_inverts_applyBlock (base : ICoinsView P) :
    (∀ (c c' : CoinsViewCache P) (b : Block P) (undo : BlockUndo P), c.Consistent base →
      c.applyBlock base b = .ok (undo, c') →
      ∃ c'', c'.undoBlock base undo = .ok c'' ∧ c''.Consistent base ∧
        (c''.toView base).SameAnswers (c.toView base)) ∧
    ∀ (sb s : Connected P) (c : CoinsViewCache P), base.HoldsChain sb → Run base sb c s →
      (∀ b undo rest, s = (b, undo) :: rest → ∃ c', c.undoBlock base undo = .ok c') ∧
      ∀ base₀ : ICoinsView P, base₀.Answers .empty →
        ∃ c₀, applyBlocks base₀ (new base₀) (s.map Prod.fst).reverse = .ok c₀ ∧
          (c₀.toView base₀).SameAnswers (c.toView base) := by
  refine ⟨fun c c' b undo hc happly => hc.undoBlock happly, ?_⟩
  rintro sb s c ⟨vb, hbase, hbuilt⟩ hrun
  obtain ⟨v, hc, hv⟩ := hrun.standsFor hbase hbuilt
  constructor
  · rintro b undo rest rfl
    cases hv with
    | applyBlock hv₀ hview =>
      obtain ⟨c', hundo, -⟩ := StandsFor.undoBlock hbase hv₀.synced hview hc
      exact ⟨c', hundo⟩
  · intro base₀ hbase₀
    obtain ⟨c₀, hblocks, hc₀⟩ := exists_applyBlocks hbase₀ hv
    exact ⟨c₀, hblocks, (hc₀.answers hbase₀).sameAnswers (hc.answers hbase)⟩

section Example

open Symbolic

/-- A cache on top of an empty view. -/
def emptyCache : CoinsViewCache sym := new ICoinsView.empty

/-- The result of connecting the minting block in the cache. -/
def cacheAfterMint : BlockUndo sym × CoinsViewCache sym :=
  (emptyCache.applyBlock .empty CoinsView.mint).toOption.get (by decide +kernel)

lemma applyBlock_mint :
    emptyCache.applyBlock .empty CoinsView.mint = .ok (cacheAfterMint.1, cacheAfterMint.2) :=
  eq_ok_toOption_get (by decide +kernel)

lemma run_mint : Run .empty [] cacheAfterMint.2 [(CoinsView.mint, cacheAfterMint.1)] :=
  .applyBlock .new applyBlock_mint

/-- The cache in which the minting block was connected, as a base. -/
def mintedBase : ICoinsView sym := cacheAfterMint.2.toView .empty

/-- The base holds the chain of that block. -/
lemma exists_mintedBase :
    ∃ v, mintedBase.Answers v ∧ Built v [(CoinsView.mint, cacheAfterMint.1)] := by
  obtain ⟨v, hc, hv⟩ := run_mint.standsFor ICoinsView.answers_empty .empty
  exact ⟨v, hc.answers ICoinsView.answers_empty, hv⟩

lemma isSome_applyBlock_spendMint :
    ((new mintedBase).applyBlock mintedBase CoinsView.spendMint).toOption.isSome = true := by
  decide +kernel

/-- On a base that holds the minting block, the block that spends its output is connected and
disconnected.  The cache then gives the answers of a new one and of one in which the minting block
was connected, and the minting block can be disconnected too. -/
theorem undoBlock_inverts_applyBlock_spendMint :
    ∃ undo c' c, (new mintedBase).applyBlock mintedBase CoinsView.spendMint = .ok (undo, c') ∧
      c'.undoBlock mintedBase undo = .ok c ∧
      (c.toView mintedBase).SameAnswers ((new mintedBase).toView mintedBase) ∧
      (∃ c₁, c.undoBlock mintedBase cacheAfterMint.1 = .ok c₁) ∧
      ∃ c₀, applyBlocks .empty emptyCache [CoinsView.mint] = .ok c₀ ∧
        (c₀.toView .empty).SameAnswers (c.toView mintedBase) := by
  obtain ⟨v, hbase, hbuilt⟩ := exists_mintedBase
  obtain ⟨hinverse, hruns⟩ := undoBlock_inverts_applyBlock mintedBase
  have happly := eq_ok_toOption_get isSome_applyBlock_spendMint
  obtain ⟨c, hundo, -, hsame⟩ :=
    hinverse _ _ _ _ ⟨v, v, hbase, standsFor_new hbase, hbuilt.synced⟩ happly
  obtain ⟨hlast, hscratch⟩ :=
    hruns _ _ c ⟨v, hbase, hbuilt⟩ (.undoBlock (.applyBlock .new happly) hundo)
  exact ⟨_, _, c, happly, hundo, hsame, hlast _ _ _ rfl, hscratch .empty ICoinsView.answers_empty⟩

end Example

end CoinsViewCache

end Mw

end Aegisum
