import Mathlib.Data.List.Sort
import Aegisum.Mweb.CoinsView

/-!
# Building extension blocks

`Aggregation::Aggregate` merges transactions into one, and `CoinsViewCache::BuildNextBlock`
turns the result into a block on top of a view: it applies the outputs and inputs to the view
and writes the resulting roots and sizes into the header.  `BlockBuilder` collects the
transactions for the next block.
-/

namespace Aegisum

namespace Mw

variable {P : Primitives} [MwCrypto P]

/-- What aggregation produces: offsets and a body, which may be empty. -/
structure Aggregate (P : Primitives) where
  kernelOffset : P.Scalar
  stealthOffset : P.Scalar
  body : TxBody P
deriving DecidableEq

/-- Sort a list by a strict order. -/
def sortBy {α : Type} (less : α → α → Bool) (l : List α) : List α :=
  l.insertionSort fun a b => less b a = false

/-- Merge transactions: components are collected and sorted, offsets are added.  A single
transaction is returned as it is. -/
def aggregate : List (Transaction P) → Aggregate P
  | [] => ⟨0, 0, ⟨[], [], []⟩⟩
  | [tx] => ⟨tx.kernelOffset, tx.stealthOffset, tx.body⟩
  | txs =>
    { kernelOffset := (txs.map Transaction.kernelOffset).sum
      stealthOffset := (txs.map Transaction.stealthOffset).sum
      body :=
        { inputs := sortBy inputSort (txs.flatMap (·.body.inputs))
          outputs := sortBy outputSort (txs.flatMap (·.body.outputs))
          kernels := sortBy kernelSort (txs.flatMap (·.body.kernels)) } }

/-- The next block on top of a view that holds the given transactions. -/
def CoinsView.buildNextBlock (v : CoinsView P) (height : ℤ) (transactions : List (Transaction P)) :
    Except MwError (Block P) := do
  let tx := aggregate transactions
  let v₁ ← v.addOutputs height tx.body.outputs
  let (_, v₂) ← v₁.spendInputs tx.body.getSpentIDs
  pure
    { header :=
        { height := height
          outputRoot := v₂.outputPMMR.root (outputMmrHasher P)
          kernelRoot := (kernelMmr tx.body.kernels).root (kernelMmrHasher P)
          leafsetRoot := MwCrypto.leafSetHash v₂.leafSet.toBytes
          kernelOffset := v.kernelOffset + tx.kernelOffset
          stealthOffset := tx.stealthOffset
          numTXOs := v₂.outputPMMR.getNumLeaves
          numKernels := tx.body.kernels.length }
      body := tx.body }

/-! ### The block builder -/

/-- The transactions collected for the next block on top of a view. -/
structure BlockBuilder (P : Primitives) where
  height : ℤ
  coinsView : CoinsView P
  stagedTxs : List (Transaction P)
  stagedOutputs : List P.Hash
  weight : ℕ

namespace BlockBuilder

/-- The tests of `AddTransaction`, in its order.  The result of `Transaction::Validate` is only
logged, so that it is not one of them. -/
def accepts (builder : BlockBuilder P) (tx : Transaction P) (pegins : List (PegInCoin P)) : Bool :=
  tx.body.calculateWeight + builder.weight ≤ TxBody.maxBlockWeight &&
  tx.body.getPegInAmount.toUInt64 = pegins.foldl (fun sum pegin => sum + pegin.amount.toUInt64) 0 &&
  (pegins.map PegInCoin.kernelID).Nodup &&
  tx.body.getPegIns.length = pegins.length &&
  tx.body.getPegIns.all (fun pegin => pegin.kernelID ∈ pegins.map PegInCoin.kernelID) &&
  tx.body.inputs.all (fun input => (builder.coinsView.getUTXO input.outputID).isSome ||
    input.outputID ∈ builder.stagedOutputs) &&
  tx.body.outputs.all (fun output => !(builder.coinsView.getUTXO output.getOutputID).isSome &&
    output.getOutputID ∉ builder.stagedOutputs)

/-- The builder with one more transaction. -/
def stage (builder : BlockBuilder P) (tx : Transaction P) : BlockBuilder P :=
  { builder with
    stagedTxs := builder.stagedTxs ++ [tx]
    stagedOutputs := builder.stagedOutputs ++ tx.body.getOutputIDs
    weight := builder.weight + tx.body.calculateWeight }

/-- The block with the collected transactions. -/
def buildBlock (builder : BlockBuilder P) : Except MwError (Block P) :=
  builder.coinsView.buildNextBlock builder.height builder.stagedTxs

end BlockBuilder

end Mw

end Aegisum
