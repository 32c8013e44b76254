import Aegisum.Model.Primitives

/-!
# Scripts

Output scripts as the consensus code reads them.  Three forms carry a digest that other
checks compare: the peg-in script (witness version 9 with a kernel id), the HogAddr script
(witness version 8 with an extension block hash) and the witness commitment of a coinbase.
Every other script is kept as its bytes.
-/

namespace Aegisum

/-- `OP_RETURN`. -/
def opReturn : UInt8 := 0x6a

/-- Scripts longer than this can never be spent. -/
def maxScriptSize : Nat := 10000

/-- The bytes have the shape of a peg-in, a HogAddr or a witness commitment script. -/
def isTemplate (bs : List UInt8) : Bool :=
  (bs.length == 34 && (bs.take 2 == [0x59, 0x20] || bs.take 2 == [0x58, 0x20])) ||
    (38 ≤ bs.length && bs.take 6 == [opReturn, 0x24, 0xaa, 0x21, 0xa9, 0xed])

/-- A script of none of the three special forms. -/
@[ext] structure RawScript where
  bytes : List UInt8
  plain : isTemplate bytes = false
deriving DecidableEq

/-- A script. -/
inductive CScript (P : Primitives)
  /-- `OP_9 <kernel id>`. -/
  | mwebPegin (kernelId : P.Hash)
  /-- `OP_8 <extension block header hash>`. -/
  | mwebHogAddr (headerHash : P.Hash)
  /-- `OP_RETURN 0x24 aa21a9ed <commitment>`, followed by further bytes. -/
  | witnessCommitment (commitment : P.Hash) (rest : List UInt8)
  /-- Any other script. -/
  | raw (script : RawScript)
deriving DecidableEq

namespace CScript

variable {P : Primitives}

/-- The number of bytes of a script. -/
def size : CScript P → Nat
  | mwebPegin _ => 34
  | mwebHogAddr _ => 34
  | witnessCommitment _ rest => 38 + rest.length
  | raw s => s.bytes.length

/-- The kernel id of a peg-in script. -/
def isMWEBPegin : CScript P → Option P.Hash
  | mwebPegin kernelId => some kernelId
  | _ => none

/-- The extension block hash of a HogAddr script. -/
def isMWEBHogAddr : CScript P → Option P.Hash
  | mwebHogAddr headerHash => some headerHash
  | _ => none

/-- A script that can never be satisfied. -/
def isUnspendable : CScript P → Bool
  | mwebPegin _ => false
  | mwebHogAddr _ => false
  | witnessCommitment _ _ => true
  | raw s => s.bytes.head? == some opReturn || maxScriptSize < s.bytes.length

@[simp] lemma isMWEBHogAddr_eq_some {s : CScript P} {h : P.Hash} :
    s.isMWEBHogAddr = some h ↔ s = mwebHogAddr h := by
  cases s <;> simp [isMWEBHogAddr]

end CScript

end Aegisum
