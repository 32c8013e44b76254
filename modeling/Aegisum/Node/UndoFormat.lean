import Aegisum.Node.Compressor
import Aegisum.Node.ConnectBlock

/-!
# Undo data on disk

`TxInUndoFormatter`, `CTxUndo` and `CBlockUndo`.  What is stored of a spent coin is its output, its
height and the coinbase flag.  The pegout flag is not stored, and a coin that is read has it unset.
-/

namespace Aegisum

variable {P : Primitives}

/-- What holds of every coin that the chain has created: it can be spent, its value is in the money
range, and its height is a height above the genesis block that fits the field. -/
structure Coin.WellFormed (coin : Coin P) : Prop where
  value : MoneyRange coin.out.nValue
  spendable : coin.out.scriptPubKey.isUnspendable = false
  height_pos : 0 < coin.nHeight
  height_lt : coin.nHeight < 2 ^ 31

/-- The coin with the pegout flag unset. -/
def Coin.withoutPegout (coin : Coin P) : Coin P := { coin with fPegout := false }

lemma Coin.withoutPegout_eq_iff {coin : Coin P} :
    coin.withoutPegout = coin ↔ coin.fPegout = false := by
  cases coin
  simp [Coin.withoutPegout, eq_comm]

/-- The format of the undo data of an extension block. -/
structure MwUndoFormat (P : Primitives) where
  put : Mw.BlockUndo P → List UInt8
  get : Get (Mw.BlockUndo P)

/-- The undo data of an extension block take at least a byte and are read back. -/
def MwUndoFormat.Keeps (mw : MwUndoFormat P) (undo : Mw.BlockUndo P) : Prop :=
  mw.put undo ≠ [] ∧ Get.Reads mw.get (mw.put undo) undo

/-- `MAX_SIZE`: more elements are not read. -/
def maxSize : ℕ := 0x02000000

lemma maxSize_lt : maxSize < 2 ^ 64 := by decide

section Format

variable [HashBytes P] (keys : PubKeyOps) (mw : MwUndoFormat P)

/-- `TxInUndoFormatter::Ser`. -/
def putTxInUndo (coin : Coin P) : List UInt8 :=
  Get.putVarInt 32 ((coin.nHeight.toNat * 2 + coin.fCoinBase.toNat) % 2 ^ 32) ++
    ((if 0 < coin.nHeight then [0] else []) ++ putTxOut keys coin.out)

/-- The dummy version number after a height. -/
def getVersionDummy (nHeight : ℕ) : Get ℕ := if 0 < nHeight then Get.getVarInt 32 else pure 0

/-- `TxInUndoFormatter::Unser`, into a new coin. -/
def getTxInUndo : Get (Coin P) := do
  let nCode ← Get.getVarInt 32
  let _ ← getVersionDummy (nCode / 2)
  let out ← getTxOut keys
  pure ⟨out, (nCode / 2 : ℕ), nCode % 2 = 1, false⟩

/-- The undo data as they are written. -/
def putBlockUndo (undo : CBlockUndo P) : List UInt8 :=
  Get.putVector (Get.putVector (putTxInUndo keys)) undo.vtxundo ++ undo.mwundo.elim [] mw.put

/-- If there are more bytes than the coins take, the undo data of the extension block follow. -/
def getMwUndo (numBytes : ℕ) (vtxundo : List (List (Coin P))) : Get (CBlockUndo P) :=
  if (putBlockUndo keys mw ⟨vtxundo, none⟩).length < numBytes then do
    let mwundo ← mw.get
    pure ⟨vtxundo, some mwundo⟩
  else pure ⟨vtxundo, none⟩

/-- `UnserializeBlockUndo`. -/
def getBlockUndo (numBytes : ℕ) : Get (CBlockUndo P) := do
  let vtxundo ← Get.vector maxSize (Get.vector maxSize (getTxInUndo keys))
  getMwUndo keys mw numBytes vtxundo

/-- `UndoReadFromDisk` after `UndoWriteToDisk`: the data are written and read back, with the number
of bytes known from the index header. -/
def undoThroughDisk (undo : CBlockUndo P) : Option (CBlockUndo P) :=
  (getBlockUndo keys mw (putBlockUndo keys mw undo).length (putBlockUndo keys mw undo)).map Prod.fst

end Format

/-! ### What is read back -/

variable [HashBytes P] {keys : PubKeyOps} {mw : MwUndoFormat P}

/-- A coin is read back without its pegout flag. -/
lemma reads_getTxInUndo {coin : Coin P} (h : coin.WellFormed) :
    Get.Reads (getTxInUndo keys) (putTxInUndo keys coin) coin.withoutPegout := by
  obtain ⟨hvalue, hspendable, hpos, hlt⟩ := h
  obtain ⟨out, height, coinBase, pegout⟩ := coin
  dsimp only at hvalue hspendable hpos hlt
  obtain ⟨n, rfl⟩ := Int.eq_ofNat_of_zero_le hpos.le
  have hn : 0 < n ∧ n < 2 ^ 31 := by omega
  have hbit : coinBase.toNat < 2 := Bool.toNat_lt coinBase
  have hcode : n * 2 + coinBase.toNat < 2 ^ 32 := by omega
  have hheight : (n * 2 + coinBase.toNat) / 2 = n := by omega
  have hflag : decide ((n * 2 + coinBase.toNat) % 2 = 1) = coinBase := by
    cases coinBase <;> simp
  have hdummy : Get.Reads (getVersionDummy n) [0] 0 := by
    rw [getVersionDummy, if_pos hn.1]
    exact Get.reads_getVarInt_byte (by decide) (by decide)
  have hout : Get.Reads (getTxOut keys) (putTxOut keys out) out := reads_getTxOut hvalue hspendable
  have hput : putTxInUndo keys (⟨out, n, coinBase, pegout⟩ : Coin P) =
      Get.putVarInt 32 (n * 2 + coinBase.toNat) ++ ([0] ++ putTxOut keys out) := by
    rw [putTxInUndo]
    simp only [Int.toNat_natCast]
    rw [Nat.mod_eq_of_lt hcode, if_pos hpos]
  rw [hput]
  refine (Get.reads_getVarInt (by decide) hcode).bind _ ?_
  rw [hheight, hflag]
  exact hdummy.bind _ (hout.map fun out => (⟨out, n, coinBase, false⟩ : Coin P))

/-- The pegout flag is not written. -/
lemma putTxInUndo_withoutPegout (coin : Coin P) :
    putTxInUndo keys coin.withoutPegout = putTxInUndo keys coin := rfl

lemma putVector_map {α β : Type} {put : α → List UInt8} {put' : β → List UInt8} {f : β → α}
    {l : List β} (h : ∀ b ∈ l, put (f b) = put' b) :
    Get.putVector put (l.map f) = Get.putVector put' l := by
  rw [Get.putVector, Get.putVector, List.length_map, List.flatMap_map]
  exact congrArg _ (List.flatMap_congr h)

/-- The undo data of a block are read back with all pegout flags unset. -/
lemma undoThroughDisk_eq {undo : CBlockUndo P}
    (hcoins : ∀ vprevout ∈ undo.vtxundo, ∀ coin ∈ vprevout, coin.WellFormed)
    (hlength : undo.vtxundo.length ≤ maxSize)
    (hlengths : ∀ vprevout ∈ undo.vtxundo, vprevout.length ≤ maxSize)
    (hmw : ∀ mwundo, undo.mwundo = some mwundo → mw.Keeps mwundo) :
    undoThroughDisk keys mw undo =
      some ⟨undo.vtxundo.map (List.map Coin.withoutPegout), undo.mwundo⟩ := by
  obtain ⟨vtxundo, mwundo⟩ := undo
  have hread : Get.Reads (Get.vector maxSize (Get.vector maxSize (getTxInUndo keys)))
      (Get.putVector (Get.putVector (putTxInUndo keys)) vtxundo)
      (vtxundo.map (List.map Coin.withoutPegout)) :=
    Get.reads_vector hlength maxSize_lt fun vprevout hmem =>
      Get.reads_vector (hlengths vprevout hmem) maxSize_lt fun coin hcoin =>
        reads_getTxInUndo (hcoins vprevout hmem coin hcoin)
  -- the data that were read take as many bytes as the data that were written
  have hagain : putBlockUndo keys mw ⟨vtxundo.map (List.map Coin.withoutPegout), none⟩ =
      putBlockUndo keys mw ⟨vtxundo, none⟩ := by
    rw [putBlockUndo, putBlockUndo, putVector_map fun vprevout _ => putVector_map fun coin _ =>
      putTxInUndo_withoutPegout coin]
  have hnum : (putBlockUndo keys mw ⟨vtxundo, mwundo⟩).length =
      (putBlockUndo keys mw (⟨vtxundo, none⟩ : CBlockUndo P)).length +
        (mwundo.elim [] mw.put).length := by
    rw [putBlockUndo, putBlockUndo]
    simp
  have hmwread : Get.Reads (getMwUndo keys mw (putBlockUndo keys mw ⟨vtxundo, mwundo⟩).length
      (vtxundo.map (List.map Coin.withoutPegout))) (mwundo.elim [] mw.put)
        ⟨vtxundo.map (List.map Coin.withoutPegout), mwundo⟩ := by
    rw [getMwUndo, hagain, hnum]
    cases mwundo with
    | none =>
      rw [if_neg (by simp)]
      exact Get.reads_pure _
    | some mwundo =>
      obtain ⟨hne, hkept⟩ := hmw mwundo rfl
      have hpos : 0 < (mw.put mwundo).length := List.length_pos_iff.mpr hne
      rw [if_pos (by simpa using hpos)]
      exact hkept.map fun mwundo => (⟨_, some mwundo⟩ : CBlockUndo P)
  have hfinal := hread.bind (getMwUndo keys mw (putBlockUndo keys mw ⟨vtxundo, mwundo⟩).length)
    hmwread []
  rw [List.append_nil] at hfinal
  change Option.map Prod.fst (getBlockUndo keys mw _ (putBlockUndo keys mw ⟨vtxundo, mwundo⟩)) = _
  rw [show getBlockUndo keys mw _ (putBlockUndo keys mw ⟨vtxundo, mwundo⟩) = _ from hfinal]
  rfl

end Aegisum
