import Aegisum.Node.UndoRestore

/-!
# Coins in the database

`Coin::Serialize` and `Coin::Unserialize`.  The height, the coinbase flag and the pegout flag share
one number of 32 bits: the pegout flag is its highest bit, the coinbase flag its lowest one.  In
contrast to the undo data the pegout flag is stored, at the price of a bit of the height.
-/

namespace Aegisum

variable {P : Primitives}

/-- The height with the two flags. -/
def Coin.code (coin : Coin P) : ℕ :=
  (coin.nHeight.toNat * 2 + coin.fCoinBase.toNat + (if coin.fPegout then 2 ^ 31 else 0)) % 2 ^ 32

section Format

variable [HashBytes P] (keys : PubKeyOps)

/-- `Coin::Serialize`, with its assertion. -/
def putCoin (coin : Coin P) : Option (List UInt8) :=
  if coin.isSpent then none else some (Get.putVarInt 32 coin.code ++ putTxOut keys coin.out)

/-- `Coin::Unserialize`. -/
def getCoin : Get (Coin P) := do
  let code ← Get.getVarInt 32
  let out ← getTxOut keys
  pure ⟨out, ((code &&& (2 ^ 31 - 1)) >>> 1 : ℕ), code &&& 1 = 1, code >>> 31 ≠ 0⟩

end Format

/-- The number holds the height and both flags if the height has at most 30 bits. -/
lemma Coin.code_spec {coin : Coin P} (hpos : 0 ≤ coin.nHeight) (hlt : coin.nHeight < 2 ^ 30) :
    coin.code < 2 ^ 32 ∧ ((coin.code &&& (2 ^ 31 - 1)) >>> 1 : ℕ) = coin.nHeight ∧
      decide (coin.code &&& 1 = 1) = coin.fCoinBase ∧
      decide (coin.code >>> 31 ≠ 0) = coin.fPegout := by
  obtain ⟨out, height, coinBase, pegout⟩ := coin
  dsimp only at hpos hlt
  obtain ⟨n, rfl⟩ := Int.eq_ofNat_of_zero_le hpos
  have hn : n < 2 ^ 30 := by omega
  have hbit : coinBase.toNat < 2 := Bool.toNat_lt coinBase
  rw [Nat.and_two_pow_sub_one_eq_mod, Nat.and_one_is_mod, Nat.shiftRight_eq_div_pow,
    Nat.shiftRight_eq_div_pow]
  simp only [code, Int.toNat_natCast]
  cases pegout <;> cases coinBase <;> simp <;> omega

/-- A coin whose height has at most 30 bits, whose value is in the money range and whose script can
be spent is written, and read back from the bytes it was written to, whatever follows them. -/
theorem getCoin_putCoin [HashBytes P] (keys : PubKeyOps) {coin : Coin P} (hpos : 0 ≤ coin.nHeight)
    (hlt : coin.nHeight < 2 ^ 30) (hvalue : MoneyRange coin.out.nValue)
    (hspendable : coin.out.scriptPubKey.isUnspendable = false) :
    ∃ bytes, putCoin keys coin = some bytes ∧ Get.Reads (getCoin keys) bytes coin := by
  have hunspent : coin.isSpent = false := by
    rw [Coin.isSpent, beq_eq_false_iff_ne]
    intro hnull
    rw [hnull] at hvalue
    exact absurd hvalue (by decide)
  obtain ⟨hcode, hheight, hcoinBase, hpegout⟩ := Coin.code_spec hpos hlt
  refine ⟨Get.putVarInt 32 coin.code ++ putTxOut keys coin.out, by rw [putCoin, hunspent]; rfl, ?_⟩
  refine (Get.reads_getVarInt (by decide) hcode).bind _ ?_
  have hout : Get.Reads (getTxOut keys) (putTxOut keys coin.out) coin.out :=
    reads_getTxOut hvalue hspendable
  rw [hheight, hcoinBase, hpegout]
  exact hout.map fun out => (⟨out, coin.nHeight, coin.fCoinBase, coin.fPegout⟩ : Coin P)

namespace Symbolic

/-- A pegged-out coin at a height of 30 bits. -/
def highPegout : Coin octets := ⟨plainOut 5000, 2 ^ 30 - 1, false, true⟩

theorem getCoin_putCoin_highPegout :
    ∃ bytes, putCoin noKeys highPegout = some bytes ∧ Get.Reads (getCoin noKeys) bytes highPegout :=
  getCoin_putCoin noKeys (by decide) (by decide) (by decide) (by decide)

end Symbolic

end Aegisum
