import Aegisum.Foundations.Canonical

/-!
# Variable-length integers

`WriteVarInt` and `ReadVarInt` of the serialization, for unsigned integers and for signed integers
that are not negative.  Reading is the inverse of writing: it returns the number that was written,
accepts nothing but what is written for some number, and refuses digits that stand for a number
outside the type instead of wrapping around.
-/

namespace Aegisum

/-- What integers are written: unsigned ones, or signed ones that are not negative. -/
inductive VarIntMode
  | default
  | nonnegativeSigned
deriving DecidableEq

/-- `std::numeric_limits<I>::max()` for an integer type of the given number of bits. -/
def VarIntMode.max : VarIntMode → ℕ → ℕ
  | .default, bits => 2 ^ bits - 1
  | .nonnegativeSigned, bits => 2 ^ (bits - 1) - 1

/-- Write a number of an integer type of the given number of bits. -/
def writeVarInt (bits n : ℕ) : List UInt8 := Get.putVarInt bits n

/-- Read a number of an integer type of the given number of bits. -/
def readVarInt (mode : VarIntMode) (bits : ℕ) : Get ℕ := Get.getVarIntLoop (mode.max bits) 0

/-- The bits of an integer type that a number which is not negative can have. -/
lemma VarIntMode.exists_max_eq (mode : VarIntMode) {bits : ℕ} (hbits : 8 ≤ bits) :
    ∃ e, 7 ≤ e ∧ e ≤ bits ∧ mode.max bits = 2 ^ e - 1 := by
  cases mode with
  | default => exact ⟨bits, by omega, le_rfl, rfl⟩
  | nonnegativeSigned => exact ⟨bits - 1, by omega, by omega, rfl⟩

/-- Every number of the type is read back from the bytes written for it, whatever follows them.
The bytes that are read are those written for the result.  Digits are read as the number they
stand for if it belongs to the type, and are refused otherwise. -/
theorem varInt_bijective (mode : VarIntMode) {bits : ℕ} (hbits : 8 ≤ bits) :
    (∀ n ≤ mode.max bits, ∀ rest, readVarInt mode bits (writeVarInt bits n ++ rest) =
      some (n, rest)) ∧
    (∀ input n rest, readVarInt mode bits input = some (n, rest) →
      n ≤ mode.max bits ∧ input = writeVarInt bits n ++ rest) ∧
    ∀ digits last rest, (∀ digit ∈ digits, 128 ≤ digit.toNat) → last.toNat < 128 →
      readVarInt mode bits (digits ++ last :: rest) =
        if Get.varIntValue digits last ≤ mode.max bits then
          some (Get.varIntValue digits last, rest)
        else none := by
  obtain ⟨e, he, hle, hmax⟩ := mode.exists_max_eq hbits
  have hcanonical := Get.canonical_putVarInt he hle
  rw [readVarInt, hmax]
  refine ⟨hcanonical.reads, fun input n rest => hcanonical.sound, ?_⟩
  intro digits last rest hmarked hlast
  have hread := Get.getVarIntLoop_digits (n := 0) (Get.two_pow_sub_one_mod he) hmarked hlast rest
  rwa [Nat.zero_mul, Nat.zero_add] at hread

/-- The largest unsigned 64-bit number and the largest signed 32-bit one. -/
theorem varInt_bijective_max :
    readVarInt .default 64 (writeVarInt 64 (2 ^ 64 - 1) ++ []) = some (2 ^ 64 - 1, []) ∧
    readVarInt .nonnegativeSigned 32 (writeVarInt 32 (2 ^ 31 - 1) ++ []) =
      some (2 ^ 31 - 1, []) :=
  ⟨(varInt_bijective .default (by decide)).1 _ (by decide) [],
    (varInt_bijective .nonnegativeSigned (by decide)).1 _ (by decide) []⟩

end Aegisum
