import Mathlib.Algebra.Module.Basic
import Mathlib.Algebra.BigOperators.Group.List.Basic

/-!
# Cryptographic primitives

The carriers the node computes with: digests, scalars and curve points.  Digests are
compared for equality and by byte order; scalars and points form a module, so that a
Pedersen commitment to the value `v` with blinding factor `r` is `v • H + r • G`.
Signatures and range proofs are byte strings.
-/

namespace Aegisum

/-- The digest, scalar and point types together with the two generators. -/
structure Primitives where
  /-- 32-byte digests (`uint256`, `mw::Hash`). -/
  Hash : Type
  /-- Blinding factors and secret keys. -/
  Scalar : Type
  /-- Commitments and public keys. -/
  Point : Type
  decEqHash : DecidableEq Hash
  /-- The byte order on digests. -/
  hashLt : Hash → Hash → Bool
  /-- The digest with all bytes zero. -/
  zeroHash : Hash
  decEqScalar : DecidableEq Scalar
  commRingScalar : CommRing Scalar
  decEqPoint : DecidableEq Point
  addCommGroupPoint : AddCommGroup Point
  modulePoint : Module Scalar Point
  /-- The generator of blinding factors. -/
  genG : Point
  /-- The generator of values. -/
  genH : Point
  /-- The scalar a digest is read as. -/
  hashToScalar : Hash → Scalar

namespace Primitives

instance (P : Primitives) : DecidableEq P.Hash := P.decEqHash

instance (P : Primitives) : LawfulBEq P.Hash := instLawfulBEq

instance (P : Primitives) : DecidableEq P.Scalar := P.decEqScalar

instance (P : Primitives) : CommRing P.Scalar := P.commRingScalar

instance (P : Primitives) : DecidableEq P.Point := P.decEqPoint

instance (P : Primitives) : AddCommGroup P.Point := P.addCommGroupPoint

instance (P : Primitives) : Module P.Scalar P.Point := P.modulePoint

end Primitives

/-- The bytes of a Schnorr signature. -/
abbrev Signature := List UInt8

/-- The bytes of a range proof. -/
abbrev RangeProof := List UInt8

variable {P : Primitives}

/-! ### Pedersen commitments -/

/-- The commitment to the value `v` with blinding factor zero. -/
def commitTransparent (P : Primitives) (v : ℤ) : P.Point := v • P.genH

/-- The commitment to the value `v` with blinding factor `r`. -/
def commitBlinded (r : P.Scalar) (v : ℤ) : P.Point := v • P.genH + r • P.genG

/-- Addition of commitments, the second list counted negatively.  Commitments whose bytes
are all zero are skipped; a sum that is the point at infinity cannot be encoded and throws. -/
def addCommitments (positive negative : List P.Point) : Option P.Point :=
  if positive.filter (· ≠ 0) = [] ∧ negative.filter (· ≠ 0) = [] then some 0
  else if (positive.filter (· ≠ 0)).sum - (negative.filter (· ≠ 0)).sum = 0 then none
  else some ((positive.filter (· ≠ 0)).sum - (negative.filter (· ≠ 0)).sum)

lemma sum_filter_ne_zero (l : List P.Point) : (l.filter (· ≠ 0)).sum = l.sum := by
  induction l with
  | nil => rfl
  | cons a l ih =>
    by_cases h : a = 0
    · simpa [h] using ih
    · simpa [h] using ih

/-- The code adds commitments, unless they are not all zero and their sum vanishes. -/
lemma addCommitments_eq_some_iff {positive negative : List P.Point} {c : P.Point} :
    addCommitments positive negative = some c ↔
      (positive.sum = negative.sum → ∀ p ∈ positive ++ negative, p = 0) ∧
        c = positive.sum - negative.sum := by
  have hnil : (positive.filter (· ≠ 0) = [] ∧ negative.filter (· ≠ 0) = []) ↔
      ∀ p ∈ positive ++ negative, p = 0 := by
    simp [List.filter_eq_nil_iff, or_imp, forall_and]
  rw [addCommitments, sum_filter_ne_zero, sum_filter_ne_zero]
  simp only [hnil]
  split
  case isTrue hzero =>
    have hpos : positive.sum = 0 := List.sum_eq_zero fun p hp => hzero p (List.mem_append_left _ hp)
    have hneg : negative.sum = 0 :=
      List.sum_eq_zero fun p hp => hzero p (List.mem_append_right _ hp)
    rw [hpos, hneg, sub_zero, Option.some.injEq, eq_comm]
    exact (and_iff_right fun _ => hzero).symm
  case isFalse hzero =>
    simp only [sub_eq_zero]
    split
    case isTrue hsum => exact iff_of_false (by simp) fun h => hzero (h.1 hsum)
    case isFalse hsum =>
      rw [Option.some.injEq, eq_comm]
      exact (and_iff_right fun h => absurd h hsum).symm

/-! ### Public keys -/

/-- Addition of public keys.  A key whose bytes are all zero cannot be parsed, and a sum at
infinity cannot be encoded. -/
def addPublicKeys (keys : List P.Point) : Option P.Point :=
  if keys.any (· = 0) ∨ keys.sum = 0 then none else some keys.sum

end Aegisum
