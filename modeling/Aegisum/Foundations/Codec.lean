import Mathlib.Tactic.Ring
import Mathlib.Data.List.Basic

/-!
# Byte formats

Decoders that read from the front of a byte string, and the relation between a decoder and the
bytes it reads a value from.  The relation composes along the steps of a decoder, so that a round
trip is proved field by field.  On top of it stand the two usual formats for numbers, compact sizes
and variable-length integers, and vectors.
-/

namespace Aegisum

/-- A decoder: it reads a value and leaves the remaining bytes, or fails. -/
abbrev Get (α : Type) := StateT (List UInt8) Option α

namespace Get

variable {α β : Type}

/-- The decoder reads `a` from exactly the given bytes, whatever follows. -/
def Reads (get : Get α) (bytes : List UInt8) (a : α) : Prop :=
  ∀ rest, get (bytes ++ rest) = some (a, rest)

lemma reads_pure (a : α) : Reads (pure a) [] a := fun _ => rfl

variable {get : Get α} {a : α}

/-- Steps are read one after the other. -/
lemma Reads.bind {bytes bytes' : List UInt8} {b : β} (h : Reads get bytes a) (next : α → Get β)
    (h' : Reads (next a) bytes' b) : Reads (get >>= next) (bytes ++ bytes') b := by
  intro rest
  change (get (bytes ++ bytes' ++ rest)).bind _ = _
  rw [List.append_assoc, h]
  exact h' rest

/-- The last step of a decoder reads nothing more. -/
lemma Reads.map {bytes : List UInt8} (h : Reads get bytes a) (f : α → β) :
    Reads (get >>= fun x => pure (f x)) bytes (f a) := by
  have hread := h.bind (fun x => pure (f x)) (reads_pure (f a))
  rwa [List.append_nil] at hread

/-- A check of the value at the end of a decoder. -/
lemma Reads.check {bytes : List UInt8} (h : Reads get bytes a) (bad : α → Prop) [DecidablePred bad]
    (hgood : ¬ bad a) :
    Reads (get >>= fun x => if bad x then fun _ => none else pure x) bytes a := by
  have hread := h.bind (fun x => if bad x then fun _ => none else pure x) (by
    rw [if_neg hgood]
    exact reads_pure a)
  rwa [List.append_nil] at hread

/-- What a decoder has returned. -/
lemma returned_inj {a' : α} {rest rest' : List UInt8} (h : some (a, rest) = some (a', rest')) :
    a = a' ∧ rest = rest' :=
  Prod.mk.inj (Option.some.inj h)

/-- A decoder that fails. -/
def fail : Get α := fun _ => none

/-! ### Bytes -/

/-- Read one byte. -/
def byte : Get UInt8
  | [] => none
  | b :: bytes => some (b, bytes)

lemma reads_byte (b : UInt8) : Reads byte [b] b := fun _ => rfl

/-- Read a number of bytes. -/
def bytes (n : ℕ) : Get (List UInt8) := fun input =>
  if n ≤ input.length then some (input.take n, input.drop n) else none

/-- As many bytes as there are. -/
lemma reads_bytes (l : List UInt8) : Reads (bytes l.length) l l := by
  intro rest
  simp [bytes]

variable {n limit top : ℕ}

lemma reads_bytes_of_length {l : List UInt8} (h : l.length = n) : Reads (bytes n) l l :=
  h ▸ reads_bytes l

/-- The low bytes of a number, the lowest first. -/
def putLE : ℕ → ℕ → List UInt8
  | 0, _ => []
  | k + 1, n => (n % 256).toUInt8 :: putLE k (n / 256)

/-- Read a number of the given length, the lowest byte first. -/
def getLE : ℕ → Get ℕ
  | 0 => pure 0
  | k + 1 => do
    let low ← byte
    let high ← getLE k
    pure (low.toNat + 256 * high)

lemma length_putLE (k n : ℕ) : (putLE k n).length = k := by
  induction k generalizing n with
  | zero => rfl
  | succ k ih => rw [putLE, List.length_cons, ih]

/-! ### Compact sizes -/

/-- A number in one byte, or after a marker in two, four or eight bytes. -/
def putCompactSize (n : ℕ) : List UInt8 :=
  if n < 253 then putLE 1 n
  else if n ≤ 0xffff then 253 :: putLE 2 n
  else if n ≤ 0xffffffff then 254 :: putLE 4 n
  else 255 :: putLE 8 n

/-- A number of at most 32 bits takes one, three or five bytes. -/
lemma length_putCompactSize_le (hn : n ≤ 0xffffffff) :
    (putCompactSize n).length ≤ if n < 253 then 1 else if n ≤ 0xffff then 3 else 5 := by
  unfold putCompactSize
  split_ifs <;> simp [length_putLE]

/-- Read the bytes after a marker; the shorter forms must not have been possible. -/
def getSizeAfterMarker (k least : ℕ) : Get ℕ := do
  let n ← getLE k
  if n < least then fail else pure n

/-- Read a compact size of which the first byte was read. -/
def getSizeAfterFirst (first : UInt8) : Get ℕ :=
  if first < 253 then pure first.toNat
  else if first = 253 then getSizeAfterMarker 2 253
  else if first = 254 then getSizeAfterMarker 4 0x10000
  else getSizeAfterMarker 8 0x100000000

/-- Read a compact size that is at most `limit`. -/
def getCompactSize (limit : ℕ) : Get ℕ := do
  let first ← byte
  let n ← getSizeAfterFirst first
  if limit < n then fail else pure n

/-! ### Vectors -/

/-- A vector: the number of elements, then the elements. -/
def putVector (put : α → List UInt8) (l : List α) : List UInt8 :=
  putCompactSize l.length ++ l.flatMap put

/-- Read a number of elements. -/
def many (get : Get α) : ℕ → Get (List α)
  | 0 => pure []
  | n + 1 => do
    let a ← get
    let l ← many get n
    pure (a :: l)

/-- Read a vector of at most `limit` elements. -/
def vector (limit : ℕ) (get : Get α) : Get (List α) := do
  let n ← getCompactSize limit
  many get n

/-- If every element is read as `f` of it, so are all of them. -/
lemma reads_many {get : Get β} {put : α → List UInt8} {f : α → β} {l : List α}
    (h : ∀ a ∈ l, Reads get (put a) (f a)) :
    Reads (many get l.length) (l.flatMap put) (l.map f) := by
  induction l with
  | nil => exact reads_pure []
  | cons a l ih =>
    have hrest := ih fun b hb => h b (List.mem_cons_of_mem _ hb)
    exact (h a List.mem_cons_self).bind _ (hrest.map fun l => f a :: l)

/-! ### Variable-length integers -/

/-- The digits of a number to the base 128 in at most the given number of bytes, in front of those
already found.  One is subtracted from all but the last digit, and all but the last digit are
marked. -/
def putVarIntLoop : ℕ → ℕ → List UInt8 → List UInt8
  | 0, _, digits => digits
  | len + 1, n, digits =>
    let digit := (n % 128 + if digits = [] then 0 else 128).toUInt8
    if n ≤ 127 then digit :: digits else putVarIntLoop len (n / 128 - 1) (digit :: digits)

/-- A variable-length integer of `width` bits. -/
def putVarInt (width n : ℕ) : List UInt8 := putVarIntLoop ((width + 6) / 7) n []

/-- The loop writes one digit a round at most. -/
lemma length_putVarIntLoop_le (len n : ℕ) (digits : List UInt8) :
    (putVarIntLoop len n digits).length ≤ len + digits.length := by
  induction len generalizing n digits with
  | zero => simp [putVarIntLoop]
  | succ len ih =>
    rw [putVarIntLoop]
    generalize (n % 128 + if digits = [] then 0 else 128).toUInt8 = digit
    have hrest := ih (n / 128 - 1) (digit :: digits)
    rw [List.length_cons] at hrest
    split
    · rw [List.length_cons]
      omega
    · omega

/-- A number takes no more bytes than it has digits to the base 128. -/
lemma length_putVarIntLoop_le_of_lt {k : ℕ} (hn : n < 128 ^ (k + 1)) (len : ℕ)
    (digits : List UInt8) : (putVarIntLoop len n digits).length ≤ k + 1 + digits.length := by
  induction len generalizing n k digits with
  | zero => simp [putVarIntLoop]
  | succ len ih =>
    rw [putVarIntLoop]
    generalize (n % 128 + if digits = [] then 0 else 128).toUInt8 = digit
    split
    case isTrue hdone =>
      rw [List.length_cons]
      omega
    case isFalse hmore =>
      cases k with
      | zero => omega
      | succ k =>
        have hn' : n / 128 - 1 < 128 ^ (k + 1) := by
          rw [pow_succ] at hn
          omega
        have hrest := ih hn' (digit :: digits)
        rw [List.length_cons] at hrest
        omega

/-- Read the digits of a number that is at most `top`. -/
def getVarIntLoop (top n : ℕ) : Get ℕ
  | [] => none
  | digit :: input =>
    if top / 128 < n then none
    else
      let n := n * 128 + digit.toNat % 128
      if 128 ≤ digit.toNat then
        if n = top then none else getVarIntLoop top (n + 1) input
      else some (n, input)

/-- Read a variable-length integer of `width` bits. -/
def getVarInt (width : ℕ) : Get ℕ := getVarIntLoop (2 ^ width - 1) 0

end Get

end Aegisum
