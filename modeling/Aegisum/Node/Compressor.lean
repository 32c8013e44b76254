import Aegisum.Foundations.Canonical
import Aegisum.Model.Transaction

/-!
# The compressed format of outputs

Amounts and scripts as they are stored in the undo files.  An amount is stored without its trailing
decimal zeros; the scripts that pay to a key hash, to a script hash or to a public key have short
forms.  An output is read back exactly if its amount is in the money range and its script is not
longer than a script may be.
-/

namespace Aegisum

variable {P : Primitives}

/-! ### Amounts -/

/-- Divide by ten as long as the last digit is zero, at most the given number of times. -/
def stripZeros : ℕ → ℕ → ℕ → ℕ × ℕ
  | 0, n, e => (n, e)
  | k + 1, n, e => if n % 10 = 0 then stripZeros k (n / 10) (e + 1) else (n, e)

/-- The compressed form of an amount. -/
def compressAmount (n : ℕ) : ℕ :=
  if n = 0 then 0
  else
    let (n, e) := stripZeros 9 n 0
    if e < 9 then (1 + (n / 10 * 9 + n % 10 - 1) * 10 + e) % 2 ^ 64
    else (1 + (n - 1) * 10 + 9) % 2 ^ 64

/-- The amount with a compressed form. -/
def decompressAmount (x : ℕ) : ℕ :=
  if x = 0 then 0
  else
    let e := (x - 1) % 10
    let x := (x - 1) / 10
    let n := if e < 9 then x / 9 * 10 + (x % 9 + 1) else x + 1
    n * 10 ^ e % 2 ^ 64

/-- What the loop of the divisions ends with. -/
lemma stripZeros_spec (k n e : ℕ) (hn : n ≠ 0) :
    ∃ n' e', stripZeros k n e = (n', e') ∧ n' ≠ 0 ∧ e ≤ e' ∧ e' ≤ e + k ∧
      n = n' * 10 ^ (e' - e) ∧ (e' < e + k → n' % 10 ≠ 0) := by
  induction k generalizing n e with
  | zero => exact ⟨n, e, rfl, hn, le_rfl, by omega, by simp, by omega⟩
  | succ k ih =>
    rw [stripZeros]
    split
    case isTrue hzero =>
      obtain ⟨n', e', hstrip, hn', he, he', hvalue, hlast⟩ := ih (n / 10) (e + 1) (by omega)
      refine ⟨n', e', hstrip, hn', by omega, by omega, ?_, fun h => hlast (by omega)⟩
      calc n = n / 10 * 10 := by omega
        _ = n' * 10 ^ (e' - e) := by
          rw [hvalue, mul_assoc, ← pow_succ]
          congr 2
          omega
    case isFalse hdigit => exact ⟨n, e, rfl, hn, le_rfl, by omega, by simp, fun _ => hdigit⟩

/-- Compressing loses nothing of an amount in the money range. -/
lemma decompressAmount_compressAmount {n : ℕ} (h : n ≤ 10 ^ 16) :
    compressAmount n < 2 ^ 64 ∧ decompressAmount (compressAmount n) = n := by
  by_cases hn : n = 0
  · simp [hn, compressAmount, decompressAmount]
  · obtain ⟨n', e, hstrip, hn', -, he, hvalue, hlast⟩ := stripZeros_spec 9 n 0 hn
    rw [Nat.sub_zero] at hvalue
    have hle : n' ≤ n := by
      rw [hvalue]
      exact Nat.le_mul_of_pos_right _ (Nat.pow_pos (by norm_num))
    have hcompress : compressAmount n = if e < 9 then 1 + (n' / 10 * 9 + n' % 10 - 1) * 10 + e
        else 1 + (n' - 1) * 10 + 9 := by
      rw [compressAmount, if_neg hn, hstrip]
      dsimp only
      split <;> rw [Nat.mod_eq_of_lt (by omega)]
    rw [hcompress]
    refine ⟨by split <;> omega, ?_⟩
    have hback : ∀ x, (x - 1) % 10 = e → x ≠ 0 →
        (if e < 9 then (x - 1) / 10 / 9 * 10 + ((x - 1) / 10 % 9 + 1) else (x - 1) / 10 + 1) = n' →
          decompressAmount x = n := by
      intro x hexp hx hdigits
      rw [decompressAmount, if_neg hx]
      dsimp only
      rw [hexp, hdigits, ← hvalue, Nat.mod_eq_of_lt (by omega)]
    split
    case isTrue hsmall =>
      have hdigit := hlast (by omega)
      refine hback _ (by omega) (by omega) ?_
      rw [if_pos hsmall]
      omega
    case isFalse hbig =>
      refine hback _ (by omega) (by omega) ?_
      rw [if_neg hbig]
      omega

/-- `AmountCompression`. -/
def putAmount (nValue : CAmount) : List UInt8 :=
  Get.putVarInt 64 (compressAmount nValue.toUInt64.toNat)

/-- `AmountCompression`. -/
def getAmount : Get CAmount := do
  let v ← Get.getVarInt 64
  pure (UInt64.ofNat (decompressAmount v)).toInt64

/-- An amount in the money range as an unsigned number. -/
lemma toNat_toUInt64_le {nValue : CAmount} (h : MoneyRange nValue) :
    nValue.toUInt64.toNat ≤ 10 ^ 16 := by
  obtain ⟨h0, h1⟩ := moneyRange_iff.mp h
  have hlt := nValue.toUInt64.toNat_lt
  have hint : nValue.toInt = (nValue.toUInt64.toNat : ℤ).bmod (2 ^ 64) := by
    rw [← Int64.toInt_toBitVec, BitVec.toInt_eq_toNat_bmod]
    rfl
  rw [Int.bmod] at hint
  split at hint <;> omega

lemma reads_getAmount {nValue : CAmount} (h : MoneyRange nValue) :
    Get.Reads getAmount (putAmount nValue) nValue := by
  obtain ⟨hfit, hback⟩ := decompressAmount_compressAmount (toNat_toUInt64_le h)
  have hvalue : (UInt64.ofNat (decompressAmount (compressAmount nValue.toUInt64.toNat))).toInt64 =
      nValue := by
    rw [hback, UInt64.ofNat_toNat]
    exact Int64.toInt64_toUInt64 nValue
  have hread := (Get.reads_getVarInt (by decide) hfit).map
    fun v => (UInt64.ofNat (decompressAmount v)).toInt64
  rwa [hvalue] at hread

/-! ### Bytes of scripts -/

/-- The bytes of digests. -/
class HashBytes (P : Primitives) where
  toBytes : P.Hash → List UInt8
  ofBytes : List UInt8 → P.Hash
  length_toBytes : ∀ h, (toBytes h).length = 32
  ofBytes_toBytes : ∀ h, ofBytes (toBytes h) = h

namespace CScript

open HashBytes

variable [HashBytes P]

/-- The bytes of a script. -/
def bytes : CScript P → List UInt8
  | mwebPegin kernelId => [0x59, 0x20] ++ HashBytes.toBytes kernelId
  | mwebHogAddr headerHash => [0x58, 0x20] ++ HashBytes.toBytes headerHash
  | witnessCommitment commitment rest =>
    [opReturn, 0x24, 0xaa, 0x21, 0xa9, 0xed] ++ (HashBytes.toBytes commitment ++ rest)
  | raw script => script.bytes

/-- The script with the given bytes. -/
def ofBytes (bs : List UInt8) : CScript P :=
  if h : isTemplate bs = false then raw ⟨bs, h⟩
  else if bs.length = 34 ∧ bs.take 2 = [0x59, 0x20] then mwebPegin (HashBytes.ofBytes (bs.drop 2))
  else if bs.length = 34 ∧ bs.take 2 = [0x58, 0x20] then
    mwebHogAddr (HashBytes.ofBytes (bs.drop 2))
  else witnessCommitment (HashBytes.ofBytes ((bs.drop 6).take 32)) (bs.drop 38)

lemma length_bytes (s : CScript P) : s.bytes.length = s.size := by
  cases s with
  | mwebPegin _ => simp [bytes, size, length_toBytes]
  | mwebHogAddr _ => simp [bytes, size, length_toBytes]
  | witnessCommitment _ _ =>
    simp [bytes, size, length_toBytes]
    omega
  | raw _ => rfl

/-- A script is determined by its bytes. -/
lemma ofBytes_bytes (s : CScript P) : ofBytes s.bytes = s := by
  cases s with
  | mwebPegin h =>
    simp [bytes, ofBytes, isTemplate, length_toBytes, ofBytes_toBytes]
  | mwebHogAddr h =>
    simp [bytes, ofBytes, isTemplate, length_toBytes, ofBytes_toBytes]
  | witnessCommitment h rest =>
    simp [bytes, ofBytes, isTemplate, length_toBytes, ofBytes_toBytes, opReturn]
  | raw s => simp [bytes, ofBytes, s.plain]

end CScript

/-! ### Compressed scripts -/

/-- What the compressor asks about public keys.  A valid uncompressed key is determined by its first
coordinate and the parity of the second one. -/
structure PubKeyOps where
  isFullyValid : List UInt8 → Bool
  decompress : List UInt8 → Option (List UInt8)
  decompress_eq : ∀ x parity : List UInt8, x.length = 32 → parity.length = 32 →
    isFullyValid (4 :: (x ++ parity)) = true →
      decompress ((2 ||| (parity.getLastD 0 &&& 1)) :: x) = some (4 :: (x ++ parity))

/-- The `n` bytes of a script between a fixed beginning and a fixed end. -/
def between (first last : List UInt8) (n : ℕ) (script : List UInt8) : Option (List UInt8) :=
  if script.length = first.length + n + last.length ∧ script.take first.length = first ∧
      script.drop (first.length + n) = last then
    some ((script.drop first.length).take n)
  else none

variable {script : List UInt8}

lemma between_eq_some {first last mid : List UInt8} {n : ℕ}
    (h : between first last n script = some mid) :
    script = first ++ (mid ++ last) ∧ mid.length = n := by
  unfold between at h
  split at h
  case isFalse => cases h
  case isTrue hshape =>
    obtain ⟨hlength, hfirst, hlast⟩ := hshape
    obtain rfl := Option.some.inj h
    refine ⟨?_, by simp; omega⟩
    rw [← hlast, ← List.drop_drop, List.take_append_drop]
    conv_lhs => rw [← List.take_append_drop first.length script, hfirst]

/-- `OP_DUP OP_HASH160 <hash> OP_EQUALVERIFY OP_CHECKSIG`. -/
def isToKeyID : List UInt8 → Option (List UInt8) := between [0x76, 0xa9, 20] [0x88, 0xac] 20

/-- `OP_HASH160 <hash> OP_EQUAL`. -/
def isToScriptID : List UInt8 → Option (List UInt8) := between [0xa9, 20] [0x87] 20

/-- `<key> OP_CHECKSIG` with a compressed key. -/
def isToCompressedPubKey (script : List UInt8) : Option (List UInt8) :=
  (between [33] [0xac] 33 script).filter fun key => key.head? == some 2 || key.head? == some 3

/-- `<key> OP_CHECKSIG` with a valid uncompressed key. -/
def isToUncompressedPubKey (keys : PubKeyOps) (script : List UInt8) : Option (List UInt8) :=
  (between [65] [0xac] 65 script).filter fun key => key.head? == some 4 && keys.isFullyValid key

/-- The short form of a script, if it has one. -/
def compressScript (keys : PubKeyOps) (script : List UInt8) : Option (List UInt8) :=
  match isToKeyID script with
  | some hash => some (0 :: hash)
  | none =>
    match isToScriptID script with
    | some hash => some (1 :: hash)
    | none =>
      match isToCompressedPubKey script with
      | some key => some key
      | none => (isToUncompressedPubKey keys script).map fun key =>
          (4 ||| (key.getLastD 0 &&& 1)) :: (key.drop 1).take 32

/-- The number of bytes after the first one in a short form. -/
def getSpecialScriptSize (nSize : ℕ) : ℕ :=
  if nSize = 0 ∨ nSize = 1 then 20 else if nSize ≤ 5 then 32 else 0

/-- The script with a short form. -/
def decompressScript (keys : PubKeyOps) (nSize : ℕ) (input : List UInt8) : Option (List UInt8) :=
  match nSize with
  | 0 => some ([0x76, 0xa9, 20] ++ (input ++ [0x88, 0xac]))
  | 1 => some ([0xa9, 20] ++ (input ++ [0x87]))
  | 2 => some ([33] ++ (2 :: input ++ [0xac]))
  | 3 => some ([33] ++ (3 :: input ++ [0xac]))
  | 4 => (keys.decompress (2 :: input)).map fun key => [65] ++ (key ++ [0xac])
  | 5 => (keys.decompress (3 :: input)).map fun key => [65] ++ (key ++ [0xac])
  | _ => none

/-- The first byte of a short form is less than this. -/
def nSpecialScripts : ℕ := 6

/-- `ScriptCompression`. -/
def putScript (keys : PubKeyOps) (script : List UInt8) : List UInt8 :=
  match compressScript keys script with
  | some short => short
  | none => Get.putVarInt 32 (script.length + nSpecialScripts) ++ script

/-- `ScriptCompression`.  A script that is too long is replaced by one that cannot be spent. -/
def getScript (keys : PubKeyOps) : Get (List UInt8) := do
  let nSize ← Get.getVarInt 32
  if nSize < nSpecialScripts then do
    let input ← Get.bytes (getSpecialScriptSize nSize)
    pure ((decompressScript keys nSize input).getD [])
  else if maxScriptSize < nSize - nSpecialScripts then do
    let _ ← Get.bytes (nSize - nSpecialScripts)
    pure [opReturn]
  else Get.bytes (nSize - nSpecialScripts)

variable {keys : PubKeyOps}

/-- A short form is read back if it is decompressed to the script. -/
lemma reads_getScript_short (nSize : ℕ) {input : List UInt8} (hsize : nSize < nSpecialScripts)
    (hlength : input.length = getSpecialScriptSize nSize)
    (hback : decompressScript keys nSize input = some script) :
    Get.Reads (getScript keys) (nSize.toUInt8 :: input) script := by
  refine (Get.reads_getVarInt_byte (by decide) (hsize.trans (by decide))).bind _ ?_
  rw [if_pos hsize]
  have hread := (Get.reads_bytes_of_length hlength).map
    fun input => (decompressScript keys nSize input).getD []
  rwa [hback] at hread

/-- A script without a short form is read back unless it is too long. -/
lemma reads_getScript_long (hlength : script.length ≤ maxScriptSize) :
    Get.Reads (getScript keys) (Get.putVarInt 32 (script.length + nSpecialScripts) ++ script)
      script := by
  have hsize : script.length + nSpecialScripts < 2 ^ 32 := by
    rw [maxScriptSize] at hlength
    rw [nSpecialScripts]
    omega
  refine (Get.reads_getVarInt (by decide) hsize).bind _ ?_
  rw [if_neg (by omega), Nat.add_sub_cancel, if_neg (by omega)]
  exact Get.reads_bytes script

/-- The short form with a parity bit. -/
lemma reads_getScript_parity {x parity : List UInt8} (hx : x.length = 32)
    (hparity : parity.length = 32) (hvalid : keys.isFullyValid (4 :: (x ++ parity)) = true) :
    Get.Reads (getScript keys) ((4 ||| (parity.getLastD 0 &&& 1)) :: x)
      ([65] ++ ((4 :: (x ++ parity)) ++ [0xac])) := by
  have hback := keys.decompress_eq x parity hx hparity hvalid
  have hbit : parity.getLastD 0 &&& 1 = 0 ∨ parity.getLastD 0 &&& 1 = 1 := by
    rw [← UInt8.toNat_inj, ← UInt8.toNat_inj, UInt8.toNat_and, UInt8.toNat_one, Nat.and_one_is_mod]
    exact Nat.mod_two_eq_zero_or_one _
  rcases hbit with h | h
  · rw [h] at hback ⊢
    exact reads_getScript_short 4 (by decide) hx
      (by simp [decompressScript, show keys.decompress (2 :: x) = _ from hback])
  · rw [h] at hback ⊢
    exact reads_getScript_short 5 (by decide) hx
      (by simp [decompressScript, show keys.decompress (3 :: x) = _ from hback])

/-- Scripts of at most the allowed size are read back. -/
lemma reads_getScript (hlength : script.length ≤ maxScriptSize) :
    Get.Reads (getScript keys) (putScript keys script) script := by
  unfold putScript compressScript
  cases hkey : isToKeyID script with
  | some hash =>
    obtain ⟨rfl, hhash⟩ := between_eq_some hkey
    exact reads_getScript_short 0 (by decide) hhash rfl
  | none =>
    cases hscript : isToScriptID script with
    | some hash =>
      obtain ⟨rfl, hhash⟩ := between_eq_some hscript
      exact reads_getScript_short 1 (by decide) hhash rfl
    | none =>
      cases hcompressed : isToCompressedPubKey script with
      | some key =>
        obtain ⟨hbetween, hhead⟩ := Option.filter_eq_some_iff.mp hcompressed
        obtain ⟨rfl, hsize⟩ := between_eq_some hbetween
        obtain ⟨b, x, rfl⟩ := List.exists_cons_of_length_eq_add_one hsize
        have hx : x.length = 32 := by simpa using hsize
        have hb : b = 2 ∨ b = 3 := by simpa using hhead
        rcases hb with rfl | rfl
        · exact reads_getScript_short 2 (by decide) hx rfl
        · exact reads_getScript_short 3 (by decide) hx rfl
      | none =>
        cases huncompressed : isToUncompressedPubKey keys script with
        | some key =>
          obtain ⟨hbetween, hgood⟩ := Option.filter_eq_some_iff.mp huncompressed
          obtain ⟨rfl, hsize⟩ := between_eq_some hbetween
          obtain ⟨b, key, rfl⟩ := List.exists_cons_of_length_eq_add_one hsize
          obtain ⟨rfl, hvalid⟩ : b = 4 ∧ keys.isFullyValid (b :: key) = true := by simpa using hgood
          -- the key consists of the marker and two coordinates
          have hlen : key.length = 64 := by simpa using hsize
          have hsplit : key = key.take 32 ++ key.drop 32 := (List.take_append_drop 32 key).symm
          have hx : (key.take 32).length = 32 := by simp [hlen]
          have hparity : (key.drop 32).length = 32 := by simp [hlen]
          rw [hsplit] at hvalid
          have hread := reads_getScript_parity hx hparity hvalid
          rw [← hsplit] at hread
          have hlast : (key.drop 32).getLastD 0 = (4 :: key).getLastD 0 := by
            rw [List.getLastD_eq_getLast?, List.getLastD_eq_getLast?, List.getLast?_drop,
              if_neg (by omega), List.getLast?_cons]
            cases hcase : key.getLast? with
            | none =>
              rw [List.getLast?_eq_none_iff] at hcase
              simp [hcase] at hlen
            | some b => rfl
          rw [hlast] at hread
          exact hread
        | none => exact reads_getScript_long hlength

/-! ### Outputs -/

variable [HashBytes P]

/-- `TxOutCompression`. -/
def putTxOut (keys : PubKeyOps) (out : CTxOut P) : List UInt8 :=
  putAmount out.nValue ++ putScript keys out.scriptPubKey.bytes

/-- `TxOutCompression`. -/
def getTxOut (keys : PubKeyOps) : Get (CTxOut P) := do
  let nValue ← getAmount
  let script ← getScript keys
  pure ⟨nValue, .ofBytes script⟩

/-- A spendable output with an amount in the money range is read back. -/
lemma reads_getTxOut {out : CTxOut P} (hvalue : MoneyRange out.nValue)
    (hspendable : out.scriptPubKey.isUnspendable = false) :
    Get.Reads (getTxOut keys) (putTxOut keys out) out := by
  have hlength : out.scriptPubKey.bytes.length ≤ maxScriptSize := by
    rw [CScript.length_bytes]
    cases hs : out.scriptPubKey with
    | mwebPegin _ => simp [CScript.size, maxScriptSize]
    | mwebHogAddr _ => simp [CScript.size, maxScriptSize]
    | witnessCommitment _ _ => simp [hs, CScript.isUnspendable] at hspendable
    | raw s =>
      rw [hs] at hspendable
      simpa [CScript.isUnspendable, CScript.size] using (Bool.or_eq_false_iff.mp hspendable).2
  have hscript : Get.Reads (getScript keys) (putScript keys out.scriptPubKey.bytes) _ :=
    reads_getScript hlength
  have hread := hscript.map fun script => (⟨out.nValue, .ofBytes script⟩ : CTxOut P)
  rw [CScript.ofBytes_bytes] at hread
  exact (reads_getAmount hvalue).bind _ hread

end Aegisum
