import Mathlib.Data.List.Induction
import Aegisum.Foundations.Codec

/-!
# Canonical formats

A decoder is canonical for an encoder if it reads back every valid value and accepts nothing but
encodings of valid values: the bytes it consumes are the encoding of what it returns.  A decoder
that reads the fields of a record one after another is canonical if every step is; the rule for a
step carries along what is known of the fields that were read before.
-/

namespace Aegisum

open List

namespace Get

variable {α β γ : Type}

/-- The decoder accepts the encodings of the valid values and no other bytes. -/
structure Canonical (get : Get α) (put : α → List UInt8) (valid : α → Prop) : Prop where
  reads : ∀ a, valid a → Reads get (put a) a
  sound : ∀ {input a rest}, get input = some (a, rest) → valid a ∧ input = put a ++ rest

/-- A decoder of two steps, taken apart. -/
lemma bind_eq_some {get : Get α} {next : α → Get β} {input rest : List UInt8} {b : β}
    (h : (get >>= next) input = some (b, rest)) :
    ∃ a mid, get input = some (a, mid) ∧ next a mid = some (b, rest) := by
  obtain ⟨⟨a, mid⟩, hget, hnext⟩ := Option.bind_eq_some_iff.mp h
  exact ⟨a, mid, hget, hnext⟩

namespace Canonical

variable {get : Get α} {put : α → List UInt8} {valid : α → Prop}

/-- Two values with the same encoding, whatever follows it, are the same. -/
lemma eq_of_append_eq (h : Canonical get put valid) {a b : α} {rest rest' : List UInt8}
    (ha : valid a) (hb : valid b) (heq : put a ++ rest = put b ++ rest') :
    a = b ∧ rest = rest' := by
  have hread := h.reads a ha rest
  rw [heq, h.reads b hb rest'] at hread
  obtain ⟨rfl, rfl⟩ := returned_inj hread
  exact ⟨rfl, rfl⟩

/-- Another description of the same encoder and the same values. -/
lemma congr (h : Canonical get put valid) {put' : α → List UInt8} {valid' : α → Prop}
    (hvalid : ∀ a, valid' a ↔ valid a) (hput : ∀ a, valid a → put' a = put a) :
    Canonical get put' valid' where
  reads a ha := by
    have hva := (hvalid a).mp ha
    rw [hput a hva]
    exact h.reads a hva
  sound hget := by
    obtain ⟨hva, hinput⟩ := h.sound hget
    exact ⟨(hvalid _).mpr hva, by rw [hput _ hva, hinput]⟩

/-- Nothing is read. -/
lemma pure_of_iff (a : α) (hvalid : ∀ b, valid b ↔ b = a) :
    Canonical (pure a) (fun _ => []) valid where
  reads b hb := by
    rw [(hvalid b).mp hb]
    exact reads_pure a
  sound hget := by
    obtain ⟨rfl, rfl⟩ := returned_inj hget
    exact ⟨(hvalid _).mpr rfl, rfl⟩

/-- The first field decides how the others are read. -/
lemma bind_first (proj : γ → α) {next : α → Get γ} (putRest : α → γ → List UInt8)
    (validRest : α → γ → Prop) (h : Canonical get put valid)
    (hnext : ∀ a, valid a → Canonical (next a) (putRest a) fun c => proj c = a ∧ validRest a c) :
    Canonical (get >>= next) (fun c => put (proj c) ++ putRest (proj c) c)
      fun c => valid (proj c) ∧ validRest (proj c) c where
  reads c hc := (h.reads (proj c) hc.1).bind next ((hnext (proj c) hc.1).reads c ⟨rfl, hc.2⟩)
  sound hget := by
    obtain ⟨a, mid, hfirst, hrest⟩ := bind_eq_some hget
    obtain ⟨ha, hinput⟩ := h.sound hfirst
    obtain ⟨⟨rfl, hvalid⟩, hmid⟩ := (hnext a ha).sound hrest
    exact ⟨⟨ha, hvalid⟩, by rw [hinput, hmid, append_assoc]⟩

/-- One field of a record is read, then the others. -/
lemma bind (known : γ → Prop) (proj : γ → α) {next : α → Get γ} {put' : γ → List UInt8}
    {valid' : γ → Prop} (h : Canonical get put valid)
    (hnext : ∀ a, valid a → Canonical (next a) put' fun c => (known c ∧ proj c = a) ∧ valid' c) :
    Canonical (get >>= next) (fun c => put (proj c) ++ put' c)
      fun c => known c ∧ valid (proj c) ∧ valid' c := by
  have hfields := h.bind_first proj (fun _ => put') (fun _ c => known c ∧ valid' c) fun a ha =>
    (hnext a ha).congr (fun c => by tauto) fun _ _ => rfl
  exact hfields.congr (fun c => by tauto) fun _ _ => rfl

/-- The end of a record: what is known of its fields determines it. -/
lemma record {known : γ → Prop} {c : γ} (rest : γ → Prop) (h : ∀ d, known d ∧ rest d ↔ d = c) :
    Canonical (pure c) (fun _ => []) fun d => known d ∧ rest d :=
  .pure_of_iff c h

/-- The end of a record that is tested before it is returned. -/
lemma record_check {known : γ → Prop} {c : γ} {test : Prop} [Decidable test] (bad : γ → Prop)
    (hbad : test ↔ bad c) (h : ∀ d, known d ↔ d = c) :
    Canonical (if test then fail else pure c) (fun _ => []) fun d => known d ∧ ¬ bad d where
  reads d hd := by
    obtain rfl := (h d).mp hd.1
    rw [if_neg (hbad.not.mpr hd.2)]
    exact reads_pure d
  sound hget := by
    split at hget
    · cases hget
    · next hgood =>
      obtain ⟨rfl, rfl⟩ := returned_inj hget
      exact ⟨⟨(h _).mpr rfl, hbad.not.mp hgood⟩, rfl⟩

/-- A bijection between valid values applied to what was read. -/
lemma map (h : Canonical get put valid) (f : α → β) (g : β → α) {valid' : β → Prop}
    (hleft : ∀ a, valid a → g (f a) = a ∧ valid' (f a))
    (hright : ∀ b, valid' b → f (g b) = b ∧ valid (g b)) :
    Canonical (get >>= fun a => pure (f a)) (fun b => put (g b)) valid' where
  reads b hb := by
    have hread := (h.reads (g b) (hright b hb).2).map f
    rwa [(hright b hb).1] at hread
  sound hget := by
    obtain ⟨a, mid, hfirst, hrest⟩ := bind_eq_some hget
    obtain ⟨ha, hinput⟩ := h.sound hfirst
    obtain ⟨rfl, rfl⟩ := returned_inj hrest
    rw [(hleft a ha).1]
    exact ⟨(hleft a ha).2, hinput⟩

/-- A test of what was read. -/
lemma check (h : Canonical get put valid) (bad : α → Prop) [DecidablePred bad] :
    Canonical (get >>= fun a => if bad a then fail else pure a) put fun a => valid a ∧ ¬ bad a where
  reads a ha := (h.reads a ha.1).check bad ha.2
  sound hget := by
    obtain ⟨a, mid, hfirst, hrest⟩ := bind_eq_some hget
    obtain ⟨ha, hinput⟩ := h.sound hfirst
    split at hrest
    · cases hrest
    · next hgood =>
      obtain ⟨rfl, rfl⟩ := returned_inj hrest
      exact ⟨⟨ha, hgood⟩, hinput⟩

end Canonical

/-! ### Numbers and bytes -/

lemma canonical_byte : Canonical byte (fun b => [b]) fun _ => True where
  reads b _ := reads_byte b
  sound {input a rest} hget := by
    cases input with
    | nil => cases hget
    | cons b input =>
      obtain ⟨rfl, rfl⟩ := returned_inj hget
      exact ⟨trivial, rfl⟩

lemma canonical_bytes (n : ℕ) : Canonical (bytes n) id fun l => l.length = n where
  reads _ hl := reads_bytes_of_length hl
  sound {input a rest} hget := by
    unfold bytes at hget
    split at hget
    · next hle =>
      obtain ⟨rfl, rfl⟩ := returned_inj hget
      exact ⟨length_take_of_le hle, (take_append_drop n input).symm⟩
    · cases hget

lemma canonical_getLE (k : ℕ) : Canonical (getLE k) (putLE k) (· < 256 ^ k) := by
  induction k with
  | zero => exact .pure_of_iff 0 fun n => by rw [pow_zero, Nat.lt_one_iff]
  | succ k ih =>
    have hbytes : Canonical _ _ fun n : ℕ => True ∧ True ∧ n < 256 ^ (k + 1) :=
      canonical_byte.bind (fun _ => True) (fun n : ℕ => (n % 256).toUInt8) fun low _ =>
        ih.map (fun high => low.toNat + 256 * high) (· / 256) (fun high hhigh => ?_) fun n hn => ?_
    · exact hbytes.congr (fun n => by simp) fun n _ => rfl
    · have hlow := low.toNat_lt
      refine ⟨by omega, ⟨trivial, ?_⟩, by rw [pow_succ]; omega⟩
      rw [Nat.add_mul_mod_self_left, Nat.mod_eq_of_lt hlow]
      simp
    · obtain ⟨⟨-, rfl⟩, hlt⟩ := hn
      rw [pow_succ] at hlt
      refine ⟨?_, by omega⟩
      simp
      omega

/-- Read a number of the given type, the lowest byte first. -/
def getInt (k : ℕ) (ofNat : ℕ → α) : Get α := getLE k >>= fun n => pure (ofNat n)

/-- A machine integer, through its unsigned value. -/
lemma canonical_getInt {k : ℕ} (ofNat : ℕ → α) (toNat : α → ℕ) (hlt : ∀ a, toNat a < 256 ^ k)
    (hleft : ∀ n < 256 ^ k, toNat (ofNat n) = n) (hright : ∀ a, ofNat (toNat a) = a) :
    Canonical (getInt k ofNat) (fun a => putLE k (toNat a)) fun _ => True :=
  (canonical_getLE k).map ofNat toNat (fun n hn => ⟨hleft n hn, trivial⟩) fun a _ =>
    ⟨hright a, hlt a⟩

lemma canonical_getUInt32 :
    Canonical (getInt 4 UInt32.ofNat) (fun n => putLE 4 n.toNat) fun _ => True :=
  canonical_getInt _ _ (fun n => n.toNat_lt) (fun n hn => by simp; omega) fun n => by simp

lemma canonical_getUInt64 :
    Canonical (getInt 8 UInt64.ofNat) (fun n => putLE 8 n.toNat) fun _ => True :=
  canonical_getInt _ _ (fun n => n.toNat_lt) (fun n hn => by simp; omega) fun n => by simp

lemma canonical_getInt32 : Canonical (getInt 4 fun n => (UInt32.ofNat n).toInt32)
    (fun n => putLE 4 n.toUInt32.toNat) fun _ => True :=
  canonical_getInt _ (fun n : Int32 => n.toUInt32.toNat) (fun n => n.toUInt32.toNat_lt)
    (fun n hn => by simp; omega) fun n => by simp

lemma canonical_getInt64 : Canonical (getInt 8 fun n => (UInt64.ofNat n).toInt64)
    (fun n => putLE 8 n.toUInt64.toNat) fun _ => True :=
  canonical_getInt _ (fun n : Int64 => n.toUInt64.toNat) (fun n => n.toUInt64.toNat_lt)
    (fun n hn => by simp; omega) fun n => by simp

/-- A size after its marker byte. -/
private lemma canonical_getSizeAfterMarker (k least : ℕ) :
    Canonical (getSizeAfterMarker k least) (putLE k) fun n => n < 256 ^ k ∧ ¬ n < least :=
  (canonical_getLE k).check (· < least)

/-- Only the shortest form of a compact size is read. -/
lemma canonical_getCompactSize {limit : ℕ} (h64 : limit < 2 ^ 64) :
    Canonical (getCompactSize limit) putCompactSize (· ≤ limit) where
  reads n hn := by
    have hread : ∀ {first tail}, Reads (getSizeAfterFirst first) tail n →
        Reads (getCompactSize limit) (first :: tail) n := fun h =>
      (reads_byte _).bind _ (h.check (limit < ·) (by omega))
    have hmarker (k least : ℕ) := (canonical_getSizeAfterMarker k least).reads n
    unfold putCompactSize
    split_ifs with h1 h2 h3
    · have hvalue : (n % 256).toUInt8.toNat = n := by
        simp
        omega
      have hsmall : (n % 256).toUInt8 < 253 := by
        rw [UInt8.lt_iff_toNat_lt, hvalue]
        exact h1
      apply hread
      rw [getSizeAfterFirst, if_pos hsmall, hvalue]
      exact reads_pure n
    · exact hread (hmarker 2 253 (by omega))
    · exact hread (hmarker 4 0x10000 (by omega))
    · exact hread (hmarker 8 0x100000000 (by omega))
  sound {input n rest} hget := by
    obtain ⟨first, mid, hfirst, hafter⟩ := bind_eq_some hget
    obtain ⟨-, rfl⟩ := canonical_byte.sound hfirst
    obtain ⟨m, mid', hsize, hcheck⟩ := bind_eq_some hafter
    split at hcheck
    · cases hcheck
    next hle =>
    obtain ⟨rfl, rfl⟩ := returned_inj hcheck
    refine ⟨by omega, ?_⟩
    unfold getSizeAfterFirst at hsize
    split_ifs at hsize with hsmall h253 h254
    · obtain ⟨rfl, rfl⟩ := returned_inj hsize
      have hlt : first.toNat < 253 := UInt8.lt_iff_toNat_lt.mp hsmall
      rw [putCompactSize, if_pos hlt]
      simp [putLE]
    · obtain ⟨⟨hlt, hge⟩, rfl⟩ := (canonical_getSizeAfterMarker _ _).sound hsize
      rw [putCompactSize, if_neg (by omega), if_pos (by omega), h253]
      rfl
    · obtain ⟨⟨hlt, hge⟩, rfl⟩ := (canonical_getSizeAfterMarker _ _).sound hsize
      rw [putCompactSize, if_neg (by omega), if_neg (by omega), if_pos (by omega), h254]
      rfl
    · obtain ⟨⟨hlt, hge⟩, rfl⟩ := (canonical_getSizeAfterMarker _ _).sound hsize
      have hlast : first = 255 := by
        rw [UInt8.lt_iff_toNat_lt] at hsmall
        rw [← UInt8.toNat_inj] at h253 h254 ⊢
        have := first.toNat_lt
        simp at hsmall h253 h254 ⊢
        omega
      rw [putCompactSize, if_neg (by omega), if_neg (by omega), if_neg (by omega), hlast]
      rfl

/-! ### Vectors and optional values -/

section Composite

variable {get : Get α} {put : α → List UInt8} {valid : α → Prop}

/-- A fixed number of values. -/
lemma Canonical.many (h : Canonical get put valid) (n : ℕ) :
    Canonical (many get n) (flatMap put) fun l => l.length = n ∧ ∀ a ∈ l, valid a where
  reads l hl := by
    have hread := reads_many (f := id) fun a ha => h.reads a (hl.2 a ha)
    rwa [hl.1, map_id] at hread
  sound {input l rest} hget := by
    induction n generalizing input l with
    | zero =>
      obtain ⟨rfl, rfl⟩ := returned_inj hget
      exact ⟨⟨rfl, by simp⟩, rfl⟩
    | succ n ih =>
      obtain ⟨a, mid, hfirst, hafter⟩ := bind_eq_some hget
      obtain ⟨l', mid', htail, hpure⟩ := bind_eq_some hafter
      obtain ⟨rfl, rfl⟩ := returned_inj hpure
      obtain ⟨ha, rfl⟩ := h.sound hfirst
      obtain ⟨⟨hlen, hall⟩, rfl⟩ := ih htail
      refine ⟨⟨by rw [length_cons, hlen], forall_mem_cons.mpr ⟨ha, hall⟩⟩, ?_⟩
      rw [flatMap_cons, append_assoc]

/-- A vector behind its compact size. -/
lemma Canonical.vector (h : Canonical get put valid) {limit : ℕ} (h64 : limit < 2 ^ 64) :
    Canonical (vector limit get) (putVector put)
      fun l => l.length ≤ limit ∧ ∀ a ∈ l, valid a := by
  have hvector : Canonical _ _ fun l : List α => True ∧ l.length ≤ limit ∧ ∀ a ∈ l, valid a :=
    (canonical_getCompactSize h64).bind (fun _ => True) length fun n _ =>
      (h.many n).congr (fun l => by simp) fun _ _ => rfl
  exact hvector.congr (fun l => by simp) fun _ _ => rfl

/-- A vector is read value by value. -/
lemma reads_vector {get : Get β} {f : α → β} {limit : ℕ} {l : List α} (hlimit : l.length ≤ limit)
    (h64 : limit < 2 ^ 64) (h : ∀ a ∈ l, Reads get (put a) (f a)) :
    Reads (vector limit get) (putVector put l) (l.map f) :=
  ((canonical_getCompactSize h64).reads _ hlimit).bind _ (reads_many h)

/-- Read a value if there is one. -/
def optional (present : Bool) (get : Get α) : Get (Option α) :=
  if present then get >>= fun a => pure (some a) else pure none

/-- Write a value if there is one. -/
def putOption (put : α → List UInt8) : Option α → List UInt8
  | none => []
  | some a => put a

/-- A field that a flag announces. -/
lemma Canonical.optional (h : Canonical get put valid) (present : Bool) :
    Canonical (optional present get) (putOption put)
      fun o => o.isSome = present ∧ ∀ a ∈ o, valid a where
  reads o ho := by
    obtain ⟨rfl, hvalid⟩ := ho
    cases o with
    | none => exact reads_pure none
    | some a => exact (h.reads a (hvalid a rfl)).map some
  sound {input o rest} hget := by
    unfold Get.optional at hget
    split at hget
    · next hpresent =>
      obtain ⟨a, mid, hfirst, hpure⟩ := bind_eq_some hget
      obtain ⟨rfl, rfl⟩ := returned_inj hpure
      obtain ⟨ha, rfl⟩ := h.sound hfirst
      refine ⟨⟨hpresent.symm, fun b hb => ?_⟩, rfl⟩
      obtain rfl := Option.some.inj hb
      exact ha
    · next habsent =>
      obtain ⟨rfl, rfl⟩ := returned_inj hget
      exact ⟨⟨by simpa using habsent, by simp⟩, rfl⟩

/-- Read a value if there is one, and take a default otherwise. -/
def orDefault (present : Bool) (get : Get α) (default : α) : Get α :=
  if present then get else pure default

/-- A field that is the default unless announced. -/
lemma Canonical.orDefault (h : Canonical get put valid) (present : Bool) (default : α) :
    Canonical (orDefault present get default) (fun a => if present then put a else [])
      fun a => if present then valid a else a = default := by
  unfold Get.orDefault
  cases present with
  | true => simpa using h
  | false => simpa using Canonical.pure_of_iff default fun b => Iff.rfl

end Composite

/-- A fixed number of bytes. -/
abbrev Blob (n : ℕ) := { l : List UInt8 // l.length = n }

/-- Bytes that are all zero. -/
def Blob.zeros (n : ℕ) : Blob n := ⟨List.replicate n 0, List.length_replicate⟩

/-- Read a fixed number of bytes. -/
def blob (n : ℕ) : Get (Blob n) := fun input =>
  if h : n ≤ input.length then some (⟨input.take n, List.length_take_of_le h⟩, input.drop n)
  else none

/-- A blob of fixed width. -/
lemma canonical_blob (n : ℕ) : Canonical (blob n) Subtype.val fun _ => True where
  reads l _ rest := by
    obtain ⟨l, rfl⟩ := l
    simp [blob]
  sound {input a rest} hget := by
    unfold blob at hget
    split at hget
    · obtain ⟨rfl, rfl⟩ := returned_inj hget
      exact ⟨trivial, (take_append_drop n input).symm⟩
    · cases hget

/-- Bytes with their number in front. -/
def putByteVector (l : List UInt8) : List UInt8 := putCompactSize l.length ++ l

/-- Read bytes with their number in front, at most `limit` of them. -/
def byteVector (limit : ℕ) : Get (List UInt8) := getCompactSize limit >>= bytes

/-- Bytes behind their compact size. -/
lemma canonical_byteVector {limit : ℕ} (h64 : limit < 2 ^ 64) :
    Canonical (byteVector limit) putByteVector fun l => l.length ≤ limit := by
  have hvector : Canonical _ _ fun l : List UInt8 => True ∧ l.length ≤ limit ∧ True :=
    (canonical_getCompactSize h64).bind (fun _ => True) length fun n _ =>
      (canonical_bytes n).congr (fun l => by simp) fun _ _ => rfl
  exact hvector.congr (fun l => by simp) fun _ _ => rfl

/-! ### Variable-length integers -/

/-- The number that the digits of a variable-length integer stand for, the last of which stands
alone: one is added to all others. -/
def varIntValue : List UInt8 → UInt8 → ℕ
  | [], last => last.toNat % 128
  | digit :: digits, last =>
    (digit.toNat % 128 + 1) * 128 ^ (digits.length + 1) + varIntValue digits last

/-- Digits of which all but the last one are marked are read as the number they stand for, after
digits that gave `n`, and refused if it is too large. -/
lemma getVarIntLoop_digits {top n : ℕ} {digits : List UInt8} {last : UInt8}
    (htop : top % 128 = 127) (hmarked : ∀ digit ∈ digits, 128 ≤ digit.toNat)
    (hlast : last.toNat < 128) (rest : List UInt8) :
    getVarIntLoop top n (digits ++ last :: rest) =
      if n * 128 ^ (digits.length + 1) + varIntValue digits last ≤ top then
        some (n * 128 ^ (digits.length + 1) + varIntValue digits last, rest)
      else none := by
  induction digits generalizing n with
  | nil =>
    rw [nil_append, getVarIntLoop, varIntValue, length_nil, Nat.zero_add, pow_one]
    by_cases hfit : top / 128 < n
    · rw [if_pos hfit, if_neg (by omega)]
    · dsimp only
      rw [if_neg hfit, if_neg (by omega), if_pos (by omega)]
  | cons digit digits ih =>
    rw [forall_mem_cons] at hmarked
    have hpow : 1 ≤ 128 ^ (digits.length + 1) := Nat.one_le_pow _ _ (by norm_num)
    have hvalue : n * 128 ^ ((digit :: digits).length + 1) + varIntValue (digit :: digits) last =
        (n * 128 + digit.toNat % 128 + 1) * 128 ^ (digits.length + 1) +
          varIntValue digits last := by
      rw [varIntValue, length_cons]
      ring
    have hlarge : n * 128 + digit.toNat % 128 + 1 ≤
        (n * 128 + digit.toNat % 128 + 1) * 128 ^ (digits.length + 1) :=
      Nat.le_mul_of_pos_right _ hpow
    rw [hvalue, cons_append, getVarIntLoop]
    by_cases hfit : top / 128 < n
    · rw [if_pos hfit, if_neg (by omega)]
    dsimp only
    rw [if_neg hfit, if_pos hmarked.1]
    by_cases hmax : n * 128 + digit.toNat % 128 = top
    · rw [if_pos hmax, if_neg (by omega)]
    · rw [if_neg hmax, ih hmarked.2]

/-- One more digit of a variable-length integer. -/
lemma varIntValue_concat (digits : List UInt8) (digit last : UInt8) :
    varIntValue (digits ++ [digit]) last =
      (varIntValue digits digit + 1) * 128 + last.toNat % 128 := by
  induction digits with
  | nil => simp [varIntValue]
  | cons d digits ih =>
    rw [cons_append, varIntValue, varIntValue, ih, length_append, length_singleton]
    ring

/-- The number that digits stand for is written with these digits, the last one marked if others
were found before. -/
lemma putVarIntLoop_varIntValue {digits found : List UInt8} {last : UInt8}
    (hmarked : ∀ digit ∈ digits, 128 ≤ digit.toNat)
    (hlast : last.toNat = last.toNat % 128 + if found = [] then 0 else 128) (k : ℕ) :
    putVarIntLoop (digits.length + k + 1) (varIntValue digits last) found =
      digits ++ last :: found := by
  induction digits using reverseRecOn generalizing last found k with
  | nil =>
    rw [varIntValue, putVarIntLoop, if_pos (by omega), Nat.mod_mod, ← hlast]
    simp
  | append_singleton digits digit ih =>
    rw [forall_mem_append, forall_mem_singleton] at hmarked
    have hbyte := digit.toNat_lt
    have hmod : ((varIntValue digits digit + 1) * 128 + last.toNat % 128) % 128 =
        last.toNat % 128 := by omega
    have hdiv : ((varIntValue digits digit + 1) * 128 + last.toNat % 128) / 128 - 1 =
        varIntValue digits digit := by omega
    have hlen : (digits ++ [digit]).length + k = digits.length + k + 1 := by
      rw [length_append, length_singleton, Nat.add_right_comm]
    have hmark : digit.toNat = digit.toNat % 128 + if last :: found = [] then 0 else 128 := by
      rw [if_neg (cons_ne_nil _ _)]
      omega
    have hrest := ih hmarked.1 hmark k
    rw [varIntValue_concat, hlen, putVarIntLoop, if_neg (by omega), hmod, hdiv, ← hlast]
    simpa using hrest

/-- Every number is the one that some digits stand for, the last of which has the given mark. -/
lemma exists_varIntValue_eq {n len mark : ℕ} (hmark : mark = 0 ∨ mark = 128)
    (hn : n < 128 ^ (len + 1)) :
    ∃ digits last, digits.length ≤ len ∧ (∀ digit ∈ digits, 128 ≤ digit.toNat) ∧
      last.toNat = n % 128 + mark ∧ varIntValue digits last = n := by
  have hlast : (n % 128 + mark).toUInt8.toNat = n % 128 + mark := by
    simp
    omega
  induction len generalizing n mark with
  | zero =>
    refine ⟨[], (n % 128 + mark).toUInt8, le_rfl, by simp, hlast, ?_⟩
    rw [varIntValue, hlast]
    omega
  | succ len ih =>
    by_cases hsmall : n < 128
    · refine ⟨[], (n % 128 + mark).toUInt8, Nat.zero_le _, by simp, hlast, ?_⟩
      rw [varIntValue, hlast]
      omega
    · obtain ⟨digits, digit, hlen, hmarked, hdigit, hvalue⟩ := ih (n := n / 128 - 1) (.inr rfl)
        (by rw [pow_succ] at hn; omega) (by simp; omega)
      refine ⟨digits ++ [digit], (n % 128 + mark).toUInt8, by simpa using hlen, ?_, hlast, ?_⟩
      · rw [forall_mem_append, forall_mem_singleton]
        exact ⟨hmarked, by omega⟩
      · rw [varIntValue_concat, hvalue, hlast]
        omega

/-- A number is read from marked digits and one that is not. -/
lemma exists_digits_of_getVarIntLoop {top n m : ℕ} {input rest : List UInt8}
    (h : getVarIntLoop top n input = some (m, rest)) :
    ∃ digits last, input = digits ++ last :: rest ∧ (∀ digit ∈ digits, 128 ≤ digit.toNat) ∧
      last.toNat < 128 := by
  induction input generalizing n with
  | nil => cases h
  | cons digit input ih =>
    rw [getVarIntLoop] at h
    dsimp only at h
    split_ifs at h with hfit hmarked
    · obtain ⟨digits, last, rfl, hall, hlast⟩ := ih h
      exact ⟨digit :: digits, last, rfl, forall_mem_cons.mpr ⟨hmarked, hall⟩, hlast⟩
    · obtain ⟨rfl, rfl⟩ := returned_inj h
      exact ⟨[], digit, rfl, by simp, by omega⟩

/-- Variable-length integers up to `top`, written in a buffer of `len + 1` bytes. -/
lemma canonical_getVarIntLoop {top len : ℕ} (htop : top % 128 = 127)
    (hlen : top < 128 ^ (len + 1)) :
    Canonical (getVarIntLoop top 0) (fun n => putVarIntLoop (len + 1) n []) (· ≤ top) where
  reads n hn rest := by
    obtain ⟨digits, last, hlength, hmarked, hlast, rfl⟩ :=
      exists_varIntValue_eq (.inl rfl) (lt_of_le_of_lt hn hlen)
    obtain ⟨k, rfl⟩ := Nat.exists_eq_add_of_le hlength
    rw [putVarIntLoop_varIntValue hmarked (by simp; omega), append_assoc]
    have hsmall : last.toNat < 128 := by omega
    have hread := getVarIntLoop_digits (n := 0) htop hmarked hsmall rest
    rw [Nat.zero_mul, Nat.zero_add, if_pos hn] at hread
    exact hread
  sound {input m rest} hget := by
    obtain ⟨digits, last, rfl, hmarked, hlast⟩ := exists_digits_of_getVarIntLoop hget
    rw [getVarIntLoop_digits htop hmarked hlast, Nat.zero_mul, Nat.zero_add] at hget
    split_ifs at hget with hle
    obtain ⟨rfl, -⟩ := returned_inj hget
    have hfits : digits.length ≤ len := by
      cases digits with
      | nil => exact Nat.zero_le _
      | cons digit digits =>
        have hpow : 128 ^ (digits.length + 1) < 128 ^ (len + 1) := by
          rw [varIntValue] at hle
          have := Nat.le_mul_of_pos_left (128 ^ (digits.length + 1))
            (show 0 < digit.toNat % 128 + 1 by omega)
          omega
        exact Nat.le_of_lt_succ ((Nat.pow_lt_pow_iff_right (by norm_num)).mp hpow)
    obtain ⟨k, rfl⟩ := Nat.exists_eq_add_of_le hfits
    refine ⟨hle, ?_⟩
    rw [putVarIntLoop_varIntValue hmarked (by simp; omega), append_assoc]
    rfl

/-- The last seven bits of the largest number below a power of two are set. -/
lemma two_pow_sub_one_mod {e : ℕ} (he : 7 ≤ e) : (2 ^ e - 1) % 128 = 127 := by
  obtain ⟨d, rfl⟩ := Nat.exists_eq_add_of_le he
  have hpow : 2 ^ (7 + d) = 128 * 2 ^ d := by rw [pow_add]; norm_num
  have hpos : 0 < 2 ^ d := Nat.two_pow_pos d
  rw [hpow]
  omega

/-- Numbers of `e` bits, written in a buffer for `bits` of them. -/
lemma canonical_putVarInt {e bits : ℕ} (he : 7 ≤ e) (hbits : e ≤ bits) :
    Canonical (getVarIntLoop (2 ^ e - 1) 0) (putVarInt bits) (· ≤ 2 ^ e - 1) := by
  obtain ⟨len, hlen⟩ : ∃ len, (bits + 6) / 7 = len + 1 := ⟨(bits - 1) / 7, by omega⟩
  have hbuffer : 2 ^ e - 1 < 128 ^ (len + 1) :=
    calc 2 ^ e - 1 < 2 ^ e := Nat.sub_lt (Nat.two_pow_pos _) Nat.one_pos
      _ ≤ 2 ^ (7 * (len + 1)) := Nat.pow_le_pow_right (by norm_num) (by omega)
      _ = 128 ^ (len + 1) := by rw [pow_mul]; norm_num
  have h := canonical_getVarIntLoop (two_pow_sub_one_mod he) hbuffer
  unfold putVarInt
  rwa [hlen]

/-- A number that fits is read back. -/
lemma reads_getVarInt {width n : ℕ} (hwidth : 7 ≤ width) (hn : n < 2 ^ width) :
    Reads (getVarInt width) (putVarInt width n) n :=
  (canonical_putVarInt hwidth le_rfl).reads n (by omega)

/-- A small number is a single byte. -/
lemma reads_getVarInt_byte {width n : ℕ} (hwidth : 7 ≤ width) (hn : n < 128) :
    Reads (getVarInt width) [n.toUInt8] n := by
  have hput : putVarInt width n = [n.toUInt8] := by
    obtain ⟨len, hlen⟩ : ∃ len, (width + 6) / 7 = len + 1 := ⟨(width - 1) / 7, by omega⟩
    rw [putVarInt, hlen, putVarIntLoop, if_pos (by omega), if_pos rfl, Nat.add_zero,
      Nat.mod_eq_of_lt hn]
  rw [← hput]
  have hpow : 2 ^ 7 ≤ 2 ^ width := Nat.pow_le_pow_right (by norm_num) hwidth
  exact reads_getVarInt hwidth (by omega)

/-- Read a non-negative number of a signed type with the given number of bits. -/
def getSignedVarInt (bits : ℕ) : Get ℕ := getVarIntLoop (2 ^ (bits - 1) - 1) 0

/-- A signed variable-length integer that is not negative. -/
lemma canonical_getSignedVarInt {bits : ℕ} (hbits : 8 ≤ bits) :
    Canonical (getSignedVarInt bits) (putVarInt bits) (· ≤ 2 ^ (bits - 1) - 1) :=
  canonical_putVarInt (by omega) (by omega)

end Get

end Aegisum
