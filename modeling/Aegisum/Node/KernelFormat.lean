import Aegisum.Foundations.Canonical
import Aegisum.Node.UndoFormat

/-!
# The format of kernels

`Kernel::Serialize`, `Kernel::Unserialize` and the format of peg-outs, on the bytes themselves:
commitments, keys and signatures are byte strings of fixed lengths and nothing else is asked of
them.  The decoder reads a field if its feature bit is set; the encoder writes it if it is not
empty.  For the optional numbers and the stealth excess the two agree, since a field that was read
is present.  A vector of peg-outs or extra data that was read may be empty, and is then left out.
-/

namespace Aegisum

namespace Wire

open Get

/-! ### Peg-outs -/

/-- A peg-out as it is sent. -/
structure PegOutCoin where
  amount : ℕ
  scriptPubKey : List UInt8
deriving DecidableEq

namespace PegOutCoin

def serialize (pegout : PegOutCoin) : List UInt8 :=
  putVarInt 64 pegout.amount ++ putByteVector pegout.scriptPubKey

def unserialize : Get PegOutCoin := do
  let amount ← getSignedVarInt 64
  let scriptPubKey ← byteVector maxSize
  if scriptPubKey = [] then fail else pure ⟨amount, scriptPubKey⟩

/-- What every peg-out that is read satisfies. -/
structure Valid (pegout : PegOutCoin) : Prop where
  amount_le : pegout.amount ≤ 2 ^ 63 - 1
  script_le : pegout.scriptPubKey.length ≤ maxSize
  script_ne_nil : pegout.scriptPubKey ≠ []

lemma canonical_unserialize : Canonical unserialize serialize Valid := by
  have h : Canonical unserialize _ _ :=
    (canonical_getSignedVarInt (by norm_num)).bind (fun _ => True) amount fun _ _ =>
    (canonical_byteVector maxSize_lt).bind _ scriptPubKey fun _ _ =>
    .record_check (fun p : PegOutCoin => p.scriptPubKey = []) (by rfl) fun p => by cases p; simp
  refine h.congr (fun p => ⟨fun hp => ⟨trivial, hp.1, hp.2, hp.3⟩, fun hp => ⟨hp.2.1, hp.2.2.1,
    hp.2.2.2⟩⟩) fun p _ => ?_
  rw [serialize, List.append_nil]

end PegOutCoin

/-! ### Kernels -/

/-- A kernel as it is sent. -/
structure Kernel where
  features : UInt8
  fee : Option ℕ
  pegin : Option ℕ
  pegouts : List PegOutCoin
  lockHeight : Option ℕ
  stealthExcess : Option (Blob 33)
  extraData : List UInt8
  excess : Blob 33
  signature : Blob 64
deriving DecidableEq

namespace Kernel

def feeFeatureBit : UInt8 := 0x01
def peginFeatureBit : UInt8 := 0x02
def pegoutFeatureBit : UInt8 := 0x04
def heightLockFeatureBit : UInt8 := 0x08
def stealthExcessFeatureBit : UInt8 := 0x10
def extraDataFeatureBit : UInt8 := 0x20

/-- Write the fields that are there. -/
def serialize (k : Kernel) : List UInt8 :=
  [k.features] ++
    (putOption (putVarInt 64) k.fee ++
    (putOption (putVarInt 64) k.pegin ++
    ((if k.pegouts = [] then [] else putVector PegOutCoin.serialize k.pegouts) ++
    (putOption (putVarInt 32) k.lockHeight ++
    (putOption Subtype.val k.stealthExcess ++
    ((if k.extraData = [] then [] else putByteVector k.extraData) ++
    (k.excess.val ++ k.signature.val)))))))

/-- Read the fields that the feature bits announce. -/
def unserialize : Get Kernel := do
  let features ← byte
  let fee ← optional (features &&& feeFeatureBit != 0) (getSignedVarInt 64)
  let pegin ← optional (features &&& peginFeatureBit != 0) (getSignedVarInt 64)
  let pegouts ← orDefault (features &&& pegoutFeatureBit != 0)
    (vector maxSize PegOutCoin.unserialize) []
  let lockHeight ← optional (features &&& heightLockFeatureBit != 0) (getSignedVarInt 32)
  let stealthExcess ← optional (features &&& stealthExcessFeatureBit != 0) (blob 33)
  let extraData ← orDefault (features &&& extraDataFeatureBit != 0) (byteVector maxSize) []
  let excess ← blob 33
  let signature ← blob 64
  pure ⟨features, fee, pegin, pegouts, lockHeight, stealthExcess, extraData, excess, signature⟩

/-- The bytes of a kernel whose fields are written by the feature bits. -/
def sent (k : Kernel) : List UInt8 :=
  [k.features] ++
    (putOption (putVarInt 64) k.fee ++
    (putOption (putVarInt 64) k.pegin ++
    ((if k.features &&& pegoutFeatureBit != 0 then putVector PegOutCoin.serialize k.pegouts
      else []) ++
    (putOption (putVarInt 32) k.lockHeight ++
    (putOption Subtype.val k.stealthExcess ++
    ((if k.features &&& extraDataFeatureBit != 0 then putByteVector k.extraData else []) ++
    (k.excess.val ++ (k.signature.val ++ []))))))))

/-- The fields of a kernel are those its feature bits announce, and fit their formats. -/
structure Valid (k : Kernel) : Prop where
  fee : k.fee.isSome = (k.features &&& feeFeatureBit != 0) ∧ ∀ n ∈ k.fee, n ≤ 2 ^ 63 - 1
  pegin : k.pegin.isSome = (k.features &&& peginFeatureBit != 0) ∧ ∀ n ∈ k.pegin, n ≤ 2 ^ 63 - 1
  pegouts : if k.features &&& pegoutFeatureBit != 0 then
    k.pegouts.length ≤ maxSize ∧ ∀ pegout ∈ k.pegouts, pegout.Valid else k.pegouts = []
  lockHeight : k.lockHeight.isSome = (k.features &&& heightLockFeatureBit != 0) ∧
    ∀ n ∈ k.lockHeight, n ≤ 2 ^ 31 - 1
  stealthExcess : k.stealthExcess.isSome = (k.features &&& stealthExcessFeatureBit != 0)
  extraData : if k.features &&& extraDataFeatureBit != 0 then k.extraData.length ≤ maxSize
    else k.extraData = []

/-- The decoder accepts exactly what is sent for valid kernels. -/
lemma canonical_unserialize : Canonical unserialize sent Valid := by
  have hamount := canonical_getSignedVarInt (show 8 ≤ 64 by norm_num)
  have h : Canonical unserialize _ _ :=
    canonical_byte.bind_first features _ _ fun _ _ =>
    (hamount.optional _).bind _ fee fun _ _ =>
    (hamount.optional _).bind _ pegin fun _ _ =>
    ((PegOutCoin.canonical_unserialize.vector maxSize_lt).orDefault _ []).bind _ pegouts fun _ _ =>
    ((canonical_getSignedVarInt (by norm_num)).optional _).bind _ lockHeight fun _ _ =>
    ((canonical_blob 33).optional _).bind _ stealthExcess fun _ _ =>
    ((canonical_byteVector maxSize_lt).orDefault _ []).bind _ extraData fun _ _ =>
    (canonical_blob 33).bind _ excess fun _ _ =>
    (canonical_blob 64).bind _ signature fun _ _ =>
    .record (fun _ => True) fun k => by cases k; simp [and_assoc]
  refine h.congr (fun k => ⟨fun hk => ?_, ?_⟩) fun _ _ => rfl
  · exact ⟨trivial, hk.fee, hk.pegin, hk.pegouts, hk.lockHeight,
      ⟨hk.stealthExcess, fun _ _ => trivial⟩, hk.extraData, trivial, trivial, trivial⟩
  · rintro ⟨-, hfee, hpegin, hpegouts, hlock, hstealth, hextra, -⟩
    exact ⟨hfee, hpegin, hpegouts, hlock, hstealth.1, hextra⟩

/-! ### Writing what was read -/

/-- A feature bit announces a vector, and the vector is empty. -/
def AnnouncesEmpty (k : Kernel) : Prop :=
  (k.features &&& pegoutFeatureBit != 0) = true ∧ k.pegouts = [] ∨
    (k.features &&& extraDataFeatureBit != 0) = true ∧ k.extraData = []

instance (k : Kernel) : Decidable k.AnnouncesEmpty :=
  inferInstanceAs (Decidable (_ ∧ _ ∨ _ ∧ _))

/-- The bytes start with a kernel whose feature bits announce an empty vector of peg-outs or empty
extra data. -/
def SendsEmptyVector (input : List UInt8) : Prop :=
  ∃ k rest, Valid k ∧ k.AnnouncesEmpty ∧ input = k.sent ++ rest

lemma sendsEmptyVector_iff {input rest : List UInt8} {k : Kernel}
    (h : unserialize input = some (k, rest)) : SendsEmptyVector input ↔ k.AnnouncesEmpty := by
  obtain ⟨hk, hinput⟩ := canonical_unserialize.sound h
  constructor
  · rintro ⟨k', rest', hk', hempty, hinput'⟩
    obtain ⟨rfl, -⟩ := canonical_unserialize.eq_of_append_eq hk hk' (hinput.symm.trans hinput')
    exact hempty
  · exact fun hempty => ⟨k, rest, hk, hempty, hinput⟩

section Announced

variable {α : Type} {put : List α → List UInt8} {l : List α} [Decidable (l = [])] {bit : Bool}

/-- A vector that is written if a bit announces it takes one byte more than one that is written if
it is not empty, where an empty one is announced. -/
lemma length_announced (hput : (put []).length = 1) (hl : bit = false → l = []) :
    (if bit then put l else []).length =
      (if l = [] then [] else put l).length + if bit = true ∧ l = [] then 1 else 0 := by
  cases bit with
  | false => simp [hl rfl]
  | true => by_cases hnil : l = [] <;> simp [hnil, hput]

/-- The two are the same where no empty vector is announced. -/
lemma announced_eq (hl : bit = false → l = []) (hne : bit = true → l ≠ []) :
    (if l = [] then [] else put l) = if bit then put l else [] := by
  cases bit with
  | false => simp [hl rfl]
  | true => simp [hne rfl]

end Announced

/-- What is not announced is empty. -/
lemma Valid.eq_nil {k : Kernel} (hk : k.Valid) :
    ((k.features &&& pegoutFeatureBit != 0) = false → k.pegouts = []) ∧
      ((k.features &&& extraDataFeatureBit != 0) = false → k.extraData = []) :=
  ⟨fun hbit => by simpa [hbit] using hk.pegouts, fun hbit => by simpa [hbit] using hk.extraData⟩

/-- An empty vector takes one byte, which is not written. -/
lemma length_sent {k : Kernel} (hk : k.Valid) : k.sent.length = k.serialize.length +
    (if (k.features &&& pegoutFeatureBit != 0) = true ∧ k.pegouts = [] then 1 else 0) +
      (if (k.features &&& extraDataFeatureBit != 0) = true ∧ k.extraData = [] then 1 else 0) := by
  have hnil : (putVector PegOutCoin.serialize []).length = 1 ∧ (putByteVector []).length = 1 := by
    decide
  unfold sent serialize
  simp only [List.length_append, List.length_nil, length_announced hnil.1 hk.eq_nil.1,
    length_announced hnil.2 hk.eq_nil.2]
  omega

lemma length_serialize_le {k : Kernel} (hk : k.Valid) : k.serialize.length ≤ k.sent.length := by
  have hlength := length_sent hk
  omega

lemma length_serialize_lt {k : Kernel} (hk : k.Valid) (hempty : k.AnnouncesEmpty) :
    k.serialize.length < k.sent.length := by
  have hlength := length_sent hk
  rcases hempty with hempty | hempty
  · rw [if_pos hempty] at hlength
    omega
  · rw [if_pos hempty] at hlength
    omega

/-- A kernel is written as it was sent unless an empty vector was announced. -/
lemma serialize_eq_sent_iff {k : Kernel} (hk : k.Valid) :
    k.serialize = k.sent ↔ ¬ k.AnnouncesEmpty := by
  constructor
  · intro heq hempty
    exact (length_serialize_lt hk hempty).ne (congrArg List.length heq)
  · intro hempty
    rw [AnnouncesEmpty, not_or, not_and, not_and] at hempty
    rw [serialize, sent, announced_eq hk.eq_nil.1 hempty.1, announced_eq hk.eq_nil.2 hempty.2,
      List.append_nil]

/-- The kernel id, which is the hash of the kernel as it is written. -/
def getKernelID {H : Type} (hash : List UInt8 → H) (k : Kernel) : H := hash k.serialize

/-- For all bytes that the decoder accepts: the kernel is written as it was received exactly if no
feature bit announced an empty vector.  Then its id is the hash of the received bytes, and two
kernels received as different bytes have different ids. -/
theorem serialize_eq_received_iff {H : Type} {hash : List UInt8 → H}
    (hinj : Function.Injective hash) {input rest : List UInt8} {k : Kernel}
    (h : unserialize input = some (k, rest)) :
    (input = k.serialize ++ rest ↔ ¬ SendsEmptyVector input) ∧
      (¬ SendsEmptyVector input →
        (∀ received, input = received ++ rest → k.getKernelID hash = hash received) ∧
        ∀ input' rest' k', unserialize input' = some (k', rest') → ¬ SendsEmptyVector input' →
          k.getKernelID hash = k'.getKernelID hash →
          ∃ received, input = received ++ rest ∧ input' = received ++ rest') := by
  -- what was received and how it is written back
  have hback : ∀ {input rest : List UInt8} {k : Kernel}, unserialize input = some (k, rest) →
      (input = k.serialize ++ rest ↔ ¬ SendsEmptyVector input) := by
    intro input rest k h
    obtain ⟨hk, hinput⟩ := canonical_unserialize.sound h
    rw [sendsEmptyVector_iff h, ← serialize_eq_sent_iff hk, hinput, List.append_cancel_right_eq]
    exact eq_comm
  refine ⟨hback h, fun hempty => ⟨fun received hreceived => ?_, fun input' rest' k' h' hempty'
    hid => ?_⟩⟩
  · have heq := (hback h).mpr hempty
    rw [hreceived, List.append_cancel_right_eq] at heq
    rw [getKernelID, heq]
  · refine ⟨k.serialize, (hback h).mpr hempty, ?_⟩
    rw [hinj hid]
    exact (hback h').mpr hempty'

section Example

/-- A kernel with all optional fields. -/
def fullKernel : Kernel :=
  ⟨0x3f, some 5, some 300, [⟨9, [0x51]⟩, ⟨200, [0x51, 0x52]⟩], some 3,
    some (.zeros 33), [7, 7], .zeros 33, .zeros 64⟩

/-- It is written as it was received. -/
theorem serialize_eq_received_full :
    unserialize fullKernel.sent = some (fullKernel, []) ∧
      fullKernel.sent = fullKernel.serialize ++ [] := by
  have h : unserialize fullKernel.sent = some (fullKernel, []) := by decide +kernel
  refine ⟨h, (serialize_eq_received_iff Function.injective_id h).1.mpr ?_⟩
  rw [sendsEmptyVector_iff h]
  decide +kernel

/-- A kernel with peg-outs, stealth excess and extra data announced. -/
def announcing (pegouts : List PegOutCoin) (stealthExcess : Blob 33) (extraData : List UInt8) :
    Kernel :=
  ⟨0x34, none, none, pegouts, none, some stealthExcess, extraData, .zeros 33, .zeros 64⟩

/-- No peg-outs, a stealth excess and extra data. -/
def withoutPegouts : Kernel :=
  announcing [] ⟨[1, 0, 1, 0x51] ++ List.replicate 29 0, by simp⟩ [7, 7, 7]

/-- One peg-out, another stealth excess and no extra data. -/
def withPegout : Kernel :=
  announcing [⟨0, [0x51]⟩] ⟨List.replicate 29 0 ++ [3, 7, 7, 7], by simp⟩ []

/-- Two different kernels that are both accepted are written as the same bytes, so that neither is
written as it was received and they have the same id under any hash. -/
theorem serialize_withPegout :
    unserialize withoutPegouts.sent = some (withoutPegouts, []) ∧
      unserialize withPegout.sent = some (withPegout, []) ∧
      withoutPegouts.sent ≠ withPegout.sent ∧
      withoutPegouts.serialize ≠ withoutPegouts.sent ∧ withPegout.serialize ≠ withPegout.sent ∧
      ∀ hash : List UInt8 → List UInt8,
        withoutPegouts.getKernelID hash = withPegout.getKernelID hash :=
  ⟨by decide +kernel, by decide +kernel, by decide +kernel, by decide +kernel, by decide +kernel,
    fun hash => congrArg hash (by decide +kernel)⟩

end Example

end Kernel

end Wire

end Aegisum
