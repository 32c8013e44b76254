import Aegisum.Node.KernelFormat

/-!
# The format of MWEB transactions

Inputs, outputs, the body and `mw::Transaction`.  Inputs and output messages decide by their
feature bits both in reading and in writing, so their formats are canonical.  A transaction is
canonical up to its kernels: `MwTransaction.write` takes the format of a kernel as a parameter, and
what is accepted is what is written with kernels as they are sent.
-/

namespace Aegisum

namespace Wire

open Get

/-! ### Inputs -/

/-- An input as it is sent. -/
structure Input where
  features : UInt8
  outputID : Blob 32
  commitment : Blob 33
  outputPubKey : Blob 33
  inputPubKey : Option (Blob 33)
  extraData : List UInt8
  signature : Blob 64
deriving DecidableEq

namespace Input

def stealthKeyFeatureBit : UInt8 := 0x01
def extraDataFeatureBit : UInt8 := 0x02

def serialize (input : Input) : List UInt8 :=
  [input.features] ++ (input.outputID.val ++ (input.commitment.val ++ (input.outputPubKey.val ++
    ((if input.features &&& stealthKeyFeatureBit != 0 then
        putOption Subtype.val input.inputPubKey else []) ++
    ((if input.features &&& extraDataFeatureBit != 0 then putByteVector input.extraData else []) ++
    input.signature.val)))))

def unserialize : Get Input := do
  let features ← byte
  let outputID ← blob 32
  let commitment ← blob 33
  let outputPubKey ← blob 33
  let inputPubKey ← optional (features &&& stealthKeyFeatureBit != 0) (blob 33)
  let extraData ← orDefault (features &&& extraDataFeatureBit != 0) (byteVector maxSize) []
  let signature ← blob 64
  pure ⟨features, outputID, commitment, outputPubKey, inputPubKey, extraData, signature⟩

/-- The fields are those the feature bits announce. -/
structure Valid (input : Input) : Prop where
  inputPubKey : input.inputPubKey.isSome = (input.features &&& stealthKeyFeatureBit != 0)
  extraData : if input.features &&& extraDataFeatureBit != 0 then input.extraData.length ≤ maxSize
    else input.extraData = []

lemma canonical_unserialize : Canonical unserialize serialize Valid := by
  have h : Canonical unserialize _ _ :=
    canonical_byte.bind_first features _ _ fun _ _ =>
    (canonical_blob 32).bind _ outputID fun _ _ =>
    (canonical_blob 33).bind _ commitment fun _ _ =>
    (canonical_blob 33).bind _ outputPubKey fun _ _ =>
    ((canonical_blob 33).optional _).bind _ inputPubKey fun _ _ =>
    ((canonical_byteVector maxSize_lt).orDefault _ []).bind _ extraData fun _ _ =>
    (canonical_blob 64).bind _ signature fun _ _ =>
    .record (fun _ => True) fun i => by cases i; simp [and_assoc]
  refine h.congr (fun i => ?_) fun i hi => ?_
  · exact ⟨fun hi => ⟨trivial, trivial, trivial, trivial, ⟨hi.inputPubKey, fun _ _ => trivial⟩,
      hi.extraData, trivial, trivial⟩, fun hi => ⟨hi.2.2.2.2.1.1, hi.2.2.2.2.2.1⟩⟩
  · rw [serialize, List.append_nil, ← hi.2.2.2.2.1.1]
    cases i.inputPubKey <;> rfl

end Input

/-! ### Outputs -/

/-- The standard fields of an output message. -/
structure StandardFields where
  keyExchangePubKey : Blob 33
  viewTag : UInt8
  maskedValue : UInt64
  maskedNonce : Blob 16
deriving DecidableEq

namespace StandardFields

def serialize (f : StandardFields) : List UInt8 :=
  f.keyExchangePubKey.val ++ ([f.viewTag] ++ (putLE 8 f.maskedValue.toNat ++ f.maskedNonce.val))

def unserialize : Get StandardFields := do
  let keyExchangePubKey ← blob 33
  let viewTag ← byte
  let maskedValue ← getInt 8 UInt64.ofNat
  let maskedNonce ← blob 16
  pure ⟨keyExchangePubKey, viewTag, maskedValue, maskedNonce⟩

lemma canonical_unserialize : Canonical unserialize serialize fun _ => True := by
  have h : Canonical unserialize _ _ :=
    (canonical_blob 33).bind (fun _ => True) keyExchangePubKey fun _ _ =>
    canonical_byte.bind _ viewTag fun _ _ =>
    canonical_getUInt64.bind _ maskedValue fun _ _ =>
    (canonical_blob 16).bind _ maskedNonce fun _ _ =>
    .record (fun _ => True) fun f => by cases f; simp [and_assoc]
  exact h.congr (fun f => by simp) fun f _ => by rw [serialize, List.append_nil]

end StandardFields

/-- An output message as it is sent. -/
structure OutputMessage where
  features : UInt8
  standardFields : Option StandardFields
  extraData : List UInt8
deriving DecidableEq

namespace OutputMessage

def standardFieldsFeatureBit : UInt8 := 0x01
def extraDataFeatureBit : UInt8 := 0x02

def serialize (m : OutputMessage) : List UInt8 :=
  [m.features] ++
    ((if m.features &&& standardFieldsFeatureBit != 0 then
        putOption StandardFields.serialize m.standardFields else []) ++
    (if m.features &&& extraDataFeatureBit != 0 then putByteVector m.extraData else []))

def unserialize : Get OutputMessage := do
  let features ← byte
  let standardFields ←
    optional (features &&& standardFieldsFeatureBit != 0) StandardFields.unserialize
  let extraData ← orDefault (features &&& extraDataFeatureBit != 0) (byteVector maxSize) []
  pure ⟨features, standardFields, extraData⟩

/-- The fields are those the feature bits announce. -/
structure Valid (m : OutputMessage) : Prop where
  standardFields : m.standardFields.isSome = (m.features &&& standardFieldsFeatureBit != 0)
  extraData : if m.features &&& extraDataFeatureBit != 0 then m.extraData.length ≤ maxSize
    else m.extraData = []

lemma canonical_unserialize : Canonical unserialize serialize Valid := by
  have h : Canonical unserialize _ _ :=
    canonical_byte.bind_first features _ _ fun _ _ =>
    (StandardFields.canonical_unserialize.optional _).bind _ standardFields fun _ _ =>
    ((canonical_byteVector maxSize_lt).orDefault _ []).bind _ extraData fun _ _ =>
    .record (fun _ => True) fun m => by cases m; simp [and_assoc]
  refine h.congr (fun m => ?_) fun m hm => ?_
  · exact ⟨fun hm => ⟨trivial, ⟨hm.standardFields, fun _ _ => trivial⟩, hm.extraData, trivial⟩,
      fun hm => ⟨hm.2.1.1, hm.2.2.1⟩⟩
  · rw [serialize, List.append_nil, ← hm.2.1.1]
    cases m.standardFields <;> rfl

end OutputMessage

/-- An output as it is sent. -/
structure Output where
  commitment : Blob 33
  senderPubKey : Blob 33
  receiverPubKey : Blob 33
  message : OutputMessage
  proof : Blob 675
  signature : Blob 64
deriving DecidableEq

namespace Output

def serialize (o : Output) : List UInt8 :=
  o.commitment.val ++ (o.senderPubKey.val ++ (o.receiverPubKey.val ++
    (o.message.serialize ++ (o.proof.val ++ o.signature.val))))

def unserialize : Get Output := do
  let commitment ← blob 33
  let senderPubKey ← blob 33
  let receiverPubKey ← blob 33
  let message ← OutputMessage.unserialize
  let proof ← blob 675
  let signature ← blob 64
  pure ⟨commitment, senderPubKey, receiverPubKey, message, proof, signature⟩

lemma canonical_unserialize : Canonical unserialize serialize fun o => o.message.Valid := by
  have h : Canonical unserialize _ _ :=
    (canonical_blob 33).bind (fun _ => True) commitment fun _ _ =>
    (canonical_blob 33).bind _ senderPubKey fun _ _ =>
    (canonical_blob 33).bind _ receiverPubKey fun _ _ =>
    OutputMessage.canonical_unserialize.bind _ message fun _ _ =>
    (canonical_blob 675).bind _ proof fun _ _ =>
    (canonical_blob 64).bind _ signature fun _ _ =>
    .record (fun _ => True) fun o => by cases o; simp [and_assoc]
  exact h.congr (fun o => by simp) fun o _ => by rw [serialize, List.append_nil]

end Output

/-! ### Transactions -/

/-- An MWEB transaction as it is sent. -/
structure MwTransaction where
  kernelOffset : Blob 32
  stealthOffset : Blob 32
  inputs : List Input
  outputs : List Output
  kernels : List Kernel
deriving DecidableEq

namespace MwTransaction

/-- The offsets and the three vectors of the body, for a given format of kernels. -/
def write (putKernel : Kernel → List UInt8) (t : MwTransaction) : List UInt8 :=
  t.kernelOffset.val ++ (t.stealthOffset.val ++ (putVector Input.serialize t.inputs ++
    (putVector Output.serialize t.outputs ++ putVector putKernel t.kernels)))

def serialize (t : MwTransaction) : List UInt8 := t.write Kernel.serialize

def unserialize : Get MwTransaction := do
  let kernelOffset ← blob 32
  let stealthOffset ← blob 32
  let inputs ← vector maxSize Input.unserialize
  let outputs ← vector maxSize Output.unserialize
  let kernels ← vector maxSize Kernel.unserialize
  if kernels = [] then fail else
  pure ⟨kernelOffset, stealthOffset, inputs, outputs, kernels⟩

/-- The vectors are not too long, their elements are valid and there is a kernel. -/
structure Valid (t : MwTransaction) : Prop where
  inputs : t.inputs.length ≤ maxSize ∧ ∀ i ∈ t.inputs, i.Valid
  outputs : t.outputs.length ≤ maxSize ∧ ∀ o ∈ t.outputs, o.message.Valid
  kernels : t.kernels.length ≤ maxSize ∧ ∀ k ∈ t.kernels, k.Valid
  kernels_ne_nil : t.kernels ≠ []

/-- The decoder accepts exactly what is written with the kernels as they are sent. -/
lemma canonical_unserialize : Canonical unserialize (write Kernel.sent) Valid := by
  have h : Canonical unserialize _ _ :=
    (canonical_blob 32).bind (fun _ => True) kernelOffset fun _ _ =>
    (canonical_blob 32).bind _ stealthOffset fun _ _ =>
    (Input.canonical_unserialize.vector maxSize_lt).bind _ inputs fun _ _ =>
    (Output.canonical_unserialize.vector maxSize_lt).bind _ outputs fun _ _ =>
    (Kernel.canonical_unserialize.vector maxSize_lt).bind _ kernels fun _ _ =>
    .record_check (fun t : MwTransaction => t.kernels = []) (by rfl) fun t => by
      cases t
      simp [and_assoc]
  refine h.congr (fun t => ?_) fun t _ => by rw [write, List.append_nil]
  exact ⟨fun ht => ⟨trivial, trivial, trivial, ht.1, ht.2, ht.3, ht.4⟩,
    fun ht => ⟨ht.2.2.2.1, ht.2.2.2.2.1, ht.2.2.2.2.2.1, ht.2.2.2.2.2.2⟩⟩

/-- Some kernel announces an empty vector. -/
def AnnouncesEmpty (t : MwTransaction) : Prop := ∃ k ∈ t.kernels, k.AnnouncesEmpty

/-- A transaction is written as it was sent unless a kernel announced an empty vector. -/
lemma serialize_eq_sent_iff {t : MwTransaction} (ht : t.Valid) :
    t.serialize = t.write Kernel.sent ↔ ¬ t.AnnouncesEmpty := by
  unfold serialize write putVector
  simp only [List.append_cancel_left_eq]
  constructor
  · rintro heq ⟨k, hk, hempty⟩
    -- no kernel is shorter as it is sent, and this one is longer
    have hle : ∀ k ∈ t.kernels, k.serialize.length ≤ k.sent.length := fun k hk =>
      Kernel.length_serialize_le (ht.kernels.2 k hk)
    have hlt := Kernel.length_serialize_lt (ht.kernels.2 k hk) hempty
    have hsum := congrArg List.length heq
    rw [List.length_flatMap, List.length_flatMap] at hsum
    exact (List.sum_lt_sum _ _ hle ⟨k, hk, hlt⟩).ne hsum
  · intro hempty
    refine List.flatMap_congr fun k hk => ?_
    exact (Kernel.serialize_eq_sent_iff (ht.kernels.2 k hk)).mpr fun hk' => hempty ⟨k, hk, hk'⟩

end MwTransaction

end Wire

end Aegisum
