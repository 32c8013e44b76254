import Aegisum.Node.CheckBlock
import Aegisum.Node.MwebFormat

/-!
# The format of transactions

`UnserializeTransaction` and `SerializeTransaction`.  An empty vector of inputs is a marker, after
which a byte of flags announces witnesses and MWEB data.  An MWEB transaction that is announced and
absent marks a HogEx.  Whether it is there is decided by a byte that is written as 0 or 1, but of
which reading only asks whether it is 1.  The lengths without MWEB data are the sizes that weights
are computed from.
-/

namespace Aegisum

open List

namespace Wire

open Get MwTransaction

/-! ### Inputs and outputs -/

/-- A reference to an output. -/
structure COutPoint where
  hash : Blob 32
  n : UInt32
deriving DecidableEq

/-- An input; its witness is not part of its own format. -/
structure CTxIn where
  prevout : COutPoint
  scriptSig : List UInt8
  nSequence : UInt32
  scriptWitness : List (List UInt8)
deriving DecidableEq

/-- An output. -/
structure CTxOut where
  nValue : Int64
  scriptPubKey : List UInt8
deriving DecidableEq

namespace CTxIn

def serialize (txin : CTxIn) : List UInt8 :=
  txin.prevout.hash.val ++ (putLE 4 txin.prevout.n.toNat ++ (putByteVector txin.scriptSig ++
    putLE 4 txin.nSequence.toNat))

def unserialize : Get CTxIn := do
  let hash ← blob 32
  let n ← getInt 4 UInt32.ofNat
  let scriptSig ← byteVector maxSize
  let nSequence ← getInt 4 UInt32.ofNat
  pure ⟨⟨hash, n⟩, scriptSig, nSequence, []⟩

/-- What every input that is read satisfies. -/
structure Valid (txin : CTxIn) : Prop where
  script_le : txin.scriptSig.length ≤ maxSize
  witness_eq : txin.scriptWitness = []

lemma canonical_unserialize : Canonical unserialize serialize Valid := by
  have h : Canonical unserialize _ _ :=
    (canonical_blob 32).bind (fun _ => True) (fun t : CTxIn => t.prevout.hash) fun _ _ =>
    canonical_getUInt32.bind _ (fun t => t.prevout.n) fun _ _ =>
    (canonical_byteVector maxSize_lt).bind _ scriptSig fun _ _ =>
    canonical_getUInt32.bind _ nSequence fun _ _ =>
    .record (fun t : CTxIn => t.scriptWitness = []) fun t => by
      obtain ⟨⟨_, _⟩, _, _, _⟩ := t
      simp [and_assoc]
  refine h.congr (fun t => ?_) fun t _ => by rw [serialize, append_nil]
  exact ⟨fun ht => ⟨trivial, trivial, trivial, ht.1, trivial, ht.2⟩,
    fun ht => ⟨ht.2.2.2.1, ht.2.2.2.2.2⟩⟩

end CTxIn

namespace CTxOut

def serialize (out : CTxOut) : List UInt8 :=
  putLE 8 out.nValue.toUInt64.toNat ++ putByteVector out.scriptPubKey

def unserialize : Get CTxOut := do
  let nValue ← getInt 8 fun n => (UInt64.ofNat n).toInt64
  let scriptPubKey ← byteVector maxSize
  pure ⟨nValue, scriptPubKey⟩

lemma canonical_unserialize :
    Canonical unserialize serialize fun out => out.scriptPubKey.length ≤ maxSize := by
  have h : Canonical unserialize _ _ :=
    canonical_getInt64.bind (fun _ => True) nValue fun _ _ =>
    (canonical_byteVector maxSize_lt).bind _ scriptPubKey fun _ _ =>
    .record (fun _ => True) fun out => by cases out; simp
  exact h.congr (fun out => by simp) fun out _ => by rw [serialize, append_nil]

end CTxOut

/-! ### Transactions -/

/-- A transaction. -/
structure CTransaction where
  nVersion : Int32
  vin : List CTxIn
  vout : List CTxOut
  nLockTime : UInt32
  mwebTx : Option MwTransaction
  hogEx : Bool
deriving DecidableEq

/-- Some input has a witness. -/
def hasWitness (vin : List CTxIn) : Bool := vin.any fun txin => !txin.scriptWitness.isEmpty

/-- The byte and the transaction that `OptionalPtr` writes, given the byte for a null pointer and
the format of transactions. -/
def putOptionalPtr (absent : UInt8) (put : MwTransaction → List UInt8) :
    Option MwTransaction → List UInt8
  | none => [absent]
  | some t => 1 :: put t

/-- `OptionalPtr::Unserialize`. -/
def getOptionalPtr : Get (Option MwTransaction) := do
  let isSet ← byte
  if isSet = 1 then MwTransaction.unserialize >>= fun t => pure (some t) else pure none

/-- The witnesses of the inputs, in their order. -/
def getWitnesses : List CTxIn → Get (List CTxIn)
  | [] => pure []
  | txin :: vin => do
    let stack ← vector maxSize (byteVector maxSize)
    let vin ← getWitnesses vin
    pure ({ txin with scriptWitness := stack } :: vin)

/-- The flags, inputs and outputs. -/
def getInsOuts (fAllowWitness : Bool) : Get (UInt8 × List CTxIn × List CTxOut) := do
  let vin ← vector maxSize CTxIn.unserialize
  if vin.isEmpty && fAllowWitness then do
    let flags ← byte
    if flags = 0 then pure (0, [], [])
    else do
      let vin ← vector maxSize CTxIn.unserialize
      let vout ← vector maxSize CTxOut.unserialize
      pure (flags, vin, vout)
  else do
    let vout ← vector maxSize CTxOut.unserialize
    pure (0, vin, vout)

/-- The inputs with their witnesses, if the flag for witnesses is set. -/
def getWitnessPart (flags : UInt8) (vin : List CTxIn) (fAllowWitness : Bool) :
    Get (UInt8 × List CTxIn) :=
  if flags &&& 1 != 0 && fAllowWitness then do
    let vin ← getWitnesses vin
    if hasWitness vin then pure (flags ^^^ 1, vin) else fail
  else pure (flags, vin)

/-- The MWEB transaction and the HogEx marker, if the flag for MWEB data is set. -/
def getMwebPart (flags : UInt8) (vout : List CTxOut) (fAllowMWEB : Bool) :
    Get (UInt8 × Option MwTransaction × Bool) :=
  if flags &&& 8 != 0 && fAllowMWEB then do
    let mwebTx ← getOptionalPtr
    if mwebTx.isNone && vout.isEmpty then fail
    else pure (flags ^^^ 8, mwebTx, mwebTx.isNone)
  else pure (flags, none, false)

/-- `UnserializeTransaction`. -/
def unserializeTransaction (fAllowWitness fAllowMWEB : Bool) : Get CTransaction := do
  let nVersion ← getInt 4 fun n => (UInt32.ofNat n).toInt32
  let (flags, vin, vout) ← getInsOuts fAllowWitness
  let (flags, vin) ← getWitnessPart flags vin fAllowWitness
  let (flags, mwebTx, hogEx) ← getMwebPart flags vout fAllowMWEB
  if flags != 0 then fail else
  let nLockTime ← getInt 4 UInt32.ofNat
  pure ⟨nVersion, vin, vout, nLockTime, mwebTx, hogEx⟩

namespace CTransaction

/-- The flags a transaction is written with. -/
def flags (tx : CTransaction) (fAllowWitness fAllowMWEB : Bool) : UInt8 :=
  (if fAllowWitness && hasWitness tx.vin then 1 else 0) |||
    (if fAllowMWEB && (tx.hogEx || tx.mwebTx.isSome) then 8 else 0)

/-- A transaction with the given flags, for a given format of the MWEB part. -/
def write (putMweb : Option MwTransaction → List UInt8) (flags : UInt8) (tx : CTransaction) :
    List UInt8 :=
  putLE 4 tx.nVersion.toUInt32.toNat ++
    ((if flags != 0 then putVector CTxIn.serialize [] ++ [flags] else []) ++
    (putVector CTxIn.serialize tx.vin ++ (putVector CTxOut.serialize tx.vout ++
    ((if flags &&& 1 != 0 then
        tx.vin.flatMap fun txin => putVector putByteVector txin.scriptWitness else []) ++
    ((if flags &&& 8 != 0 then putMweb tx.mwebTx else []) ++ putLE 4 tx.nLockTime.toNat)))))

/-- `SerializeTransaction`. -/
def serialize (fAllowWitness fAllowMWEB : Bool) (tx : CTransaction) : List UInt8 :=
  tx.write (putOptionalPtr 0 MwTransaction.serialize) (tx.flags fAllowWitness fAllowMWEB)

end CTransaction

/-! ### The parts of a transaction -/

/-- What is written of the flags, inputs and outputs. -/
def putInsOuts (part : UInt8 × List CTxIn × List CTxOut) : List UInt8 :=
  (if part.1 != 0 then putVector CTxIn.serialize [] ++ [part.1] else []) ++
    (putVector CTxIn.serialize part.2.1 ++ putVector CTxOut.serialize part.2.2)

/-- What is read of the flags, inputs and outputs.  Without flags an empty vector of inputs can
only be followed by an empty vector of outputs. -/
structure InsOutsValid (part : UInt8 × List CTxIn × List CTxOut) : Prop where
  vin : part.2.1.length ≤ maxSize ∧ ∀ txin ∈ part.2.1, txin.Valid
  vout : part.2.2.length ≤ maxSize ∧ ∀ out ∈ part.2.2, out.scriptPubKey.length ≤ maxSize
  plain : part.1 = 0 → part.2.1 = [] → part.2.2 = []

lemma canonical_getInsOuts : Canonical (getInsOuts true) putInsOuts InsOutsValid where
  reads part hpart := by
    obtain ⟨flags, vin, vout⟩ := part
    have hvin := (CTxIn.canonical_unserialize.vector maxSize_lt).reads vin hpart.vin
    have hvout := (CTxOut.canonical_unserialize.vector maxSize_lt).reads vout hpart.vout
    have hnil := (CTxIn.canonical_unserialize.vector maxSize_lt).reads [] ⟨by simp, by simp⟩
    unfold getInsOuts putInsOuts
    by_cases hflags : flags = 0
    · subst hflags
      rw [if_neg (by simp), nil_append]
      by_cases hempty : vin = []
      · obtain rfl := hpart.plain rfl hempty
        subst hempty
        exact hnil.bind _ ((reads_byte 0).bind _ (reads_pure _))
      · refine hvin.bind _ ?_
        rw [if_neg (by simpa using hempty)]
        exact hvout.map fun vout => (0, vin, vout)
    · rw [if_pos (by simpa using hflags), append_assoc]
      refine hnil.bind _ ((reads_byte flags).bind _ ?_)
      rw [if_neg hflags]
      exact hvin.bind _ (hvout.map fun vout => (flags, vin, vout))
  sound {input part rest} hget := by
    obtain ⟨vin, mid, hread, hnext⟩ := bind_eq_some hget
    obtain ⟨hvin, rfl⟩ := (CTxIn.canonical_unserialize.vector maxSize_lt).sound hread
    split at hnext
    · next hempty =>
      obtain rfl : vin = [] := by simpa using hempty
      obtain ⟨flags, mid', hbyte, hflagged⟩ := bind_eq_some hnext
      obtain ⟨-, rfl⟩ := canonical_byte.sound hbyte
      split at hflagged
      · next hzero =>
        obtain ⟨rfl, rfl⟩ := returned_inj hflagged
        subst hzero
        exact ⟨⟨⟨by simp, by simp⟩, ⟨by simp, by simp⟩, fun _ _ => rfl⟩, rfl⟩
      · next hflags =>
        obtain ⟨vin, mid'', hreadIn, houts⟩ := bind_eq_some hflagged
        obtain ⟨vout, mid''', hreadOut, hpure⟩ := bind_eq_some houts
        obtain ⟨rfl, rfl⟩ := returned_inj hpure
        obtain ⟨hvin', rfl⟩ := (CTxIn.canonical_unserialize.vector maxSize_lt).sound hreadIn
        obtain ⟨hvout, rfl⟩ := (CTxOut.canonical_unserialize.vector maxSize_lt).sound hreadOut
        refine ⟨⟨hvin', hvout, fun hzero => absurd hzero hflags⟩, ?_⟩
        rw [putInsOuts, if_pos (by simpa using hflags)]
        simp
    · next hempty =>
      obtain ⟨vout, mid', hreadOut, hpure⟩ := bind_eq_some hnext
      obtain ⟨rfl, rfl⟩ := returned_inj hpure
      obtain ⟨hvout, rfl⟩ := (CTxOut.canonical_unserialize.vector maxSize_lt).sound hreadOut
      refine ⟨⟨hvin, hvout, fun _ hnil => ?_⟩, by simp [putInsOuts]⟩
      exact absurd hnil (by simpa using hempty)

/-- The input without its witness. -/
def CTxIn.withoutWitness (txin : CTxIn) : CTxIn := { txin with scriptWitness := [] }

/-- The format of a witness. -/
def putWitness (txin : CTxIn) : List UInt8 := putVector putByteVector txin.scriptWitness

/-- The stack of a witness and its items are not too long. -/
def CTxIn.WitnessValid (txin : CTxIn) : Prop :=
  txin.scriptWitness.length ≤ maxSize ∧ ∀ item ∈ txin.scriptWitness, item.length ≤ maxSize

lemma canonical_getWitnesses (vin : List CTxIn) :
    Canonical (getWitnesses vin) (flatMap putWitness) fun vin' =>
      vin'.map CTxIn.withoutWitness = vin.map CTxIn.withoutWitness ∧
        ∀ txin ∈ vin', txin.WitnessValid := by
  have hstack := (canonical_byteVector maxSize_lt).vector maxSize_lt
  induction vin with
  | nil =>
    refine (Canonical.pure_of_iff [] fun _ => Iff.rfl).congr (fun vin' => ?_) fun vin' hvin' => ?_
    · rw [map_nil, map_eq_nil_iff]
      exact ⟨fun h => h.1, fun h => ⟨h, by simp [h]⟩⟩
    · rw [hvin', flatMap_nil]
  | cons txin vin ih =>
    constructor
    · rintro vin' ⟨hmap, hvalid⟩
      obtain ⟨txin', vin', rfl, hhead, htail⟩ := map_eq_cons_iff.mp hmap
      rw [forall_mem_cons] at hvalid
      have hread : (getWitnesses (txin :: vin)).Reads
          (putVector putByteVector txin'.scriptWitness ++ vin'.flatMap putWitness)
          ({ txin with scriptWitness := txin'.scriptWitness } :: vin') :=
        (hstack.reads txin'.scriptWitness hvalid.1).bind _
          ((ih.reads vin' ⟨htail, hvalid.2⟩).map _)
      have heq : { txin with scriptWitness := txin'.scriptWitness } = txin' := by
        have hwithout := congrArg (fun t : CTxIn => { t with scriptWitness := txin'.scriptWitness })
          hhead
        exact hwithout.symm
      rwa [heq] at hread
    · intro input vin' rest hget
      obtain ⟨stack, mid, hfirst, hget⟩ := bind_eq_some hget
      obtain ⟨vin'', mid', hrest, hget⟩ := bind_eq_some hget
      obtain ⟨rfl, rfl⟩ := returned_inj hget
      obtain ⟨hvalid, rfl⟩ := hstack.sound hfirst
      obtain ⟨⟨hmap, hall⟩, rfl⟩ := ih.sound hrest
      refine ⟨⟨?_, forall_mem_cons.mpr ⟨hvalid, hall⟩⟩, ?_⟩
      · rw [map_cons, hmap, map_cons]
        rfl
      · rw [flatMap_cons, append_assoc]
        rfl

variable {vin : List CTxIn}

lemma map_withoutWitness (hvin : ∀ txin ∈ vin, txin.scriptWitness = []) :
    vin.map CTxIn.withoutWitness = vin := by
  conv_rhs => rw [← map_id vin]
  refine map_congr_left fun txin htxin => ?_
  have hwitness := hvin txin htxin
  obtain ⟨prevout, scriptSig, nSequence, scriptWitness⟩ := txin
  obtain rfl : scriptWitness = [] := hwitness
  rfl

lemma hasWitness_eq_false_iff : hasWitness vin = false ↔ ∀ txin ∈ vin, txin.scriptWitness = [] := by
  simp [hasWitness]

variable {input rest : List UInt8} {flags flags' : UInt8}

/-- What `getWitnessPart` reads: the flag for witnesses is taken out of the flags, and it was set
just when some input has a witness. -/
lemma getWitnessPart_eq_some {vin' : List CTxIn} (hvin : ∀ txin ∈ vin, txin.Valid)
    (hget : getWitnessPart flags vin true input = some ((flags', vin'), rest)) :
    flags' = (if flags &&& 1 != 0 then flags ^^^ 1 else flags) ∧
      hasWitness vin' = (flags &&& 1 != 0) ∧ vin'.map CTxIn.withoutWitness = vin ∧
      (∀ txin ∈ vin', txin.WitnessValid) ∧
      input = (if flags &&& 1 != 0 then vin'.flatMap putWitness else []) ++ rest := by
  have hnone : ∀ txin ∈ vin, txin.scriptWitness = [] := fun txin h => (hvin txin h).witness_eq
  rw [getWitnessPart, Bool.and_true] at hget
  split at hget
  · next hset =>
    obtain ⟨vin'', mid, hread, hcheck⟩ := bind_eq_some hget
    obtain ⟨⟨hmap, hstacks⟩, rfl⟩ := (canonical_getWitnesses vin).sound hread
    split at hcheck
    · next hwitness =>
      obtain ⟨hpair, rfl⟩ := returned_inj hcheck
      obtain ⟨rfl, rfl⟩ := Prod.mk.inj hpair
      rw [map_withoutWitness hnone] at hmap
      exact ⟨(if_pos hset).symm, hwitness.trans hset.symm, hmap, hstacks, by rw [if_pos hset]⟩
    · exact absurd hcheck (by simp [fail])
  · next hset =>
    obtain ⟨hpair, rfl⟩ := returned_inj hget
    obtain ⟨rfl, rfl⟩ := Prod.mk.inj hpair
    refine ⟨(if_neg hset).symm, ?_, map_withoutWitness hnone, fun txin h => ?_, ?_⟩
    · rw [hasWitness_eq_false_iff.mpr hnone, Bool.eq_false_of_not_eq_true hset]
    · rw [CTxIn.WitnessValid, hnone txin h]
      exact ⟨Nat.zero_le _, by simp⟩
    · rw [if_neg hset]
      rfl

variable {m : Option MwTransaction}

/-- A null pointer of which only a byte other than 1 is known. -/
lemma getOptionalPtr_eq_some (hget : getOptionalPtr input = some (m, rest)) :
    ∃ absent, absent ≠ 1 ∧ (∀ t ∈ m, t.Valid) ∧
      input = putOptionalPtr absent (write Kernel.sent) m ++ rest := by
  obtain ⟨isSet, mid, hbyte, hnext⟩ := bind_eq_some hget
  obtain ⟨-, rfl⟩ := canonical_byte.sound hbyte
  split at hnext
  · next hset =>
    obtain ⟨t, mid', hread, hpure⟩ := bind_eq_some hnext
    obtain ⟨rfl, rfl⟩ := returned_inj hpure
    obtain ⟨ht, rfl⟩ := canonical_unserialize.sound hread
    exact ⟨0, by decide, by simpa using ht, by rw [hset]; rfl⟩
  · next hset =>
    obtain ⟨rfl, rfl⟩ := returned_inj hnext
    exact ⟨isSet, hset, by simp, rfl⟩

lemma reads_getOptionalPtr {absent : UInt8} (habsent : absent ≠ 1) (hm : ∀ t ∈ m, t.Valid) :
    getOptionalPtr.Reads (putOptionalPtr absent (write Kernel.sent) m) m := by
  match m with
  | none =>
    refine (reads_byte absent).bind _ ?_
    rw [if_neg habsent]
    exact reads_pure none
  | some t =>
    refine (reads_byte 1).bind _ ?_
    rw [if_pos rfl]
    exact (canonical_unserialize.reads t (hm t rfl)).map some

/-- What `getMwebPart` reads: the flag for MWEB data is taken out of the flags, and it was set just
when there is an MWEB transaction or the transaction is a HogEx. -/
lemma getMwebPart_eq_some {vout : List CTxOut} {hogEx : Bool}
    (hget : getMwebPart flags vout true input = some ((flags', m, hogEx), rest)) :
    flags' = (if flags &&& 8 != 0 then flags ^^^ 8 else flags) ∧
      (hogEx || m.isSome) = (flags &&& 8 != 0) ∧
      (hogEx = true → m = none ∧ vout ≠ []) ∧ ∃ absent, absent ≠ 1 ∧ (∀ t ∈ m, t.Valid) ∧
        input = (if flags &&& 8 != 0 then
          putOptionalPtr absent (write Kernel.sent) m else []) ++ rest := by
  rw [getMwebPart, Bool.and_true] at hget
  split at hget
  · next hset =>
    obtain ⟨m', mid, hread, hcheck⟩ := bind_eq_some hget
    obtain ⟨absent, habsent, hvalid, rfl⟩ := getOptionalPtr_eq_some hread
    split at hcheck
    · exact absurd hcheck (by simp [fail])
    · next hvout =>
      obtain ⟨hpair, rfl⟩ := returned_inj hcheck
      obtain ⟨rfl, hmweb⟩ := Prod.mk.inj hpair
      obtain ⟨rfl, rfl⟩ := Prod.mk.inj hmweb
      refine ⟨(if_pos hset).symm, ?_, fun hnone => ?_, absent, habsent, hvalid, by rw [if_pos hset]⟩
      · rw [hset]
        match m' with
        | none => rfl
        | some t => rfl
      · simp_all
  · next hset =>
    obtain ⟨hpair, rfl⟩ := returned_inj hget
    obtain ⟨rfl, hmweb⟩ := Prod.mk.inj hpair
    obtain ⟨rfl, rfl⟩ := Prod.mk.inj hmweb
    refine ⟨(if_neg hset).symm, (Bool.eq_false_of_not_eq_true hset).symm, by simp, 0, by decide,
      by simp, ?_⟩
    rw [if_neg hset]
    rfl

lemma reads_getWitnessPart (hflags : (flags &&& 1 != 0) = hasWitness vin)
    (hstacks : ∀ txin ∈ vin, txin.WitnessValid) :
    (getWitnessPart flags (vin.map CTxIn.withoutWitness) true).Reads
      (if flags &&& 1 != 0 then vin.flatMap putWitness else [])
      (if flags &&& 1 != 0 then flags ^^^ 1 else flags, vin) := by
  rw [getWitnessPart, Bool.and_true]
  split
  · next hset =>
    rw [← append_nil (vin.flatMap putWitness)]
    refine ((canonical_getWitnesses _).reads vin ⟨by rw [map_map]; rfl, hstacks⟩).bind _ ?_
    rw [if_pos (hflags.symm.trans hset)]
    exact reads_pure _
  · next hset =>
    rw [map_withoutWitness (hasWitness_eq_false_iff.mp
      (hflags.symm.trans (Bool.eq_false_of_not_eq_true hset)))]
    exact reads_pure _

lemma reads_getMwebPart {absent : UInt8} {vout : List CTxOut} {hogEx : Bool}
    (hflags : (flags &&& 8 != 0) = (hogEx || m.isSome))
    (hogEx_imp : hogEx = true → m = none ∧ vout ≠ []) (habsent : absent ≠ 1)
    (hm : ∀ t ∈ m, t.Valid) :
    (getMwebPart flags vout true).Reads
      (if flags &&& 8 != 0 then putOptionalPtr absent (write Kernel.sent) m else [])
      (if flags &&& 8 != 0 then flags ^^^ 8 else flags, m, hogEx) := by
  rw [getMwebPart, Bool.and_true]
  split
  · next hset =>
    have hnull : m.isNone = hogEx := by
      match m, hogEx with
      | none, true => rfl
      | some _, false => rfl
      | none, false => exact absurd (hflags.symm.trans hset) (by simp)
      | some t, true => exact absurd (hogEx_imp rfl).1 (by simp)
    have hvout : ¬ (m.isNone && vout.isEmpty) = true := by
      rw [hnull]
      simpa using fun h => (hogEx_imp h).2
    rw [← append_nil (putOptionalPtr _ _ m)]
    refine (reads_getOptionalPtr habsent hm).bind _ ?_
    rw [if_neg hvout, hnull]
    exact reads_pure _
  · next hset =>
    have hneither := hflags.symm.trans (Bool.eq_false_of_not_eq_true hset)
    obtain ⟨rfl, hnone⟩ := Bool.or_eq_false_iff.mp hneither
    obtain rfl : m = none := by simpa using hnone
    exact reads_pure _

/-- Flags of which nothing is left were the two known flags. -/
private lemma flags_eq_of_cleared {flags'' : UInt8}
    (hwitness : flags' = if flags &&& 1 != 0 then flags ^^^ 1 else flags)
    (hmweb : flags'' = if flags' &&& 8 != 0 then flags' ^^^ 8 else flags') (hzero : flags'' = 0) :
    (flags' &&& 8 != 0) = (flags &&& 8 != 0) ∧
      flags = (if flags &&& 1 != 0 then 1 else 0) ||| (if flags &&& 8 != 0 then 8 else 0) := by
  subst hwitness hmweb
  obtain ⟨bits⟩ := flags
  revert bits
  decide +kernel

/-! ### Reading what was sent -/

namespace CTransaction

/-- The bytes a transaction is read from: the pointer of a HogEx is any byte other than 1, and the
kernels are as they are sent. -/
def sent (absent : UInt8) (tx : CTransaction) : List UInt8 :=
  tx.write (putOptionalPtr absent (MwTransaction.write Kernel.sent)) (tx.flags true true)

/-- What every transaction that is read satisfies, given the byte its null pointer was read
from. -/
structure Accepted (absent : UInt8) (tx : CTransaction) : Prop where
  vin : tx.vin.length ≤ maxSize ∧ ∀ txin ∈ tx.vin, txin.scriptSig.length ≤ maxSize
  witness : ∀ txin ∈ tx.vin, txin.WitnessValid
  vout : tx.vout.length ≤ maxSize ∧ ∀ out ∈ tx.vout, out.scriptPubKey.length ≤ maxSize
  plain : tx.flags true true = 0 → tx.vin = [] → tx.vout = []
  mweb : ∀ t ∈ tx.mwebTx, t.Valid
  hogEx : tx.hogEx = true → tx.mwebTx = none ∧ tx.vout ≠ []
  absent : absent ≠ 1

lemma putVector_withoutWitness (vin : List CTxIn) :
    putVector CTxIn.serialize (vin.map CTxIn.withoutWitness) = putVector CTxIn.serialize vin := by
  rw [putVector, length_map, flatMap_map]
  rfl

variable {tx : CTransaction}

/-- The decoder accepts only what was sent for some transaction. -/
lemma sent_of_unserialize {input rest : List UInt8}
    (hget : unserializeTransaction true true input = some (tx, rest)) :
    ∃ absent, tx.Accepted absent ∧ input = tx.sent absent ++ rest := by
  obtain ⟨nVersion, r₁, hversion, h₁⟩ := bind_eq_some hget
  obtain ⟨⟨flags, vin, vout⟩, r₂, hinsOuts, h₂⟩ := bind_eq_some h₁
  obtain ⟨⟨flags', vin'⟩, r₃, hwitnesses, h₃⟩ := bind_eq_some h₂
  obtain ⟨⟨flags'', mwebTx, hogEx⟩, r₄, hmweb, h₄⟩ := bind_eq_some h₃
  dsimp only at hwitnesses hmweb h₄
  split at h₄
  · exact absurd h₄ (by simp [fail])
  next hzero =>
  obtain ⟨nLockTime, r₅, hlock, h₅⟩ := bind_eq_some h₄
  obtain ⟨rfl, rfl⟩ := returned_inj h₅
  obtain ⟨-, rfl⟩ := canonical_getInt32.sound hversion
  obtain ⟨hvalid, rfl⟩ := canonical_getInsOuts.sound hinsOuts
  obtain ⟨hflags', hhas, hmap, hstacks, rfl⟩ := getWitnessPart_eq_some hvalid.vin.2 hwitnesses
  dsimp only at hmap
  obtain ⟨hflags'', hpresent, hhogEx, absent, habsent, hmwebValid, rfl⟩ := getMwebPart_eq_some hmweb
  obtain ⟨-, rfl⟩ := canonical_getUInt32.sound hlock
  obtain ⟨hbit, hflags⟩ := flags_eq_of_cleared hflags' hflags'' (by simpa using hzero)
  have hwritten : flags =
      CTransaction.flags ⟨nVersion, vin', vout, nLockTime, mwebTx, hogEx⟩ true true := by
    rw [CTransaction.flags, Bool.true_and, Bool.true_and, hhas, hpresent, hbit]
    exact hflags
  have hscripts : ∀ txin ∈ vin', txin.scriptSig.length ≤ maxSize := fun txin htxin =>
    (hvalid.vin.2 txin.withoutWitness (hmap ▸ mem_map_of_mem htxin)).script_le
  have hlength : vin'.length = vin.length := by rw [← hmap, length_map]
  refine ⟨absent, ⟨⟨hlength ▸ hvalid.vin.1, hscripts⟩, hstacks, hvalid.vout, fun hflags hnil => ?_,
    hmwebValid, hhogEx, habsent⟩, ?_⟩
  · exact hvalid.plain (hwritten.trans hflags) (by rw [← hmap, show vin' = [] from hnil]; rfl)
  · rw [sent, write, ← hwritten, ← putVector_withoutWitness vin', hmap, hbit]
    simp only [putInsOuts, append_assoc]
    rfl

/-- The flags a transaction is written with, bit by bit. -/
lemma flags_bits (tx : CTransaction) :
    (tx.flags true true &&& 1 != 0) = hasWitness tx.vin ∧
      (tx.flags true true &&& 8 != 0) = (tx.hogEx || tx.mwebTx.isSome) := by
  rw [flags, Bool.true_and, Bool.true_and]
  generalize hasWitness tx.vin = witness, (tx.hogEx || tx.mwebTx.isSome) = mweb
  revert witness mweb
  decide

/-- Nothing is left of these flags when both bits have been taken out. -/
lemma flags_cleared (tx : CTransaction) : let flags := tx.flags true true
    let flags' := if flags &&& 1 != 0 then flags ^^^ 1 else flags
    (flags' &&& 8 != 0) = (flags &&& 8 != 0) ∧
      (if flags' &&& 8 != 0 then flags' ^^^ 8 else flags') = 0 := by
  rw [flags, Bool.true_and, Bool.true_and]
  generalize hasWitness tx.vin = witness, (tx.hogEx || tx.mwebTx.isSome) = mweb
  revert witness mweb
  decide

variable {absent : UInt8}

/-- What was sent for a transaction is read as that transaction. -/
lemma reads_unserialize (htx : tx.Accepted absent) :
    (unserializeTransaction true true).Reads (tx.sent absent) tx := by
  obtain ⟨hwitness, hmweb⟩ := tx.flags_bits
  obtain ⟨hbit, hzero⟩ := tx.flags_cleared
  have hinsOuts : InsOutsValid (tx.flags true true, tx.vin.map CTxIn.withoutWitness, tx.vout) := by
    refine ⟨⟨by simpa using htx.vin.1, ?_⟩, htx.vout, fun hflags hnil => ?_⟩
    · intro txin hmem
      obtain ⟨txin, htxin, rfl⟩ := mem_map.mp hmem
      exact ⟨htx.vin.2 txin htxin, rfl⟩
    · exact htx.plain hflags (map_eq_nil_iff.mp hnil)
  have hsent : tx.sent absent = putLE 4 tx.nVersion.toUInt32.toNat ++
      (putInsOuts (tx.flags true true, tx.vin.map CTxIn.withoutWitness, tx.vout) ++
      ((if tx.flags true true &&& 1 != 0 then tx.vin.flatMap putWitness else []) ++
      ((if tx.flags true true &&& 8 != 0 then
        putOptionalPtr absent (MwTransaction.write Kernel.sent) tx.mwebTx else []) ++
      (putLE 4 tx.nLockTime.toNat ++ [])))) := by
    simp only [putInsOuts, putVector_withoutWitness, append_assoc, append_nil]
    rfl
  rw [hsent]
  refine (canonical_getInt32.reads tx.nVersion trivial).bind _ ?_
  refine (canonical_getInsOuts.reads _ hinsOuts).bind _ ?_
  refine (reads_getWitnessPart hwitness htx.witness).bind _ ?_
  rw [← hbit]
  refine (reads_getMwebPart (hbit.trans hmweb) htx.hogEx htx.absent htx.mweb).bind _ ?_
  dsimp only
  rw [hzero, if_neg (by simp)]
  exact (canonical_getUInt32.reads tx.nLockTime trivial).bind _ (reads_pure _)

/-- The bytes of a null pointer or of a kernel that are not the ones written: the pointer of a
HogEx is not 0, or a kernel announces an empty vector. -/
def NonCanonical (absent : UInt8) (tx : CTransaction) : Prop :=
  (tx.hogEx = true ∧ absent ≠ 0) ∨ ∃ t ∈ tx.mwebTx, t.AnnouncesEmpty

/-- A transaction is written as it was sent unless its MWEB part was not canonical. -/
lemma serialize_eq_sent_iff (htx : tx.Accepted absent) :
    tx.serialize true true = tx.sent absent ↔ ¬ tx.NonCanonical absent := by
  have hbit := tx.flags_bits.2
  simp only [serialize, sent, write, append_cancel_left_eq, append_cancel_right_eq]
  match hm : tx.mwebTx, hh : tx.hogEx with
  | some t, true => exact absurd (htx.hogEx hh).1 (by simp [hm])
  | some t, false =>
    rw [hm, hh, Option.isSome_some, Bool.or_true] at hbit
    rw [if_pos hbit, if_pos hbit]
    simp only [putOptionalPtr, cons.injEq, true_and]
    rw [MwTransaction.serialize_eq_sent_iff (htx.mweb t hm)]
    simp [NonCanonical, hm, hh]
  | none, true =>
    rw [hm, hh, Bool.true_or] at hbit
    rw [if_pos hbit, if_pos hbit]
    simp [putOptionalPtr, NonCanonical, hm, hh, eq_comm]
  | none, false =>
    rw [hm, hh] at hbit
    rw [if_neg (by simpa using hbit), if_neg (by simpa using hbit)]
    simp [NonCanonical, hm, hh]

/-- The bytes start with a transaction whose MWEB part is not canonical. -/
def SendsNonCanonical (input : List UInt8) : Prop :=
  ∃ (absent : UInt8) (tx : CTransaction) (rest : List UInt8), tx.Accepted absent ∧
    input = tx.sent absent ++ rest ∧ tx.NonCanonical absent

lemma sendsNonCanonical_iff (htx : tx.Accepted absent) (rest : List UInt8) :
    SendsNonCanonical (tx.sent absent ++ rest) ↔ tx.NonCanonical absent := by
  constructor
  · rintro ⟨absent', tx', rest', htx', hsent, hnon⟩
    -- the bytes can be read in one way only
    have hread := reads_unserialize htx' rest'
    rw [← hsent, reads_unserialize htx rest] at hread
    obtain ⟨rfl, rfl⟩ := returned_inj hread
    by_contra hcanonical
    rw [← serialize_eq_sent_iff htx, append_cancel_right hsent] at hcanonical
    exact (serialize_eq_sent_iff htx').mp hcanonical hnon
  · exact fun hnon => ⟨absent, tx, rest, htx, rfl, hnon⟩

/-- Of an input that is accepted, exactly the bytes consumed are written again, and they are read
as the same transaction before any rest, if and only if its MWEB part is canonical. -/
theorem serialize_eq_consumed_iff {tx : CTransaction} {input rest : List UInt8}
    (hget : unserializeTransaction true true input = some (tx, rest)) :
    (input = tx.serialize true true ++ rest ∧
        (unserializeTransaction true true).Reads (tx.serialize true true) tx) ↔
      ¬ SendsNonCanonical input := by
  obtain ⟨absent, htx, rfl⟩ := sent_of_unserialize hget
  rw [sendsNonCanonical_iff htx, ← serialize_eq_sent_iff htx]
  constructor
  · rintro ⟨heq, -⟩
    exact (List.append_cancel_right heq).symm
  · intro heq
    rw [heq]
    exact ⟨rfl, reads_unserialize htx⟩

section Example

/-- A HogEx with one input and one output. -/
def hogExTx : CTransaction :=
  ⟨2, [⟨⟨.zeros 32, 0⟩, [], 0, []⟩], [⟨0, [0x51]⟩], 0, none, true⟩

lemma accepted_hogExTx {absent : UInt8} (habsent : absent ≠ 1) : hogExTx.Accepted absent where
  vin := by decide
  witness := by simp [hogExTx, CTxIn.WitnessValid]
  vout := by decide
  plain := by decide
  mweb := by simp [hogExTx]
  hogEx := by decide
  absent := habsent

/-- A HogEx whose null pointer is the byte 0 is written as it was read. -/
theorem serialize_eq_consumed_hogEx :
    unserializeTransaction true true (hogExTx.sent 0 ++ []) = some (hogExTx, []) ∧
      hogExTx.sent 0 ++ [] = hogExTx.serialize true true ++ [] := by
  have hget := reads_unserialize (accepted_hogExTx (show (0 : UInt8) ≠ 1 by decide)) []
  refine ⟨hget, ((serialize_eq_consumed_iff hget).mpr ?_).1⟩
  rw [sendsNonCanonical_iff (accepted_hogExTx (by decide))]
  simp [NonCanonical, hogExTx]

/-- A transaction with only an MWEB part, of one kernel that announces no peg-outs. -/
def emptyPegoutsTx : CTransaction :=
  ⟨2, [], [], 0, some ⟨.zeros 32, .zeros 32, [], [], [Kernel.withoutPegouts]⟩, false⟩

/-- A HogEx whose null pointer is the byte 2 is accepted and is written as other bytes, and a
transaction whose kernel announces an empty vector of peg-outs is accepted and is not read as itself
from the bytes it is written as. -/
theorem serialize_ne_consumed_hogEx :
    unserializeTransaction true true (hogExTx.sent 2) = some (hogExTx, []) ∧
      hogExTx.sent 2 ≠ hogExTx.serialize true true ∧
      unserializeTransaction true true (emptyPegoutsTx.sent 0) = some (emptyPegoutsTx, []) ∧
      unserializeTransaction true true (emptyPegoutsTx.serialize true true) ≠
        some (emptyPegoutsTx, []) :=
  ⟨by decide +kernel, by decide +kernel, by decide +kernel, by decide +kernel⟩

end Example

/-! ### Sizes -/

section Size

variable {P : Primitives} {tx : CTransaction} {tx' : Aegisum.CTransaction P}

/-- What sizes read of a transaction: its scripts and witnesses. -/
structure SizedAs (tx : CTransaction) (tx' : Aegisum.CTransaction P) : Prop where
  vin : tx.vin.map (fun txin => (txin.scriptSig, txin.scriptWitness)) =
    tx'.vin.map fun txin => (txin.scriptSig, txin.scriptWitness)
  vout : tx.vout.map (·.scriptPubKey.length) = tx'.vout.map (·.scriptPubKey.size)

lemma length_putCompactSize (n : ℕ) : (putCompactSize n).length = compactSizeLength n := by
  unfold putCompactSize compactSizeLength
  split_ifs <;> simp [length_putLE]

variable {α β γ : Type} (put : α → List UInt8) {part : α → γ} {part' : β → γ} {l : List α}
  {l' : List β}

/-- The bytes of a list whose elements take as many bytes as a part of them says. -/
lemma length_flatMap_of_map_eq (size : γ → ℕ) (hput : ∀ a, (put a).length = size (part a))
    (h : l.map part = l'.map part') :
    (l.flatMap put).length = (l'.map fun b => size (part' b)).sum := by
  have hsizes := congrArg (fun l => (l.map size).sum) h
  simp only [map_map, Function.comp_def] at hsizes
  simp only [length_flatMap, hput, hsizes]

lemma length_putVector_of_map_eq (size : γ → ℕ) (hput : ∀ a, (put a).length = size (part a))
    (h : l.map part = l'.map part') : (putVector put l).length =
      compactSizeLength l'.length + (l'.map fun b => size (part' b)).sum := by
  have hlength := congrArg length h
  rw [length_map, length_map] at hlength
  rw [putVector, length_append, length_putCompactSize, hlength,
    length_flatMap_of_map_eq put size hput h]

/-- The sizes that weights are computed from are the lengths of what is serialized, without and with
the witnesses. -/
lemma SizedAs.length_serialize (h : tx.SizedAs tx') :
    (tx.serialize false false).length = tx'.strippedSize ∧
      (tx.serialize true false).length = tx'.totalSize := by
  have hbytes : ∀ l : List UInt8,
      (putByteVector l).length = compactSizeLength l.length + l.length := by
    intro l
    rw [putByteVector, length_append, length_putCompactSize]
  have hinputs := length_putVector_of_map_eq CTxIn.serialize
    (fun p => 36 + (compactSizeLength p.1.length + p.1.length) + 4) (fun txin => by
      simp only [CTxIn.serialize, length_append, length_putLE, hbytes, txin.prevout.hash.2]
      omega) h.vin
  have houtputs := length_putVector_of_map_eq CTxOut.serialize
    (fun n => 8 + (compactSizeLength n + n)) (fun out => by
      simp only [CTxOut.serialize, length_append, length_putLE, hbytes]) h.vout
  have hwitnesses : (tx.vin.flatMap putWitness).length = tx'.witnessSize := by
    refine length_flatMap_of_map_eq putWitness (fun p => compactSizeLength p.2.length +
      (p.2.map fun item => compactSizeLength item.length + item.length).sum) (fun txin => ?_) h.vin
    exact length_putVector_of_map_eq putByteVector
      (fun item : List UInt8 => compactSizeLength item.length + item.length) hbytes rfl
  have hhas : Wire.hasWitness tx.vin = tx'.hasWitness := by
    have hany := congrArg (any · fun p => !p.2.isEmpty) h.vin
    rwa [any_map, any_map] at hany
  have hstripped : (tx.serialize false false).length = tx'.strippedSize := by
    simp only [serialize, write, flags, Bool.false_and, length_append, length_putLE, hinputs,
      houtputs, Aegisum.CTransaction.strippedSize]
    simp
    omega
  refine ⟨hstripped, ?_⟩
  rw [Aegisum.CTransaction.totalSize, ← hstripped, ← hhas, ← hwitnesses]
  cases hset : Wire.hasWitness tx.vin with
  | false => simp [serialize, write, flags, hset]
  | true =>
    have hmarker : (putVector CTxIn.serialize []).length = 1 := by decide
    have hmweb : (1 : UInt8) &&& 8 = 0 := by decide
    simp [serialize, write, flags, hset, hmarker, hmweb, putWitness]
    omega

end Size

end CTransaction

end Wire

end Aegisum
