import Aegisum.Mweb.TxBody
import Aegisum.Node.MwebFormat

/-!
# The size of extension blocks

`Weight` and the bound `mw::MAX_BLOCK_BYTES`.  An input counts for its extra data only, so the
number of inputs is limited on its own; everything else has a weight.  `Params.h` derives the bound
from 196 bytes for an input and 60 bytes for a unit of weight.  A kernel of weight 2 with a fee, a
peg-in and a lock height takes up to 121 bytes, and an input that announces extra data and has none
takes 197, so the derivation only holds for amounts that can be paid, where a unit of weight never
takes more than 59.5 bytes.
-/

namespace Aegisum

open List

namespace Wire

open Get Mw.TxBody

/-! ### Weights and blocks as they are sent -/

/-- The weight of an input. -/
def Input.weight (i : Input) : ℕ := calcInputWeight i.extraData

/-- The weight of a kernel. -/
def Kernel.weight (k : Kernel) : ℕ :=
  calcKernelWeight k.stealthExcess.isSome (k.pegouts.map (·.scriptPubKey.length)) k.extraData

/-- The weight of an output. -/
def Output.weight (o : Output) : ℕ :=
  calcOutputWeight (o.message.features &&& OutputMessage.standardFieldsFeatureBit != 0)
    o.message.extraData

/-- A body as it is sent. -/
structure TxBody where
  inputs : List Input
  outputs : List Output
  kernels : List Kernel

namespace TxBody

def serialize (b : TxBody) : List UInt8 :=
  putVector Input.serialize b.inputs ++ (putVector Output.serialize b.outputs ++
    putVector Kernel.serialize b.kernels)

/-- `Weight::Calculate`. -/
def calculateWeight (b : TxBody) : ℕ :=
  (b.inputs.map Input.weight).sum + (b.kernels.map Kernel.weight).sum +
    (b.outputs.map Output.weight).sum

/-- `Weight::ExceedsMaximum`. -/
def exceedsMaximum (b : TxBody) : Bool := tooHeavy b.inputs.length b.calculateWeight

/-- What weights read of a body: the extra data, and which fields are there. -/
structure WeighedAs {P : Primitives} (b : TxBody) (b' : Mw.TxBody P) : Prop where
  inputs : b.inputs.map (·.extraData) = b'.inputs.map (·.extraData)
  kernels : b.kernels.map (fun k => (k.stealthExcess.isSome,
      k.pegouts.map (·.scriptPubKey.length), k.extraData)) =
    b'.kernels.map fun k => (k.stealthExcess.isSome, k.pegouts.map (·.scriptPubKey.size),
      k.extraData)
  outputs : b.outputs.map (fun o => (o.message.features, o.message.extraData)) =
    b'.outputs.map fun o => (o.message.features, o.message.extraData)

/-- A body that is sent has the weight of the body it is read as. -/
lemma WeighedAs.exceedsMaximum_eq {P : Primitives} {b : TxBody} {b' : Mw.TxBody P}
    (h : b.WeighedAs b') : b.exceedsMaximum = b'.exceedsMaximum := by
  have hinputs := congrArg (fun l => (l.map calcInputWeight).sum) h.inputs
  have hkernels := congrArg
    (fun l => (l.map fun (k : Bool × List ℕ × List UInt8) => calcKernelWeight k.1 k.2.1 k.2.2).sum)
    h.kernels
  have houtputs := congrArg
    (fun l => (l.map fun (o : UInt8 × List UInt8) => calcOutputWeight (o.1 &&& 1 != 0) o.2).sum)
    h.outputs
  have hlength := congrArg length h.inputs
  simp only [map_map, length_map, Function.comp_def] at hinputs hkernels houtputs hlength
  rw [exceedsMaximum, Mw.TxBody.exceedsMaximum, hlength, calculateWeight, Mw.TxBody.calculateWeight]
  exact congrArg _ (congrArg₂ _ (congrArg₂ _ hinputs hkernels) houtputs)

end TxBody

/-- The header of an extension block as it is sent. -/
structure Header where
  height : ℕ
  outputRoot : Blob 32
  kernelRoot : Blob 32
  leafsetRoot : Blob 32
  kernelOffset : Blob 32
  stealthOffset : Blob 32
  outputMMRSize : ℕ
  kernelMMRSize : ℕ

def Header.serialize (h : Header) : List UInt8 :=
  putVarInt 32 h.height ++ (h.outputRoot.val ++ (h.kernelRoot.val ++ (h.leafsetRoot.val ++
    (h.kernelOffset.val ++ (h.stealthOffset.val ++ (putVarInt 64 h.outputMMRSize ++
    putVarInt 64 h.kernelMMRSize))))))

/-- An extension block as it is sent. -/
structure Block where
  header : Header
  body : TxBody

def Block.serialize (b : Block) : List UInt8 := b.header.serialize ++ b.body.serialize

/-- `INPUT_BYTES`. -/
def inputBytes : ℕ := 196

/-- `MAX_BLOCK_BYTES`. -/
def maxBlockBytes : ℕ := 180 + 3 * 5 + maxNumInputs * inputBytes + Mw.TxBody.maxBlockWeight * 60

/-! ### Parts with extra data -/

lemma length_putOption_le {α : Type} {put : α → List UInt8} {o : Option α} {n : ℕ}
    (h : ∀ a ∈ o, (put a).length ≤ n) : (putOption put o).length ≤ n := by
  cases o with
  | none => exact Nat.zero_le n
  | some a => exact h a rfl

/-- Bytes with their size in front take less than 59.5 bytes for a unit of weight. -/
lemma length_putByteVector_le {l : List UInt8} (hne : l ≠ [])
    (hweight : extraBytesToWeight l.length ≤ Mw.TxBody.maxBlockWeight) :
    2 * (putByteVector l).length + 25 ≤ 119 * extraBytesToWeight l.length := by
  have hpos := length_pos_iff.mpr hne
  rw [extraBytesToWeight, Mw.TxBody.maxBlockWeight] at hweight
  have hsize : (putCompactSize l.length).length ≤ 5 :=
    (length_putCompactSize_le (by omega)).trans (by split_ifs <;> omega)
  rw [putByteVector, length_append, extraBytesToWeight]
  omega

/-- Extra data that are written if a feature bit is set: without any the size takes a byte. -/
lemma length_extraData_le (bit : Bool) {l : List UInt8}
    (hweight : extraBytesToWeight l.length ≤ Mw.TxBody.maxBlockWeight) :
    2 * (if bit then putByteVector l else []).length ≤
      119 * extraBytesToWeight l.length + if bit ∧ l = [] then 2 else 0 := by
  cases bit with
  | false => simp
  | true =>
    by_cases hl : l = []
    · simp [hl, putByteVector, putCompactSize, length_putLE]
    · have hle := length_putByteVector_le hl hweight
      simp only [hl, if_true, and_false, if_false]
      omega

/-! ### Inputs, outputs and kernels -/

lemma Input.length_serialize_le_weight {i : Input}
    (hweight : i.weight ≤ Mw.TxBody.maxBlockWeight) :
    2 * i.serialize.length ≤ 2 * inputBytes + 119 * i.weight +
      if i.features &&& extraDataFeatureBit != 0 ∧ i.extraData = [] then 2 else 0 := by
  have hextra := length_extraData_le (i.features &&& extraDataFeatureBit != 0) hweight
  have hkey : (if i.features &&& stealthKeyFeatureBit != 0 then
      putOption Subtype.val i.inputPubKey else []).length ≤ 33 := by
    split
    · exact length_putOption_le fun key _ => key.2.le
    · exact Nat.zero_le _
  simp only [serialize, length_append, length_singleton, i.outputID.2, i.commitment.2,
    i.outputPubKey.2, i.signature.2, inputBytes, weight, calcInputWeight]
  omega

lemma StandardFields.length_serialize (f : StandardFields) : f.serialize.length = 58 := by
  simp [serialize, f.keyExchangePubKey.2, f.maskedNonce.2, length_putLE]

lemma Output.length_serialize_le_weight {o : Output}
    (hweight : o.weight ≤ Mw.TxBody.maxBlockWeight) :
    2 * o.serialize.length ≤ 119 * o.weight := by
  obtain ⟨commitment, sender, receiver, ⟨features, fields, extraData⟩, proof, signature⟩ := o
  simp only [weight, calcOutputWeight] at hweight ⊢
  have hextra : 2 * (if features &&& OutputMessage.extraDataFeatureBit != 0 then
      putByteVector extraData else []).length ≤ 119 * extraBytesToWeight extraData.length + 2 :=
    (length_extraData_le _ (le_of_add_le_right hweight)).trans (by split <;> omega)
  have hfields : (putOption StandardFields.serialize fields).length ≤ 58 :=
    length_putOption_le fun f _ => f.length_serialize.le
  simp only [serialize, OutputMessage.serialize, length_append, length_singleton,
    commitment.2, sender.2, receiver.2, proof.2, signature.2]
  cases features &&& OutputMessage.standardFieldsFeatureBit != 0 with
  | false =>
    simp only [Bool.false_eq_true, if_false, length_nil]
    omega
  | true =>
    simp only [if_true]
    omega

/-- A peg-out that can be read, with something to spare for the size of the vector. -/
lemma PegOutCoin.length_serialize_le_weight {p : PegOutCoin} (hamount : p.amount ≤ 2 ^ 63 - 1)
    (hscript : p.scriptPubKey ≠ [])
    (hweight : extraBytesToWeight p.scriptPubKey.length ≤ Mw.TxBody.maxBlockWeight) :
    2 * p.serialize.length + 7 ≤ 119 * extraBytesToWeight p.scriptPubKey.length := by
  have hvarint : (putVarInt 64 p.amount).length ≤ 9 :=
    length_putVarIntLoop_le_of_lt (by norm_num; omega) _ []
  have hbytes := length_putByteVector_le hscript hweight
  rw [serialize, length_append]
  omega

/-- The fees and peg-ins of a kernel can be paid, its other numbers fit their types, and its
peg-outs have scripts. -/
structure Kernel.InRange (k : Kernel) : Prop where
  fee : ∀ n ∈ k.fee, (n : ℤ) ≤ maxMoney.toInt
  pegin : ∀ n ∈ k.pegin, (n : ℤ) ≤ maxMoney.toInt
  pegouts : ∀ p ∈ k.pegouts, p.amount ≤ 2 ^ 63 - 1 ∧ p.scriptPubKey ≠ []
  lockHeight : ∀ n ∈ k.lockHeight, n ≤ 2 ^ 31 - 1

/-- The bytes of the elements of a vector, when each takes at most `c` half bytes and 59.5 bytes for
a unit of weight, and leaves `spare` half bytes of that. -/
lemma length_flatMap_le {α : Type} (put : α → List UInt8) (weight : α → ℕ) {l : List α}
    (spare c : ℕ) (h : ∀ a ∈ l, 2 * (put a).length + spare ≤ c + 119 * weight a) :
    2 * (l.flatMap put).length + spare * l.length ≤
      c * l.length + 119 * (l.map weight).sum := by
  induction l with
  | nil => simp
  | cons a l ih =>
    have ha := h a mem_cons_self
    have hl := ih fun b hb => h b (mem_cons_of_mem a hb)
    simp only [flatMap_cons, length_append, length_cons, map_cons, sum_cons, mul_add]
    omega

/-- The number of elements that have at least the given weight. -/
lemma mul_length_le_sum {α : Type} {weight : α → ℕ} (least : ℕ) {l : List α}
    (h : ∀ a ∈ l, least ≤ weight a) : least * l.length ≤ (l.map weight).sum := by
  have hsum := card_nsmul_le_sum (l.map weight) least (by simpa using h)
  rwa [length_map, smul_eq_mul, mul_comm] at hsum

lemma Kernel.length_pegouts_le {pegouts : List PegOutCoin}
    (h : ∀ p ∈ pegouts, p.amount ≤ 2 ^ 63 - 1 ∧ p.scriptPubKey ≠ [])
    (hweight : (pegouts.map fun p => extraBytesToWeight p.scriptPubKey.length).sum ≤
      Mw.TxBody.maxBlockWeight) :
    2 * (if pegouts = [] then [] else putVector PegOutCoin.serialize pegouts).length ≤
      119 * (pegouts.map fun p => extraBytesToWeight p.scriptPubKey.length).sum := by
  by_cases hnil : pegouts = []
  · simp [hnil]
  have hpos := length_pos_iff.mpr hnil
  have hspare : ∀ p ∈ pegouts, 2 * p.serialize.length + 7 ≤
      0 + 119 * extraBytesToWeight p.scriptPubKey.length := by
    intro p hp
    rw [Nat.zero_add]
    refine p.length_serialize_le_weight (h p hp).1 (h p hp).2 (le_trans ?_ hweight)
    exact single_le_sum (by simp) _ (mem_map_of_mem hp)
  have hbytes := length_flatMap_le PegOutCoin.serialize _ 7 0 hspare
  -- every peg-out has a weight, so there are not many of them
  have hcount : 1 * pegouts.length ≤ Mw.TxBody.maxBlockWeight := by
    refine (mul_length_le_sum 1 fun p hp => ?_).trans hweight
    have := length_pos_iff.mpr (h p hp).2
    rw [extraBytesToWeight]
    omega
  rw [one_mul] at hcount
  have hsize := length_putCompactSize_le (hcount.trans (by decide))
  rw [if_neg hnil, putVector, length_append]
  split_ifs at hsize <;> omega

/-- A kernel takes at most 59.5 bytes for a unit of weight. -/
lemma Kernel.length_serialize_le_weight {k : Kernel} (hk : k.InRange)
    (hweight : k.weight ≤ Mw.TxBody.maxBlockWeight) :
    2 * k.serialize.length ≤ 119 * k.weight := by
  have hmoney : maxMoney.toInt = 10 ^ 16 := by decide
  have hamount : ∀ {o : Option ℕ}, (∀ n ∈ o, (n : ℤ) ≤ maxMoney.toInt) →
      (putOption (putVarInt 64) o).length ≤ 8 := by
    intro o h
    refine length_putOption_le fun n hn => length_putVarIntLoop_le_of_lt ?_ _ []
    have := h n hn
    norm_num
    omega
  have hfee := hamount hk.fee
  have hpegin := hamount hk.pegin
  have hlock : (putOption (putVarInt 32) k.lockHeight).length ≤ 5 :=
    length_putOption_le fun n _ => length_putVarIntLoop_le _ n []
  rw [weight, calcKernelWeight, map_map] at hweight
  have hpegouts := length_pegouts_le hk.pegouts
    ((Nat.le_add_left _ _).trans (le_of_add_le_left hweight))
  have hextra : 2 * (if k.extraData = [] then [] else putByteVector k.extraData).length ≤
      119 * extraBytesToWeight k.extraData.length := by
    split
    · exact Nat.zero_le _
    · have := length_putByteVector_le ‹_› (le_of_add_le_right hweight)
      omega
  have hstealth : 2 * (putOption Subtype.val k.stealthExcess).length + 238 ≤
      119 * if k.stealthExcess.isSome then 3 else 2 := by
    cases k.stealthExcess with
    | none => decide
    | some key => simp [putOption, key.2]
  simp only [serialize, length_append, length_singleton, k.excess.2, k.signature.2,
    weight, calcKernelWeight, map_map, Function.comp_def, mul_add]
  omega

/-! ### Blocks -/

/-- The size in front of a vector. -/
lemma length_putVector {α : Type} (put : α → List UInt8) {l : List α} (hl : l.length ≤ 0xffffffff) :
    (putVector put l).length ≤ 5 + (l.flatMap put).length := by
  have hsize : (putCompactSize l.length).length ≤ 5 :=
    (length_putCompactSize_le hl).trans (by split_ifs <;> omega)
  rw [putVector, length_append]
  omega

lemma Header.length_serialize_le_max (h : Header) : h.serialize.length ≤ 185 := by
  have hheight : (putVarInt 32 h.height).length ≤ 5 := length_putVarIntLoop_le _ _ []
  have houtputs : (putVarInt 64 h.outputMMRSize).length ≤ 10 := length_putVarIntLoop_le _ _ []
  have hkernels : (putVarInt 64 h.kernelMMRSize).length ≤ 10 := length_putVarIntLoop_le _ _ []
  simp only [serialize, length_append, h.outputRoot.2, h.kernelRoot.2, h.leafsetRoot.2,
    h.kernelOffset.2, h.stealthOffset.2]
  omega

/-- A body that is not too heavy, whose fees and peg-ins can be paid, fits with its header into the
bytes of a block.  Outputs and kernels take at most 60 bytes for a unit of weight; an input takes at
most 196 bytes besides, and one more if it announces extra data and has none. -/
theorem Block.length_serialize_le_maxBlockBytes {b : Block}
    (hkernels : ∀ k ∈ b.body.kernels, k.InRange) (hweight : b.body.exceedsMaximum = false) :
    (∀ i ∈ b.body.inputs, i.serialize.length ≤ inputBytes + 60 * i.weight +
      if i.features &&& Input.extraDataFeatureBit != 0 ∧ i.extraData = [] then 1 else 0) ∧
    (∀ o ∈ b.body.outputs, o.serialize.length ≤ 60 * o.weight) ∧
    (∀ k ∈ b.body.kernels, k.serialize.length ≤ 60 * k.weight) ∧
    b.serialize.length ≤ maxBlockBytes := by
  obtain ⟨header, inputs, outputs, kernels⟩ := b
  obtain ⟨hcount, hweight⟩ : inputs.length ≤ maxNumInputs ∧ (inputs.map Input.weight).sum +
      (kernels.map Kernel.weight).sum + (outputs.map Output.weight).sum ≤
        Mw.TxBody.maxBlockWeight := by
    rwa [TxBody.exceedsMaximum, tooHeavy, Bool.or_eq_false_iff, decide_eq_false_iff_not,
      decide_eq_false_iff_not, not_lt, not_lt] at hweight
  have hmem : ∀ {α : Type} (weight : α → ℕ) {l : List α},
      (l.map weight).sum ≤ Mw.TxBody.maxBlockWeight →
        ∀ a ∈ l, weight a ≤ Mw.TxBody.maxBlockWeight := fun weight l hsum a ha =>
    (List.single_le_sum (by simp) _ (List.mem_map_of_mem ha)).trans hsum
  have hi := fun i hi => Input.length_serialize_le_weight
    (hmem Input.weight (show (inputs.map Input.weight).sum ≤ _ by omega) i hi)
  have ho := fun o ho => Output.length_serialize_le_weight
    (hmem Output.weight (show (outputs.map Output.weight).sum ≤ _ by omega) o ho)
  have hk := fun k hk => Kernel.length_serialize_le_weight (hkernels k hk)
    (hmem Kernel.weight (show (kernels.map Kernel.weight).sum ≤ _ by omega) k hk)
  refine ⟨fun i h => ?_, fun o h => ?_, fun k h => ?_, ?_⟩
  · have := hi i h
    split_ifs at this ⊢ <;> omega
  · have := ho o h
    omega
  · have := hk k h
    omega
  · have hheader := header.length_serialize_le_max
    have hinputs := length_flatMap_le Input.serialize Input.weight 0 (2 * inputBytes + 2)
      fun i h => by
        have := hi i h
        split_ifs at this <;> omega
    have houtputs := length_flatMap_le Output.serialize Output.weight 0 0 fun o h => by
      rw [Nat.zero_add]
      exact ho o h
    have hkernels := length_flatMap_le Kernel.serialize Kernel.weight 0 0 fun k h => by
      rw [Nat.zero_add]
      exact hk k h
    -- outputs and kernels have weights, so there are not many of them
    have hno : 17 * outputs.length ≤ (outputs.map Output.weight).sum :=
      mul_length_le_sum 17 fun o _ => by
        rw [Output.weight, calcOutputWeight]
        split <;> omega
    have hnk : 2 * kernels.length ≤ (kernels.map Kernel.weight).sum :=
      mul_length_le_sum 2 fun k _ => by
        rw [Kernel.weight, calcKernelWeight]
        split <;> omega
    simp only [maxNumInputs, Mw.TxBody.maxBlockWeight, inputBytes] at *
    have hi' := length_putVector Input.serialize (l := inputs) (by omega)
    have ho' := length_putVector Output.serialize (l := outputs) (by omega)
    have hk' := length_putVector Kernel.serialize (l := kernels) (by omega)
    simp only [serialize, TxBody.serialize, List.length_append, maxBlockBytes, maxNumInputs,
      Mw.TxBody.maxBlockWeight, inputBytes]
    omega

section Example

/-- An input with all fields but extra data. -/
def fullInput : Input :=
  ⟨1, .zeros 32, .zeros 33, .zeros 33, some (.zeros 33), [], .zeros 64⟩

def zeroHeader : Header :=
  ⟨0, .zeros 32, .zeros 32, .zeros 32, .zeros 32, .zeros 32, 0, 0⟩

/-- An output with all fields. -/
def fullOutput : Output :=
  ⟨.zeros 33, .zeros 33, .zeros 33, ⟨3, some ⟨.zeros 33, 0, 0, .zeros 16⟩, [1, 2]⟩, .zeros 675,
    .zeros 64⟩

/-- A block with an input, an output and a kernel that has all optional fields. -/
def fullBlock : Block := ⟨zeroHeader, [fullInput], [fullOutput], [Kernel.fullKernel]⟩

/-- A block with every kind of component. -/
theorem length_serialize_le_maxBlockBytes_full :
    fullOutput.serialize.length ≤ 60 * fullOutput.weight ∧
      Kernel.fullKernel.serialize.length ≤ 60 * Kernel.fullKernel.weight ∧
      fullBlock.serialize.length ≤ maxBlockBytes := by
  have hkernels : ∀ k ∈ fullBlock.body.kernels, k.InRange := by
    intro k hk
    obtain rfl : k = Kernel.fullKernel := List.mem_singleton.mp hk
    exact ⟨by decide, by decide, by decide, by decide⟩
  obtain ⟨-, houtputs, hkernels, hblock⟩ :=
    Block.length_serialize_le_maxBlockBytes hkernels (by decide)
  exact ⟨houtputs _ (List.mem_singleton_self _), hkernels _ (List.mem_singleton_self _), hblock⟩

/-- A kernel with the largest fee, peg-in and lock height that can be read. -/
def extremeKernel : Kernel :=
  ⟨0x0b, some (2 ^ 63 - 1), some (2 ^ 63 - 1), [], some (2 ^ 31 - 1), none, [], .zeros 33,
    .zeros 64⟩

/-- A block of such inputs and kernels. -/
def crowdedBlock (inputs kernels : ℕ) : Block :=
  ⟨zeroHeader, List.replicate inputs fullInput, [], List.replicate kernels extremeKernel⟩

lemma crowdedBlock_spec (inputs kernels : ℕ) :
    163 + inputs * 196 + kernels * 121 ≤ (crowdedBlock inputs kernels).serialize.length ∧
      (crowdedBlock inputs kernels).body.calculateWeight = kernels * 2 := by
  have hkernel : extremeKernel.serialize.length = 121 := by decide +kernel
  have hinput : fullInput.serialize.length = 196 := by decide +kernel
  have hheader : zeroHeader.serialize.length = 163 := by decide +kernel
  have hweights : extremeKernel.weight = 2 ∧ fullInput.weight = 0 := by decide
  constructor
  · simp only [Block.serialize, TxBody.serialize, crowdedBlock, putVector, length_append,
      length_flatMap, map_replicate, sum_replicate, hkernel, hinput, hheader,
      smul_eq_mul]
    omega
  · simp only [TxBody.calculateWeight, crowdedBlock, map_replicate, sum_replicate,
      hweights, map_nil, sum_nil, smul_eq_mul]
    omega

/-- The kernel is read from its bytes, and takes 121 bytes for a weight of 2.  A block with as many
inputs as there may be and as many such kernels as the weight allows is not too heavy, but has more
bytes than a block should have. -/
theorem crowdedBlock_exceeds :
    Kernel.unserialize extremeKernel.serialize = some (extremeKernel, []) ∧
      Input.unserialize fullInput.serialize = some (fullInput, []) ∧
      60 * extremeKernel.weight < extremeKernel.serialize.length ∧
      (crowdedBlock maxNumInputs 100000).body.exceedsMaximum = false ∧
      maxBlockBytes < (crowdedBlock maxNumInputs 100000).serialize.length := by
  obtain ⟨hlength, hweight⟩ := crowdedBlock_spec maxNumInputs 100000
  refine ⟨by decide +kernel, by decide +kernel, by decide +kernel, ?_,
    hlength.trans_lt' (by decide)⟩
  have hcount : (crowdedBlock maxNumInputs 100000).body.inputs.length = maxNumInputs :=
    List.length_replicate
  rw [TxBody.exceedsMaximum, hweight, hcount]
  decide

end Example

end Wire

end Aegisum
