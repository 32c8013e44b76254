import Mathlib.GroupTheory.OrderOfElement
import Aegisum.Mweb.BlockBuilder

/-!
# Aggregated transactions pass the checks of their parts

Every transaction of a list passes the order and duplicate checks of `TxBody::Validate`, the kernel
sums and the stealth sums.  In the group the equations of the parts add up.  The code cannot
represent the point at infinity, though, and counts the supply change in 64 bits: the aggregated
transaction passes exactly if none of the sums taken on the way vanishes and the supply change is
the sum of those of the parts.
-/

namespace Aegisum

open List

namespace Mw

/-! ### Sorting different elements -/

/-- A strict order in which different elements are comparable. -/
structure StrictTotal {α : Type} (less : α → α → Bool) : Prop extends StrictWeak less where
  eq_of_not_less : ∀ a b, less a b = false → less b a = false → a = b

/-- The result of sorting depends on the elements only, if no two of them are equivalent. -/
lemma sortBy_eq_of_perm {α : Type} {less : α → α → Bool} (h : StrictWeak less) {l l' : List α}
    (hperm : l.Perm l') (heq : ∀ a ∈ l, ∀ b ∈ l, less a b = false → less b a = false → a = b) :
    sortBy less l = sortBy less l' := by
  refine List.Perm.eq_of_pairwise (fun a b ha hb hba hab => ?_) (pairwise_sortBy h l)
    (pairwise_sortBy h l') ((perm_sortBy less l).trans (hperm.trans (perm_sortBy less l').symm))
  have ha := (perm_sortBy less l).mem_iff.mp ha
  have hb := hperm.mem_iff.mpr ((perm_sortBy less l').mem_iff.mp hb)
  exact heq a ha b hb hab hba

variable {P : Primitives}

/-- Kernels of which none comes first have the same id. -/
lemma StrictTotal.getKernelID_eq [MwCrypto P] (h : StrictTotal P.hashLt) {a b : Kernel P}
    (hab : kernelSort a b = false) (hba : kernelSort b a = false) :
    a.getKernelID = b.getKernelID := by
  simp only [kernelSort, Bool.or_eq_false_iff, Bool.and_eq_false_iff, decide_eq_false_iff_not,
    gt_iff_lt, Int64.lt_iff_toInt_lt] at hab hba
  have heq : a.getSupplyChange = b.getSupplyChange := Int64.toInt_inj.mp (by omega)
  exact h.eq_of_not_less _ _ (hab.2.resolve_left (not_not.mpr heq))
    (hba.2.resolve_left (not_not.mpr heq.symm))

end Mw

variable {P : Primitives}

/-! ### Sums that can be represented -/

namespace Mw

open TxBody Transaction

variable {coinsAdded : CAmount} {c : P.Point}

/-- Keys are added, unless one of them is zero or their sum vanishes. -/
lemma totalKey_eq_ok_iff {keys : List P.Point} :
    totalKey keys = .ok c ↔
      (∀ key ∈ keys, key ≠ 0) ∧ (keys.sum = 0 → keys = []) ∧ c = keys.sum := by
  rw [totalKey]
  split
  case isTrue hnil => simp [hnil, eq_comm]
  case isFalse hne =>
    rw [liftCrypto_eq_ok, addPublicKeys]
    simp only [any_eq_true, decide_eq_true_eq, exists_eq_right]
    split
    case isTrue hbad =>
      refine iff_of_false (by simp) ?_
      rintro ⟨hkeys, hsum, -⟩
      rcases hbad with hzero | hzero
      · exact hkeys 0 hzero rfl
      · exact hne (hsum hzero)
    case isFalse hgood =>
      obtain ⟨hkeys, hsum⟩ := not_or.mp hgood
      rw [Option.some.injEq, eq_comm]
      exact ⟨fun h => ⟨fun key hkey hzero => hkeys (hzero ▸ hkey), fun h => absurd h hsum, h⟩,
        fun h => h.2.2⟩

namespace TxBody

/-- The keys on the left side of the stealth sums. -/
def senderKeys (b : TxBody P) : List P.Point :=
  b.outputs.map Output.senderPubKey ++ b.inputs.filterMap Input.inputPubKey

/-- The keys on the right side of the stealth sums. -/
def receiverKeys (stealthOffset : P.Scalar) (b : TxBody P) : List P.Point :=
  b.getStealthExcesses ++ b.inputs.map Input.outputPubKey ++
    if stealthOffset ≠ 0 then [stealthOffset • P.genG] else []

lemma sum_receiverKeys (stealthOffset : P.Scalar) (b : TxBody P) :
    (b.receiverKeys stealthOffset).sum =
      (b.receiverKeys 0).sum + stealthOffset • P.genG := by
  by_cases h : stealthOffset = 0
  · simp [h]
  · simp [receiverKeys, h, add_assoc]

lemma mem_receiverKeys {stealthOffset : P.Scalar} {b : TxBody P} {key : P.Point} :
    key ∈ b.receiverKeys stealthOffset ↔
      key ∈ b.receiverKeys 0 ∨ stealthOffset ≠ 0 ∧ key = stealthOffset • P.genG := by
  by_cases h : stealthOffset = 0
  · simp [h]
  · simp [receiverKeys, h, or_assoc]

end TxBody

/-- The stealth sums pass if they can be represented and the keys balance. -/
lemma stealthSumValidate_eq_ok_iff {stealthOffset : P.Scalar} {body : TxBody P} :
    stealthSumValidate stealthOffset body = .ok () ↔
      ((∀ key ∈ body.senderKeys, key ≠ 0) ∧ (body.senderKeys.sum = 0 → body.senderKeys = [])) ∧
      ((∀ key ∈ body.receiverKeys stealthOffset, key ≠ 0) ∧
        ((body.receiverKeys stealthOffset).sum = 0 → body.receiverKeys stealthOffset = [])) ∧
      body.senderKeys.sum = (body.receiverKeys stealthOffset).sum := by
  rw [stealthSumValidate, bind_eq_ok]
  simp only [bind_eq_ok, totalKey_eq_ok_iff, rejectIf_eq_ok, ne_eq, not_not]
  constructor
  · rintro ⟨l, ⟨hlhs, hlsum, rfl⟩, r, ⟨hrhs, hrsum, rfl⟩, heq⟩
    exact ⟨⟨hlhs, hlsum⟩, ⟨hrhs, hrsum⟩, heq⟩
  · rintro ⟨⟨hlhs, hlsum⟩, ⟨hrhs, hrsum⟩, heq⟩
    exact ⟨_, ⟨hlhs, hlsum, rfl⟩, _, ⟨hrhs, hrsum, rfl⟩, heq⟩

/-! ### The equations of the parts add up -/

section Together

variable {txs : List (Transaction P)}

/-- The commitments of transactions that pass the kernel sums balance together. -/
lemma balance_together (h : ∀ tx ∈ txs, validateForTx tx = .ok ()) :
    (together txs).getOutputCommits.sum - (together txs).getInputCommits.sum -
        intSum (·.body.getSupplyChange) txs • P.genH =
      (together txs).getKernelCommits.sum +
        (txs.map kernelOffset).sum • P.genG := by
  induction txs with
  | nil => simp [together, getOutputCommits, getInputCommits,
      getKernelCommits]
  | cons tx txs ih =>
    obtain ⟨htx, htxs⟩ := forall_mem_cons.mp h
    have htx := balance_of_validateSums htx
    have htxs := ih htxs
    have hsum := congrArg₂ (· + ·) htx htxs
    simp only [together, getOutputCommits, getInputCommits, getKernelCommits] at hsum ⊢
    simp only [flatMap_cons, map_append, sum_append, map_cons, sum_cons, intSum_cons, add_smul]
    rw [add_sub_add_comm, add_sub_add_comm, hsum]
    abel

/-- The keys of transactions that pass the stealth sums balance together. -/
lemma keyBalance_together (h : ∀ tx ∈ txs, stealthSumValidate tx.stealthOffset tx.body = .ok ()) :
    (together txs).senderKeys.sum =
      ((together txs).receiverKeys (txs.map stealthOffset).sum).sum := by
  rw [sum_receiverKeys]
  induction txs with
  | nil => simp [together, senderKeys, receiverKeys,
      getStealthExcesses]
  | cons tx txs ih =>
    obtain ⟨htx, htxs⟩ := forall_mem_cons.mp h
    obtain ⟨-, -, htx⟩ := stealthSumValidate_eq_ok_iff.mp htx
    rw [sum_receiverKeys] at htx
    have hsum := congrArg₂ (· + ·) htx (ih htxs)
    simp only [together, senderKeys, receiverKeys,
      getStealthExcesses, ne_eq, not_true_eq_false, if_false, append_nil,
      sum_append] at hsum ⊢
    simp only [flatMap_cons, map_append, filterMap_append, sum_append, map_cons, sum_cons, add_smul]
    rw [add_add_add_comm, hsum]
    abel

lemma mem_senderKeys_together {key : P.Point} :
    key ∈ (together txs).senderKeys ↔ ∃ tx ∈ txs, key ∈ tx.body.senderKeys := by
  simp only [senderKeys, together, map_flatMap, filterMap_flatMap,
    mem_append, mem_flatMap, ← exists_or, ← and_or_left]

lemma mem_receiverKeys_together {key : P.Point} :
    key ∈ (together txs).receiverKeys 0 ↔ ∃ tx ∈ txs, key ∈ tx.body.receiverKeys 0 := by
  simp only [receiverKeys, together, getStealthExcesses, map_flatMap,
    filterMap_flatMap, mem_append, mem_flatMap, ne_eq, not_true_eq_false, if_false,
    append_nil, ← exists_or, ← and_or_left]

/-- 64-bit sums of 64-bit sums. -/
lemma accumulate_flatMap {α β : Type} (f : α → Int64) (g : β → List α) (xs : List β) :
    accumulate f 0 (xs.flatMap g) = accumulate (fun x => accumulate f 0 (g x)) 0 xs := by
  apply eq_of_toInt_modEq
  calc (accumulate f 0 (xs.flatMap g)).toInt
      ≡ intSum f (xs.flatMap g) [ZMOD 2 ^ 64] := toInt_accumulate_zero_modEq _ _
    _ = (xs.map fun x => intSum f (g x)).sum := intSum_flatMap f g xs
    _ ≡ intSum (fun x => accumulate f 0 (g x)) xs [ZMOD 2 ^ 64] :=
      Int.ModEq.listSum_map fun x _ => (toInt_accumulate_zero_modEq f (g x)).symm
    _ ≡ _ [ZMOD 2 ^ 64] := (toInt_accumulate_zero_modEq _ _).symm

end Together

/-! ### The checks -/

variable [MwCrypto P]

/-- The order and the duplicates of a body, its kernel sums and its stealth sums. -/
structure PassesChecks (kernelOffset stealthOffset : P.Scalar) (body : TxBody P) : Prop where
  sorted : body.Sorted
  nodup_spent : body.getSpentIDs.Nodup
  nodup_outputs : body.getOutputIDs.Nodup
  nodup_kernels : body.getKernelIDs.Nodup
  kernelSums : validateSums body.getInputCommits body.getOutputCommits body.getKernelCommits
    kernelOffset body.getSupplyChange = .ok ()
  stealthSums : stealthSumValidate stealthOffset body = .ok ()

/-- Two transactions have no spent id, output id or kernel id in common. -/
structure Transaction.Apart (tx tx' : Transaction P) : Prop where
  spent : tx.body.getSpentIDs.Disjoint tx'.body.getSpentIDs
  outputs : tx.body.getOutputIDs.Disjoint tx'.body.getOutputIDs
  kernels : tx.body.getKernelIDs.Disjoint tx'.body.getKernelIDs

/-- The sums over all transactions can be represented: none of them is the point at infinity, and
the supply changes, added in 64 bits, are the same multiple of the generator as their sum. -/
structure Combinable (txs : List (Transaction P)) : Prop where
  sums : Representable (TxBody.together txs).getInputCommits (TxBody.together txs).getOutputCommits
    (TxBody.together txs).getKernelCommits (txs.map Transaction.kernelOffset).sum
    (accumulate (·.body.getSupplyChange) 0 txs)
  supply : (accumulate (·.body.getSupplyChange) 0 txs).toInt ≡
    intSum (·.body.getSupplyChange) txs [ZMOD addOrderOf P.genH]
  senderKeys : (TxBody.together txs).senderKeys.sum = 0 → (TxBody.together txs).senderKeys = []
  receiverKeys :
    ((TxBody.together txs).receiverKeys (txs.map Transaction.stealthOffset).sum).sum = 0 →
      (TxBody.together txs).receiverKeys (txs.map Transaction.stealthOffset).sum = []
  offsetKey : (txs.map Transaction.stealthOffset).sum • P.genG = 0 →
    (txs.map Transaction.stealthOffset).sum = 0

section Aggregate

variable {txs : List (Transaction P)}

/-- Transactions without duplicates that have no id in common have no duplicates together. -/
lemma nodup_together
    (hchecks : ∀ tx ∈ txs, PassesChecks tx.kernelOffset tx.stealthOffset tx.body)
    (hapart : txs.Pairwise Transaction.Apart) :
    (together txs).getSpentIDs.Nodup ∧ (together txs).getOutputIDs.Nodup ∧
      (together txs).getKernelIDs.Nodup := by
  rw [getSpentIDs, getOutputIDs, getKernelIDs, together, map_flatMap, map_flatMap, map_flatMap]
  simp only [nodup_flatMap]
  exact ⟨⟨fun tx htx => (hchecks tx htx).nodup_spent, hapart.imp fun h => h.spent⟩,
    ⟨fun tx htx => (hchecks tx htx).nodup_outputs, hapart.imp fun h => h.outputs⟩,
    fun tx htx => (hchecks tx htx).nodup_kernels, hapart.imp fun h => h.kernels⟩

/-- The kernel sums of the aggregated transaction. -/
lemma kernelSums_aggregate_iff (h : ∀ tx ∈ txs, validateForTx tx = .ok ()) :
    validateSums (aggregate txs).body.getInputCommits (aggregate txs).body.getOutputCommits
        (aggregate txs).body.getKernelCommits (aggregate txs).kernelOffset
        (aggregate txs).body.getSupplyChange = .ok () ↔
      Representable (together txs).getInputCommits (together txs).getOutputCommits
          (together txs).getKernelCommits (txs.map kernelOffset).sum
          (accumulate (·.body.getSupplyChange) 0 txs) ∧
        (accumulate (·.body.getSupplyChange) 0 txs).toInt ≡
          intSum (·.body.getSupplyChange) txs [ZMOD addOrderOf P.genH] := by
  have hsupply : (together txs).getSupplyChange =
      accumulate (·.body.getSupplyChange) 0 txs := accumulate_flatMap _ _ txs
  rw [(sameParts_aggregate txs).validateSums_eq, kernelOffset_aggregate, hsupply,
    validateSums_eq_ok_iff, ← balance_together h, sub_right_inj, zsmul_eq_zsmul_iff_modEq]

/-- The stealth sums of the aggregated transaction. -/
lemma stealthSums_aggregate_iff
    (h : ∀ tx ∈ txs, stealthSumValidate tx.stealthOffset tx.body = .ok ()) :
    stealthSumValidate (aggregate txs).stealthOffset (aggregate txs).body = .ok () ↔
      ((together txs).senderKeys.sum = 0 → (together txs).senderKeys = []) ∧
      (((together txs).receiverKeys (txs.map stealthOffset).sum).sum = 0 →
        (together txs).receiverKeys (txs.map stealthOffset).sum = []) ∧
      ((txs.map stealthOffset).sum • P.genG = 0 →
        (txs.map stealthOffset).sum = 0) := by
  have hsender : ∀ key ∈ (together txs).senderKeys, key ≠ 0 := by
    intro key hkey
    obtain ⟨tx, htx, hkey⟩ := mem_senderKeys_together.mp hkey
    exact (stealthSumValidate_eq_ok_iff.mp (h tx htx)).1.1 key hkey
  have hreceiver : ∀ key ∈ (together txs).receiverKeys 0, key ≠ 0 := by
    intro key hkey
    obtain ⟨tx, htx, hkey⟩ := mem_receiverKeys_together.mp hkey
    exact (stealthSumValidate_eq_ok_iff.mp (h tx htx)).2.1.1 key
      (mem_receiverKeys.mpr (.inl hkey))
  rw [(sameParts_aggregate txs).stealthSumValidate_eq, stealthOffset_aggregate,
    stealthSumValidate_eq_ok_iff]
  constructor
  · rintro ⟨⟨-, hlsum⟩, ⟨hkeys, hrsum⟩, -⟩
    refine ⟨hlsum, hrsum, fun hzero => ?_⟩
    by_contra hne
    exact hkeys _ (mem_receiverKeys.mpr (.inr ⟨hne, rfl⟩)) hzero
  · rintro ⟨hlsum, hrsum, hoffset⟩
    refine ⟨⟨hsender, hlsum⟩, ⟨fun key hkey => ?_, hrsum⟩, keyBalance_together h⟩
    rcases mem_receiverKeys.mp hkey with hkey | ⟨hne, rfl⟩
    · exact hreceiver key hkey
    · exact fun hzero => hne (hoffset hzero)

/-- The checks of the aggregated transaction. -/
lemma passesChecks_aggregate_iff (hless : StrictWeak P.hashLt)
    (hchecks : ∀ tx ∈ txs, PassesChecks tx.kernelOffset tx.stealthOffset tx.body)
    (hapart : txs.Pairwise Transaction.Apart) :
    PassesChecks (aggregate txs).kernelOffset (aggregate txs).stealthOffset (aggregate txs).body ↔
      Combinable txs := by
  have hparts := sameParts_aggregate txs
  have hkernel := kernelSums_aggregate_iff fun tx htx => (hchecks tx htx).kernelSums
  have hstealth := stealthSums_aggregate_iff fun tx htx => (hchecks tx htx).stealthSums
  constructor
  · intro h
    obtain ⟨hsums, hsupply⟩ := hkernel.mp h.kernelSums
    obtain ⟨hsender, hreceiver, hoffset⟩ := hstealth.mp h.stealthSums
    exact ⟨hsums, hsupply, hsender, hreceiver, hoffset⟩
  · intro h
    have hsorted : ∀ tx, txs = [tx] → tx.body.Sorted := by
      rintro tx rfl
      exact (hchecks tx mem_cons_self).sorted
    obtain ⟨hspent, houtputs, hkernels⟩ := nodup_together hchecks hapart
    exact
      { sorted := (sorted_aggregate_iff hless txs).mpr hsorted
        nodup_spent := hparts.getSpentIDs.nodup_iff.mpr hspent
        nodup_outputs := hparts.getOutputIDs.nodup_iff.mpr houtputs
        nodup_kernels := hparts.getKernelIDs.nodup_iff.mpr hkernels
        kernelSums := hkernel.mpr ⟨h.sums, h.supply⟩
        stealthSums := hstealth.mpr ⟨h.senderKeys, h.receiverKeys, h.offsetKey⟩ }

/-- Two or more transactions are sorted together. -/
lemma aggregate_of_two_le (h : 2 ≤ txs.length) :
    aggregate txs =
      { kernelOffset := (txs.map kernelOffset).sum
        stealthOffset := (txs.map stealthOffset).sum
        body :=
          { inputs := sortBy inputSort (together txs).inputs
            outputs := sortBy outputSort (together txs).outputs
            kernels := sortBy kernelSort (together txs).kernels } } := by
  match txs with
  | _ :: _ :: _ => rfl

/-- The aggregated transaction does not depend on the order of the list. -/
lemma aggregate_eq_of_perm (hless : StrictTotal P.hashLt) {txs' : List (Transaction P)}
    (hspent : (together txs).getSpentIDs.Nodup)
    (houtputs : (together txs).getOutputIDs.Nodup)
    (hkernels : (together txs).getKernelIDs.Nodup) (hperm : txs.Perm txs') :
    aggregate txs = aggregate txs' := by
  have hinputs : sortBy inputSort (together txs).inputs =
      sortBy inputSort (together txs').inputs :=
    sortBy_eq_of_perm (hless.toStrictWeak.comap Input.outputID) (hperm.flatMap_right _)
      fun a ha b hb hab hba =>
        inj_on_of_nodup_map hspent ha hb (hless.eq_of_not_less _ _ hab hba)
  have houtputs : sortBy outputSort (together txs).outputs =
      sortBy outputSort (together txs').outputs :=
    sortBy_eq_of_perm (hless.toStrictWeak.comap Output.getOutputID) (hperm.flatMap_right _)
      fun a ha b hb hab hba =>
        inj_on_of_nodup_map houtputs ha hb (hless.eq_of_not_less _ _ hab hba)
  have hkernels : sortBy kernelSort (together txs).kernels =
      sortBy kernelSort (together txs').kernels :=
    sortBy_eq_of_perm hless.toStrictWeak.kernelSort (hperm.flatMap_right _)
      fun a ha b hb hab hba =>
        inj_on_of_nodup_map hkernels ha hb (hless.getKernelID_eq hab hba)
  by_cases hlength : 2 ≤ txs.length
  · rw [aggregate_of_two_le hlength, aggregate_of_two_le (hperm.length_eq ▸ hlength), hinputs,
      houtputs, hkernels, (hperm.map kernelOffset).sum_eq,
      (hperm.map stealthOffset).sum_eq]
  · match txs with
    | [] => rw [hperm.nil_eq]
    | [tx] => rw [perm_singleton.mp hperm.symm]
    | _ :: _ :: _ => simp at hlength

/-- Transactions that each pass the checks and have no id in common: the aggregated transaction
passes them exactly if the sums over all transactions can be represented.  Its fee, supply change,
peg-ins and peg-outs are those of the transactions, and it does not depend on their order. -/
theorem aggregate_sound_iff (hless : StrictTotal P.hashLt)
    (hchecks : ∀ tx ∈ txs, PassesChecks tx.kernelOffset tx.stealthOffset tx.body)
    (hapart : txs.Pairwise Transaction.Apart) :
    (PassesChecks (aggregate txs).kernelOffset (aggregate txs).stealthOffset
        (aggregate txs).body ↔ Combinable txs) ∧
      (aggregate txs).body.getTotalFee = accumulate (·.body.getTotalFee) 0 txs ∧
      (aggregate txs).body.getSupplyChange = accumulate (·.body.getSupplyChange) 0 txs ∧
      (aggregate txs).body.getPegIns.Perm (txs.flatMap (·.body.getPegIns)) ∧
      (aggregate txs).body.getPegOuts.Perm (txs.flatMap (·.body.getPegOuts)) ∧
      ∀ txs', txs.Perm txs' → aggregate txs = aggregate txs' := by
  have hparts := sameParts_aggregate txs
  refine ⟨passesChecks_aggregate_iff hless.toStrictWeak hchecks hapart, ?_, ?_, ?_, ?_, ?_⟩
  · rw [TxBody.getTotalFee, accumulate_perm _ hparts.kernels]
    exact accumulate_flatMap _ _ txs
  · rw [TxBody.getSupplyChange, accumulate_perm _ hparts.kernels]
    exact accumulate_flatMap _ _ txs
  · rw [← TxBody.getPegIns_together]
    exact hparts.getPegIns
  · rw [← TxBody.getPegOuts_together]
    exact hparts.getPegOuts
  · intro txs' hperm
    obtain ⟨hspent, houtputs, hkernels⟩ := nodup_together hchecks hapart
    exact aggregate_eq_of_perm hless hspent houtputs hkernels hperm

end Aggregate

/-! ### Kernels that cancel -/

instance (b : TxBody P) : Decidable b.Sorted := inferInstanceAs (Decidable (_ ∧ _ ∧ _))

instance : DecidableRel (Transaction.Apart (P := P)) := fun tx tx' =>
  decidable_of_iff
    ((∀ id ∈ tx.body.getSpentIDs, id ∉ tx'.body.getSpentIDs) ∧
      (∀ id ∈ tx.body.getOutputIDs, id ∉ tx'.body.getOutputIDs) ∧
      ∀ id ∈ tx.body.getKernelIDs, id ∉ tx'.body.getKernelIDs)
    ⟨fun ⟨hspent, houtputs, hkernels⟩ => ⟨fun {_} h h' => hspent _ h h',
        fun {_} h h' => houtputs _ h h', fun {_} h h' => hkernels _ h h'⟩,
      fun h => ⟨fun _ hid hid' => h.spent hid hid', fun _ hid hid' => h.outputs hid hid',
        fun _ hid hid' => h.kernels hid hid'⟩⟩

section Example

open Symbolic BlockBuilder

lemma strictTotal_lt : StrictTotal Digest.lt where
  toStrictWeak := strictWeak_lt
  eq_of_not_less a b hab hba := by
    rcases lt_or_eq_or_lt a b with h | h | h
    · rw [hab] at h
      cases h
    · exact h
    · rw [hba] at h
      cases h

/-- The transaction spends the 10 units of the peg-in, pegs out 4 of them and keeps the rest.  Its
excess is the negative of the one of the peg-in. -/
def cancellingTx : Transaction sym :=
  ⟨3, -4, ⟨[input (output 10 7 5 9).getOutputID 10 7 9], [output 6 3 5 11],
    [payKernel (-7)]⟩, by simp⟩

lemma passesChecks_mintCall :
    PassesChecks mintCall.1.kernelOffset mintCall.1.stealthOffset mintCall.1.body := by
  constructor
  all_goals decide +kernel

lemma passesChecks_cancellingTx :
    PassesChecks cancellingTx.kernelOffset cancellingTx.stealthOffset cancellingTx.body := by
  constructor
  all_goals decide +kernel

/-- Two transactions pass the checks, their aggregation does not: the kernel excesses add up to the
point at infinity. -/
theorem aggregate_cancellingTx :
    (∀ tx ∈ [mintCall.1, cancellingTx],
        PassesChecks tx.kernelOffset tx.stealthOffset tx.body) ∧
      [mintCall.1, cancellingTx].Pairwise Transaction.Apart ∧
      validateSums (aggregate [mintCall.1, cancellingTx]).body.getInputCommits
        (aggregate [mintCall.1, cancellingTx]).body.getOutputCommits
        (aggregate [mintCall.1, cancellingTx]).body.getKernelCommits
        (aggregate [mintCall.1, cancellingTx]).kernelOffset
        (aggregate [mintCall.1, cancellingTx]).body.getSupplyChange = .error .crypto := by
  refine ⟨?_, by decide +kernel, by decide +kernel⟩
  simpa using ⟨passesChecks_mintCall, passesChecks_cancellingTx⟩

/-- With another excess the aggregation passes. -/
theorem aggregate_sound_mintAndPay :
    PassesChecks (aggregate [mintCall.1, (payCall 8).1]).kernelOffset
      (aggregate [mintCall.1, (payCall 8).1]).stealthOffset
      (aggregate [mintCall.1, (payCall 8).1]).body := by
  have hpay : PassesChecks (payCall 8).1.kernelOffset (payCall 8).1.stealthOffset
      (payCall 8).1.body := by
    constructor
    all_goals decide +kernel
  have hchecks : ∀ tx ∈ [mintCall.1, (payCall 8).1],
      PassesChecks tx.kernelOffset tx.stealthOffset tx.body := by
    simpa using ⟨passesChecks_mintCall, hpay⟩
  refine (aggregate_sound_iff strictTotal_lt hchecks (by decide +kernel)).1.mpr ?_
  have hsupply : (accumulate (·.body.getSupplyChange) 0 [mintCall.1, (payCall 8).1]).toInt =
      intSum (·.body.getSupplyChange) [mintCall.1, (payCall 8).1] := by decide +kernel
  refine ⟨?_, by rw [hsupply], by decide +kernel, by decide +kernel, by decide +kernel⟩
  constructor
  all_goals decide +kernel

end Example

end Mw

end Aegisum
