import Aegisum.Foundations.Checked
import Aegisum.Foundations.Int64Sum

/-!
# Amounts

`CAmount` of `amount.h`: a signed 64-bit number of base units, with the money range
that consensus code tests.  Arithmetic on amounts wraps; `toInt` is the unbounded value.
-/

namespace Aegisum

/-- An amount in base units. -/
abbrev CAmount := Int64

/-- The number of base units in one coin. -/
def coin : CAmount := 100000000

/-- No amount larger than this is valid. -/
def maxMoney : CAmount := 100000000 * coin

/-- An amount is in the money range. -/
def MoneyRange (nValue : CAmount) : Prop := 0 ≤ nValue ∧ nValue ≤ maxMoney

instance (nValue : CAmount) : Decidable (MoneyRange nValue) :=
  inferInstanceAs (Decidable (_ ∧ _))

@[simp] lemma maxMoney_toInt : maxMoney.toInt = 10 ^ 16 := by decide

/-- The money range in unbounded integers. -/
lemma moneyRange_iff {v : CAmount} : MoneyRange v ↔ 0 ≤ v.toInt ∧ v.toInt ≤ 10 ^ 16 := by
  rw [MoneyRange, Int64.le_iff_toInt_le, Int64.le_iff_toInt_le, maxMoney_toInt]
  rfl

/-- No amount in range is negative. -/
lemma MoneyRange.nonneg {v : CAmount} (h : MoneyRange v) : 0 ≤ v.toInt :=
  (moneyRange_iff.mp h).1

/-- No amount in range exceeds the limit. -/
lemma MoneyRange.le {v : CAmount} (h : MoneyRange v) : v.toInt ≤ 10 ^ 16 :=
  (moneyRange_iff.mp h).2

lemma moneyRange_zero : MoneyRange 0 := by decide

/-- Two amounts in the money range are added without wrapping. -/
lemma MoneyRange.toInt_add {a b : CAmount} (ha : MoneyRange a) (hb : MoneyRange b) :
    (a + b).toInt = a.toInt + b.toInt := by
  have ha' := ha.le
  have hb' := hb.le
  have ha₀ := ha.nonneg
  have hb₀ := hb.nonneg
  exact toInt_add_of_fits ⟨by omega, by omega⟩

/-- Two amounts in the money range are subtracted without wrapping. -/
lemma MoneyRange.toInt_sub {a b : CAmount} (ha : MoneyRange a) (hb : MoneyRange b) :
    (a - b).toInt = a.toInt - b.toInt := by
  have ha' := ha.le
  have hb' := hb.le
  have ha₀ := ha.nonneg
  have hb₀ := hb.nonneg
  exact toInt_sub_of_fits ⟨by omega, by omega⟩

/-- A loop that adds up amounts and stops when an amount or a running sum leaves the money
range computes the unbounded sum. -/
lemma foldlM_moneyRange {α ε : Type} {f : CAmount → α → Except ε CAmount} {g : α → CAmount}
    (hstep : ∀ s x s', f s x = .ok s' → s' = s + g x ∧ MoneyRange (g x) ∧ MoneyRange s')
    {xs : List α} {s t : CAmount} (hs : MoneyRange s) (h : xs.foldlM f s = .ok t) :
    t.toInt = s.toInt + intSum g xs ∧ MoneyRange t ∧ ∀ x ∈ xs, MoneyRange (g x) := by
  induction xs generalizing s with
  | nil =>
    obtain rfl := Except.ok.inj h
    simp [hs]
  | cons x xs ih =>
    obtain ⟨s', hx, hrest⟩ := foldlM_cons_eq_ok.mp h
    obtain ⟨rfl, hgx, hs'⟩ := hstep s x s' hx
    obtain ⟨ht, hrange, hall⟩ := ih hs' hrest
    refine ⟨?_, hrange, List.forall_mem_cons.mpr ⟨hgx, hall⟩⟩
    rw [ht, hs.toInt_add hgx, intSum_cons, add_assoc]

/-- A loop that adds up amounts, and goes on as long as amounts and running sums are in the money
range, runs through if the total is. -/
lemma exists_foldlM_eq_pure {α : Type} {m : Type → Type} [Monad m] [LawfulMonad m]
    {f : CAmount → α → m CAmount} {g : α → CAmount}
    (hstep : ∀ s x, MoneyRange (g x) → MoneyRange (s + g x) → f s x = pure (s + g x))
    {xs : List α} {s : CAmount} (hs : MoneyRange s) (hxs : ∀ x ∈ xs, MoneyRange (g x))
    (htotal : s.toInt + intSum g xs ≤ 10 ^ 16) :
    ∃ t, xs.foldlM f s = pure t ∧ t.toInt = s.toInt + intSum g xs := by
  induction xs generalizing s with
  | nil => exact ⟨s, rfl, by simp⟩
  | cons x xs ih =>
    rw [List.forall_mem_cons] at hxs
    rw [intSum_cons, ← add_assoc] at htotal
    have hadd := hs.toInt_add hxs.1
    have hpos : 0 ≤ intSum g xs := intSum_nonneg fun x hx => (hxs.2 x hx).nonneg
    have hs' : MoneyRange (s + g x) := by
      have := hs.nonneg
      have := hxs.1.nonneg
      exact moneyRange_iff.mpr ⟨by omega, by omega⟩
    obtain ⟨t, hloop, ht⟩ := ih hs' hxs.2 (by rwa [hadd])
    refine ⟨t, ?_, ?_⟩
    · rw [List.foldlM_cons, hstep s x hxs.1 hs', pure_bind, hloop]
    · rw [ht, hadd, intSum_cons, add_assoc]

end Aegisum
