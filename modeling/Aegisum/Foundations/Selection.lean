import Mathlib.Data.List.Perm.Subperm
import Aegisum.Foundations.Int64Sum

/-!
# Selections

A selection of a list is a list of flags, one for each element from the front; elements without a
flag are not selected.
-/

namespace Aegisum

variable {α : Type*}

/-- The elements whose flag is set. -/
def picked : List α → List Bool → List α
  | x :: xs, b :: bs => if b then x :: picked xs bs else picked xs bs
  | _, _ => []

@[simp] lemma picked_nil_left (bs : List Bool) : picked ([] : List α) bs = [] := by
  cases bs <;> rfl

@[simp] lemma picked_nil_right (xs : List α) : picked xs [] = [] := by
  cases xs <;> rfl

/-- Nothing is picked twice. -/
lemma picked_sublist (xs : List α) (bs : List Bool) : (picked xs bs).Sublist xs := by
  induction xs generalizing bs with
  | nil => simp
  | cons x xs ih =>
    cases bs with
    | nil => simp
    | cons b bs =>
      cases b with
      | false => exact (ih bs).cons x
      | true => exact (ih bs).cons_cons x

@[simp] lemma picked_replicate_true (xs : List α) :
    picked xs (List.replicate xs.length true) = xs := by
  induction xs with
  | nil => rfl
  | cons x xs ih => simpa [List.replicate_succ, picked] using ih

@[simp] lemma picked_replicate_false (xs : List α) (n : ℕ) :
    picked xs (List.replicate n false) = [] := by
  induction n generalizing xs with
  | zero => simp
  | succ n ih =>
    cases xs with
    | nil => simp
    | cons x xs => simpa [List.replicate_succ, picked] using ih xs

/-- Setting a flag adds its element. -/
lemma intSum_picked_set (f : α → Int64) {xs : List α} {bs : List Bool} {i : ℕ} {x : α}
    (hx : xs[i]? = some x) (hb : bs[i]? = some false) :
    intSum f (picked xs (bs.set i true)) = intSum f (picked xs bs) + (f x).toInt := by
  induction xs generalizing bs i with
  | nil => simp at hx
  | cons y xs ih =>
    cases bs with
    | nil => simp at hb
    | cons b bs =>
      cases i with
      | zero =>
        obtain rfl := Option.some.inj hx
        obtain rfl := Option.some.inj hb
        simp [picked, add_comm]
      | succ i =>
        have htail := @ih bs i (by simpa using hx) (by simpa using hb)
        cases b with
        | false => simpa [picked] using htail
        | true => simp [picked, htail, add_assoc]

/-- A part of the terms sums to no more. -/
lemma intSum_sublist_le {f : α → Int64} {xs ys : List α} (h : xs.Sublist ys)
    (hf : ∀ y ∈ ys, 0 ≤ (f y).toInt) : intSum f xs ≤ intSum f ys := by
  induction h with
  | slnil => exact le_rfl
  | cons y _ ih =>
    obtain ⟨hy, hys⟩ := List.forall_mem_cons.mp hf
    have htail := ih hys
    rw [intSum_cons]
    omega
  | cons_cons y _ ih =>
    obtain ⟨-, hys⟩ := List.forall_mem_cons.mp hf
    have htail := ih hys
    rw [intSum_cons, intSum_cons]
    omega

/-- A selection sums to no more. -/
lemma intSum_picked_le {f : α → Int64} {xs : List α} (hf : ∀ x ∈ xs, 0 ≤ (f x).toInt)
    (bs : List Bool) : intSum f (picked xs bs) ≤ intSum f xs :=
  intSum_sublist_le (picked_sublist xs bs) hf

end Aegisum
