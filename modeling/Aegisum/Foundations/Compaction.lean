import Mathlib.Data.List.Induction
import Mathlib.Data.Nat.Count

/-!
# Lists without their marked entries

A list is stored without the entries at marked positions.  An entry that is kept is found at its
position minus the number of marked positions before it.
-/

namespace Aegisum

open List Nat

/-- Nothing is counted after the last position that satisfies a predicate. -/
lemma count_eq_of_forall_lt {p : ℕ → Prop} [DecidablePred p] {m n : ℕ} (hm : ∀ i, p i → i < m)
    (hle : m ≤ n) : count p n = count p m := by
  induction n, hle using le_induction with
  | base => rfl
  | succ n hle ih =>
    have hnot : ¬ p n := fun hp => absurd (hm n hp) (not_lt.mpr hle)
    rw [count_succ, if_neg hnot, ih, add_zero]

variable {D : Type} (marked : ℕ → Bool)

/-- The entries of a list at positions that are not marked, the first one counted as `i`. -/
def dropMarked : ℕ → List D → List D
  | _, [] => []
  | i, d :: l => if marked i then dropMarked (i + 1) l else d :: dropMarked (i + 1) l

/-- Two parts are compacted one after the other. -/
lemma dropMarked_append (i : ℕ) (l l' : List D) :
    dropMarked marked i (l ++ l') =
      dropMarked marked i l ++ dropMarked marked (i + l.length) l' := by
  induction l generalizing i with
  | nil => rfl
  | cons d l ih =>
    rw [cons_append, dropMarked, dropMarked, ih, length_cons,
      show i + 1 + l.length = i + (l.length + 1) by omega]
    split
    · rfl
    · rw [cons_append]

/-- After the last marked position everything is kept. -/
lemma dropMarked_eq_self {i : ℕ} (h : ∀ j, marked j = true → j < i) (l : List D) :
    dropMarked marked i l = l := by
  induction l generalizing i with
  | nil => rfl
  | cons d l ih =>
    have hnot : ¬ marked i = true := fun hi => lt_irrefl i (h i hi)
    rw [dropMarked, if_neg hnot, ih fun j hj => lt_succ_of_lt (h j hj)]

/-- What is kept and what is marked are all entries together. -/
lemma length_dropMarked_add (l : List D) :
    (dropMarked marked 0 l).length + count (marked · = true) l.length = l.length := by
  induction l using reverseRecOn with
  | nil => rfl
  | append_singleton l d ih =>
    rw [dropMarked_append, length_append, length_append, length_singleton,
      count_succ, zero_add, dropMarked, dropMarked]
    split
    · rw [length_nil]
      omega
    · rw [length_singleton]
      omega

/-- The first entries, without the marked ones. -/
lemma dropMarked_take {l : List D} {n : ℕ} (hn : n ≤ l.length) :
    dropMarked marked 0 (l.take n) =
      (dropMarked marked 0 l).take (n - count (marked · = true) n) := by
  have hlen := length_dropMarked_add marked (l.take n)
  have hsplit := dropMarked_append marked 0 (l.take n) (l.drop n)
  rw [length_take, min_eq_left hn] at hlen
  rw [take_append_drop] at hsplit
  rw [hsplit, ← show (dropMarked marked 0 (l.take n)).length =
    n - count (marked · = true) n by omega, take_left]

/-- An entry that is kept is found before its position by the number of marked ones. -/
lemma getElem?_dropMarked {l : List D} {n : ℕ} (hn : n < l.length) (hmarked : marked n = false) :
    (dropMarked marked 0 l)[n - Nat.count (marked · = true) n]? = l[n]? := by
  have hlen := length_dropMarked_add marked (l.take n)
  rw [length_take, Nat.min_eq_left (Nat.le_of_lt hn)] at hlen
  have hsplit : l = l.take n ++ l[n] :: l.drop (n + 1) := by simp
  have hdrop : dropMarked marked 0 l = dropMarked marked 0 (l.take n) ++
      l[n] :: dropMarked marked (n + 1) (l.drop (n + 1)) := by
    conv_lhs => rw [hsplit]
    rw [dropMarked_append, length_take, Nat.min_eq_left (Nat.le_of_lt hn), Nat.zero_add,
      dropMarked, if_neg (by rw [hmarked]; decide)]
  rw [hdrop, ← show (dropMarked marked 0 (l.take n)).length =
    n - Nat.count (marked · = true) n by omega, getElem?_append_right (Nat.le_refl _),
    Nat.sub_self, getElem?_eq_getElem hn]
  rfl

end Aegisum
