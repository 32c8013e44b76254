import Mathlib.Data.List.Basic
import Mathlib.Logic.Function.Basic
import Aegisum.Foundations.Cells

/-!
# Indexes beside a container

Two ways of finding the elements of a container again.  A vector of its elements, of which each
knows its position: an element is removed by putting the last one in its place.  And a map from
keys to sets of elements, in which no empty set is kept.
-/

namespace Aegisum

open List

/-! ### Positions in a vector -/

section Positions

variable {α : Type}

/-- The vector and the known positions agree. -/
def Indexed (l : List α) (pos : α → Option ℕ) : Prop :=
  ∀ (a : α) (i : ℕ), pos a = some i ↔ l[i]? = some a

/-- Put the last element in the place of the given one. -/
def swapRemove (l : List α) (i : ℕ) (last : α) : List α := (l.set i last).dropLast

variable {pos : α → Option ℕ}

lemma Indexed.nil (h : ∀ a, pos a = none) : Indexed [] pos := by
  intro a i
  rw [h a]
  simp

/-- A new element goes to the end. -/
lemma Indexed.push {l : List α} {pos' : α → Option ℕ} (h : Indexed l pos) {a : α}
    (hnew : pos a = none) (hself : pos' a = some l.length) (hother : ∀ b ≠ a, pos' b = pos b) :
    Indexed (l ++ [a]) pos' := by
  intro b i
  have hnotin : ∀ j : ℕ, l[j]? ≠ some a := fun j hj => by
    rw [(h a j).mpr hj] at hnew
    cases hnew
  rcases lt_trichotomy i l.length with hi | rfl | hi
  · rw [getElem?_append_left hi, ← h b i]
    by_cases hb : b = a
    · rw [hb, hself, hnew]
      simp [hi.ne']
    · rw [hother b hb]
  · rw [getElem?_append_right le_rfl, Nat.sub_self]
    by_cases hb : b = a
    · simp [hb, hself]
    · rw [hother b hb, h b, getElem?_eq_none le_rfl]
      simp [Ne.symm hb]
  · rw [getElem?_eq_none (by rw [length_append, length_singleton]; omega)]
    by_cases hb : b = a
    · rw [hb, hself]
      simp [hi.ne]
    · rw [hother b hb, h b, getElem?_eq_none hi.le]

/-- Removal by the last element keeps the positions right: only the last element moves. -/
lemma Indexed.swapRemove {l : List α} {pos' : α → Option ℕ} (h : Indexed l pos) {a last : α} {i : ℕ}
    (hi : l[i]? = some a) (hlast : l.getLast? = some last) (hself : pos' a = none)
    (hmoved : last ≠ a → pos' last = some i) (hother : ∀ b, b ≠ a → b ≠ last → pos' b = pos b) :
    Indexed (swapRemove l i last) pos' := by
  obtain ⟨hilt, -⟩ := List.getElem?_eq_some_iff.mp hi
  have hend : l[l.length - 1]? = some last := by rw [← List.getLast?_eq_getElem?, hlast]
  -- an element stands at one position only
  have hunique : ∀ (b : α) (j k : ℕ), l[j]? = some b → l[k]? = some b → j = k := by
    intro b j k hj hk
    exact Option.some.inj (((h b j).mpr hj).symm.trans ((h b k).mpr hk))
  have hread : ∀ j : ℕ, (Aegisum.swapRemove l i last)[j]? =
      if j < l.length - 1 then (if j = i then some last else l[j]?) else none := by
    intro j
    rw [Aegisum.swapRemove, List.getElem?_dropLast, List.length_set]
    split_ifs with hj hji
    · rw [hji, List.getElem?_set_self hilt]
    · rw [List.getElem?_set_ne (Ne.symm hji)]
    · rfl
  intro b j
  rw [hread]
  by_cases hba : b = a
  · obtain rfl := hba
    rw [hself]
    refine ⟨nofun, fun hb => ?_⟩
    split_ifs at hb with hj hji
    · -- then it is the last element itself
      have heq := hunique b i (l.length - 1) hi (by rw [hend]; exact hb)
      omega
    · exact absurd (hunique b j i hb hi) hji
  · by_cases hbl : b = last
    · obtain rfl := hbl
      rw [hmoved hba]
      have hne : i ≠ l.length - 1 := by
        rintro rfl
        exact hba (Option.some.inj (hend.symm.trans hi))
      constructor
      · intro hij
        obtain rfl := Option.some.inj hij
        rw [if_pos (by omega), if_pos rfl]
      · intro hb
        split_ifs at hb with hj hji
        · rw [hji]
        · have heq := hunique b j (l.length - 1) hb hend
          omega
    · rw [hother b hba hbl, h b j]
      constructor
      · intro hb
        obtain ⟨hjlt, -⟩ := List.getElem?_eq_some_iff.mp hb
        have hjl : j ≠ l.length - 1 := by
          rintro rfl
          exact hbl (Option.some.inj (hb.symm.trans hend))
        have hji : j ≠ i := by
          rintro rfl
          exact hba (Option.some.inj (hb.symm.trans hi))
        rw [if_pos (by omega), if_neg hji, hb]
      · intro hb
        split_ifs at hb with hj hji
        · exact absurd (Option.some.inj hb).symm hbl
        · exact hb

end Positions

/-! ### Sets of elements by key -/

/-- A map from keys to sets of elements. -/
abbrev IndexMap (κ α : Type) := CellMap κ (List α)

namespace IndexMap

variable {κ α : Type} [DecidableEq κ] [DecidableEq α]

/-- The elements of a key. -/
def members (m : IndexMap κ α) (k : κ) : List α := (m.lookup k).getD []

/-- Add an element to the set of a key. -/
def add (m : IndexMap κ α) (k : κ) (a : α) : IndexMap κ α :=
  AList.insert k ((m.members k).insert a) m

/-- Take an element from the set of a key, and the key away when that was the last one. -/
def remove (m : IndexMap κ α) (k : κ) (a : α) : IndexMap κ α :=
  match m.lookup k with
  | none => m
  | some s => if (s.erase a).isEmpty then AList.erase k m else AList.insert k (s.erase a) m

/-- Every key has a nonempty set. -/
def NoEmpty (m : IndexMap κ α) : Prop := ∀ k s, m.lookup k = some s → s ≠ [] ∧ s.Nodup

variable {m : IndexMap κ α}

omit [DecidableEq α] in
/-- A set lists no member twice. -/
lemma NoEmpty.nodup_members (h : m.NoEmpty) (k : κ) : (m.members k).Nodup := by
  rw [members]
  cases hk : m.lookup k with
  | none => exact nodup_nil
  | some s => exact (h k s hk).2

variable {a b : α} {k' : κ}

/-- The members after one was added. -/
lemma mem_members_add {k : κ} : b ∈ (m.add k a).members k' ↔ k' = k ∧ b = a ∨ b ∈ m.members k' := by
  rw [members, add]
  by_cases hk : k' = k
  · rw [hk, AList.lookup_insert, Option.getD_some, mem_insert_iff]
    simp
  · rw [AList.lookup_insert_ne hk, ← members]
    simp [hk]

/-- No set is empty after an addition. -/
lemma NoEmpty.add (h : m.NoEmpty) (k : κ) (a : α) : (m.add k a).NoEmpty := by
  intro k' s hs
  rw [IndexMap.add] at hs
  by_cases hk : k' = k
  · rw [hk, AList.lookup_insert] at hs
    obtain rfl := Option.some.inj hs
    refine ⟨ne_nil_of_mem (a := a) mem_insert_self, (h.nodup_members k).insert⟩
  · rw [AList.lookup_insert_ne hk] at hs
    exact h k' s hs

/-- The members after one was removed. -/
lemma mem_members_remove (h : m.NoEmpty) {k : κ} :
    b ∈ (m.remove k a).members k' ↔ b ∈ m.members k' ∧ ¬ (k' = k ∧ b = a) := by
  cases hs : m.lookup k with
  | none =>
    have hsame : m.remove k a = m := by
      rw [remove, hs]
    rw [hsame]
    refine ⟨fun hb => ⟨hb, ?_⟩, fun hb => hb.1⟩
    rintro ⟨rfl, -⟩
    rw [members, hs] at hb
    cases hb
  | some s =>
    have hmem : b ∈ (m.remove k a).members k ↔ b ∈ s.erase a := by
      rw [remove, hs]
      dsimp only
      split_ifs with hempty
      · rw [members, AList.lookup_erase, isEmpty_iff.mp hempty]
        rfl
      · rw [members, AList.lookup_insert]
        rfl
    by_cases hk : k' = k
    · rw [hk, hmem, (h k s hs).2.mem_erase_iff, members, hs, Option.getD_some]
      simp [and_comm]
    · have hother : (m.remove k a).members k' = m.members k' := by
        rw [remove, hs]
        dsimp only
        split_ifs with hempty
        · rw [members, members, AList.lookup_erase_ne hk]
        · rw [members, members, AList.lookup_insert_ne hk]
      rw [hother]
      simp [hk]

/-- A set whose last member goes is dropped. -/
lemma NoEmpty.remove (h : m.NoEmpty) (k : κ) (a : α) : (m.remove k a).NoEmpty := by
  intro k' s' hs'
  rw [IndexMap.remove] at hs'
  cases hs : m.lookup k with
  | none =>
    rw [hs] at hs'
    exact h k' s' hs'
  | some s =>
    rw [hs] at hs'
    dsimp only at hs'
    split_ifs at hs' with hempty
    · by_cases hk : k' = k
      · rw [hk, AList.lookup_erase] at hs'
        cases hs'
      · rw [AList.lookup_erase_ne hk] at hs'
        exact h k' s' hs'
    · by_cases hk : k' = k
      · rw [hk, AList.lookup_insert] at hs'
        obtain rfl := Option.some.inj hs'
        exact ⟨fun hnil => hempty (by rw [hnil]; rfl), (h k s hs).2.erase a⟩
      · rw [AList.lookup_insert_ne hk] at hs'
        exact h k' s' hs'

/-- Add an element to the sets of several keys. -/
lemma mem_members_foldl_add {ks : List κ} :
    b ∈ (ks.foldl (fun m k => m.add k a) m).members k' ↔
      k' ∈ ks ∧ b = a ∨ b ∈ m.members k' := by
  induction ks generalizing m with
  | nil => simp
  | cons k ks ih =>
    rw [foldl_cons, ih, mem_members_add, mem_cons]
    tauto

/-- A run of additions. -/
lemma NoEmpty.foldl_add (h : m.NoEmpty) (ks : List κ) (a : α) :
    (ks.foldl (fun m k => m.add k a) m).NoEmpty := by
  induction ks generalizing m with
  | nil => exact h
  | cons k ks ih => exact ih (h.add k a)

/-- Take an element from the sets of several keys. -/
lemma mem_members_foldl_remove (h : m.NoEmpty) {ks : List κ} :
    b ∈ (ks.foldl (fun m k => m.remove k a) m).members k' ↔
      b ∈ m.members k' ∧ ¬ (k' ∈ ks ∧ b = a) := by
  induction ks generalizing m with
  | nil => simp
  | cons k ks ih =>
    rw [foldl_cons, ih (h.remove k a), mem_members_remove h, mem_cons]
    tauto

/-- A run of removals. -/
lemma NoEmpty.foldl_remove (h : m.NoEmpty) (ks : List κ) (a : α) :
    (ks.foldl (fun m k => m.remove k a) m).NoEmpty := by
  induction ks generalizing m with
  | nil => exact h
  | cons k ks ih => exact ih (h.remove k a)

end IndexMap

end Aegisum
