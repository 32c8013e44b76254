import Mathlib.Data.List.AList
import Aegisum.Foundations.Checked
import Aegisum.Foundations.FiniteMap

/-!
# Maps with cells

A finite map whose entries can be enumerated, and bulk updates that treat every key on its own:
what happens to the cell of a key depends on the entry for that key only.  Such an update is a loop
over the entries, and its result can be read off key by key.  The last section is about updates that
set some keys to their values in a target state and leave the others alone.
-/

namespace Aegisum

/-- A finite map with a list of its entries. -/
abbrev CellMap (κ ν : Type) := AList fun _ : κ => ν

namespace CellMap

variable {κ ν ν' ε : Type} [DecidableEq κ]

/-- Replace the cell of a key. -/
def setCell (m : CellMap κ ν) (k : κ) : Option ν → CellMap κ ν
  | none => m.erase k
  | some v => m.insert k v

@[simp] lemma lookup_setCell_self (m : CellMap κ ν) (k : κ) (cell : Option ν) :
    (m.setCell k cell).lookup k = cell := by
  cases cell with
  | none => exact AList.lookup_erase k m
  | some v => exact AList.lookup_insert m

@[simp] lemma lookup_setCell_of_ne (m : CellMap κ ν) {k x : κ} (cell : Option ν) (h : x ≠ k) :
    (m.setCell k cell).lookup x = m.lookup x := by
  cases cell with
  | none => exact AList.lookup_erase_ne h
  | some v => exact AList.lookup_insert_ne h

omit [DecidableEq κ] in
lemma dlookup_eq_none_of_nodupKeys [DecidableEq κ] {e : Sigma fun _ : κ => ν}
    {l : List (Sigma fun _ : κ => ν)} (h : (e :: l).NodupKeys) : l.dlookup e.1 = none := by
  rw [List.dlookup_eq_none]
  exact (List.nodupKeys_cons.mp h).1

/-- One step of a merge. -/
def mergeStep (merge : ν → Option ν' → Except ε (Option ν')) (m : CellMap κ ν')
    (e : Sigma fun _ : κ => ν) : Except ε (CellMap κ ν') := do
  let cell ← merge e.2 (m.lookup e.1)
  pure (m.setCell e.1 cell)

/-- Merge the entries of `top` one after the other into the cells of `m`. -/
def mergeFrom (merge : ν → Option ν' → Except ε (Option ν')) (m : CellMap κ ν')
    (top : CellMap κ ν) : Except ε (CellMap κ ν') :=
  top.entries.foldlM (mergeStep merge) m

/-- The merge of distinct keys, key by key. -/
private lemma exists_foldlM_mergeStep_eq (merge : ν → Option ν' → Except ε (Option ν'))
    (m : CellMap κ ν') (l : List (Sigma fun _ : κ => ν)) (hl : l.NodupKeys)
    (hok : ∀ k v, l.dlookup k = some v → ∃ cell, merge v (m.lookup k) = .ok cell) :
    ∃ m', l.foldlM (mergeStep merge) m = .ok m' ∧
      (∀ k v, l.dlookup k = some v → merge v (m.lookup k) = .ok (m'.lookup k)) ∧
      ∀ k, l.dlookup k = none → m'.lookup k = m.lookup k := by
  induction l generalizing m with
  | nil => exact ⟨m, rfl, by simp, fun _ _ => rfl⟩
  | cons e l ih =>
    obtain ⟨key, v⟩ := e
    have hkey := dlookup_eq_none_of_nodupKeys hl
    have hne : ∀ k w, l.dlookup k = some w → k ≠ key := by
      rintro k w hw rfl
      rw [hkey] at hw
      cases hw
    obtain ⟨cell, hcell⟩ := hok key v (by simp)
    -- the cells of the later keys are still the old ones
    have hother : ∀ k w, l.dlookup k = some w → (m.setCell key cell).lookup k = m.lookup k :=
      fun k w hw => lookup_setCell_of_ne _ _ (hne k w hw)
    obtain ⟨m', hfold, hmerged, hkept⟩ := ih (m.setCell key cell) (List.nodupKeys_cons.mp hl).2
      (by
        intro k w hw
        rw [hother k w hw]
        apply hok
        rwa [List.dlookup_cons_ne _ _ (hne k w hw)])
    have hstep : mergeStep merge m ⟨key, v⟩ = .ok (m.setCell key cell) := bind_of_eq_ok hcell _
    refine ⟨m', foldlM_cons_eq_ok.mpr ⟨_, hstep, hfold⟩, ?_, ?_⟩
    · intro k w hw
      by_cases hk : k = key
      · subst hk
        obtain rfl : v = w := by simpa using hw
        rw [hkept k hkey, lookup_setCell_self, hcell]
      · rw [List.dlookup_cons_ne _ _ hk] at hw
        rw [← hother k w hw]
        exact hmerged k w hw
    · intro k hnone
      have hk : k ≠ key := by
        rintro rfl
        simp at hnone
      rw [List.dlookup_cons_ne _ _ hk] at hnone
      rw [hkept k hnone, lookup_setCell_of_ne _ _ hk]

/-- The cells after a merge. -/
lemma exists_mergeFrom_eq (merge : ν → Option ν' → Except ε (Option ν')) (m : CellMap κ ν')
    (top : CellMap κ ν)
    (hok : ∀ k v, top.lookup k = some v → ∃ cell, merge v (m.lookup k) = .ok cell) :
    ∃ m', mergeFrom merge m top = .ok m' ∧
      (∀ k v, top.lookup k = some v → merge v (m.lookup k) = .ok (m'.lookup k)) ∧
      ∀ k, top.lookup k = none → m'.lookup k = m.lookup k :=
  exists_foldlM_mergeStep_eq merge m top.entries top.nodupKeys hok

/-- Write the entries one after the other into a finite map. -/
def writeTo (write : ν → Option ν' → Option ν') (m : FiniteMap κ ν') (top : CellMap κ ν) :
    FiniteMap κ ν' :=
  top.entries.foldl (fun m e => m.set e.1 (write e.2 (m.get e.1))) m

/-- The values after the entries were written. -/
lemma get_writeTo (write : ν → Option ν' → Option ν') (m : FiniteMap κ ν') (top : CellMap κ ν)
    (k : κ) :
    (writeTo write m top).get k = (top.lookup k).elim (m.get k) fun v => write v (m.get k) := by
  obtain ⟨l, hl⟩ := top
  change (l.foldl _ m).get k = (l.dlookup k).elim _ _
  induction l generalizing m with
  | nil => rfl
  | cons e l ih =>
    obtain ⟨key, v⟩ := e
    have hkey := dlookup_eq_none_of_nodupKeys hl
    rw [List.foldl_cons, ih _ (List.nodupKeys_cons.mp hl).2]
    by_cases hk : k = key
    · subst hk
      rw [hkey, List.dlookup_cons_eq]
      simp
    · rw [List.dlookup_cons_ne _ _ hk, FiniteMap.get_set_of_ne _ _ hk]

end CellMap

/-! ### Moving from one state to another -/

section Moves

variable {α β : Type}

/-- Every value of `m'` is that of the state `target`, unless it is left as it was in `m` and the
states `source` and `target` agree there. -/
def Moves (source target m m' : α → β) : Prop :=
  ∀ a, m' a = target a ∨ (m' a = m a ∧ source a = target a)

lemma Moves.refl (s m : α → β) : Moves s s m m := fun _ => .inr ⟨rfl, rfl⟩

/-- Moves compose. -/
lemma Moves.trans {s₁ s₂ s₃ m₁ m₂ m₃ : α → β} (h : Moves s₁ s₂ m₁ m₂) (h' : Moves s₂ s₃ m₂ m₃) :
    Moves s₁ s₃ m₁ m₃ := by
  intro a
  rcases h' a with hdone | ⟨hkept, hsame⟩
  · exact .inl hdone
  · rcases h a with hdone | ⟨hkept', hsame'⟩
    · exact .inl (hkept.trans (hdone.trans hsame))
    · exact .inr ⟨hkept.trans hkept', hsame'.trans hsame⟩

/-- A mixture of two states is moved to the second one. -/
lemma Moves.eq_of_mixed {source target m m' : α → β} (h : Moves source target m m')
    (hmixed : ∀ a, m a = source a ∨ m a = target a) : m' = target := by
  funext a
  rcases h a with hdone | ⟨hkept, hsame⟩
  · exact hdone
  · rcases hmixed a with hm | hm
    · rw [hkept, hm, hsame]
    · rw [hkept, hm]

end Moves

end Aegisum
