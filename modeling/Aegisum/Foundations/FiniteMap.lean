import Mathlib.Algebra.BigOperators.Finprod
import Mathlib.Algebra.Order.BigOperators.Group.Finset
import Mathlib.Data.Set.Finite.Basic
import Mathlib.Tactic.Abel

/-!
# Finite partial maps

A store of coins is a finite partial map.  It is represented by its lookup
function together with a proof that only finitely many keys are bound, so that
lookups and updates compute and the total weight of the entries is a finite sum.

The one accounting rule used by the rest of the development is `total_set`:
changing one binding changes the total by the difference of the two weights.
-/

namespace Aegisum

/-- A partial map that binds finitely many keys. -/
structure FiniteMap (α β : Type*) where
  /-- The value bound to a key. -/
  get : α → Option β
  /-- Only finitely many keys are bound. -/
  finite_bound : {a | get a ≠ none}.Finite

namespace FiniteMap

variable {α β γ M : Type*}

/-- Maps with the same lookups are the same. -/
@[ext] lemma ext {m n : FiniteMap α β} (h : ∀ a, m.get a = n.get a) : m = n := by
  cases m
  cases n
  congr
  exact funext h

/-- The map that binds nothing. -/
def empty : FiniteMap α β where
  get _ := none
  finite_bound := by simp

@[simp] lemma get_empty (a : α) : (empty : FiniteMap α β).get a = none := rfl

section Update

variable [DecidableEq α]

/-- Rebind one key: to a value, or to nothing. -/
def set (m : FiniteMap α β) (a : α) (v : Option β) : FiniteMap α β where
  get x := if x = a then v else m.get x
  finite_bound := by
    refine (m.finite_bound.insert a).subset fun x hx => ?_
    by_cases hxa : x = a
    · exact Set.mem_insert_iff.mpr (Or.inl hxa)
    · exact Set.mem_insert_iff.mpr (Or.inr (by simpa [hxa] using hx))

lemma get_set (m : FiniteMap α β) (a : α) (v : Option β) (x : α) :
    (m.set a v).get x = if x = a then v else m.get x := rfl

@[simp] lemma get_set_self (m : FiniteMap α β) (a : α) (v : Option β) :
    (m.set a v).get a = v := if_pos rfl

@[simp] lemma get_set_of_ne (m : FiniteMap α β) {a x : α} (v : Option β) (h : x ≠ a) :
    (m.set a v).get x = m.get x := if_neg h

end Update

/-! ### The total weight of a finite map -/

section Total

variable [AddCommGroup M]

/-- The weight of an optional entry: nothing weighs zero. -/
def weight (w : β → M) (v : Option β) : M := v.elim 0 w

@[simp] lemma weight_none (w : β → M) : weight w none = 0 := rfl

@[simp] lemma weight_some (w : β → M) (b : β) : weight w (some b) = w b := rfl

/-- The sum of the weights of all entries. -/
noncomputable def total (w : β → M) (m : FiniteMap α β) : M := ∑ᶠ a, weight w (m.get a)

@[simp] lemma total_empty (w : β → M) : total w (empty : FiniteMap α β) = 0 := by
  simp [total]

/-- Rebinding a key replaces its weight in the total. -/
lemma total_set [DecidableEq α] (w : β → M) (m : FiniteMap α β) (a : α) (v : Option β) :
    total w (m.set a v) = total w m - weight w (m.get a) + weight w v := by
  classical
  -- both totals are sums over one finite set of keys that contains `a`
  set s : Finset α := insert a m.finite_bound.toFinset with hs
  have hsub : ∀ n : FiniteMap α β, (∀ x, x ≠ a → n.get x = m.get x) →
      total w n = ∑ x ∈ s, weight w (n.get x) := by
    intro n hn
    refine finsum_eq_sum_of_support_subset _ fun x hx => ?_
    by_cases hxa : x = a
    · simp [hs, hxa]
    · have hne : m.get x ≠ none := by
        intro h
        exact hx (by simp [hn x hxa, h])
      simp [hs, hne]
  rw [hsub (m.set a v) fun x hx => get_set_of_ne m v hx, hsub m fun _ _ => rfl]
  have ha : a ∈ s := by simp [hs]
  have hrest : ∑ x ∈ s.erase a, weight w ((m.set a v).get x) =
      ∑ x ∈ s.erase a, weight w (m.get x) :=
    Finset.sum_congr rfl fun x hx => by
      rw [get_set_of_ne m v (Finset.ne_of_mem_erase hx)]
  rw [← Finset.add_sum_erase s _ ha, ← Finset.add_sum_erase s (fun x => weight w (m.get x)) ha,
    hrest, get_set_self]
  abel

/-- Two maps that agree outside a list of keys differ in total by what the keys weigh. -/
lemma total_of_agree [DecidableEq α] (w : β → M) {m n : FiniteMap α β} {keys : List α}
    (hnodup : keys.Nodup) (hagree : ∀ a, a ∉ keys → n.get a = m.get a) :
    total w n =
      total w m + (keys.map fun a => weight w (n.get a) - weight w (m.get a)).sum := by
  induction keys generalizing m with
  | nil =>
    obtain rfl : n = m := ext fun a => hagree a (by simp)
    simp
  | cons k keys ih =>
    obtain ⟨hk, hnodup⟩ := List.nodup_cons.mp hnodup
    -- rebind the first key in `m`; the other keys are treated by induction
    have hagree' : ∀ a, a ∉ keys → n.get a = (m.set k (n.get k)).get a := by
      intro a ha
      by_cases hak : a = k
      · rw [hak, get_set_self]
      · rw [get_set_of_ne m _ hak]
        exact hagree a (by simp [hak, ha])
    have hkeys : keys.map (fun a => weight w (n.get a) - weight w ((m.set k (n.get k)).get a)) =
        keys.map fun a => weight w (n.get a) - weight w (m.get a) := by
      refine List.map_congr_left fun a ha => ?_
      have hak : a ≠ k := fun h => hk (h ▸ ha)
      rw [get_set_of_ne m _ hak]
    rw [ih hnodup hagree', hkeys, total_set, List.map_cons, List.sum_cons]
    abel

/-- A list of all bindings, each once. -/
structure Enumerates (m : FiniteMap α β) (entries : List (α × β)) : Prop where
  nodup : (entries.map Prod.fst).Nodup
  mem_iff : ∀ a b, (a, b) ∈ entries ↔ m.get a = some b

/-- The total weight is the sum over any list of all bindings. -/
lemma total_of_enumerates [DecidableEq α] (w : β → M) {m : FiniteMap α β} {entries : List (α × β)}
    (h : m.Enumerates entries) : total w m = (entries.map fun e => w e.2).sum := by
  have hagree : ∀ a, a ∉ entries.map Prod.fst → m.get a = (empty : FiniteMap α β).get a := by
    intro a ha
    rw [get_empty, Option.eq_none_iff_forall_not_mem]
    intro b hb
    exact ha (List.mem_map.mpr ⟨(a, b), (h.mem_iff a b).mpr hb, rfl⟩)
  rw [total_of_agree w h.nodup hagree, total_empty, zero_add, List.map_map]
  refine congrArg _ (List.map_congr_left fun e he => ?_)
  simp [(h.mem_iff e.1 e.2).mp he]

end Total

end FiniteMap

end Aegisum
