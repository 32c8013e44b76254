import Mathlib.Data.List.Basic
import Mathlib.Logic.Unique

/-!
# Checked computations

Validation code is a sequence of tests, each of which may stop the run with an
error.  It is written in the `Except` monad with `rejectIf`; the lemmas here peel
such a sequence apart without unfolding the monad, and give the induction rule
for a loop that threads a state through its steps.
-/

namespace Aegisum

variable {ε α β σ : Type}

/-- Stop with the error `e` when the condition `bad` holds. -/
def rejectIf (bad : Prop) [Decidable bad] (e : ε) : Except ε Unit :=
  if bad then .error e else .ok ()

variable {x : Except ε α}

/-- A sequence succeeds when its first part and then the rest succeed. -/
lemma bind_eq_ok {f : α → Except ε β} {b : β} :
    (x >>= f) = .ok b ↔ ∃ a, x = .ok a ∧ f a = .ok b := by
  cases x with
  | error e => simp [bind, Except.bind]
  | ok a => simp [bind, Except.bind]

variable {e : ε}

/-- A sequence fails in its first part, or in the rest after the first part succeeded. -/
lemma bind_eq_error {f : α → Except ε β} :
    (x >>= f) = .error e ↔ x = .error e ∨ ∃ a, x = .ok a ∧ f a = .error e := by
  cases x with
  | error e' => simp [bind, Except.bind]
  | ok a => simp [bind, Except.bind]

variable {a : α}

/-- After a first part that succeeds the rest is left. -/
lemma bind_of_eq_ok (h : x = .ok a) (f : α → Except ε β) : (x >>= f) = f a := by
  rw [h]
  rfl

/-- After a first part that fails nothing is left. -/
lemma bind_of_eq_error (h : x = .error e) (f : α → Except ε β) : (x >>= f) = .error e := by
  rw [h]
  rfl

/-- Translating errors does not change what succeeds. -/
lemma mapError_eq_ok {ε' : Type} {f : ε → ε'} : x.mapError f = .ok a ↔ x = .ok a := by
  cases x <;> simp [Except.mapError]

/-- A run that is known to succeed has a result. -/
lemma exists_eq_ok_of_isOk (h : x.isOk = true) : ∃ a, x = .ok a := by
  cases x with
  | error e => cases h
  | ok a => exact ⟨a, rfl⟩

/-- The result of a run that is known to succeed. -/
lemma eq_ok_toOption_get (h : x.toOption.isSome = true) : x = .ok (x.toOption.get h) := by
  cases x with
  | error e => cases h
  | ok a => rfl

/-- A value means success. -/
lemma eq_ok_of_toOption_eq_some (h : x.toOption = some a) : x = .ok a := by
  match x, h with
  | .ok _, h => exact congrArg Except.ok (Option.some.inj h)

variable {bad : Prop}

@[simp] lemma rejectIf_eq_ok [Decidable bad] {u : Unit} : rejectIf bad e = .ok u ↔ ¬ bad := by
  by_cases h : bad <;> simp [rejectIf, h]

@[simp] lemma rejectIf_eq_error [Decidable bad] {e' : ε} :
    rejectIf bad e = .error e' ↔ bad ∧ e = e' := by
  by_cases h : bad <;> simp [rejectIf, h]

/-- A run succeeds when the test is passed and the rest succeeds. -/
lemma rejectIf_bind_eq_ok [Decidable bad] {f : Unit → Except ε β} {b : β} :
    (rejectIf bad e >>= f) = .ok b ↔ ¬ bad ∧ f () = .ok b := by
  simp [bind_eq_ok, Unique.exists_iff]

/-- A run that succeeds goes on after the test. -/
lemma of_rejectIf [Decidable bad] {f : Unit → Except ε β} {b : β}
    (h : (rejectIf bad e >>= f) = .ok b) : f () = .ok b :=
  (rejectIf_bind_eq_ok.mp h).2

lemma rejectIf_bind_of_not [Decidable bad] (h : ¬ bad) (f : Unit → Except ε β) :
    (rejectIf bad e >>= f) = f () :=
  bind_of_eq_ok (if_neg h) f

/-- A run fails at the test or after it. -/
lemma rejectIf_bind_eq_error [Decidable bad] {e' : ε} {f : Unit → Except ε β} :
    (rejectIf bad e >>= f) = .error e' ↔ (bad ∧ e = e') ∨ (¬ bad ∧ f () = .error e') := by
  simp [bind_eq_error, Unique.exists_iff]

/-! ### Loops -/

variable {xs : List α}

/-- A loop of tests succeeds when every test does. -/
lemma forM_eq_ok {f : α → Except ε Unit} {u : Unit} :
    forM xs f = .ok u ↔ ∀ x ∈ xs, f x = .ok () := by
  induction xs with
  | nil => simp [pure, Except.pure]
  | cons x xs ih =>
    rw [List.forM_cons, bind_eq_ok]
    simp [ih, Unique.exists_iff]

/-- A loop of tests that fails fails in one of the tests. -/
lemma exists_of_forM_eq_error {f : α → Except ε Unit} (h : forM xs f = .error e) :
    ∃ x ∈ xs, f x = .error e := by
  induction xs with
  | nil => simp [pure, Except.pure] at h
  | cons x xs ih =>
    rw [List.forM_cons, bind_eq_error] at h
    rcases h with h | ⟨_, _, h⟩
    · exact ⟨x, by simp, h⟩
    · obtain ⟨y, hy, hfy⟩ := ih h
      exact ⟨y, by simp [hy], hfy⟩

variable {s : σ} {f : σ → α → Except ε σ}

/-- One step of a loop that threads a state. -/
lemma foldlM_cons_eq_ok {t : σ} {x : α} :
    (x :: xs).foldlM f s = .ok t ↔ ∃ s', f s x = .ok s' ∧ xs.foldlM f s' = .ok t := by
  rw [List.foldlM_cons, bind_eq_ok]

/-- A loop over two lists in a row. -/
lemma foldlM_append_eq_ok {t : σ} {ys : List α} :
    (xs ++ ys).foldlM f s = .ok t ↔ ∃ s', xs.foldlM f s = .ok s' ∧ ys.foldlM f s' = .ok t := by
  rw [List.foldlM_append, bind_eq_ok]

/-- What every step of a loop keeps holds in the end. -/
lemma foldlM_keeps {I : σ → Prop} {t : σ} (hstep : ∀ x ∈ xs, ∀ s s', I s → f s x = .ok s' → I s')
    (h : xs.foldlM f s = .ok t) (hs : I s) : I t := by
  induction xs generalizing s with
  | nil => exact Except.ok.inj h ▸ hs
  | cons x xs ih =>
    obtain ⟨s', hx, hrest⟩ := foldlM_cons_eq_ok.mp h
    rw [List.forall_mem_cons] at hstep
    exact ih hstep.2 hrest (hstep.1 s s' hs hx)

/-- A loop succeeds if its steps do from all states that they lead to. -/
lemma exists_foldlM {I : σ → Prop} (hstep : ∀ x ∈ xs, ∀ s, I s → ∃ s', f s x = .ok s' ∧ I s')
    (hs : I s) : ∃ t, xs.foldlM f s = .ok t ∧ I t := by
  induction xs generalizing s with
  | nil => exact ⟨s, rfl, hs⟩
  | cons x xs ih =>
    rw [List.forall_mem_cons] at hstep
    obtain ⟨s', hx, hs'⟩ := hstep.1 s hs
    rw [List.foldlM_cons, bind_of_eq_ok hx]
    exact ih hstep.2 hs'

/-- A loop that fails fails in one of its steps. -/
lemma exists_of_foldlM_eq_error (h : xs.foldlM f s = .error e) :
    ∃ s' x, x ∈ xs ∧ f s' x = .error e := by
  induction xs generalizing s with
  | nil => cases h
  | cons x xs ih =>
    rw [List.foldlM_cons, bind_eq_error] at h
    rcases h with h | ⟨s', -, h⟩
    · exact ⟨s, x, by simp, h⟩
    · obtain ⟨s'', y, hy, hfy⟩ := ih h
      exact ⟨s'', y, by simp [hy], hfy⟩

/-- A loop none of whose steps fails computes the fold of its steps. -/
lemma foldlM_eq_ok_foldl {g : σ → α → σ} {l : List α} (h : ∀ a ∈ l, ∀ s, f s a = .ok (g s a))
    (s : σ) : l.foldlM f s = .ok (l.foldl g s) := by
  induction l generalizing s with
  | nil => rfl
  | cons a l ih =>
    rw [List.foldlM_cons, bind_of_eq_ok (h a (by simp) s), List.foldl_cons]
    exact ih (fun b hb => h b (by simp [hb])) (g s a)

/-! ### Two computations in step -/

/-- Two computations that both fail, with the same error up to a translation, or both succeed
with related results. -/
def InStep {ε' : Type} (translate : ε → ε') (R : α → β → Prop) :
    Except ε α → Except ε' β → Prop
  | .ok a, .ok b => R a b
  | .error e, .error e' => e' = translate e
  | _, _ => False

section InStep

variable {ε' γ δ : Type} {translate : ε → ε'} {R : α → β → Prop} {S : γ → δ → Prop}
  {x : Except ε α} {y : Except ε' β}

/-- Sequences stay in step. -/
lemma InStep.bind {f : α → Except ε γ} {g : β → Except ε' δ} (h : InStep translate R x y)
    (hrest : ∀ a b, x = .ok a → R a b → InStep translate S (f a) (g b)) :
    InStep translate S (x >>= f) (y >>= g) := by
  cases x with
  | error e =>
    cases y with
    | error e' => exact h
    | ok b => exact h.elim
  | ok a =>
    cases y with
    | error e' => exact h.elim
    | ok b => exact hrest a b rfl h

/-- Equivalent tests keep two runs in step. -/
lemma inStep_rejectIf {bad bad' : Prop} [Decidable bad] [Decidable bad'] (hbad : bad ↔ bad')
    (e : ε) :
    InStep translate (fun _ _ : Unit => True) (rejectIf bad e) (rejectIf bad' (translate e)) := by
  by_cases h : bad
  · rw [rejectIf, if_pos h, rejectIf, if_pos (hbad.mp h)]
    exact rfl
  · rw [rejectIf, if_neg h, rejectIf, if_neg (fun h' => h (hbad.mpr h'))]
    exact trivial

/-- A computation is in step with itself with translated errors. -/
lemma inStep_mapError (x : Except ε α) : InStep translate Eq x (x.mapError translate) := by
  cases x <;> rfl

/-- The second computation succeeds if the first one does. -/
lemma InStep.exists_of_ok {a : α} (h : InStep translate R x y) (hx : x = .ok a) :
    ∃ b, y = .ok b ∧ R a b := by
  subst hx
  cases y with
  | error e => exact h.elim
  | ok b => exact ⟨b, rfl, h⟩

/-- The first computation succeeds if the second one does. -/
lemma InStep.exists_of_ok' {b : β} (h : InStep translate R x y) (hy : y = .ok b) :
    ∃ a, x = .ok a ∧ R a b := by
  subst hy
  cases x with
  | error e => exact h.elim
  | ok a => exact ⟨a, rfl, h⟩

end InStep

end Aegisum
