import Mathlib.Algebra.Free
import Mathlib.Data.List.Basic
import Mathlib.Logic.Function.Basic

/-!
# Merkle roots

`ComputeMerkleRoot`: the levels of the tree are computed from the leaves upwards, an odd level
repeats its last node, and a pair of equal nodes is reported as a possible mutation.

For an injective hash of pairs the root determines the leaves in two situations: among lists of
the same length, and, when no mutation is reported, among lists of any length whose leaves are
no hashes of pairs.
-/

namespace Aegisum

open List

variable {α : Type}

section Definitions

variable (hash : α → α → α)

/-- The level above a list of nodes. -/
def nextLevel : List α → List α
  | a :: b :: l => hash a b :: nextLevel l
  | [a] => [hash a a]
  | [] => []

/-- Two nodes that are hashed together are equal. -/
def hasTwins [DecidableEq α] : List α → Bool
  | a :: b :: l => a = b || hasTwins l
  | _ => false

/-- The loop over the levels, with the mutation found so far. -/
def merkleLoop [DecidableEq α] (zero : α) : ℕ → List α → Bool → α × Bool
  | fuel + 1, a :: b :: l, mutation =>
    merkleLoop zero fuel (nextLevel hash (a :: b :: l)) (mutation || hasTwins (a :: b :: l))
  | _, l, mutation => (l.headD zero, mutation)

/-- The root of the tree over the leaves, and whether a mutation was found. -/
def computeMerkleRoot [DecidableEq α] (zero : α) (hashes : List α) : α × Bool :=
  merkleLoop hash zero hashes.length hashes false

end Definitions

variable {hash : α → α → α}

/-- A level halves, rounded up. -/
lemma length_nextLevel (hash : α → α → α) (l : List α) :
    (nextLevel hash l).length = (l.length + 1) / 2 := by
  fun_induction nextLevel hash l with
  | case1 a b l ih =>
    rw [length_cons, ih, length_cons, length_cons]
    omega
  | case2 a => simp
  | case3 => simp

variable {l l' : List α}

lemma nextLevel_ne_nil (h : 2 ≤ l.length) : nextLevel hash l ≠ [] := by
  intro hnil
  have hlen := length_nextLevel hash l
  rw [hnil, length_nil] at hlen
  omega

variable [DecidableEq α]

/-- A level determines the one below up to a repeated last node, which the length or a pair of
equal nodes tells. -/
lemma nextLevel_injective (hinj : Function.Injective2 hash)
    (h : nextLevel hash l = nextLevel hash l')
    (hsame : l.length = l'.length ∨ hasTwins l = false ∧ hasTwins l' = false) : l = l' := by
  fun_induction nextLevel hash l generalizing l' with
  | case1 a b l ih =>
    match l', h with
    | a' :: b' :: l', h =>
      rw [nextLevel, cons.injEq] at h
      obtain ⟨rfl, rfl⟩ := hinj h.1
      simp only [length_cons, Nat.add_right_cancel_iff, hasTwins, Bool.or_eq_false_iff] at hsame
      rw [ih h.2 (hsame.imp_right fun htwins => ⟨htwins.1.2, htwins.2.2⟩)]
    | [a'], h =>
      -- an odd level against a full pair: the pair would be twins
      rw [nextLevel, cons.injEq] at h
      obtain ⟨rfl, rfl⟩ := hinj h.1
      simp [hasTwins] at hsame
    | [], h => simp [nextLevel] at h
  | case2 a =>
    match l', h with
    | a' :: b' :: l', h =>
      rw [nextLevel, cons.injEq] at h
      obtain ⟨rfl, rfl⟩ := hinj h.1
      simp [hasTwins] at hsame
    | [a'], h =>
      rw [nextLevel, cons.injEq] at h
      rw [(hinj h.1).1]
    | [], h => simp [nextLevel] at h
  | case3 =>
    match l', h with
    | [], _ => rfl
    | [a'], h => simp [nextLevel] at h
    | a' :: b' :: l', h => simp [nextLevel] at h

/-! ### The loop -/

variable {zero : α}

lemma merkleLoop_of_length_le (h : l.length ≤ 1) (fuel : ℕ) (mutation : Bool) :
    merkleLoop hash zero fuel l mutation = (l.headD zero, mutation) := by
  match l, h with
  | [], _ => cases fuel <;> rfl
  | [a], _ => cases fuel <;> rfl

/-- One round of the loop. -/
lemma merkleLoop_of_two_le (h : 2 ≤ l.length) (fuel : ℕ) (mutation : Bool) :
    merkleLoop hash zero (fuel + 1) l mutation =
      merkleLoop hash zero fuel (nextLevel hash l) (mutation || hasTwins l) := by
  match l, h with
  | a :: b :: l, _ => rfl

variable {mutation : Bool} {fuel n : ℕ}

section Injective

variable (hinj : Function.Injective2 hash)

include hinj

/-- Among lists of the same length the root determines the leaves. -/
lemma merkleLoop_injective_of_length {mutation' : Bool}
    (hfuel : l.length ≤ fuel) (hlen : l.length = l'.length)
    (h : (merkleLoop hash zero fuel l mutation).1 = (merkleLoop hash zero fuel l' mutation').1) :
    l = l' := by
  induction fuel generalizing l l' mutation mutation' with
  | zero =>
    rw [length_eq_zero_iff.mp (by omega : l.length = 0),
      length_eq_zero_iff.mp (by omega : l'.length = 0)]
  | succ fuel ih =>
    rcases Nat.lt_or_ge l.length 2 with hshort | hlong
    · rw [merkleLoop_of_length_le (by omega), merkleLoop_of_length_le (by omega)] at h
      match l, l', hlen, h with
      | [], [], _, _ => rfl
      | [a], [a'], _, h => exact congrArg (fun x => [x]) h
      | _ :: _ :: _, _, _, _ => exact absurd hshort (by simp only [length_cons]; omega)
    · rw [merkleLoop_of_two_le hlong, merkleLoop_of_two_le (by omega)] at h
      have hnext := ih (by rw [length_nextLevel]; omega)
        (by rw [length_nextLevel, length_nextLevel, hlen]) h
      exact nextLevel_injective hinj hnext (.inl hlen)

/-- Lists of one length with one root are equal. -/
lemma computeMerkleRoot_injective_of_length (hlen : l.length = l'.length)
    (h : (computeMerkleRoot hash zero l).1 = (computeMerkleRoot hash zero l').1) : l = l' := by
  unfold computeMerkleRoot at h
  rw [← hlen] at h
  exact merkleLoop_injective_of_length hinj (Nat.le_refl _) hlen h

end Injective

/-! ### Lists of different lengths -/

/-- The node is the root of a complete tree of the given height over leaves. -/
def AtLevel (hash : α → α → α) (leaf : α → Prop) : ℕ → α → Prop
  | 0, x => leaf x
  | n + 1, x => ∃ a b, x = hash a b ∧ AtLevel hash leaf n a ∧ AtLevel hash leaf n b

variable {leaf : α → Prop}

omit [DecidableEq α] in
/-- Hashing goes one level up. -/
lemma atLevel_nextLevel (h : ∀ x ∈ l, AtLevel hash leaf n x) :
    ∀ x ∈ nextLevel hash l, AtLevel hash leaf (n + 1) x := by
  fun_induction nextLevel hash l with
  | case1 a b l ih =>
    rw [forall_mem_cons] at h ⊢
    obtain ⟨ha, h⟩ := h
    rw [forall_mem_cons] at h
    exact ⟨⟨a, b, rfl, ha, h.1⟩, ih h.2⟩
  | case2 a =>
    simp only [mem_singleton, forall_eq] at h ⊢
    exact ⟨a, a, rfl, h, h⟩
  | case3 => simp

/-- The root is a complete tree over the leaves. -/
lemma atLevel_merkleLoop (zero : α) (mutation : Bool) (hfuel : l.length ≤ fuel) (hne : l ≠ [])
    (h : ∀ x ∈ l, AtLevel hash leaf n x) :
    ∃ d, AtLevel hash leaf (n + d) (merkleLoop hash zero fuel l mutation).1 := by
  induction fuel generalizing n l mutation with
  | zero => exact absurd (length_eq_zero_iff.mp (by omega)) hne
  | succ fuel ih =>
    rcases Nat.lt_or_ge l.length 2 with hshort | hlong
    · rw [merkleLoop_of_length_le (by omega)]
      refine ⟨0, h _ ?_⟩
      cases l with
      | nil => exact absurd rfl hne
      | cons a l => simp
    · rw [merkleLoop_of_two_le hlong]
      have hlen := length_nextLevel hash l
      obtain ⟨d, hd⟩ := ih (mutation || hasTwins l) (by omega) (nextLevel_ne_nil hlong)
        (atLevel_nextLevel h)
      exact ⟨d + 1, by rwa [Nat.add_assoc, Nat.add_comm 1 d] at hd⟩

/-- A mutation that was found is reported. -/
lemma mutation_of_merkleLoop (h : (merkleLoop hash zero fuel l mutation).2 = false) :
    mutation = false := by
  fun_induction merkleLoop hash zero fuel l mutation with
  | case1 fuel a b l mutation ih => exact (Bool.or_eq_false_iff.mp (ih h)).1
  | case2 => exact h

section Injective

variable (hinj : Function.Injective2 hash) (hleaf : ∀ a b, ¬ leaf (hash a b))

include hinj hleaf

omit [DecidableEq α] in
/-- A value stands at one level. -/
lemma atLevel_unique {m : ℕ} {x : α} (hm : AtLevel hash leaf m x)
    (hn : AtLevel hash leaf n x) : m = n := by
  induction m generalizing n x with
  | zero =>
    cases n with
    | zero => rfl
    | succ n =>
      obtain ⟨a, b, rfl, -, -⟩ := hn
      exact absurd hm (hleaf a b)
  | succ m ih =>
    obtain ⟨a, b, rfl, ha, -⟩ := hm
    cases n with
    | zero => exact absurd hn (hleaf a b)
    | succ n =>
      obtain ⟨a', b', heq, ha', -⟩ := hn
      obtain ⟨rfl, rfl⟩ := hinj heq
      rw [ih ha ha']

/-- A leaf is no root of a list of two or more leaves. -/
lemma headD_ne_merkleLoop (hne : l ≠ []) (hl : ∀ x ∈ l, AtLevel hash leaf n x)
    (hlong : 2 ≤ l'.length) (hfuel : l'.length ≤ fuel + 1) (hl' : ∀ x ∈ l', AtLevel hash leaf n x) :
    l.headD zero ≠ (merkleLoop hash zero (fuel + 1) l' mutation).1 := by
  intro h
  have hlen := length_nextLevel hash l'
  have hfuel' : (nextLevel hash l').length ≤ fuel := by omega
  rw [merkleLoop_of_two_le hlong] at h
  obtain ⟨d, hd⟩ := atLevel_merkleLoop zero (mutation || hasTwins l') hfuel'
    (nextLevel_ne_nil hlong) (atLevel_nextLevel hl')
  rw [← h] at hd
  have hhead : AtLevel hash leaf n (l.headD zero) := by
    cases l with
    | nil => exact absurd rfl hne
    | cons a l => exact hl a (by simp)
  have := atLevel_unique hinj hleaf hhead hd
  omega

/-- Without twins, the root determines the level. -/
lemma merkleLoop_injective {fuel' : ℕ} {mutation' : Bool} (hfuel : l.length ≤ fuel)
    (hfuel' : l'.length ≤ fuel') (hne : l ≠ []) (hne' : l' ≠ [])
    (hl : ∀ x ∈ l, AtLevel hash leaf n x) (hl' : ∀ x ∈ l', AtLevel hash leaf n x)
    (hmut : (merkleLoop hash zero fuel l mutation).2 = false)
    (hmut' : (merkleLoop hash zero fuel' l' mutation').2 = false)
    (h : (merkleLoop hash zero fuel l mutation).1 = (merkleLoop hash zero fuel' l' mutation').1) :
    l = l' := by
  -- one level up on both sides, as long as both have two nodes
  induction fuel generalizing fuel' n l l' mutation mutation' with
  | zero => exact absurd (length_eq_zero_iff.mp (by omega)) hne
  | succ fuel ih =>
    cases fuel' with
    | zero => exact absurd (length_eq_zero_iff.mp (by omega)) hne'
    | succ fuel' =>
      have hlen := length_nextLevel hash l
      have hlen' := length_nextLevel hash l'
      rcases Nat.lt_or_ge l.length 2 with hshort | hlong <;>
        rcases Nat.lt_or_ge l'.length 2 with hshort' | hlong'
      · rw [merkleLoop_of_length_le (by omega), merkleLoop_of_length_le (by omega)] at h
        have hpos := length_pos_of_ne_nil hne
        have hpos' := length_pos_of_ne_nil hne'
        obtain ⟨a, rfl⟩ := length_eq_one_iff.mp (show l.length = 1 by omega)
        obtain ⟨a', rfl⟩ := length_eq_one_iff.mp (show l'.length = 1 by omega)
        exact congrArg (fun x => [x]) h
      · rw [merkleLoop_of_length_le (by omega)] at h
        exact absurd h (headD_ne_merkleLoop hinj hleaf hne hl hlong' hfuel' hl')
      · rw [merkleLoop_of_length_le (l := l') (by omega)] at h
        exact absurd h.symm (headD_ne_merkleLoop hinj hleaf hne' hl' hlong hfuel hl)
      · rw [merkleLoop_of_two_le hlong] at h hmut
        rw [merkleLoop_of_two_le hlong'] at h hmut'
        have htwins := (Bool.or_eq_false_iff.mp (mutation_of_merkleLoop hmut)).2
        have htwins' := (Bool.or_eq_false_iff.mp (mutation_of_merkleLoop hmut')).2
        have heq := ih (by omega) (by omega) (nextLevel_ne_nil hlong) (nextLevel_ne_nil hlong')
          (atLevel_nextLevel hl) (atLevel_nextLevel hl') hmut hmut' h
        exact nextLevel_injective hinj heq (.inr ⟨htwins, htwins'⟩)

/-- When no mutation is reported, the root determines the leaves, provided these are no hashes
of pairs. -/
lemma computeMerkleRoot_injective (hne : l ≠ []) (hne' : l' ≠ []) (hl : ∀ x ∈ l, leaf x)
    (hl' : ∀ x ∈ l', leaf x) (hmut : (computeMerkleRoot hash zero l).2 = false)
    (hmut' : (computeMerkleRoot hash zero l').2 = false)
    (h : (computeMerkleRoot hash zero l).1 = (computeMerkleRoot hash zero l').1) : l = l' :=
  merkleLoop_injective (n := 0) hinj hleaf (Nat.le_refl _) (Nat.le_refl _) hne hne' hl hl' hmut
    hmut' h

end Injective

/-- Two lists of leaves with the same root are equal when no mutation is reported for either; so
whoever changes a list and keeps its root has the change reported. -/
theorem leaves_eq_or_mutated (hinj : Function.Injective2 hash) {leaf : α → Prop}
    (hleaf : ∀ a b, ¬ leaf (hash a b)) {l l' : List α} (hne : l ≠ []) (hne' : l' ≠ [])
    (hl : ∀ x ∈ l, leaf x) (hl' : ∀ x ∈ l', leaf x)
    (h : (computeMerkleRoot hash zero l).1 = (computeMerkleRoot hash zero l').1) :
    ((computeMerkleRoot hash zero l).2 = false → (computeMerkleRoot hash zero l').2 = false →
      l = l') ∧
    (l ≠ l' → (computeMerkleRoot hash zero l).2 = false →
      (computeMerkleRoot hash zero l').2 = true) := by
  have heq : (computeMerkleRoot hash zero l).2 = false →
      (computeMerkleRoot hash zero l').2 = false → l = l' := fun hmut hmut' =>
    computeMerkleRoot_injective hinj hleaf hne hne' hl hl' hmut hmut' h
  refine ⟨heq, fun hdiff hmut => ?_⟩
  by_contra hmut'
  exact hdiff (heq hmut (by simpa using hmut'))

/-- The three transactions `1, 2, 3` and the list that repeats the last one have the same root,
and the repetition is reported. -/
theorem leaves_eq_or_mutated_repeated :
    (computeMerkleRoot FreeMagma.mul (FreeMagma.of 0)
      [FreeMagma.of 1, FreeMagma.of 2, FreeMagma.of 3, FreeMagma.of 3]).2 = true := by
  let leaf : FreeMagma ℕ → Prop := fun x => ∃ n, x = FreeMagma.of n
  have hinj : Function.Injective2 (FreeMagma.mul (α := ℕ)) := by
    intro a a' b b' h
    cases h
    exact ⟨rfl, rfl⟩
  have hleaf : ∀ a b, ¬ leaf (FreeMagma.mul a b) := by
    rintro a b ⟨n, h⟩
    cases h
  have hroot : (computeMerkleRoot FreeMagma.mul (FreeMagma.of 0)
        [FreeMagma.of 1, FreeMagma.of 2, FreeMagma.of 3]).1 =
      (computeMerkleRoot FreeMagma.mul (FreeMagma.of 0)
        [FreeMagma.of 1, FreeMagma.of 2, FreeMagma.of 3, FreeMagma.of 3]).1 := by decide
  refine (leaves_eq_or_mutated hinj hleaf (by simp) (by simp) ?_ ?_ hroot).2 (by decide)
    (by decide)
  all_goals simp [leaf]

end Aegisum
