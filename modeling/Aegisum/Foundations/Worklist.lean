import Mathlib.Data.Finset.Card
import Mathlib.Data.List.Nodup
import Mathlib.Logic.Relation

/-!
# Closures by a worklist

Nodes are taken from a stage one by one and put into the set of nodes that are done; their
successors are staged unless they are done.  Sets are lists without repetitions.

A node is staged only if it is not done, so that every node is taken at most once and as many rounds
as there are nodes are enough.
-/

namespace Aegisum

open List

namespace Worklist

variable {ι : Type*} [DecidableEq ι]

/-- Stage one successor unless it is done. -/
def stageNext (done stage : List ι) (c : ι) : List ι :=
  if c ∈ done then stage else stage.insert c

/-- The nodes that are done when the stage is empty. -/
def closure (next : ι → List ι) : ℕ → List ι → List ι → List ι
  | 0, _, done => done
  | _ + 1, [], done => done
  | fuel + 1, x :: stage, done =>
    closure next fuel ((next x).foldl (stageNext (done.insert x)) stage) (done.insert x)

variable {next : ι → List ι} {nodes : Finset ι} {stage done : List ι}

/-- The stage after the successors of a node. -/
lemma mem_foldl_stageNext {succs : List ι} {y : ι} :
    y ∈ succs.foldl (stageNext done) stage ↔ y ∈ stage ∨ y ∈ succs ∧ y ∉ done := by
  induction succs generalizing stage with
  | nil => simp
  | cons c succs ih =>
    rw [foldl_cons, ih, stageNext, mem_cons]
    split
    · next hc => grind
    · next hc => grind

/-- Staging keeps the stage free of repetitions. -/
lemma nodup_foldl_stageNext (succs : List ι) (h : stage.Nodup) :
    (succs.foldl (stageNext done) stage).Nodup := by
  induction succs generalizing stage with
  | nil => exact h
  | cons c succs ih =>
    refine ih ?_
    unfold stageNext
    split
    · exact h
    · exact h.insert

/-- The nodes that are done have no repetitions. -/
lemma nodup_closure (fuel : ℕ) (stage : List ι) (h : done.Nodup) :
    (closure next fuel stage done).Nodup := by
  induction fuel generalizing stage done with
  | zero => exact h
  | succ fuel ih =>
    match stage with
    | [] => exact h
    | x :: stage => exact ih _ h.insert

/-- What holds between two rounds: the staged nodes are not done, and the successors of the nodes
that are done are done or staged. -/
structure Staged (next : ι → List ι) (nodes : Finset ι) (stage done : List ι) : Prop where
  nodup : stage.Nodup
  mem_nodes : ∀ x ∈ stage, x ∈ nodes
  not_done : ∀ x ∈ stage, x ∉ done
  closed : ∀ x ∈ done, ∀ c ∈ next x, c ∈ done ∨ c ∈ stage

/-- A node is done, or reached from the stage. -/
def Reached (next : ι → List ι) (stage done : List ι) (x : ι) : Prop :=
  x ∈ done ∨ ∃ s ∈ stage, Relation.ReflTransGen (fun a b => b ∈ next a) s x

/-- One round keeps what holds between rounds. -/
lemma Staged.take {x : ι} (h : Staged next nodes (x :: stage) done)
    (hnodes : ∀ a ∈ nodes, ∀ c ∈ next a, c ∈ nodes) :
    Staged next nodes ((next x).foldl (stageNext (done.insert x)) stage) (done.insert x) where
  nodup := nodup_foldl_stageNext _ h.nodup.of_cons
  mem_nodes := by
    intro y hy
    rcases mem_foldl_stageNext.mp hy with hy | ⟨hy, -⟩
    · exact h.mem_nodes y (mem_cons_of_mem x hy)
    · exact hnodes x (h.mem_nodes x mem_cons_self) y hy
  not_done := by
    intro y hy
    rcases mem_foldl_stageNext.mp hy with hy | ⟨-, hy⟩
    · have hne : y ≠ x := fun heq => (nodup_cons.mp h.nodup).1 (heq ▸ hy)
      simpa [hne] using h.not_done y (mem_cons_of_mem x hy)
    · exact hy
  closed := by
    intro y hy c hc
    rw [mem_foldl_stageNext]
    rcases mem_insert_iff.mp hy with rfl | hy
    · by_cases hdone : c ∈ done.insert y
      · exact .inl hdone
      · exact .inr (.inr ⟨hc, hdone⟩)
    · rcases h.closed y hy c hc with hc | hc
      · exact .inl (mem_insert_of_mem hc)
      · rcases mem_cons.mp hc with rfl | hc
        · exact .inl mem_insert_self
        · exact .inr (.inl hc)

omit [DecidableEq ι] in
/-- What is reached is closed under successors. -/
lemma Staged.reached_next {a c : ι} (h : Staged next nodes stage done)
    (ha : Reached next stage done a) (hc : c ∈ next a) : Reached next stage done c := by
  rcases ha with ha | ⟨s, hs, hpath⟩
  · exact (h.closed a ha c hc).imp_right fun hc => ⟨c, hc, .refl⟩
  · exact .inr ⟨s, hs, hpath.tail hc⟩

/-- One round reaches the same nodes. -/
lemma Staged.reached_take {x y : ι} (h : Staged next nodes (x :: stage) done)
    (hnodes : ∀ a ∈ nodes, ∀ c ∈ next a, c ∈ nodes) :
    Reached next ((next x).foldl (stageNext (done.insert x)) stage) (done.insert x) y ↔
      Reached next (x :: stage) done y := by
  constructor
  · rintro (hy | ⟨s, hs, hpath⟩)
    · rcases mem_insert_iff.mp hy with rfl | hy
      · exact .inr ⟨y, mem_cons_self, .refl⟩
      · exact .inl hy
    · rcases mem_foldl_stageNext.mp hs with hs | ⟨hs, -⟩
      · exact .inr ⟨s, mem_cons_of_mem x hs, hpath⟩
      · exact .inr ⟨x, mem_cons_self, .head hs hpath⟩
  · rintro (hy | ⟨s, hs, hpath⟩)
    · exact .inl (mem_insert_of_mem hy)
    · -- a path from the node that was taken or from the rest of the stage
      induction hpath with
      | refl =>
        rcases mem_cons.mp hs with rfl | hs
        · exact .inl mem_insert_self
        · exact .inr ⟨s, mem_foldl_stageNext.mpr (.inl hs), .refl⟩
      | tail _ hc ih => exact (h.take hnodes).reached_next ih hc

/-- As many rounds as there are nodes find what is reached. -/
lemma Staged.mem_closure_iff {fuel : ℕ} {x : ι} (h : Staged next nodes stage done)
    (hnodes : ∀ a ∈ nodes, ∀ c ∈ next a, c ∈ nodes)
    (hfuel : (nodes.filter (· ∉ done)).card ≤ fuel) :
    x ∈ closure next fuel stage done ↔ Reached next stage done x := by
  induction fuel generalizing stage done with
  | zero =>
    -- every node is done, so that none is staged
    have hstage : stage = [] := by
      refine eq_nil_iff_forall_not_mem.mpr fun y hy => ?_
      have hmem : y ∈ nodes.filter (· ∉ done) :=
        Finset.mem_filter.mpr ⟨h.mem_nodes y hy, h.not_done y hy⟩
      simp [Finset.card_eq_zero.mp (Nat.le_zero.mp hfuel)] at hmem
    simp [closure, Reached, hstage]
  | succ fuel ih =>
    match stage with
    | [] => simp [closure, Reached]
    | y :: stage =>
      rw [closure, ih (h.take hnodes) ?_, h.reached_take hnodes]
      have hy : y ∈ nodes.filter (· ∉ done) := Finset.mem_filter.mpr
        ⟨h.mem_nodes y mem_cons_self, h.not_done y mem_cons_self⟩
      have herase : nodes.filter (· ∉ done.insert y) = (nodes.filter (· ∉ done)).erase y := by
        ext z
        simp only [Finset.mem_filter, Finset.mem_erase, mem_insert_iff]
        tauto
      rw [herase, Finset.card_erase_of_mem hy]
      omega

end Worklist

end Aegisum
