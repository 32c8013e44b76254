import Aegisum.Node.MempoolChange

/-!
# Removing what a block confirms

`removeForBlock` removes the transactions of a block and the entries that have a kernel in its
extension block one by one, each with the entries that are in conflict with it and their
descendants.  Conflicts are found through the inputs of these transactions; the inputs of the
extension block are not looked at.
-/

namespace Aegisum

open CTransaction List

namespace CTxMemPool

variable {P : Primitives} [NodeCrypto P]

/-- An entry spends an output. -/
def Spends (pool : CTxMemPool P) (h : P.Hash) (i : OutputIndex P) : Prop :=
  ∃ e, pool.entry h = some e ∧ i ∈ e.tx.getInputs

/-- Entries are found by the ids of their transactions, and the index of what is spent is exact. -/
structure Indexed (pool : CTxMemPool P) : Prop where
  linked : pool.Linked
  key : ∀ h e, pool.entry h = some e → e.tx.getHash = h
  nextTx : ∀ i h, pool.mapNextTx i = some h ↔ pool.Spends h i

namespace Removed

variable {pool pool' pool'' : CTxMemPool P} {removed removed' : List P.Hash}

lemma refl (pool : CTxMemPool P) : Removed pool [] pool := by
  refine ⟨fun x => ?_, by simp, by simp⟩
  rw [if_neg (by simp)]
  match pool.coreEntry x with
  | none => rfl
  | some e => rw [Option.map_some, withoutChildren_nil, withoutParents_nil]

lemma spends_iff (h : Removed pool removed pool') {c : P.Hash} {i : OutputIndex P} :
    pool'.Spends c i ↔ c ∉ removed ∧ pool.Spends c i := h.exists_entry_iff (i ∈ ·.getInputs)

lemma indexed (h : Removed pool removed pool') (hpool : pool.Indexed) : pool'.Indexed := by
  refine ⟨h.linked hpool.linked, fun x e he => ?_, fun i c => ?_⟩
  · obtain ⟨-, e', he', htx⟩ := h.entry_tx.mp ⟨e, he, rfl⟩
    exact htx ▸ hpool.key x e' he'
  · rw [h.nextTx, h.spends_iff, hpool.nextTx]
    refine ⟨fun ⟨hc, hnot⟩ => ⟨fun hmem => ?_, hc⟩, fun ⟨hmem, hc⟩ => ⟨hc, fun r hr e he hi => ?_⟩⟩
    · obtain ⟨e, he, hi⟩ := hc
      exact hnot c hmem e he hi
    · -- an output is spent by one entry only
      have hr' := (hpool.nextTx i r).mpr ⟨e, he, hi⟩
      rw [(hpool.nextTx i c).mpr hc] at hr'
      exact hmem (Option.some.inj hr' ▸ hr)

lemma trans (h : Removed pool removed pool') (h' : Removed pool' removed' pool'') :
    Removed pool (removed ++ removed') pool'' := by
  have hrest : ∀ Q : CTransaction P → Prop,
      (∀ r ∈ removed, ∀ e, pool.entry r = some e → Q e.tx) ∧
        (∀ r ∈ removed', ∀ e, pool'.entry r = some e → Q e.tx) ↔
      ∀ r ∈ removed ++ removed', ∀ e, pool.entry r = some e → Q e.tx := by
    refine fun Q => ⟨fun ⟨hQ, hQ'⟩ r hr e he => ?_, fun hQ => ⟨fun r hr => ?_, fun r hr e he => ?_⟩⟩
    · by_cases hmem : r ∈ removed
      · exact hQ r hmem e he
      · obtain ⟨e', he', htx⟩ := h.entry_tx.mpr ⟨hmem, e, he, rfl⟩
        exact htx ▸ hQ' r ((mem_append.mp hr).resolve_left hmem) e' he'
    · exact hQ r (mem_append_left removed' hr)
    · obtain ⟨-, e', he', htx⟩ := h.entry_tx.mp ⟨e, he, rfl⟩
      exact htx ▸ hQ r (mem_append_right removed hr) e' he'
  refine ⟨fun x => ?_, fun i c => ?_, fun id c => ?_⟩
  · rw [h'.core, h.core]
    by_cases hx : x ∈ removed
    · rw [if_pos hx, if_pos (mem_append_left removed' hx)]
      exact ite_self _
    · simp only [mem_append, hx, false_or, if_false]
      split
      · rfl
      · rw [Option.map_map]
        refine congrArg (Option.map · _) (funext fun e => ?_)
        unfold Function.comp withoutParents withoutChildren
        simp [filter_filter, not_or, Bool.and_comm]
  · rw [h'.nextTx, h.nextTx, and_assoc, hrest (i ∉ ·.getInputs)]
  · rw [h'.outputs, h.outputs, and_assoc, hrest (id ∉ ·.mwebOutputIDs)]

end Removed

variable {pool : CTxMemPool P}

/-- A pool with a new entry that is not in conflict with the others. -/
lemma Added.indexed {pool' : CTxMemPool P} {e : CTxMemPoolEntry P} (h : Added pool e pool')
    (hpool : pool.Indexed) (hnew : pool.New e.tx)
    (hconflict : ∀ i ∈ e.tx.getInputs, pool.mapNextTx i = none) : pool'.Indexed := by
  refine ⟨h.linked hpool.linked hnew, fun x e' he' => ?_, fun i c => ?_⟩
  · rcases (h.entry_tx hnew).mp ⟨e', he', rfl⟩ with ⟨hx, heq⟩ | ⟨e'', he'', heq⟩
    · rw [hx, heq]
    · exact heq ▸ hpool.key x e'' he''
  · have hspends : pool'.Spends c i ↔
        (c = e.tx.getHash ∧ i ∈ e.tx.getInputs) ∨ pool.Spends c i :=
      h.exists_entry_iff hnew (i ∈ ·.getInputs)
    rw [h.nextTx, hspends, ← hpool.nextTx]
    split
    · next hi =>
      rw [hconflict i hi]
      simp [hi, eq_comm]
    · next hi => simp [hi]

lemma indexed_empty : (empty : CTxMemPool P).Indexed :=
  ⟨⟨fun _ => nodup_nil, fun _ => nodup_nil, fun a b => by
      simp [children, parents, entry, empty]⟩,
    fun _ _ he => absurd he (by simp [entry, empty]), fun i h => by
      simp [empty, Spends, entry]⟩

/-! ### Conflicts -/

lemma removed_removeRecursive (hpool : pool.Linked) (tx : CTransaction P) :
    Removed pool (pool.descendantsOfAll (pool.removalRoots tx)) (pool.removeRecursive tx) := by
  have hlinked : (pool.assertThat ((pool.removalRoots tx).all (· ∈ pool.mapTx))).Linked :=
    ⟨hpool.1, hpool.2, hpool.3⟩
  have hremoved := removed_removeStaged hlinked
    (pool.descendantsOfAll (pool.removalRoots tx)) false
  exact ⟨hremoved.core, hremoved.nextTx, hremoved.outputs⟩

variable {x : P.Hash}

/-- A path to an entry that is left does not pass through entries that are removed with all their
descendants. -/
lemma Removed.reach_of_not_mem {pool' : CTxMemPool P} {removed : List P.Hash}
    (h : Removed pool removed pool')
    (hclosed : ∀ a ∈ removed, ∀ b, Relation.ReflTransGen pool.Link a b → b ∈ removed) {c : P.Hash}
    (hpath : Relation.ReflTransGen pool.Link c x) (hx : x ∉ removed) :
    Relation.ReflTransGen pool'.Link c x := by
  induction hpath with
  | refl => exact .refl
  | @tail b d hpath hlink ih =>
    have hb : b ∉ removed := fun hb => hx (hclosed b hb d (.single hlink))
    exact (ih hb).tail (h.link_iff.mpr ⟨hlink, hb, hx⟩)

section Conflicts

variable {pool : CTxMemPool P} (hpool : pool.Indexed)

include hpool

/-- An entry is removed with its descendants. -/
lemma exists_removed_removeRecursive {c : P.Hash} {e : MemPoolEntry P}
    (he : pool.entry c = some e) :
    ∃ removed, Removed pool removed (pool.removeRecursive e.tx) ∧
      ∀ x, x ∈ removed ↔ Relation.ReflTransGen pool.Link c x := by
  have hc : c ∈ pool.mapTx := mem_mapTx_iff.mpr ⟨e, he⟩
  have hroots : pool.removalRoots e.tx = [c] := by
    rw [removalRoots, hpool.key c e he, if_pos hc]
  have hall := (hpool.linked.mem_descendantsOfAll (forall_mem_singleton.mpr hc)).2
  exact ⟨_, removed_removeRecursive hpool.linked e.tx, by simpa [hroots] using hall⟩

/-- The conflict over one output. -/
lemma exists_removed_removeConflict (h : P.Hash) (i : OutputIndex P) :
    ∃ removed, Removed pool removed (removeConflict h pool i) ∧
      ∀ x, x ∈ removed ↔
        ∃ c, c ≠ h ∧ pool.Spends c i ∧ Relation.ReflTransGen pool.Link c x := by
  unfold removeConflict
  match hnext : pool.mapNextTx i with
  | none =>
    refine ⟨[], .refl pool, fun x => ⟨by simp, fun ⟨c, _, hc, _⟩ => ?_⟩⟩
    rw [(hpool.nextTx i c).mpr hc] at hnext
    exact absurd hnext (by simp)
  | some c =>
    have hc : pool.Spends c i := (hpool.nextTx i c).mp hnext
    have hunique : ∀ c', pool.Spends c' i → c' = c := fun c' hc' => by
      rw [(hpool.nextTx i c').mpr hc'] at hnext
      exact Option.some.inj hnext
    dsimp only
    split
    · next heq =>
      refine ⟨[], .refl pool, fun x => ⟨by simp, fun ⟨c', hne, hc', _⟩ => ?_⟩⟩
      exact absurd ((hunique c' hc').trans heq) hne
    · next hne =>
      obtain ⟨e, he, -⟩ := id hc
      rw [he]
      have hcleared : (pool.clearPrioritisation c).Indexed :=
        ⟨⟨hpool.linked.1, hpool.linked.2, hpool.linked.3⟩, hpool.key, hpool.nextTx⟩
      obtain ⟨removed, hremoved, hmem⟩ := exists_removed_removeRecursive hcleared he
      refine ⟨removed, ⟨hremoved.core, hremoved.nextTx, hremoved.outputs⟩, fun x => ?_⟩
      rw [hmem]
      refine ⟨fun hpath => ⟨c, hne, hc, hpath⟩, fun ⟨c', _, hc', hpath⟩ => ?_⟩
      exact hunique c' hc' ▸ hpath

/-- All conflicts with a transaction: the entries that spend its inputs, with their descendants. -/
lemma exists_removed_removeConflicts (h : P.Hash) (inputs : List (OutputIndex P)) :
    ∃ removed, Removed pool removed (inputs.foldl (removeConflict h) pool) ∧
      ∀ x, x ∈ removed ↔ ∃ i ∈ inputs, ∃ c, c ≠ h ∧ pool.Spends c i ∧
        Relation.ReflTransGen pool.Link c x := by
  induction inputs generalizing pool with
  | nil => exact ⟨[], .refl pool, by simp⟩
  | cons i inputs ih =>
    obtain ⟨removed, hremoved, hmem⟩ := exists_removed_removeConflict hpool h i
    obtain ⟨removed', hremoved', hmem'⟩ := ih (hremoved.indexed hpool)
    -- what is removed first has all its descendants
    have hclosed : ∀ a ∈ removed, ∀ b, Relation.ReflTransGen pool.Link a b → b ∈ removed := by
      intro a ha b hab
      obtain ⟨c, hne, hc, hca⟩ := (hmem a).mp ha
      exact (hmem b).mpr ⟨c, hne, hc, hca.trans hab⟩
    refine ⟨removed ++ removed', hremoved.trans hremoved', fun x => ?_⟩
    rw [mem_append, hmem', exists_mem_cons_iff, ← hmem]
    refine or_congr_right' fun hx => ?_
    refine exists_congr fun j => and_congr_right fun _ => exists_congr fun c =>
      and_congr_right fun _ => ?_
    rw [hremoved.spends_iff]
    constructor
    · rintro ⟨⟨-, hc⟩, hpath⟩
      exact ⟨hc, hpath.lift id fun a b hab => (hremoved.link_iff.mp hab).1⟩
    · rintro ⟨hc, hpath⟩
      refine ⟨⟨fun hmem => hx (hclosed c hmem x hpath), hc⟩, ?_⟩
      exact hremoved.reach_of_not_mem hclosed hpath hx

end Conflicts

/-! ### The transactions of a block -/

/-- The entries a path may use when those in a set are gone. -/
def LinkAvoiding (pool : CTxMemPool P) (gone : List P.Hash) (a b : P.Hash) : Prop :=
  pool.Link a b ∧ a ∉ gone ∧ b ∉ gone

/-- One transaction of the block: it is removed, and so is everything that is in conflict with it,
with the descendants that do not depend on it. -/
lemma exists_removed_removeBlockTx (hpool : pool.Indexed) (tx : CTransaction P) :
    ∃ removed, Removed pool removed (removeBlockTx pool tx) ∧
      ∀ x ∈ pool.mapTx, x ∈ removed ↔ x = tx.getHash ∨ ∃ i ∈ tx.getInputs, ∃ c,
        c ≠ tx.getHash ∧ pool.Spends c i ∧
          Relation.ReflTransGen (pool.LinkAvoiding [tx.getHash]) c x := by
  obtain ⟨removed, hremoved, hmem⟩ : ∃ removed,
      Removed pool removed (if tx.getHash ∈ pool.mapTx then pool.removeStaged [tx.getHash] true
        else pool) ∧ ∀ x ∈ pool.mapTx, x ∈ removed ↔ x = tx.getHash := by
    split
    · exact ⟨[tx.getHash], removed_removeStaged hpool.linked _ true, by simp⟩
    · next hnot =>
      refine ⟨[], .refl pool, fun x hx => ⟨by simp, fun heq => ?_⟩⟩
      exact absurd (heq ▸ hx) hnot
  obtain ⟨removed', hremoved', hmem'⟩ :=
    exists_removed_removeConflicts (hremoved.indexed hpool) tx.getHash tx.getInputs
  have htrans := hremoved.trans hremoved'
  refine ⟨removed ++ removed', ⟨htrans.core, htrans.nextTx, htrans.outputs⟩, fun x hx => ?_⟩
  rw [mem_append, hmem x hx, hmem']
  refine or_congr_right (exists_congr fun i => and_congr_right fun _ => exists_congr fun c =>
    and_congr_right fun hne => ?_)
  rw [hremoved.spends_iff]
  have hlink : ∀ a b, (if tx.getHash ∈ pool.mapTx then pool.removeStaged [tx.getHash] true
      else pool).Link a b ↔ pool.LinkAvoiding [tx.getHash] a b := by
    intro a b
    rw [hremoved.link_iff, LinkAvoiding]
    refine and_congr_right fun hab => ?_
    rw [hmem a (mem_of_mem_children hab), hmem b (hpool.linked.mem_children hab)]
    simp
  constructor
  · rintro ⟨⟨-, hc⟩, hpath⟩
    exact ⟨hc, hpath.lift id fun a b hab => (hlink a b).mp hab⟩
  · rintro ⟨hc, hpath⟩
    obtain ⟨e, he, -⟩ := id hc
    refine ⟨⟨fun hmem' => hne ((hmem c (mem_mapTx_iff.mpr ⟨e, he⟩)).mp hmem'), hc⟩, ?_⟩
    exact hpath.lift id fun a b hab => (hlink a b).mpr hab

/-- An entry that is removed as a descendant of a conflict: some transaction of a list has an input
that another entry spends, and the links lead from there to the entry without passing through the
transactions of the list up to that one. -/
def Doomed (pool : CTxMemPool P) (txs : List (CTransaction P)) (x : P.Hash) : Prop :=
  ∃ before tx after, txs = before ++ tx :: after ∧ ∃ i ∈ tx.getInputs, ∃ c,
    c ∉ (before ++ [tx]).map CTransaction.getHash ∧ pool.Spends c i ∧
      Relation.ReflTransGen
        (pool.LinkAvoiding ((before ++ [tx]).map CTransaction.getHash)) c x

variable {txs : List (CTransaction P)}

lemma Doomed.append (h : pool.Doomed txs x) (tx : CTransaction P) :
    pool.Doomed (txs ++ [tx]) x := by
  obtain ⟨before, tx', after, rfl, h⟩ := h
  exact ⟨before, tx', after ++ [tx], by simp, h⟩

/-- A descendant of such an entry is one, as long as the links do not pass through the
transactions of the list. -/
lemma Doomed.tail {y : P.Hash} (h : pool.Doomed txs x)
    (hlink : pool.LinkAvoiding (txs.map getHash) x y) : pool.Doomed txs y := by
  obtain ⟨before, tx, after, rfl, i, hi, c, hc, hspends, hpath⟩ := h
  refine ⟨before, tx, after, rfl, i, hi, c, hc, hspends, hpath.tail ⟨hlink.1, ?_, ?_⟩⟩
  · exact fun hmem => hlink.2.1 (by simp only [map_append, mem_append] at hmem ⊢; grind)
  · exact fun hmem => hlink.2.2 (by simp only [map_append, mem_append] at hmem ⊢; grind)

/-- An entry that spends an input of a transaction of the list. -/
lemma doomed_of_spends {tx : CTransaction P} (htx : tx ∈ txs) {i : OutputIndex P}
    (hi : i ∈ tx.getInputs) {h : P.Hash} (hspends : pool.Spends h i)
    (hnot : h ∉ txs.map getHash) : pool.Doomed txs h := by
  obtain ⟨before, after, rfl⟩ := append_of_mem htx
  refine ⟨before, tx, after, rfl, i, hi, h, fun hgone => hnot ?_, hspends, .refl⟩
  simp only [map_append, map_cons, mem_append] at hgone ⊢
  grind

section Step

variable {pool pool' : CTxMemPool P} {txs : List (CTransaction P)} {tx : CTransaction P}
  {removed : List P.Hash} {x : P.Hash} (hremoved : Removed pool removed pool')
  (hpool : pool.Indexed)
  (hmem : ∀ x ∈ pool.mapTx, x ∈ removed ↔ x ∈ txs.map CTransaction.getHash ∨ pool.Doomed txs x)

include hremoved hmem hpool

/-- What is in conflict with a transaction when the ones before it are gone. -/
lemma doomed_of_conflict {i : OutputIndex P} {c : P.Hash} (hi : i ∈ tx.getInputs)
    (hne : c ≠ tx.getHash) (hc : pool'.Spends c i)
    (hpath : Relation.ReflTransGen (pool'.LinkAvoiding [tx.getHash]) c x) :
    pool.Doomed (txs ++ [tx]) x := by
  -- entries that are left are none of the transactions seen so far
  have hgone : ∀ a ∈ pool.mapTx, a ∉ removed → a ≠ tx.getHash →
      a ∉ (txs ++ [tx]).map getHash := by
    intro a ha hrem hne hmem'
    rw [map_append, mem_append, map_singleton, mem_singleton] at hmem'
    exact hmem'.elim (fun h => hrem ((hmem a ha).mpr (Or.inl h))) hne
  obtain ⟨hcrem, hspends⟩ := hremoved.spends_iff.mp hc
  obtain ⟨e, he, -⟩ := id hspends
  refine ⟨txs, tx, [], rfl, i, hi, c, hgone c (mem_mapTx_iff.mpr ⟨e, he⟩) hcrem hne, hspends, ?_⟩
  refine hpath.lift id fun a b ⟨hlink, ha, hb⟩ => ?_
  obtain ⟨hlink, harem, hbrem⟩ := hremoved.link_iff.mp hlink
  exact ⟨hlink, hgone a (mem_of_mem_children hlink) harem (by simpa using ha),
    hgone b (hpool.linked.mem_children hlink) hbrem (by simpa using hb)⟩

lemma conflict_of_doomed (hdoomed : pool.Doomed (txs ++ [tx]) x) (hx : x ∉ removed)
    (hnot : ¬ pool.Doomed txs x) :
    ∃ i ∈ tx.getInputs, ∃ c, c ≠ tx.getHash ∧ pool'.Spends c i ∧
      Relation.ReflTransGen (pool'.LinkAvoiding [tx.getHash]) c x := by
  obtain ⟨before, tx', after, hsplit, i, hi, c, hc, hspends, hpath⟩ := hdoomed
  rcases eq_nil_or_concat after with rfl | ⟨after, last, rfl⟩
  · obtain ⟨rfl, htx⟩ := append_inj' hsplit rfl
    obtain rfl : tx = tx' := singleton_inj.mp htx
    rw [map_append, mem_append, not_or, map_singleton, mem_singleton] at hc
    -- a path to an entry that is left does not pass through entries that are gone
    have hleft : ∀ y, Relation.ReflTransGen
        (pool.LinkAvoiding ((txs ++ [tx]).map getHash)) c y → y ∉ removed →
        c ∉ removed ∧ Relation.ReflTransGen (pool'.LinkAvoiding [tx.getHash]) c y := by
      intro y hy
      induction hy with
      | refl => exact fun hrem => ⟨hrem, .refl⟩
      | @tail b d _ hlink ih =>
        intro hd
        obtain ⟨hlink, hb, hd'⟩ := hlink
        rw [map_append, mem_append, not_or, map_singleton, mem_singleton]
          at hb hd'
        have hbrem : b ∉ removed := by
          intro hbrem
          have hdoomed := ((hmem b (mem_of_mem_children hlink)).mp hbrem).resolve_left hb.1
          exact hd ((hmem d (hpool.linked.mem_children hlink)).mpr
            (Or.inr (hdoomed.tail ⟨hlink, hb.1, hd'.1⟩)))
        obtain ⟨hcrem, hpath⟩ := ih hbrem
        exact ⟨hcrem, hpath.tail ⟨hremoved.link_iff.mpr ⟨hlink, hbrem, hd⟩,
          by simpa using hb.2, by simpa using hd'.2⟩⟩
    obtain ⟨hcrem, hpath⟩ := hleft x hpath hx
    exact ⟨i, hi, c, hc.2, hremoved.spends_iff.mpr ⟨hcrem, hspends⟩, hpath⟩
  · refine absurd ⟨before, tx', after, ?_, i, hi, c, hc, hspends, hpath⟩ hnot
    have hinj := append_inj' (hsplit.trans (by simp : _ = (before ++ tx' :: after) ++ [last])) rfl
    exact hinj.1

end Step

/-- What a list of transactions removes from the pool. -/
lemma exists_removed_foldl_removeBlockTx (hpool : pool.Indexed) (txs : List (CTransaction P)) :
    ∃ removed, Removed pool removed (txs.foldl removeBlockTx pool) ∧
      ∀ x ∈ pool.mapTx, x ∈ removed ↔ x ∈ txs.map getHash ∨ pool.Doomed txs x := by
  induction txs using reverseRecOn with
  | nil =>
    refine ⟨[], .refl pool, fun x _ => ⟨by simp, ?_⟩⟩
    rintro (hx | ⟨before, tx, after, hnil, -⟩)
    · exact absurd hx (by simp)
    · exact absurd hnil (by simp)
  | append_singleton txs tx ih =>
    obtain ⟨removed, hremoved, hmem⟩ := ih
    obtain ⟨removed', hremoved', hmem'⟩ := exists_removed_removeBlockTx (hremoved.indexed hpool) tx
    rw [foldl_append]
    refine ⟨removed ++ removed', hremoved.trans hremoved', fun x hx => ?_⟩
    rw [mem_append, map_append, mem_append]
    by_cases hrem : x ∈ removed
    · have hcases := (hmem x hx).mp hrem
      exact ⟨fun _ => hcases.imp Or.inl (·.append tx), fun _ => Or.inl hrem⟩
    · have hnot : x ∉ txs.map getHash ∧ ¬ pool.Doomed txs x :=
        not_or.mp fun h => hrem ((hmem x hx).mpr h)
      rw [hmem' x (hremoved.mem_iff.mpr ⟨hx, hrem⟩)]
      constructor
      · rintro (hx | hx | ⟨i, hi, c, hne, hc, hpath⟩)
        · exact absurd hx hrem
        · exact Or.inl (Or.inr (by simpa using hx))
        · exact Or.inr (doomed_of_conflict hremoved hpool hmem hi hne hc hpath)
      · rintro ((hx | hx) | hdoomed)
        · exact absurd hx hnot.1
        · exact Or.inr (Or.inl (by simpa using hx))
        · exact Or.inr (Or.inr (conflict_of_doomed hremoved hpool hmem hdoomed hrem hnot.2))

/-! ### What is left -/

/-- The MWEB outputs that the extension block of a block spends. -/
def blockSpentIDs (block : CBlock P) : List P.Hash :=
  block.mwebBlock.elim [] fun b => b.body.getSpentIDs

/-- No entry spends an output that a block spends, and none has a kernel of its extension block. -/
def ClearOf (pool : CTxMemPool P) (block : CBlock P) : Prop :=
  ∀ h e, pool.entry h = some e →
    (∀ tx ∈ block.vtx, ∀ i ∈ tx.getInputs, i ∉ e.tx.getInputs) ∧
    (∀ id ∈ blockSpentIDs block, .mweb id ∉ e.tx.getInputs) ∧
    ∀ k ∈ e.tx.mwebKernelIDs, k ∉ blockKernelIDs block

/-- After a block nothing is left that is in conflict with it if and only if every entry that spends
an MWEB output that the block spends is one of its transactions or has one of its kernels, or is a
descendant of an entry that spends an input of such a transaction. -/
theorem removeForBlock_clearOf_iff {pool : CTxMemPool P} (hpool : pool.Indexed)
    (block : CBlock P) :
    (pool.removeForBlock block).ClearOf block ↔
      ∀ h, (∃ id ∈ blockSpentIDs block, pool.Spends h (.mweb id)) →
        h ∈ (pool.blockTxs block).map CTransaction.getHash ∨
          pool.Doomed (pool.blockTxs block) h := by
  obtain ⟨removed, hremoved, hmem⟩ := exists_removed_foldl_removeBlockTx hpool (pool.blockTxs block)
  constructor
  · rintro hclear h ⟨id, hid, e, he, hi⟩
    rw [← hmem h (mem_mapTx_iff.mpr ⟨e, he⟩)]
    by_contra hrem
    obtain ⟨e', he', htx⟩ := hremoved.entry_tx.mpr ⟨hrem, e, he, rfl⟩
    exact (hclear h e' he').2.1 id hid (htx ▸ hi)
  · intro hcond h e' he'
    obtain ⟨hrem, e, he, htx⟩ := hremoved.entry_tx.mp ⟨e', he', rfl⟩
    rw [hmem h (mem_mapTx_iff.mpr ⟨e, he⟩), not_or] at hrem
    rw [← htx]
    refine ⟨fun tx htx i hi hspent => ?_, fun id hid hspent => ?_, fun k hk hkernel => ?_⟩
    · -- the entry itself would be the conflict
      exact hrem.2 (doomed_of_spends (List.mem_append_left _ htx) hi ⟨e, he, hspent⟩ hrem.1)
    · exact (hcond h ⟨id, hid, e, he, hspent⟩).elim hrem.1 hrem.2
    · refine hrem.1 (List.mem_map.mpr ⟨e.tx, ?_, hpool.key h e he⟩)
      refine List.mem_append_right _ (List.mem_filter.mpr ⟨?_, ?_⟩)
      · exact List.mem_map.mpr ⟨⟨h, e⟩, AList.mem_lookup_iff.mp he, rfl⟩
      · exact List.any_eq_true.mpr ⟨k, hk, by simpa using hkernel⟩

section Example

open Symbolic

/-- A coin of the given value. -/
def spentCoin (value : ℤ) : Mw.Output sym := output value 1 2 3

/-- The input that spends it. -/
def spendingInput (value : ℤ) : Mw.Input sym := input (spentCoin value).getOutputID value 1 3

/-- An MWEB transaction that spends the coin of the given value, with a fee that makes its kernel
differ from those of the same transaction with another fee. -/
def mwebSpend (value : ℤ) (fee : CAmount) (hfee : 0 ≤ fee) : Mw.Transaction sym where
  kernelOffset := 0
  stealthOffset := -1
  body := ⟨[spendingInput value], [output (value - fee.toInt) 0 2 3],
    [kernel (some fee) none [] (-1) hfee]⟩
  kernels_ne_nil := by simp

/-- The transaction that has nothing but it. -/
def mwebOnly (value : ℤ) (fee : CAmount) (hfee : 0 ≤ fee) : CTransaction sym :=
  { spend [] [] with
    mwebTx := some (mwebSpend value fee hfee)
    hogEx_wf := by simp [spend] }

/-- The transaction in the pool. -/
def pooledSpend : CTransaction sym := mwebOnly 5 1 nonneg_one

/-- The pool with that transaction. -/
def spendPool : CTxMemPool sym := empty.addUnchecked (.new ⟨pooledSpend, 1, 0, 0, 20⟩) []

/-- A block whose extension block is made of the transaction with the given fee. -/
def blockWithSpend (fee : CAmount) (hfee : 0 ≤ fee) : CBlock sym where
  header := ⟨0, .word 0, .word 0, 0, 0, 0⟩
  vtx := [coinbase [1, 1] [⟨50, opTrue⟩],
    markHogEx (spend [⟨.word 7, 0⟩] [⟨0, opTrue⟩]) (by simp [spend])]
  mwebBlock := some ⟨⟨4, .word 0, .word 0, .word 0, 0, 0, 0, 0⟩, (mwebSpend 5 fee hfee).body⟩

lemma new_pooledSpend : (empty : CTxMemPool sym).New pooledSpend :=
  ⟨by simp [empty], fun id => by simp [empty], by simp [pooledSpend, mwebOnly, spend]⟩

lemma added_spendPool : Added empty ⟨pooledSpend, 1, 0, 0, 20⟩ spendPool :=
  added_addUnchecked new_pooledSpend []

lemma indexed_spendPool : spendPool.Indexed :=
  added_spendPool.indexed indexed_empty new_pooledSpend fun _ _ => rfl

/-- A block with the kernel of the transaction in the pool clears it. -/
theorem removeForBlock_clearOf_sameKernel :
    pooledSpend.getHash ∈ spendPool.mapTx ∧
      (spendPool.removeForBlock (blockWithSpend 1 (by decide))).ClearOf
        (blockWithSpend 1 (by decide)) := by
  refine ⟨added_spendPool.mem_iff.mpr (Or.inl rfl), ?_⟩
  refine (removeForBlock_clearOf_iff indexed_spendPool _).mpr fun h ⟨id, _, e, he, _⟩ => Or.inl ?_
  have hh : h = pooledSpend.getHash := by
    simpa [empty] using added_spendPool.mem_iff.mp (mem_mapTx_iff.mpr ⟨e, he⟩)
  rw [hh]
  decide +kernel

/-- A block that spends the same coin with another kernel leaves the transaction in the pool. -/
theorem removeForBlock_otherKernel :
    spendPool.Indexed ∧ ¬ (spendPool.removeForBlock (blockWithSpend 2 (by decide))).ClearOf
      (blockWithSpend 2 (by decide)) := by
  refine ⟨indexed_spendPool, fun hclear => ?_⟩
  have hleft : ((spendPool.removeForBlock (blockWithSpend 2 (by decide))).entry
      pooledSpend.getHash).any
      (fun e => OutputIndex.mweb (spentCoin 5).getOutputID ∈ e.tx.getInputs) = true := by
    decide +kernel
  match he : (spendPool.removeForBlock (blockWithSpend 2 (by decide))).entry
      pooledSpend.getHash with
  | none => simp [he] at hleft
  | some e =>
    rw [he, Option.any_some, decide_eq_true_eq] at hleft
    exact (hclear _ e he).2.1 (spentCoin 5).getOutputID (by decide +kernel) hleft

end Example

end CTxMemPool

end Aegisum
