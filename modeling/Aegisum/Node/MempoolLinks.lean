import Aegisum.Node.Mempool
import Mathlib.Algebra.BigOperators.Group.Finset.Basic
import Mathlib.Algebra.BigOperators.Group.List.Basic

/-!
# Links in the memory pool

What the operations of the pool do to its entries, one lookup at a time, and what the searches along
the links find.  The links of a pool are a graph: `Link a b` says that `b` is a recorded child of
`a`.
-/

namespace Aegisum

open Option

variable {P : Primitives}

namespace CTxMemPool

/-! ### Lookups -/

variable {pool : CTxMemPool P} {h : P.Hash}

lemma mem_mapTx_iff : h ∈ pool.mapTx ↔ ∃ e, pool.entry h = some e := by
  rw [← AList.lookup_isSome, isSome_iff_exists]
  rfl

lemma entry_eq_none_iff : pool.entry h = none ↔ h ∉ pool.mapTx := AList.lookup_eq_none

section Modify

variable (h x : P.Hash) (f : MemPoolEntry P → MemPoolEntry P) (asserts : MemPoolEntry P → Bool)
  (ok : Bool) (pool : CTxMemPool P)

@[simp] lemma entry_assertThat : (pool.assertThat ok).entry x = pool.entry x := rfl

lemma entry_insert (e : MemPoolEntry P) :
    ({ pool with mapTx := pool.mapTx.insert h e } : CTxMemPool P).entry x =
      if x = h then some e else pool.entry x := by
  split
  · next heq => rw [heq]; exact AList.lookup_insert _
  · next hne => exact AList.lookup_insert_ne hne

lemma entry_modify :
    (pool.modify h f asserts).entry x = if x = h then (pool.entry x).map f else pool.entry x := by
  unfold modify
  split
  · next hnone =>
    rw [entry_assertThat]
    split
    · next heq => rw [heq, hnone]; rfl
    · rfl
  · next e hsome =>
    rw [entry_assertThat, entry_insert]
    split
    · next heq => rw [heq, hsome]; rfl
    · rfl

lemma aborted_modify :
    (pool.modify h f asserts).aborted =
      (pool.aborted || (pool.entry h).elim true fun e => !asserts (f e)) := by
  unfold modify
  split
  · next hnone => rw [hnone]; rfl
  · next e hsome => rw [hsome]; rfl

@[simp] lemma mapNextTx_modify : (pool.modify h f asserts).mapNextTx = pool.mapNextTx := by
  unfold modify; split <;> rfl

@[simp] lemma mapTxOutputsMWEB_modify :
    (pool.modify h f asserts).mapTxOutputsMWEB = pool.mapTxOutputsMWEB := by
  unfold modify; split <;> rfl

@[simp] lemma mapDeltas_modify : (pool.modify h f asserts).mapDeltas = pool.mapDeltas := by
  unfold modify; split <;> rfl

end Modify

/-- What an entry keeps as long as it is in the pool and its fee is not changed. -/
def base (pool : CTxMemPool P) (h : P.Hash) : Option (CTxMemPoolEntry P × ℤ) :=
  (pool.entry h).map fun e => (e.toCTxMemPoolEntry, e.feeDelta)

lemma exists_entry_tx_iff (Q : CTransaction P → Prop) :
    (∃ e, pool.entry h = some e ∧ Q e.tx) ↔ ∃ b, pool.base h = some b ∧ Q b.1.tx := by
  simp only [base, map_eq_some_iff, exists_exists_and_eq_and]

/-- Two pools differ only in the links and the statistics of their entries. -/
structure Framed (pool pool' : CTxMemPool P) : Prop where
  mapNextTx : pool'.mapNextTx = pool.mapNextTx
  mapTxOutputsMWEB : pool'.mapTxOutputsMWEB = pool.mapTxOutputsMWEB
  mapDeltas : pool'.mapDeltas = pool.mapDeltas
  base : ∀ h, pool'.base h = pool.base h

namespace Framed

lemma refl (pool : CTxMemPool P) : Framed pool pool := ⟨rfl, rfl, rfl, fun _ => rfl⟩

variable {pool pool' : CTxMemPool P}

lemma trans {pool'' : CTxMemPool P} (h : Framed pool pool') (h' : Framed pool' pool'') :
    Framed pool pool'' :=
  ⟨h'.mapNextTx.trans h.mapNextTx, h'.mapTxOutputsMWEB.trans h.mapTxOutputsMWEB,
    h'.mapDeltas.trans h.mapDeltas, fun x => (h'.base x).trans (h.base x)⟩

lemma foldl {α : Type*} {step : CTxMemPool P → α → CTxMemPool P}
    (hstep : ∀ pool a, Framed pool (step pool a)) (l : List α) (pool : CTxMemPool P) :
    Framed pool (l.foldl step pool) := by
  induction l generalizing pool with
  | nil => exact .refl pool
  | cons a l ih => exact (hstep pool a).trans (ih (step pool a))

lemma assertThat (ok : Bool) (pool : CTxMemPool P) : Framed pool (pool.assertThat ok) :=
  ⟨rfl, rfl, rfl, fun _ => rfl⟩

lemma modify {f : MemPoolEntry P → MemPoolEntry P}
    (hf : ∀ e, (f e).toCTxMemPoolEntry = e.toCTxMemPoolEntry ∧ (f e).feeDelta = e.feeDelta)
    (h : P.Hash) (asserts : MemPoolEntry P → Bool) (pool : CTxMemPool P) :
    Framed pool (pool.modify h f asserts) := by
  refine ⟨by simp, by simp, by simp, fun x => ?_⟩
  unfold CTxMemPool.base
  rw [entry_modify]
  split
  · rw [Option.map_map]
    exact congrArg (Option.map · _) (funext fun e => Prod.ext (hf e).1 (hf e).2)
  · rfl

lemma modifyAll {f : MemPoolEntry P → MemPoolEntry P}
    (hf : ∀ e, (f e).toCTxMemPoolEntry = e.toCTxMemPoolEntry ∧ (f e).feeDelta = e.feeDelta)
    (hs : List P.Hash) (asserts : MemPoolEntry P → Bool) (pool : CTxMemPool P) :
    Framed pool (pool.modifyAll hs f asserts) :=
  .foldl (fun pool h => .modify hf h asserts pool) hs pool

lemma exists_entry (hframed : Framed pool pool') {h : P.Hash} {e : MemPoolEntry P}
    (he : pool.entry h = some e) : ∃ e', pool'.entry h = some e' ∧
      e'.toCTxMemPoolEntry = e.toCTxMemPoolEntry ∧ e'.feeDelta = e.feeDelta := by
  have hbase := hframed.base h
  rw [CTxMemPool.base, CTxMemPool.base, he, map_some, map_eq_some_iff] at hbase
  obtain ⟨e', he', heq⟩ := hbase
  exact ⟨e', he', (Prod.mk.inj heq).1, (Prod.mk.inj heq).2⟩

lemma symm (h : Framed pool pool') : Framed pool' pool :=
  ⟨h.mapNextTx.symm, h.mapTxOutputsMWEB.symm, h.mapDeltas.symm, fun x => (h.base x).symm⟩

end Framed

/-! ### The graph of links -/

/-- A recorded child. -/
def Link (pool : CTxMemPool P) (a b : P.Hash) : Prop := b ∈ pool.children a

/-- The ids of the entries. -/
def hashes (pool : CTxMemPool P) : Finset P.Hash := pool.mapTx.keys.toFinset

lemma mem_hashes : h ∈ pool.hashes ↔ h ∈ pool.mapTx := by
  rw [hashes, List.mem_toFinset, AList.mem_keys]

lemma card_hashes (pool : CTxMemPool P) : pool.hashes.card = pool.mapTx.keys.length :=
  List.toFinset_card_of_nodup pool.mapTx.keys_nodup

lemma mem_of_mem_children {a b : P.Hash} (h : b ∈ pool.children a) : a ∈ pool.mapTx := by
  rw [mem_mapTx_iff]
  unfold children at h
  match he : pool.entry a with
  | none => simp [he] at h
  | some e => exact ⟨e, rfl⟩

lemma mem_of_mem_parents {a b : P.Hash} (h : b ∈ pool.parents a) : a ∈ pool.mapTx := by
  rw [mem_mapTx_iff]
  unfold parents at h
  match he : pool.entry a with
  | none => simp [he] at h
  | some e => exact ⟨e, rfl⟩

lemma children_of_entry {e : MemPoolEntry P} (he : pool.entry h = some e) :
    pool.children h = e.mChildren := by rw [children, he]; rfl

lemma parents_of_entry {e : MemPoolEntry P} (he : pool.entry h = some e) :
    pool.parents h = e.mParents := by rw [parents, he]; rfl

/-- Parents and children are sets of entries, and each is the inverse of the other. -/
structure Linked (pool : CTxMemPool P) : Prop where
  nodup_parents : ∀ h, (pool.parents h).Nodup
  nodup_children : ∀ h, (pool.children h).Nodup
  inverse : ∀ a b, b ∈ pool.children a ↔ a ∈ pool.parents b

namespace Linked

variable {pool : CTxMemPool P} (hpool : pool.Linked)

include hpool

lemma mem_children {a b : P.Hash} (h : b ∈ pool.children a) : b ∈ pool.mapTx :=
  mem_of_mem_parents ((hpool.inverse a b).mp h)

end Linked

/-! ### The searches -/

section Search

variable {pool : CTxMemPool P}

lemma mem_of_getIter {i : OutputIndex P} {h : P.Hash} (hi : pool.getIter i = some h) :
    h ∈ pool.mapTx := by
  unfold getIter at hi
  split at hi
  · split at hi
    · next hmem => exact some.inj hi ▸ hmem
    · exact absurd hi (by simp)
  · obtain ⟨x, -, hx⟩ := bind_eq_some_iff.mp hi
    split at hx
    · next hmem => exact some.inj hx ▸ hmem
    · exact absurd hx (by simp)

end Search

namespace Linked

variable {pool : CTxMemPool P} (hpool : pool.Linked)

include hpool

private lemma children_closed (a : P.Hash) (_ : a ∈ pool.hashes) (c : P.Hash)
    (hc : c ∈ pool.children a) : c ∈ pool.hashes := mem_hashes.mpr (hpool.mem_children hc)

section Descendants

variable {h x : P.Hash} {setDescendants : List P.Hash}

/-- The descendants of an entry, with those of the set they are added to. -/
lemma mem_calculateDescendants (hh : h ∈ pool.mapTx)
    (hset : ∀ a ∈ setDescendants, ∀ b ∈ pool.children a, b ∈ setDescendants) :
    x ∈ pool.calculateDescendants h setDescendants ↔
      x ∈ setDescendants ∨ Relation.ReflTransGen pool.Link h x := by
  have hfuel := (Finset.card_filter_le pool.hashes (· ∉ setDescendants)).trans pool.card_hashes.le
  unfold calculateDescendants
  split
  · next hmem =>
    have hstaged : Worklist.Staged pool.children pool.hashes [] setDescendants :=
      ⟨List.nodup_nil, by simp, by simp, fun a ha b hb => .inl (hset a ha b hb)⟩
    rw [hstaged.mem_closure_iff hpool.children_closed hfuel, Worklist.Reached]
    refine ⟨fun hx => hx.imp_right (by simp), fun hx => .inl (hx.elim id fun hpath => ?_)⟩
    exact Relation.ReflTransGen.rec (motive := fun y _ => y ∈ setDescendants) hmem
      (fun _ hlink ha => hset _ ha _ hlink) hpath
  · next hmem =>
    have hstaged : Worklist.Staged pool.children pool.hashes [h] setDescendants :=
      ⟨List.nodup_singleton h, by simp [mem_hashes, hh], by simp [hmem],
        fun a ha b hb => .inl (hset a ha b hb)⟩
    rw [hstaged.mem_closure_iff hpool.children_closed hfuel, Worklist.Reached]
    simp only [List.mem_singleton, exists_eq_left]
    rfl

omit hpool in
/-- The set of descendants has no repetitions. -/
lemma nodup_calculateDescendants (hnodup : setDescendants.Nodup) :
    (pool.calculateDescendants h setDescendants).Nodup :=
  Worklist.nodup_closure _ _ hnodup

end Descendants

/-- All descendants of some entries. -/
lemma mem_descendantsOfAll {roots : List P.Hash} (hroots : ∀ r ∈ roots, r ∈ pool.mapTx) :
    (pool.descendantsOfAll roots).Nodup ∧ ∀ x, x ∈ pool.descendantsOfAll roots ↔
      ∃ r ∈ roots, Relation.ReflTransGen pool.Link r x := by
  -- the set that is built is always the set of descendants of the roots seen so far
  suffices hloop : ∀ (roots seen set : List P.Hash), (∀ r ∈ roots, r ∈ pool.mapTx) → set.Nodup →
      (∀ x, x ∈ set ↔ ∃ r ∈ seen, Relation.ReflTransGen pool.Link r x) →
      (roots.foldl (fun set h => pool.calculateDescendants h set) set).Nodup ∧
        ∀ x, x ∈ roots.foldl (fun set h => pool.calculateDescendants h set) set ↔
          ∃ r ∈ seen ++ roots, Relation.ReflTransGen pool.Link r x from
    hloop roots [] [] hroots List.nodup_nil (by simp)
  intro roots
  induction roots with
  | nil => exact fun seen set _ hnodup hset => ⟨hnodup, by simpa using hset⟩
  | cons r roots ih =>
    intro seen set hroots hnodup hset
    have hr : r ∈ pool.mapTx := hroots r List.mem_cons_self
    have hclosed : ∀ a ∈ set, ∀ b ∈ pool.children a, b ∈ set := fun a ha b hb => by
      obtain ⟨s, hs, hpath⟩ := (hset a).mp ha
      exact (hset b).mpr ⟨s, hs, hpath.tail hb⟩
    have hnext := ih (seen ++ [r]) (pool.calculateDescendants r set)
      (fun s hs => hroots s (List.mem_cons_of_mem r hs)) (nodup_calculateDescendants hnodup)
      fun x => ?_
    · simpa using hnext
    · rw [hpool.mem_calculateDescendants hr hclosed, hset]
      simp only [List.mem_append, List.mem_singleton]
      grind

end Linked

end CTxMemPool

/-! ### Entries without their statistics -/

/-- The entry with its statistics erased: its transaction, its fee and its links are left. -/
def MemPoolEntry.core (e : MemPoolEntry P) : MemPoolEntry P :=
  { e with
    nCountWithDescendants := 0
    nSizeWithDescendants := 0
    nModFeesWithDescendants := 0
    nMWEBWeightWithDescendants := 0
    nCountWithAncestors := 0
    nSizeWithAncestors := 0
    nModFeesWithAncestors := 0
    nSigOpCostWithAncestors := 0
    nMWEBWeightWithAncestors := 0 }

namespace MemPoolEntry

lemma core_updateAncestorState (size fee count sigOps mwebWeight : ℤ) (e : MemPoolEntry P) :
    (e.updateAncestorState size fee count sigOps mwebWeight).core = e.core := rfl

lemma core_updateDescendantState (size fee count mwebWeight : ℤ) (e : MemPoolEntry P) :
    (e.updateDescendantState size fee count mwebWeight).core = e.core := rfl

end MemPoolEntry

namespace CTxMemPool

/-- The entry of a transaction with its statistics erased. -/
def coreEntry (pool : CTxMemPool P) (h : P.Hash) : Option (MemPoolEntry P) :=
  (pool.entry h).map MemPoolEntry.core

section Core

variable {pool pool' : CTxMemPool P}

lemma base_eq_core (pool : CTxMemPool P) (h : P.Hash) :
    pool.base h = (pool.coreEntry h).map fun e => (e.toCTxMemPoolEntry, e.feeDelta) := by
  rw [coreEntry, map_map]
  rfl

lemma children_eq_core (pool : CTxMemPool P) (h : P.Hash) :
    pool.children h = (pool.coreEntry h).elim [] MemPoolEntry.mChildren := by
  unfold children coreEntry
  match pool.entry h with
  | none => rfl
  | some e => rfl

lemma parents_eq_core (pool : CTxMemPool P) (h : P.Hash) :
    pool.parents h = (pool.coreEntry h).elim [] MemPoolEntry.mParents := by
  unfold parents coreEntry
  match pool.entry h with
  | none => rfl
  | some e => rfl

lemma mem_mapTx_iff_core {h : P.Hash} : h ∈ pool.mapTx ↔ (pool.coreEntry h).isSome := by
  rw [coreEntry, isSome_map, ← AList.lookup_isSome]
  rfl

variable {f : MemPoolEntry P → MemPoolEntry P}

/-- A change of entries that can be seen without their statistics. -/
lemma coreEntry_modify {g : MemPoolEntry P → MemPoolEntry P} (hf : ∀ e, (f e).core = g e.core)
    (h x : P.Hash) (asserts : MemPoolEntry P → Bool) (pool : CTxMemPool P) :
    (pool.modify h f asserts).coreEntry x =
      if x = h then (pool.coreEntry x).map g else pool.coreEntry x := by
  unfold coreEntry
  rw [entry_modify]
  split
  · rw [Option.map_map, Option.map_map]
    exact congrArg (Option.map · _) (funext hf)
  · rfl

/-- A loop over idempotent changes of entries. -/
lemma coreEntry_foldl_modify {g : MemPoolEntry P → MemPoolEntry P} (hf : ∀ e, (f e).core = g e.core)
    (hg : ∀ e, g (g e) = g e) (hs : List P.Hash) (x : P.Hash) (asserts : MemPoolEntry P → Bool)
    (pool : CTxMemPool P) :
    (hs.foldl (fun pool h => pool.modify h f asserts) pool).coreEntry x =
      if x ∈ hs then (pool.coreEntry x).map g else pool.coreEntry x := by
  induction hs generalizing pool with
  | nil => rfl
  | cons h hs ih =>
    rw [List.foldl_cons, ih, coreEntry_modify hf]
    by_cases hx : x = h
    · have hidem : ((pool.coreEntry x).map g).map g = (pool.coreEntry x).map g := by
        rw [Option.map_map]
        exact congrArg (Option.map · _) (funext hg)
      rw [if_pos hx, if_pos (List.mem_cons.mpr (Or.inl hx)), hidem, ite_self]
    · simp only [hx, if_false, List.mem_cons, false_or]

/-- Statistics can change without anything else. -/
lemma coreEntry_modifyAll (hf : ∀ e, (f e).core = e.core) (hs : List P.Hash) (x : P.Hash)
    (asserts : MemPoolEntry P → Bool) (pool : CTxMemPool P) :
    (pool.modifyAll hs f asserts).coreEntry x = pool.coreEntry x := by
  refine (coreEntry_foldl_modify (g := id) hf (fun _ => rfl) hs x asserts pool).trans ?_
  rw [map_id, id, ite_self]

end Core

end CTxMemPool

end Aegisum
