import Aegisum.Mweb.CacheRun
import Aegisum.Mweb.ViewDB

/-!
# Flushing caches

What a cache stood for is what the layer below answers after the cache was flushed into it, with
two exceptions.  A cache without a best header is not flushed at all, and if nodes of the output
MMR in the file are replaced by others the file keeps the old ones.
-/

namespace Aegisum

open Function

namespace Mw

open CoinsViewUpdates

open CoinsView (Connected Built)

variable {P : Primitives} [MwCrypto P]

/-! ### Actions written to a cache -/

namespace CoinsViewUpdates

omit [MwCrypto P] in
lemma lookup_of_mem {l : List (P.Hash × List (CoinAction P))} (hnodup : (l.map Prod.fst).Nodup)
    {id : P.Hash} {actions : List (CoinAction P)} (h : (id, actions) ∈ l) :
    lookup id l = actions := by
  induction l with
  | nil => cases h
  | cons a l ih =>
    obtain ⟨id', actions'⟩ := a
    rw [List.map_cons, List.nodup_cons] at hnodup
    rw [lookup]
    rcases List.mem_cons.mp h with heq | h
    · obtain ⟨rfl, rfl⟩ := Prod.mk.inj heq
      exact if_pos rfl
    · have hmem : id ∈ l.map Prod.fst := List.mem_map_of_mem (f := Prod.fst) h
      have hne : id' ≠ id := fun heq => hnodup.1 (heq ▸ hmem)
      rw [if_neg hne]
      exact ih hnodup.2 h

omit [MwCrypto P] in
lemma lookup_of_notMem {l : List (P.Hash × List (CoinAction P))} {id : P.Hash}
    (h : id ∉ l.map Prod.fst) : lookup id l = [] := by
  induction l with
  | nil => rfl
  | cons a l ih =>
    rw [List.map_cons, List.mem_cons, not_or] at h
    rw [lookup, if_neg (Ne.symm h.1), ih h.2]

end CoinsViewUpdates

namespace CoinsViewCache

variable {base : ICoinsView P} {vb v : CoinsView P} {c lower : CoinsViewCache P}

lemma recordAction_eq {id : P.Hash} (u : CoinsViewUpdates P) {action : CoinAction P}
    (hkeyed : ∀ utxo, action = some utxo → utxo.getOutputID = id) :
    recordAction id u action = u.addAction id action := by
  cases action with
  | none => rfl
  | some utxo =>
    rw [← hkeyed utxo rfl]
    rfl

/-- Recording all actions of an id. -/
lemma getActions_foldl (id : P.Hash) (actions : List (CoinAction P)) (u : CoinsViewUpdates P)
    (hkeyed : ∀ utxo, some utxo ∈ actions → utxo.getOutputID = id) (x : P.Hash) :
    (actions.foldl (recordAction id) u).getActions x =
      if x = id then u.getActions id ++ actions else u.getActions x := by
  induction actions generalizing u with
  | nil =>
    by_cases hx : x = id
    · simp [hx]
    · simp [hx]
  | cons action actions ih =>
    have haction : ∀ utxo, action = some utxo → utxo.getOutputID = id := by
      rintro utxo rfl
      exact hkeyed utxo (by simp)
    rw [List.foldl_cons, recordAction_eq u haction, ih _ fun utxo h => hkeyed utxo (by simp [h])]
    by_cases hx : x = id
    · simp [hx, getActions_addAction]
    · simp [hx, getActions_addAction]

/-- The actions of the cache on top come after the own ones. -/
lemma getActions_writeBatch {updates : CoinsViewUpdates P}
    (hkeyed : ∀ id utxo, some utxo ∈ updates.getActions id → utxo.getOutputID = id)
    (hdr : Option (Header P)) (id : P.Hash) :
    (lower.writeBatch updates hdr).updates.getActions id =
      lower.updates.getActions id ++ updates.getActions id := by
  have hlist : ∀ (l : List (P.Hash × List (CoinAction P))) (u : CoinsViewUpdates P),
      (l.map Prod.fst).Nodup →
      (∀ id' actions, (id', actions) ∈ l →
        ∀ utxo, some utxo ∈ actions → utxo.getOutputID = id') →
      (l.foldl (fun u a => a.2.foldl (recordAction a.1) u) u).getActions id =
        u.getActions id ++ lookup id l := by
    intro l
    induction l with
    | nil => simp [lookup]
    | cons a l ih =>
      intro u hnodup hl
      obtain ⟨id', actions⟩ := a
      rw [List.map_cons, List.nodup_cons] at hnodup
      rw [List.foldl_cons, ih _ hnodup.2 fun x as h => hl x as (by simp [h]),
        getActions_foldl id' actions u (hl id' actions (by simp)),
        lookup]
      by_cases hid : id = id'
      · rw [if_pos hid, if_pos hid.symm, hid, lookup_of_notMem hnodup.1, List.append_nil]
      · rw [if_neg hid, if_neg (Ne.symm hid)]
  apply hlist updates.actions lower.updates updates.nodup
  intro id' actions hmem utxo hutxo
  apply hkeyed id' utxo
  rwa [getActions, lookup_of_mem updates.nodup hmem]

/-- Actions one after the other. -/
lemma turns_writeBatch {coins₀ coins₁ coins₂ : FiniteMap P.Hash (UTXO P)}
    (hlower : lower.updates.Turns coins₀ coins₁) (hc : c.updates.Turns coins₁ coins₂)
    (hdr : Option (Header P)) : (lower.writeBatch c.updates hdr).updates.Turns coins₀ coins₂ where
  replay id := by
    rw [getActions_writeBatch hc.keyed, foldlM_append_eq_ok]
    exact ⟨_, hlower.replay id, hc.replay id⟩
  keyed id utxo h := by
    rw [getActions_writeBatch hc.keyed, List.mem_append] at h
    rcases h with h | h
    · exact hlower.keyed id utxo h
    · exact hc.keyed id utxo h

omit [MwCrypto P] in
/-- A flushed cache stands for what is below it. -/
lemma StandsFor.flushed [MwCrypto P] (hc : c.StandsFor vb v) : c.flushed.StandsFor v v where
  bestHeader := hc.bestHeader
  coins := turns_empty _
  leafSet := by
    change (⟨fun i => v.leafSet.getByte i, c.leafSet.nextLeafIdx⟩ : LeafSet) = v.leafSet
    rw [← hc.leafSet]
    rfl
  outputPMMR := by
    constructor
    · exact Nat.le_of_eq hc.outputPMMR.next
    · simp [CoinsViewCache.flushed, hc.outputPMMR.next]
    · simp [CoinsViewCache.flushed]
    · rw [show c.flushed.outputPMMR.firstLeaf = v.outputPMMR.leaves.length from hc.outputPMMR.next,
        ← Mmr.length_hashes_ofLeaves (outputMmrHasher P), List.drop_length]
      rfl

/-- Flushing a cache with a best header into the cache below it. -/
lemma flushToCache_eq {v' : CoinsView P} (hbase : base.Answers vb) (hlower : lower.StandsFor vb v)
    (hc : c.StandsFor v v') (hheader : c.bestHeader.isNone = false) :
    ∃ lower', flushToCache base lower c = .ok (c.flushed, lower') ∧ lower'.StandsFor vb v' := by
  obtain ⟨pmmr, hwrite, hpmmr⟩ := hlower.outputPMMR.batchWrite hbase.outputPMMR hc.outputPMMR
  have hflush : flushToCache base lower c = .ok (c.flushed,
      { bestHeader := c.bestHeader
        leafSet := lower.leafSet.applyUpdates c.leafSet.nextLeafIdx c.leafSet.modifiedBytes
        outputPMMR := pmmr
        updates := (lower.writeBatch c.updates c.bestHeader).updates }) := by
    rw [flushToCache, hheader]
    simp only [Bool.false_eq_true, if_false]
    exact bind_of_eq_ok hwrite _
  refine ⟨_, hflush, ?_⟩
  constructor
  · exact hc.bestHeader
  · exact turns_writeBatch hlower.coins hc.coins c.bestHeader
  · change (lower.leafSet.applyUpdates _ _).toLeafSet vb.leafSet = v'.leafSet
    rw [LeafSetCache.toLeafSet_applyUpdates, hlower.leafSet, hc.leafSet]
  · exact hpmmr

end CoinsViewCache

/-! ### Actions written to the database -/

namespace CoinDB

variable {committed coins : FiniteMap P.Hash (UTXO P)} {db : CoinDB P}

omit [MwCrypto P] in
/-- The table after the writes so far. -/
def written (committed : FiniteMap P.Hash (UTXO P)) (db : CoinDB P) : FiniteMap P.Hash (UTXO P) :=
  db.batch.foldl (fun m w => m.set w.1 w.2) committed

/-- Under the id stands the given coin, and if there is one a read finds something. -/
structure Has (committed : FiniteMap P.Hash (UTXO P)) (db : CoinDB P) (id : P.Hash)
    (coin : Option (UTXO P)) : Prop where
  written : (db.written committed).get id = coin
  found : coin ≠ none → db.getUTXO committed id ≠ none

omit [MwCrypto P] in
lemma written_removeUTXO (id : P.Hash) :
    (db.removeUTXO id).written committed = (db.written committed).set id none := by
  simp [written, removeUTXO]

lemma written_addUTXO (utxo : UTXO P) :
    (db.addUTXO utxo).written committed =
      (db.written committed).set utxo.getOutputID (some utxo) := by
  simp [written, addUTXO]

variable {coin : Option (UTXO P)} {id : P.Hash}

omit [MwCrypto P] in
/-- Removing a coin leaves the others. -/
lemma Has.removeUTXO_of_ne {x : P.Hash} (h : Has committed db x coin) (hne : x ≠ id) :
    Has committed (db.removeUTXO id) x coin where
  written := by rw [written_removeUTXO, FiniteMap.get_set_of_ne _ _ hne, h.written]
  found hcoin := by
    have hadded : (db.removeUTXO id).added x = db.added x := update_of_ne hne _ _
    rw [getUTXO, hadded]
    exact h.found hcoin

/-- Adding a coin leaves the others. -/
lemma Has.addUTXO_of_ne {utxo : UTXO P} {x : P.Hash} (h : Has committed db x coin)
    (hne : x ≠ utxo.getOutputID) : Has committed (db.addUTXO utxo) x coin where
  written := by rw [written_addUTXO, FiniteMap.get_set_of_ne _ _ hne, h.written]
  found hcoin := by
    have hadded : (db.addUTXO utxo).added x = db.added x := update_of_ne hne _ _
    rw [getUTXO, hadded]
    exact h.found hcoin

lemma has_addUTXO (utxo : UTXO P) :
    Has committed (db.addUTXO utxo) utxo.getOutputID (some utxo) where
  written := by rw [written_addUTXO, FiniteMap.get_set_self]
  found _ := by simp [getUTXO, addUTXO]

variable {state : P.Hash → Option (UTXO P)}

/-- One action that fits the coin under its id. -/
lemma Has.applyAction {action : CoinAction P} (h : ∀ x, Has committed db x (state x))
    (hreplay : replayAction (state id) action = .ok coin)
    (hkeyed : ∀ utxo, action = some utxo → utxo.getOutputID = id) :
    ∃ db', db.applyAction committed id action = .ok db' ∧
      ∀ x, Has committed db' x (update state id coin x) := by
  cases action with
  | none =>
    cases hstate : state id with
    | none => simp [hstate, replayAction] at hreplay
    | some utxo =>
      obtain rfl : none = coin := by simpa [hstate, replayAction] using hreplay
      obtain ⟨found, hfound⟩ := Option.ne_none_iff_exists'.mp ((h id).found (by simp [hstate]))
      refine ⟨db.removeUTXO id, by simp [CoinDB.applyAction, spendUTXO, hfound], fun x => ?_⟩
      by_cases hx : x = id
      · subst hx
        rw [update_self]
        exact ⟨by rw [written_removeUTXO, FiniteMap.get_set_self], fun hne => absurd rfl hne⟩
      · rw [update_of_ne hx]
        exact (h x).removeUTXO_of_ne hx
  | some utxo =>
    have hid : utxo.getOutputID = id := hkeyed utxo rfl
    have hcoin : some utxo = coin := by
      cases hstate : state id with
      | none => simpa [hstate, replayAction] using hreplay
      | some old => simp [hstate, replayAction] at hreplay
    refine ⟨db.addUTXO utxo, rfl, fun x => ?_⟩
    by_cases hx : x = id
    · rw [hx, update_self, ← hcoin, ← hid]
      exact has_addUTXO utxo
    · rw [update_of_ne hx]
      exact (h x).addUTXO_of_ne (by rwa [hid])

/-- All actions of an id. -/
lemma Has.applyActions {actions : List (CoinAction P)} (h : ∀ x, Has committed db x (state x))
    (hreplay : actions.foldlM replayAction (state id) = .ok coin)
    (hkeyed : ∀ utxo, some utxo ∈ actions → utxo.getOutputID = id) :
    ∃ db', actions.foldlM (CoinDB.applyAction committed id) db = .ok db' ∧
      ∀ x, Has committed db' x (update state id coin x) := by
  induction actions generalizing db state with
  | nil =>
    obtain rfl := Except.ok.inj hreplay
    exact ⟨db, rfl, by simpa using h⟩
  | cons action actions ih =>
    obtain ⟨next, hfirst, hrest⟩ := foldlM_cons_eq_ok.mp hreplay
    obtain ⟨db₁, hdb₁, h₁⟩ := Has.applyAction h hfirst fun utxo heq => hkeyed utxo (by simp [heq])
    obtain ⟨db', hdb', h'⟩ := ih h₁ (by rwa [update_self]) fun utxo hmem =>
      hkeyed utxo (by simp [hmem])
    rw [update_idem] at h'
    exact ⟨db', foldlM_cons_eq_ok.mpr ⟨db₁, hdb₁, hdb'⟩, h'⟩

/-- All actions of a list of ids without repetition. -/
lemma Has.applyAll {l : List (P.Hash × List (CoinAction P))} (coins : FiniteMap P.Hash (UTXO P))
    (hnodup : (l.map Prod.fst).Nodup) (h : ∀ x, Has committed db x (state x))
    (hreplay : ∀ id actions, (id, actions) ∈ l →
      actions.foldlM replayAction (state id) = .ok (coins.get id))
    (hrest : ∀ id, id ∉ l.map Prod.fst → state id = coins.get id)
    (hkeyed : ∀ id actions, (id, actions) ∈ l →
      ∀ utxo, some utxo ∈ actions → utxo.getOutputID = id) :
    ∃ db', l.foldlM (fun db a => a.2.foldlM (CoinDB.applyAction committed a.1) db) db = .ok db' ∧
      ∀ x, Has committed db' x (coins.get x) := by
  induction l generalizing db state with
  | nil =>
    refine ⟨db, rfl, fun x => ?_⟩
    rw [← hrest x (by simp)]
    exact h x
  | cons a l ih =>
    obtain ⟨id, actions⟩ := a
    rw [List.map_cons, List.nodup_cons] at hnodup
    obtain ⟨db₁, hdb₁, h₁⟩ := Has.applyActions h (hreplay id actions (by simp))
      (hkeyed id actions (by simp))
    obtain ⟨db', hdb', h'⟩ := ih hnodup.2 h₁
      (by
        intro x as hmem
        have hx : x ∈ l.map Prod.fst := List.mem_map_of_mem (f := Prod.fst) hmem
        have hne : x ≠ id := fun heq => hnodup.1 (heq ▸ hx)
        rw [update_of_ne hne]
        exact hreplay x as (by simp [hmem]))
      (by
        intro x hx
        by_cases hid : x = id
        · rw [hid, update_self]
        · rw [update_of_ne hid]
          exact hrest x (by simp [hid, hx]))
      fun x as hmem => hkeyed x as (by simp [hmem])
    exact ⟨db', foldlM_cons_eq_ok.mpr ⟨db₁, hdb₁, hdb'⟩, h'⟩

/-- Writing the actions of a cache never misses a coin, and the batch turns the table into the
coins the cache stands for. -/
lemma writeUpdates_eq {updates : CoinsViewUpdates P} (h : updates.Turns committed coins) :
    ∃ db, writeUpdates committed updates = .ok db ∧ db.written committed = coins := by
  have hlookup : ∀ id actions, (id, actions) ∈ updates.actions →
      updates.getActions id = actions := fun id actions hmem =>
    lookup_of_mem updates.nodup hmem
  have hnew : ∀ x, Has committed (new : CoinDB P) x (committed.get x) := fun x =>
    ⟨rfl, fun hne => by simpa [getUTXO, new] using hne⟩
  obtain ⟨db, hwrite, hdb⟩ := Has.applyAll coins updates.nodup hnew
    (by
      intro id actions hmem
      rw [← hlookup id actions hmem]
      exact h.replay id)
    (by
      intro id hid
      have hreplay := h.replay id
      rw [getActions, lookup_of_notMem hid] at hreplay
      simpa [pure, Except.pure] using hreplay)
    (by
      intro id actions hmem utxo hutxo
      rw [← hlookup id actions hmem] at hutxo
      exact h.keyed id utxo hutxo)
  exact ⟨db, hwrite, FiniteMap.ext fun x => (hdb x).written⟩

end CoinDB

/-! ### Flushing into the database -/

/-- The database and the open files hold the given view. -/
structure CoinsViewDB.Stores (st : MwStorage P) (db : CoinsViewDB P) (v : CoinsView P) : Prop where
  bestHeader : db.bestHeader = v.bestHeader
  coins : st.coins = v.utxos
  leafSet : db.leafSet = v.leafSet
  outputPMMR : db.outputPMMR = .open (Mmr.ofLeaves (outputMmrHasher P) v.outputPMMR.leaves).hashes
  leaves : ∀ i a, v.outputPMMR.leaves[i]? = some a → st.leaves.get i = some a

/-- A database that holds a view gives its answers. -/
lemma CoinsViewDB.Stores.answers {st : MwStorage P} {db : CoinsViewDB P} {v : CoinsView P}
    (h : db.Stores st v) : (db.toView st).Answers v where
  bestHeader := h.bestHeader
  getUTXO id := by
    rw [← h.coins]
    rfl
  leafSet := h.leafSet
  outputPMMR := by
    apply PMMR.holds
    · rw [h.outputPMMR]
      exact AppendOnlyFile.contents_load _
    · rw [h.outputPMMR]
      rfl
    · exact h.leaves

omit [MwCrypto P] in
/-- Leaves with consecutive indices are found under their index, and the leaves before them stay. -/
lemma get_write_leaves {D : Type} (ls : List (Leaf D P.Hash)) (first : ℕ) (m : FiniteMap ℕ P.Hash)
    (hls : ∀ i leaf, ls[i]? = some leaf → leaf.leafIndex = first + i) :
    let written := (ls.map fun leaf => (leaf.leafIndex, leaf.data)).foldl
      (fun m w => m.set w.1 (some w.2)) m
    (∀ i, i < first → written.get i = m.get i) ∧
      ∀ i leaf, ls[i]? = some leaf → written.get (first + i) = some leaf.data := by
  induction ls generalizing first m with
  | nil => simp
  | cons leaf ls ih =>
    have hfirst : leaf.leafIndex = first := hls 0 leaf rfl
    obtain ⟨hbefore, hfound⟩ := ih (first + 1) (m.set leaf.leafIndex (some leaf.data))
      (by
        intro i leaf' hleaf'
        rw [hls (i + 1) leaf' hleaf']
        omega)
    rw [List.map_cons, List.foldl_cons]
    constructor
    · intro i hi
      rw [hbefore i (by omega), FiniteMap.get_set_of_ne _ _ (by omega)]
    · intro i leaf' hleaf'
      cases i with
      | zero =>
        obtain rfl : leaf = leaf' := by simpa using hleaf'
        rw [Nat.add_zero, hbefore first (by omega), hfirst, FiniteMap.get_set_self]
      | succ i =>
        rw [show first + (i + 1) = first + 1 + i by omega]
        exact hfound i leaf' hleaf'

/-- Flushing a cache with a best header into the database: everything is written as intended,
except that the hashes are the intended ones exactly if the nodes of the cache continue the file as
those they replace. -/
lemma CoinsViewCache.flushToDB_eq {st : MwStorage P} {db : CoinsViewDB P} {c : CoinsViewCache P}
    {vb v : CoinsView P} (hdb : db.Stores st vb) (hc : c.StandsFor vb v) (hv : v.Synced)
    (hheader : c.bestHeader.isNone = false) :
    ∃ disk batch, c.flushToDB st db = .ok (c.flushed, ⟨v.bestHeader, v.leafSet, .open disk⟩,
        { st with
          leafSetFiles := update st.leafSetFiles (st.fileIndex + 1) (some v.leafSet)
          hashFiles := update st.hashFiles (st.fileIndex + 1) (some disk) }, batch) ∧
      batch.mmrIndex = some (st.fileIndex + 1) ∧
      (st.write batch).coins = v.utxos ∧
      (∀ i a, v.outputPMMR.leaves[i]? = some a → (st.write batch).leaves.get i = some a) ∧
      disk.length = (Mmr.ofLeaves (outputMmrHasher P) v.outputPMMR.leaves).hashes.length ∧
      (disk = (Mmr.ofLeaves (outputMmrHasher P) v.outputPMMR.leaves).hashes ↔
        c.outputPMMR.nodes <+:
          db.outputPMMR.hashFile.disk.drop (leafPosition c.outputPMMR.firstLeaf) ++
            c.outputPMMR.nodes) := by
  obtain ⟨coinDB, hwrite, hcoins⟩ := CoinDB.writeUpdates_eq hc.coins
  obtain ⟨disk, hpmmr, hlen, hiff⟩ := PMMR.exists_batchWrite_eq hc.outputPMMR
  have hleafSet : db.leafSet.applyUpdates c.leafSet.nextLeafIdx c.leafSet.modifiedBytes =
      v.leafSet := by
    rw [hdb.leafSet, LeafSet.applyUpdates_eq (by rw [hc.leafSet]; exact hv.inRange), hc.leafSet]
  have hdisk : db.outputPMMR.hashFile.disk =
      (Mmr.ofLeaves (outputMmrHasher P) vb.outputPMMR.leaves).hashes := by
    rw [hdb.outputPMMR]
    rfl
  refine ⟨disk, ⟨coinDB.batch, c.outputPMMR.leaves.map fun leaf => (leaf.leafIndex, leaf.data),
    some (st.fileIndex + 1)⟩, ?_, rfl, ?_, ?_, hlen, ?_⟩
  · rw [flushToDB, hheader, hdb.coins]
    simp only [Bool.false_eq_true, if_false]
    refine (bind_of_eq_ok hwrite _).trans ?_
    rw [hdb.outputPMMR]
    refine (bind_of_eq_ok hpmmr _).trans ?_
    rw [hleafSet, hc.bestHeader]
    rfl
  · rw [← hcoins, ← hdb.coins]
    rfl
  · obtain ⟨hbefore, hfound⟩ := get_write_leaves c.outputPMMR.leaves c.outputPMMR.firstLeaf
      st.leaves hc.outputPMMR.leafIndex
    intro i a ha
    by_cases hi : i < c.outputPMMR.firstLeaf
    · refine (hbefore i hi).trans (hdb.leaves i a ?_)
      rw [← ha, ← List.getElem?_take_of_lt hi, ← hc.outputPMMR.take_firstLeaf,
        List.getElem?_take_of_lt hi]
    · have hlen : (vb.outputPMMR.leaves.take c.outputPMMR.firstLeaf).length =
          c.outputPMMR.firstLeaf := by
        rw [List.length_take, Nat.min_eq_left hc.outputPMMR.first_le]
      rw [hc.outputPMMR.leaves_eq, List.getElem?_append_right (by omega), hlen,
        List.getElem?_map] at ha
      obtain ⟨leaf, hleaf, rfl⟩ := Option.map_eq_some_iff.mp ha
      have := hfound _ leaf hleaf
      rwa [show c.outputPMMR.firstLeaf + (i - c.outputPMMR.firstLeaf) = i by omega] at this
  · rw [hdisk]
    exact hiff

end Mw

end Aegisum
