import Mathlib.Data.Finset.Insert
import Aegisum.Foundations.Indexes
import Aegisum.Node.Mempool
import Aegisum.Node.TemplateHogEx

/-!
# Orphan transactions

Transactions whose inputs are not known yet wait in a pool of bounded size.  The pool is a map by
transaction id with three indexes: by the outputs that are spent, by witness id, and a vector from
which a random entry can be evicted.  An index that does not know an entry, or a position that is
not the entry's, is a fault of the program: the model ends there with a `Fault`.

The containers hold iterators of the map; they are modelled by the keys.  The order in which the
map and the sets of iterators are run through is left open: every loop takes the arrangement of the
keys as a parameter.
-/

namespace Aegisum

open CTransaction List

variable {P : Primitives}

/-- What must not happen: an index out of range, a failed assertion, the use of a null pointer. -/
inductive Fault where
  | outOfRange
  | assertion
  | nullDereference
deriving DecidableEq

/-- `COrphanTx`. -/
structure COrphanTx (P : Primitives) where
  tx : CTransaction P
  fromPeer : ℤ
  nTimeExpire : ℤ
  listPos : ℕ

/-- The containers of the orphan pool and the time of the next sweep. -/
structure OrphanPool (P : Primitives) where
  mapOrphanTransactions : CellMap P.Hash (COrphanTx P)
  mapOrphanTransactionsByPrev : IndexMap (COutPoint P) P.Hash
  orphansByWtxid : CellMap P.Hash P.Hash
  orphanList : List P.Hash
  nNextSweep : ℤ

/-- `MAX_STANDARD_TX_WEIGHT`. -/
def maxStandardTxWeight : ℕ := 400000

/-- `ORPHAN_TX_EXPIRE_TIME`, in seconds. -/
def orphanTxExpireTime : ℤ := 20 * 60

/-- `ORPHAN_TX_EXPIRE_INTERVAL`, in seconds. -/
def orphanTxExpireInterval : ℤ := 5 * 60

namespace OrphanPool

/-- The pool of a new node. -/
def empty : OrphanPool P := ⟨∅, ∅, ∅, [], 0⟩

variable [NodeCrypto P]

/-- Enter an orphan into the four containers. -/
def storeOrphan (orphan : COrphanTx P) (pool : OrphanPool P) : OrphanPool P :=
  let hash := orphan.tx.getHash
  { pool with
    mapOrphanTransactions := pool.mapOrphanTransactions.insert hash orphan
    orphanList := pool.orphanList ++ [hash]
    -- an entry that is there already stays
    orphansByWtxid := if (pool.orphansByWtxid.lookup orphan.tx.getWitnessHash).isSome
      then pool.orphansByWtxid else pool.orphansByWtxid.insert orphan.tx.getWitnessHash hash
    mapOrphanTransactionsByPrev := (orphan.tx.vin.map CTxIn.prevout).foldl
      (fun m prevout => m.add prevout hash) pool.mapOrphanTransactionsByPrev }

/-- `AddOrphanTx`. -/
def addOrphanTx (nNow : ℤ) (tx : CTransaction P) (peer : ℤ) (pool : OrphanPool P) :
    Bool × OrphanPool P :=
  if (pool.mapOrphanTransactions.lookup tx.getHash).isSome then (false, pool)
  -- ignore big transactions
  else if getTransactionWeight tx > maxStandardTxWeight then (false, pool)
  else (true, pool.storeOrphan ⟨tx, peer, nNow + orphanTxExpireTime, pool.orphanList.length⟩)

/-- `EraseOrphanTx`.  Unless it is the last one, the entry's position is taken by the last
entry. -/
def eraseOrphanTx (hash : P.Hash) (pool : OrphanPool P) : Except Fault (OrphanPool P) :=
  match pool.mapOrphanTransactions.lookup hash with
  | none => .ok pool
  | some orphan =>
    let byPrev := (orphan.tx.vin.map CTxIn.prevout).foldl
      (fun m prevout => m.remove prevout hash) pool.mapOrphanTransactionsByPrev
    let byWtxid := pool.orphansByWtxid.erase orphan.tx.getWitnessHash
    match pool.orphanList[orphan.listPos]?, pool.orphanList.getLast? with
    | some found, some last =>
      if found ≠ hash then .error .assertion
      else if orphan.listPos + 1 = pool.orphanList.length then
        .ok ⟨pool.mapOrphanTransactions.erase hash, byPrev, byWtxid, pool.orphanList.dropLast,
          pool.nNextSweep⟩
      else match pool.mapOrphanTransactions.lookup last with
        | none => .error .nullDereference
        | some lastOrphan =>
          let moved := pool.mapOrphanTransactions.insert last
            { lastOrphan with listPos := orphan.listPos }
          .ok ⟨moved.erase hash, byPrev, byWtxid,
            swapRemove pool.orphanList orphan.listPos last, pool.nNextSweep⟩
    | _, _ => .error .outOfRange

/-- The keys of the map. -/
def hashes (pool : OrphanPool P) : List P.Hash := pool.mapOrphanTransactions.keys

/-- One entry of the loop in `EraseOrphansFor`. -/
def eraseIfFrom (peer : ℤ) (pool : OrphanPool P) (hash : P.Hash) : Except Fault (OrphanPool P) :=
  match pool.mapOrphanTransactions.lookup hash with
  | none => .ok pool
  | some orphan => if orphan.fromPeer = peer then pool.eraseOrphanTx orphan.tx.getHash else .ok pool

/-- `EraseOrphansFor`. -/
def eraseOrphansFor (arrange : List P.Hash → List P.Hash) (peer : ℤ) (pool : OrphanPool P) :
    Except Fault (OrphanPool P) :=
  (arrange pool.hashes).foldlM (eraseIfFrom peer) pool

/-- One entry of the sweep in `LimitOrphanTxSize`; the second component is the earliest time of
expiry. -/
def sweepStep (nNow : ℤ) (s : OrphanPool P × ℤ) (hash : P.Hash) :
    Except Fault (OrphanPool P × ℤ) :=
  match s.1.mapOrphanTransactions.lookup hash with
  | none => .ok s
  | some orphan =>
    if orphan.nTimeExpire ≤ nNow then do
      let pool ← s.1.eraseOrphanTx orphan.tx.getHash
      .ok (pool, s.2)
    else .ok (s.1, min orphan.nTimeExpire s.2)

/-- The eviction of random entries.  The size of the vector goes down with each step, so one
choice for every size covers all random sequences. -/
def evictLoop (choice : ℕ → ℕ) (nMaxOrphans : ℕ) : ℕ → OrphanPool P → Except Fault (OrphanPool P)
  | 0, _ => .error .assertion
  | fuel + 1, pool =>
    if pool.hashes.length ≤ nMaxOrphans then .ok pool
    else match pool.orphanList[choice pool.orphanList.length % pool.orphanList.length]? with
      | none => .error .outOfRange
      | some hash => do
        let pool ← pool.eraseOrphanTx hash
        evictLoop choice nMaxOrphans fuel pool

/-- `LimitOrphanTxSize`. -/
def limitOrphanTxSize (arrange : List P.Hash → List P.Hash) (choice : ℕ → ℕ) (nNow : ℤ)
    (nMaxOrphans : ℕ) (pool : OrphanPool P) : Except Fault (OrphanPool P) := do
  let swept ←
    if pool.nNextSweep ≤ nNow then do
      let (pool, nMinExpTime) ← (arrange pool.hashes).foldlM (sweepStep nNow)
        (pool, nNow + orphanTxExpireTime - orphanTxExpireInterval)
      .ok { pool with nNextSweep := nMinExpTime + orphanTxExpireInterval }
    else .ok pool
  evictLoop choice nMaxOrphans (swept.hashes.length + 1) swept

/-- The orphans that a block includes or precludes. -/
def orphansOfBlock (b : CBlock P) (pool : OrphanPool P) : List P.Hash :=
  b.vtx.flatMap fun tx => tx.vin.flatMap fun txin =>
    pool.mapOrphanTransactionsByPrev.members txin.prevout

/-- What `BlockConnected` does to the orphan pool. -/
def blockConnected (arrange : List P.Hash → List P.Hash) (b : CBlock P) (pool : OrphanPool P) :
    Except Fault (OrphanPool P) :=
  (arrange (pool.orphansOfBlock b)).foldlM (fun pool hash => pool.eraseOrphanTx hash) pool

omit [NodeCrypto P] in
/-- Put the orphans that spend an output of an accepted transaction on the work set. -/
def putOnWorkSet (pool : OrphanPool P) (hash : P.Hash) (outputs : ℕ) (workSet : Finset P.Hash) :
    Finset P.Hash :=
  (List.range outputs).foldl (fun workSet i =>
    (pool.mapOrphanTransactionsByPrev.members ⟨hash, i⟩).foldl (fun workSet orphan =>
      insert orphan workSet) workSet) workSet

/-! ### Consistency -/

/-- The transaction stored under a hash. -/
def orphan? (pool : OrphanPool P) (hash : P.Hash) : Option (CTransaction P) :=
  (pool.mapOrphanTransactions.lookup hash).map COrphanTx.tx

/-- The position that an entry knows. -/
def position (pool : OrphanPool P) (hash : P.Hash) : Option ℕ :=
  (pool.mapOrphanTransactions.lookup hash).map COrphanTx.listPos

/-- The four containers agree. -/
structure Consistent (pool : OrphanPool P) : Prop where
  hash_eq : ∀ hash tx, pool.orphan? hash = some tx → tx.getHash = hash
  indexed : Indexed pool.orphanList pool.position
  byWtxid : ∀ wtxid hash, pool.orphansByWtxid.lookup wtxid = some hash ↔
    ∃ tx, pool.orphan? hash = some tx ∧ tx.getWitnessHash = wtxid
  byPrev : ∀ prevout hash, hash ∈ pool.mapOrphanTransactionsByPrev.members prevout ↔
    ∃ tx, pool.orphan? hash = some tx ∧ prevout ∈ tx.vin.map CTxIn.prevout
  noEmpty : pool.mapOrphanTransactionsByPrev.NoEmpty

variable {tx : CTransaction P} {pool : OrphanPool P} {hash : P.Hash}

omit [NodeCrypto P] in
lemma orphan?_eq_some_iff :
    pool.orphan? hash = some tx ↔
      ∃ orphan, pool.mapOrphanTransactions.lookup hash = some orphan ∧ orphan.tx = tx := by
  rw [orphan?, Option.map_eq_some_iff]

lemma consistent_empty : (empty : OrphanPool P).Consistent where
  hash_eq := nofun
  indexed := .nil fun _ => rfl
  byWtxid wtxid hash := ⟨nofun, fun ⟨_, h, _⟩ => by cases h⟩
  byPrev prevout hash := ⟨nofun, fun ⟨_, h, _⟩ => by cases h⟩
  noEmpty := nofun

/-- Transactions with the same witness id have the same id. -/
def WtxidsFaithful (P : Primitives) [NodeCrypto P] : Prop :=
  ∀ tx tx' : CTransaction P, tx.getWitnessHash = tx'.getWitnessHash → tx.getHash = tx'.getHash

/-- A new entry. -/
lemma Consistent.storeOrphan (h : pool.Consistent) (hids : WtxidsFaithful P) {orphan : COrphanTx P}
    (hnew : pool.mapOrphanTransactions.lookup orphan.tx.getHash = none)
    (hpos : orphan.listPos = pool.orphanList.length) : (pool.storeOrphan orphan).Consistent := by
  have hnone : pool.orphan? orphan.tx.getHash = none := by rw [orphan?, hnew]; rfl
  have hself : (pool.storeOrphan orphan).orphan? orphan.tx.getHash = some orphan.tx := by
    rw [orphan?, OrphanPool.storeOrphan, AList.lookup_insert, Option.map_some]
  have hother : ∀ hash ≠ orphan.tx.getHash,
      (pool.storeOrphan orphan).orphan? hash = pool.orphan? hash := fun hash hne => by
    rw [orphan?, OrphanPool.storeOrphan, AList.lookup_insert_ne hne, orphan?]
  -- no stored transaction has the witness id of the new one
  have hwtxid : pool.orphansByWtxid.lookup orphan.tx.getWitnessHash = none := by
    by_contra hsome
    obtain ⟨hash, hlookup⟩ := Option.ne_none_iff_exists'.mp hsome
    obtain ⟨tx', htx', hsame⟩ := (h.byWtxid _ _).mp hlookup
    rw [← hids tx' orphan.tx hsame, h.hash_eq hash tx' htx', htx'] at hnone
    cases hnone
  have hcases : ∀ (hash : P.Hash) (Q : CTransaction P → Prop),
      (∃ tx', (pool.storeOrphan orphan).orphan? hash = some tx' ∧ Q tx') ↔
        hash = orphan.tx.getHash ∧ Q orphan.tx ∨ ∃ tx', pool.orphan? hash = some tx' ∧ Q tx' := by
    intro hash Q
    by_cases hhash : hash = orphan.tx.getHash
    · rw [hhash, hself, hnone]
      simp
    · rw [hother hash hhash]
      simp [hhash]
  refine ⟨fun hash tx' htx' => ?_, ?_, fun wtxid hash => ?_, fun prevout hash => ?_, ?_⟩
  · by_cases hhash : hash = orphan.tx.getHash
    · rw [hhash, hself] at htx'
      rw [hhash, ← Option.some.inj htx']
    · rw [hother hash hhash] at htx'
      exact h.hash_eq hash tx' htx'
  · refine h.indexed.push ?_ ?_ fun hash hne => ?_
    · rw [position, hnew]
      rfl
    · rw [position, OrphanPool.storeOrphan, AList.lookup_insert, Option.map_some, hpos]
    · rw [position, OrphanPool.storeOrphan, AList.lookup_insert_ne hne, position]
  · rw [hcases hash fun tx' => tx'.getWitnessHash = wtxid, ← h.byWtxid, OrphanPool.storeOrphan]
    simp only [hwtxid, Option.isSome_none, Bool.false_eq_true, if_false]
    by_cases hw : wtxid = orphan.tx.getWitnessHash
    · rw [hw, AList.lookup_insert, hwtxid]
      simp [eq_comm]
    · rw [AList.lookup_insert_ne hw]
      simp [Ne.symm hw]
  · rw [hcases hash fun tx' => prevout ∈ tx'.vin.map CTxIn.prevout, ← h.byPrev,
      OrphanPool.storeOrphan, IndexMap.mem_members_foldl_add]
    tauto
  · exact h.noEmpty.foldl_add _ _

/-- A new entry is the only one that is added. -/
lemma orphan?_addOrphanTx {nNow : ℤ} {tx' : CTransaction P} {peer : ℤ}
    (h : (pool.addOrphanTx nNow tx peer).2.orphan? hash = some tx') :
    tx' = tx ∨ pool.orphan? hash = some tx' := by
  rw [OrphanPool.addOrphanTx] at h
  split_ifs at h
  · exact .inr h
  · exact .inr h
  · rw [OrphanPool.storeOrphan, orphan?] at h
    by_cases hhash : hash = tx.getHash
    · rw [hhash, AList.lookup_insert] at h
      exact .inl (Option.some.inj h).symm
    · rw [AList.lookup_insert_ne hhash] at h
      exact .inr h

lemma Consistent.addOrphanTx (h : pool.Consistent) (hids : WtxidsFaithful P) (nNow : ℤ)
    (tx : CTransaction P) (peer : ℤ) : (pool.addOrphanTx nNow tx peer).2.Consistent := by
  rw [OrphanPool.addOrphanTx]
  split_ifs with hnew hweight
  · exact h
  · exact h
  · exact h.storeOrphan hids (by simpa using hnew) rfl

/-- The vector has one place for each entry. -/
lemma Consistent.length_orphanList (h : pool.Consistent) :
    pool.orphanList.length = pool.hashes.length := by
  have hmem : ∀ hash, hash ∈ pool.orphanList ↔ hash ∈ pool.hashes := by
    intro hash
    rw [hashes, ← AList.mem_keys, ← AList.lookup_isSome, mem_iff_getElem?]
    simp only [← h.indexed hash, position]
    cases pool.mapOrphanTransactions.lookup hash <;> simp
  have hnodup : pool.orphanList.Nodup := by
    rw [nodup_iff_getElem?_ne_getElem?]
    intro i j hij hj heq
    have hhash := getElem?_eq_getElem hj
    have hi := (h.indexed _ i).mpr (heq.trans hhash)
    rw [(h.indexed _ j).mpr hhash] at hi
    exact hij.ne (Option.some.inj hi).symm
  exact ((perm_ext_iff_of_nodup hnodup pool.mapOrphanTransactions.keys_nodup).mpr hmem).length_eq

/-- The indexes after an entry was removed. -/
lemma Consistent.removed {pool' : OrphanPool P} (h : pool.Consistent) (hids : WtxidsFaithful P)
    (htx : pool.orphan? hash = some tx) (hself : pool'.orphan? hash = none)
    (hother : ∀ hash' ≠ hash, pool'.orphan? hash' = pool.orphan? hash')
    (hindexed : Indexed pool'.orphanList pool'.position)
    (hwtxid : pool'.orphansByWtxid = pool.orphansByWtxid.erase tx.getWitnessHash)
    (hprev : pool'.mapOrphanTransactionsByPrev = (tx.vin.map CTxIn.prevout).foldl
      (fun m prevout => m.remove prevout hash) pool.mapOrphanTransactionsByPrev) :
    pool'.Consistent := by
  have hcases : ∀ (hash' : P.Hash) (Q : CTransaction P → Prop),
      (∃ tx', pool'.orphan? hash' = some tx' ∧ Q tx') ↔
        hash' ≠ hash ∧ ∃ tx', pool.orphan? hash' = some tx' ∧ Q tx' := by
    intro hash' Q
    by_cases hhash : hash' = hash
    · rw [hhash, hself]
      simp
    · rw [hother hash' hhash]
      simp [hhash]
  refine ⟨fun hash' tx' htx' => ?_, hindexed, fun wtxid hash' => ?_, fun prevout hash' => ?_, ?_⟩
  · by_cases hhash : hash' = hash
    · rw [hhash, hself] at htx'
      cases htx'
    · rw [hother hash' hhash] at htx'
      exact h.hash_eq hash' tx' htx'
  · rw [hcases hash' fun tx' => tx'.getWitnessHash = wtxid, ← h.byWtxid, hwtxid]
    by_cases hw : wtxid = tx.getWitnessHash
    · rw [hw, AList.lookup_erase]
      refine ⟨nofun, fun ⟨hne, hlookup⟩ => ?_⟩
      -- an entry with the same witness id has the same id
      obtain ⟨tx', htx', hsame⟩ := (h.byWtxid _ _).mp hlookup
      refine absurd ?_ hne
      rw [← h.hash_eq hash' tx' htx', hids tx' tx hsame, h.hash_eq hash tx htx]
    · rw [AList.lookup_erase_ne hw]
      refine ⟨fun hlookup => ⟨?_, hlookup⟩, fun hlookup => hlookup.2⟩
      rintro rfl
      obtain ⟨tx', htx', hsame⟩ := (h.byWtxid _ _).mp hlookup
      rw [htx] at htx'
      exact hw (by rw [Option.some.inj htx', hsame])
  · rw [hcases hash' fun tx' => prevout ∈ tx'.vin.map CTxIn.prevout, ← h.byPrev, hprev,
      IndexMap.mem_members_foldl_remove h.noEmpty]
    refine ⟨fun ⟨hmem, hnot⟩ => ⟨?_, hmem⟩, fun ⟨hne, hmem⟩ => ⟨hmem, fun hself => hne hself.2⟩⟩
    rintro rfl
    obtain ⟨tx', htx', hin⟩ := (h.byPrev _ _).mp hmem
    rw [htx] at htx'
    obtain rfl := Option.some.inj htx'
    exact hnot ⟨hin, rfl⟩
  · rw [hprev]
    exact h.noEmpty.foldl_remove _ _

/-- The pool after an entry was removed, if it was there. -/
structure Erased (hash : P.Hash) (pool pool' : OrphanPool P) : Prop where
  consistent : pool'.Consistent
  orphan? : ∀ hash', pool'.orphan? hash' = if hash' = hash then none else pool.orphan? hash'
  length : (pool.orphan? hash).isSome → pool'.orphanList.length + 1 = pool.orphanList.length

omit [NodeCrypto P] in
/-- The pool has only entries of the other one. -/
def Within (pool' pool : OrphanPool P) : Prop :=
  ∀ hash tx, pool'.orphan? hash = some tx → pool.orphan? hash = some tx

omit [NodeCrypto P] in
lemma Within.trans {pool₂ pool₁ : OrphanPool P} (h₂ : pool₂.Within pool₁) (h₁ : pool₁.Within pool) :
    pool₂.Within pool :=
  fun hash tx htx => h₁ hash tx (h₂ hash tx htx)

lemma Erased.within {pool' : OrphanPool P} (h : pool.Erased hash pool') : pool'.Within pool := by
  intro hash' tx htx
  rw [h.orphan? hash'] at htx
  split_ifs at htx
  exact htx

section

variable (h : pool.Consistent) (hids : WtxidsFaithful P)

include h hids

/-- Removing an entry fails in no consistent pool, and leaves the other entries. -/
lemma Consistent.exists_eraseOrphanTx (hash : P.Hash) :
    ∃ pool', pool.eraseOrphanTx hash = .ok pool' ∧ pool.Erased hash pool' := by
  cases hlookup : pool.mapOrphanTransactions.lookup hash with
  | none =>
    have hnone : pool.orphan? hash = none := by rw [orphan?, hlookup]; rfl
    refine ⟨pool, by rw [eraseOrphanTx, hlookup], h, fun hash' => ?_, by simp [hnone]⟩
    split_ifs with heq
    · rw [heq, hnone]
    · rfl
  | some orphan =>
    have hsome : pool.orphan? hash = some orphan.tx := by rw [orphan?, hlookup]; rfl
    have hfound : pool.orphanList[orphan.listPos]? = some hash :=
      (h.indexed hash _).mp (by rw [position, hlookup]; rfl)
    obtain ⟨hlt, -⟩ := List.getElem?_eq_some_iff.mp hfound
    have hne : pool.orphanList ≠ [] := by
      rintro heq
      simp [heq] at hlt
    have hlast := List.getLast?_eq_some_getLast hne
    generalize pool.orphanList.getLast hne = last at hlast
    rw [eraseOrphanTx, hlookup]
    simp only [hfound, hlast, ne_eq, not_true, if_false]
    -- the last entry is in the map
    obtain ⟨lastOrphan, hlastLookup⟩ : ∃ lastOrphan,
        pool.mapOrphanTransactions.lookup last = some lastOrphan := by
      have hend : pool.orphanList[pool.orphanList.length - 1]? = some last := by
        rw [← List.getLast?_eq_getElem?, hlast]
      have hpos := (h.indexed last _).mpr hend
      rw [position, Option.map_eq_some_iff] at hpos
      exact ⟨_, hpos.choose_spec.1⟩
    -- in both cases the last entry takes the place of the removed one
    have hdone : ∀ m' : CellMap P.Hash (COrphanTx P), m'.lookup hash = none →
        (∀ hash' ≠ hash, (m'.lookup hash').map COrphanTx.tx = pool.orphan? hash') →
        (last ≠ hash → (m'.lookup last).map COrphanTx.listPos = some orphan.listPos) →
        (∀ hash' ≠ hash, hash' ≠ last → (m'.lookup hash').map COrphanTx.listPos =
          pool.position hash') →
        pool.Erased hash ⟨m', (orphan.tx.vin.map CTxIn.prevout).foldl
          (fun m prevout => m.remove prevout hash) pool.mapOrphanTransactionsByPrev,
          pool.orphansByWtxid.erase orphan.tx.getWitnessHash,
          swapRemove pool.orphanList orphan.listPos last, pool.nNextSweep⟩ := by
      intro m' hself htxs hmoved hothers
      refine ⟨h.removed hids hsome ?_ htxs ?_ rfl rfl, fun hash' => ?_, fun _ => ?_⟩
      · rw [orphan?, hself]
        rfl
      · refine h.indexed.swapRemove hfound hlast ?_ hmoved hothers
        rw [position, hself]
        rfl
      · split_ifs with heq
        · rw [heq, OrphanPool.orphan?, hself]
          rfl
        · exact htxs hash' heq
      · simp only [swapRemove, List.length_dropLast, List.length_set]
        omega
    split_ifs with hend
    · -- the removed entry is the last one itself
      obtain rfl : last = hash := by
        rw [List.getLast?_eq_getElem?, ← hend, Nat.add_sub_cancel, hfound] at hlast
        exact (Option.some.inj hlast).symm
      have hset : pool.orphanList.dropLast =
          swapRemove pool.orphanList orphan.listPos last := by
        obtain ⟨_, hget⟩ := List.getElem?_eq_some_iff.mp hfound
        rw [swapRemove, show last = pool.orphanList[orphan.listPos] from hget.symm,
          List.set_getElem_self]
      rw [hset]
      refine ⟨_, rfl, hdone _ (AList.lookup_erase _ _) (fun hash' hne => ?_)
        (fun hne => absurd rfl hne) fun hash' hne _ => ?_⟩
      · rw [AList.lookup_erase_ne hne, orphan?]
      · rw [AList.lookup_erase_ne hne, position]
    · simp only [hlastLookup]
      refine ⟨_, rfl, hdone _ (AList.lookup_erase _ _) (fun hash' hne => ?_)
        (fun hdifferent => ?_) fun hash' hne hnl => ?_⟩
      · rw [AList.lookup_erase_ne hne]
        by_cases hl : hash' = last
        · rw [hl, AList.lookup_insert, orphan?, hlastLookup]
          rfl
        · rw [AList.lookup_insert_ne hl, orphan?]
      · rw [AList.lookup_erase_ne hdifferent, AList.lookup_insert]
        rfl
      · rw [AList.lookup_erase_ne hne, AList.lookup_insert_ne hnl, position]

lemma Consistent.exists_eraseOrphansFor (arrange : List P.Hash → List P.Hash) (peer : ℤ) :
    ∃ pool', pool.eraseOrphansFor arrange peer = .ok pool' ∧ pool'.Consistent := by
  refine exists_foldlM (fun hash _ pool h => ?_) h
  rw [eraseIfFrom]
  cases pool.mapOrphanTransactions.lookup hash with
  | none => exact ⟨pool, rfl, h⟩
  | some orphan =>
    dsimp only
    split_ifs with hpeer
    · obtain ⟨pool', hok, h'⟩ := h.exists_eraseOrphanTx hids orphan.tx.getHash
      exact ⟨pool', hok, h'.consistent⟩
    · exact ⟨pool, rfl, h⟩

lemma Consistent.exists_blockConnected (arrange : List P.Hash → List P.Hash) (b : CBlock P) :
    ∃ pool', pool.blockConnected arrange b = .ok pool' ∧ pool'.Consistent := by
  refine exists_foldlM (fun hash _ pool h => ?_) h
  obtain ⟨pool', hok, h'⟩ := h.exists_eraseOrphanTx hids hash
  exact ⟨pool', hok, h'.consistent⟩

lemma Consistent.exists_sweep (nNow nMinExpTime : ℤ) (order : List P.Hash) :
    ∃ s, order.foldlM (sweepStep nNow) (pool, nMinExpTime) = .ok s ∧ s.1.Consistent ∧
      s.1.Within pool := by
  refine exists_foldlM (I := fun s : OrphanPool P × ℤ => s.1.Consistent ∧ s.1.Within pool) ?_
    ⟨h, fun _ _ htx => htx⟩
  rintro hash - ⟨pool₁, nMinExpTime₁⟩ ⟨h₁, hwithin⟩
  rw [sweepStep]
  cases pool₁.mapOrphanTransactions.lookup hash with
  | none => exact ⟨_, rfl, h₁, hwithin⟩
  | some orphan =>
    dsimp only
    split_ifs with hexpired
    · obtain ⟨pool', hok, h'⟩ := h₁.exists_eraseOrphanTx hids orphan.tx.getHash
      exact ⟨_, bind_of_eq_ok hok _, h'.consistent, h'.within.trans hwithin⟩
    · exact ⟨_, rfl, h₁, hwithin⟩

/-- The eviction ends with a pool that is small enough. -/
lemma Consistent.exists_evictLoop (choice : ℕ → ℕ) (nMaxOrphans : ℕ) {fuel : ℕ}
    (hfuel : pool.hashes.length < fuel) :
    ∃ pool', evictLoop choice nMaxOrphans fuel pool = .ok pool' ∧ pool'.Consistent ∧
      pool'.Within pool ∧ pool'.hashes.length ≤ nMaxOrphans := by
  induction fuel generalizing pool with
  | zero => omega
  | succ fuel ih =>
    rw [evictLoop]
    split_ifs with hsmall
    · exact ⟨pool, rfl, h, fun _ _ htx => htx, hsmall⟩
    · have hpos : 0 < pool.orphanList.length := by
        rw [h.length_orphanList]
        omega
      obtain ⟨hash, hget⟩ : ∃ hash, pool.orphanList[choice pool.orphanList.length %
          pool.orphanList.length]? = some hash :=
        ⟨_, getElem?_eq_getElem (Nat.mod_lt (choice pool.orphanList.length) hpos)⟩
      simp only [hget]
      obtain ⟨pool₁, hok, h₁⟩ := h.exists_eraseOrphanTx hids hash
      rw [bind_of_eq_ok hok]
      have hstored : (pool.orphan? hash).isSome = true := by
        have hposition := (h.indexed hash _).mpr hget
        rw [position, Option.map_eq_some_iff] at hposition
        obtain ⟨orphan, hlookup, -⟩ := hposition
        rw [orphan?, hlookup]
        rfl
      have hone := h₁.length hstored
      rw [h.length_orphanList, h₁.consistent.length_orphanList] at hone
      obtain ⟨pool', hrest, h', hwithin, hsize⟩ := ih h₁.consistent (by omega)
      exact ⟨pool', hrest, h', hwithin.trans h₁.within, hsize⟩

lemma Consistent.exists_limitOrphanTxSize (arrange : List P.Hash → List P.Hash) (choice : ℕ → ℕ)
    (nNow : ℤ) (nMaxOrphans : ℕ) :
    ∃ pool', pool.limitOrphanTxSize arrange choice nNow nMaxOrphans = .ok pool' ∧
      pool'.Consistent ∧ pool'.Within pool ∧ pool'.hashes.length ≤ nMaxOrphans := by
  rw [limitOrphanTxSize]
  split_ifs with hsweep
  · obtain ⟨⟨swept, nMinExpTime⟩, hok, hswept, hwithin⟩ := h.exists_sweep hids nNow
      (nNow + orphanTxExpireTime - orphanTxExpireInterval) (arrange pool.hashes)
    rw [bind_of_eq_ok hok]
    have hnext : Consistent { swept with nNextSweep := nMinExpTime + orphanTxExpireInterval } :=
      ⟨hswept.hash_eq, hswept.indexed, hswept.byWtxid, hswept.byPrev, hswept.noEmpty⟩
    obtain ⟨pool', hevict, h', hwithin', hsize⟩ :=
      hnext.exists_evictLoop hids choice nMaxOrphans (Nat.lt_succ_self _)
    exact ⟨pool', hevict, h', hwithin'.trans hwithin, hsize⟩
  · exact h.exists_evictLoop hids choice nMaxOrphans (Nat.lt_succ_self _)

end

omit [NodeCrypto P] in
/-- What is on the work set after a transaction was accepted. -/
lemma mem_putOnWorkSet_iff {outputs : ℕ} {workSet : Finset P.Hash} {orphan : P.Hash} :
    orphan ∈ pool.putOnWorkSet hash outputs workSet ↔ orphan ∈ workSet ∨
      ∃ i < outputs, orphan ∈ pool.mapOrphanTransactionsByPrev.members ⟨hash, i⟩ := by
  have hinner : ∀ (l : List P.Hash) (w : Finset P.Hash),
      orphan ∈ l.foldl (fun w o => insert o w) w ↔ orphan ∈ w ∨ orphan ∈ l := by
    intro l
    induction l with
    | nil => simp
    | cons o l ih =>
      intro w
      rw [foldl_cons, ih, Finset.mem_insert, mem_cons]
      tauto
  have houter : ∀ (l : List ℕ) (w : Finset P.Hash),
      orphan ∈ l.foldl (fun w i => (pool.mapOrphanTransactionsByPrev.members ⟨hash, i⟩).foldl
        (fun w o => insert o w) w) w ↔
        orphan ∈ w ∨ ∃ i ∈ l, orphan ∈ pool.mapOrphanTransactionsByPrev.members ⟨hash, i⟩ := by
    intro l
    induction l with
    | nil => simp
    | cons i l ih =>
      intro w
      rw [foldl_cons, ih, hinner]
      simp only [exists_mem_cons_iff, or_assoc]
  rw [putOnWorkSet, houter]
  simp only [mem_range]

end OrphanPool

/-! ### Runs -/

/-- The orphan pool and the work set of every peer. -/
structure OrphanState (P : Primitives) where
  pool : OrphanPool P
  workSet : ℤ → Finset P.Hash

/-- What can happen to the orphan pool.  Loops over a container run through it in the given
arrangement. -/
inductive OrphanOp (P : Primitives) where
  | addOrphanTx (nNow : ℤ) (tx : CTransaction P) (peer : ℤ)
  | eraseOrphanTx (hash : P.Hash)
  | eraseOrphansFor (arrange : List P.Hash → List P.Hash) (peer : ℤ)
  | limitOrphanTxSize (arrange : List P.Hash → List P.Hash) (choice : ℕ → ℕ) (nNow : ℤ)
      (nMaxOrphans : ℕ)
  | blockConnected (arrange : List P.Hash → List P.Hash) (b : CBlock P)
  /-- A transaction of the peer is accepted to the mempool. -/
  | acceptTx (peer : ℤ) (tx : CTransaction P)
  /-- `ProcessOrphanTx` takes an orphan from the work set and the mempool accepts it. -/
  | acceptOrphan (peer : ℤ) (hash : P.Hash)

namespace OrphanState

variable [NodeCrypto P]

/-- The state of a new node. -/
def empty : OrphanState P := ⟨.empty, fun _ => ∅⟩

/-- The handler of `tx` messages, when the transaction was accepted. -/
def acceptTx (peer : ℤ) (tx : CTransaction P) (s : OrphanState P) : OrphanState P :=
  let workSet := s.pool.putOnWorkSet tx.getHash tx.vout.length (s.workSet peer)
  { s with workSet := Function.update s.workSet peer workSet }

/-- An iteration of `ProcessOrphanTx`, when the orphan is still there and was accepted. -/
def acceptOrphan (peer : ℤ) (hash : P.Hash) (s : OrphanState P) :
    Except Fault (OrphanState P) :=
  let workSet := (s.workSet peer).erase hash
  match s.pool.orphan? hash with
  | none => .ok { s with workSet := Function.update s.workSet peer workSet }
  | some tx => do
    let workSet := s.pool.putOnWorkSet hash tx.vout.length workSet
    let pool ← s.pool.eraseOrphanTx hash
    .ok ⟨pool, Function.update s.workSet peer workSet⟩

/-- One operation. -/
def step (s : OrphanState P) : OrphanOp P → Except Fault (OrphanState P)
  | .addOrphanTx nNow tx peer => .ok { s with pool := (s.pool.addOrphanTx nNow tx peer).2 }
  | .eraseOrphanTx hash => do
    let pool ← s.pool.eraseOrphanTx hash
    .ok { s with pool := pool }
  | .eraseOrphansFor arrange peer => do
    let pool ← s.pool.eraseOrphansFor arrange peer
    .ok { s with pool := pool }
  | .limitOrphanTxSize arrange choice nNow nMaxOrphans => do
    let pool ← s.pool.limitOrphanTxSize arrange choice nNow nMaxOrphans
    .ok { s with pool := pool }
  | .blockConnected arrange b => do
    let pool ← s.pool.blockConnected arrange b
    .ok { s with pool := pool }
  | .acceptTx peer tx => .ok (s.acceptTx peer tx)
  | .acceptOrphan peer hash => s.acceptOrphan peer hash

/-- No operation fails in a consistent pool, and the pool stays consistent. -/
lemma exists_step {s : OrphanState P} (h : s.pool.Consistent) (hids : OrphanPool.WtxidsFaithful P)
    (op : OrphanOp P) : ∃ s', s.step op = .ok s' ∧ s'.pool.Consistent := by
  cases op with
  | addOrphanTx nNow tx peer => exact ⟨_, rfl, h.addOrphanTx hids nNow tx peer⟩
  | eraseOrphanTx hash =>
    obtain ⟨pool, hok, h'⟩ := h.exists_eraseOrphanTx hids hash
    exact ⟨_, bind_of_eq_ok hok _, h'.consistent⟩
  | eraseOrphansFor arrange peer =>
    obtain ⟨pool, hok, h'⟩ := h.exists_eraseOrphansFor hids arrange peer
    exact ⟨_, bind_of_eq_ok hok _, h'⟩
  | limitOrphanTxSize arrange choice nNow nMaxOrphans =>
    obtain ⟨pool, hok, h', -⟩ := h.exists_limitOrphanTxSize hids arrange choice nNow nMaxOrphans
    exact ⟨_, bind_of_eq_ok hok _, h'⟩
  | blockConnected arrange b =>
    obtain ⟨pool, hok, h'⟩ := h.exists_blockConnected hids arrange b
    exact ⟨_, bind_of_eq_ok hok _, h'⟩
  | acceptTx peer tx => exact ⟨_, rfl, h⟩
  | acceptOrphan peer hash =>
    rw [step, acceptOrphan]
    cases s.pool.orphan? hash with
    | none => exact ⟨_, rfl, h⟩
    | some tx =>
      obtain ⟨pool, hok, h'⟩ := h.exists_eraseOrphanTx hids hash
      exact ⟨_, bind_of_eq_ok hok _, h'.consistent⟩

/-- In every run no operation fails, and the pool is consistent. -/
lemma exists_run (hids : OrphanPool.WtxidsFaithful P) (ops : List (OrphanOp P))
    {s : OrphanState P} (h : s.pool.Consistent) :
    ∃ s', ops.foldlM step s = .ok s' ∧ s'.pool.Consistent :=
  exists_foldlM (fun op _ _ h => exists_step h hids op) h

end OrphanState

/-! ### What is reconsidered -/

section Reconsidered

variable [NodeCrypto P]

/-- The transaction spends an output of the other one. -/
def CTransaction.SpendsOutputOf (orphan tx : CTransaction P) : Prop :=
  ∃ index ∈ orphan.getInputs, index ∈ tx.getOutputs

/-- The transaction spends a canonical output of the other one. -/
def CTransaction.SpendsVoutOf (orphan tx : CTransaction P) : Prop :=
  ∃ i < tx.vout.length, ⟨tx.getHash, i⟩ ∈ orphan.vin.map CTxIn.prevout

/-- The transaction spends an MWEB output of the other one. -/
def CTransaction.SpendsMwebOutputOf (orphan tx : CTransaction P) : Prop :=
  ∃ id ∈ orphan.mwebSpentIDs, id ∈ tx.mwebOutputIDs

lemma CTransaction.spendsOutputOf_iff {orphan tx : CTransaction P} :
    orphan.SpendsOutputOf tx ↔ orphan.SpendsVoutOf tx ∨ orphan.SpendsMwebOutputOf tx := by
  constructor
  · rintro ⟨index, hin, hout⟩
    rw [getInputs, mem_append, mem_map, mem_map] at hin
    rw [getOutputs, mem_append, mem_map, mem_map] at hout
    rcases hin with ⟨txin, htxin, rfl⟩ | ⟨id, hid, rfl⟩
    · obtain ⟨n, hn, heq⟩ | ⟨id, -, heq⟩ := hout
      · refine .inl ⟨n, mem_range.mp hn, ?_⟩
        rw [OutputIndex.canonical.inj heq]
        exact mem_map_of_mem htxin
      · cases heq
    · obtain ⟨n, -, heq⟩ | ⟨id', hid', heq⟩ := hout
      · cases heq
      · obtain rfl := OutputIndex.mweb.inj heq
        exact .inr ⟨id', hid, hid'⟩
  · rintro (⟨i, hi, hmem⟩ | ⟨id, hid, hid'⟩)
    · obtain ⟨txin, htxin, heq⟩ := mem_map.mp hmem
      refine ⟨.canonical ⟨tx.getHash, i⟩, ?_, ?_⟩
      · exact mem_append_left _ (mem_map.mpr ⟨txin, htxin, by rw [heq]⟩)
      · exact mem_append_left _ (mem_map.mpr ⟨i, mem_range.mpr hi, rfl⟩)
    · exact ⟨.mweb id, mem_append_right _ (mem_map_of_mem hid),
        mem_append_right _ (mem_map_of_mem hid')⟩

/-- All orphans that spend an output of the transaction are on the work set afterwards exactly if
those that spend only MWEB outputs of it were on it before. -/
lemma OrphanPool.Consistent.all_on_workSet_iff {pool : OrphanPool P} (h : pool.Consistent)
    (tx : CTransaction P) (workSet : Finset P.Hash) :
    (∀ hash orphan, pool.orphan? hash = some orphan → orphan.SpendsOutputOf tx →
      hash ∈ pool.putOnWorkSet tx.getHash tx.vout.length workSet) ↔
    ∀ hash orphan, pool.orphan? hash = some orphan → orphan.SpendsMwebOutputOf tx →
      orphan.SpendsVoutOf tx ∨ hash ∈ workSet := by
  have hmem : ∀ hash orphan, pool.orphan? hash = some orphan →
      (hash ∈ pool.putOnWorkSet tx.getHash tx.vout.length workSet ↔
        hash ∈ workSet ∨ orphan.SpendsVoutOf tx) := by
    intro hash orphan horphan
    rw [OrphanPool.mem_putOnWorkSet_iff]
    refine or_congr_right (exists_congr fun i => and_congr_right fun _ => ?_)
    rw [h.byPrev, horphan]
    simp
  refine forall₂_congr fun hash orphan => forall_congr' fun horphan => ?_
  rw [hmem hash orphan horphan, spendsOutputOf_iff]
  tauto

/-- A witness id determines the id when hashes do not collide. -/
lemma OrphanPool.wtxidsFaithful (hinj : TxHashInjective P)
    (hkernel : ∀ (k : Mw.Kernel P) t, k.getKernelID ≠ NodeCrypto.txHash t) :
    OrphanPool.WtxidsFaithful P := by
  -- a transaction with a witness is identified by its base serialization
  have hbase : ∀ t : CTransaction P, t.hasWitness = true →
      t.getHash = NodeCrypto.txHash t.basePreimage := by
    intro t ht
    have hvin : t.vin ≠ [] := by
      rintro hnil
      simp [hasWitness, hnil] at ht
    simp [getHash, isMWEBOnly, hvin]
  have hmixed : ∀ t t' : CTransaction P, NodeCrypto.txHash t.witnessPreimage ≠ t'.getHash := by
    intro t t' heq
    unfold getHash at heq
    split at heq
    case h_1 k _ => exact hkernel k _ heq.symm
    case h_2 => cases congrArg TxPreimage.witness (hinj heq)
  intro tx tx' heq
  unfold getWitnessHash at heq
  split_ifs at heq with hw hw' hw'
  · rw [hbase tx hw, hbase tx' hw']
    exact congrArg (fun t : TxPreimage P => NodeCrypto.txHash { t with witness := none }) (hinj heq)
  · exact absurd heq (hmixed tx tx')
  · exact absurd heq.symm (hmixed tx' tx)
  · exact heq

/-- In every run no operation fails and the containers of the orphan pool agree.  When a
transaction of a peer or an orphan is accepted in the state that was reached, all orphans that
spend an output of it are on the work set afterwards exactly if every orphan that spends an MWEB
output of it spends a canonical output of it too, or was on the work set already. -/
theorem orphans_reconsidered_iff (hinj : Function.Injective (NodeCrypto.txHash (P := P)))
    (hkernel : ∀ (k : Mw.Kernel P) t, k.getKernelID ≠ NodeCrypto.txHash t)
    (ops : List (OrphanOp P)) :
    ∃ s, ops.foldlM OrphanState.step .empty = .ok s ∧ s.pool.Consistent ∧
      (∀ peer tx,
        (∀ hash orphan, s.pool.orphan? hash = some orphan → orphan.SpendsOutputOf tx →
          hash ∈ (s.acceptTx peer tx).workSet peer) ↔
        ∀ hash orphan, s.pool.orphan? hash = some orphan → orphan.SpendsMwebOutputOf tx →
          orphan.SpendsVoutOf tx ∨ hash ∈ s.workSet peer) ∧
      ∀ peer accepted tx, s.pool.orphan? accepted = some tx →
        ∃ s', s.acceptOrphan peer accepted = .ok s' ∧
          ((∀ hash orphan, s.pool.orphan? hash = some orphan → orphan.SpendsOutputOf tx →
            hash ∈ s'.workSet peer) ↔
          ∀ hash orphan, s.pool.orphan? hash = some orphan → orphan.SpendsMwebOutputOf tx →
            orphan.SpendsVoutOf tx ∨ hash ∈ (s.workSet peer).erase accepted) := by
  have hids := OrphanPool.wtxidsFaithful hinj hkernel
  obtain ⟨s, hrun, h⟩ := OrphanState.exists_run hids ops
    (show (OrphanState.empty : OrphanState P).pool.Consistent from OrphanPool.consistent_empty)
  refine ⟨s, hrun, h, fun peer tx => ?_, fun peer accepted tx htx => ?_⟩
  · simp only [OrphanState.acceptTx, Function.update_self]
    exact h.all_on_workSet_iff tx (s.workSet peer)
  · obtain ⟨pool, hok, -⟩ := h.exists_eraseOrphanTx hids accepted
    rw [OrphanState.acceptOrphan, htx]
    refine ⟨_, bind_of_eq_ok hok _, ?_⟩
    simp only [Function.update_self]
    rw [← h.hash_eq accepted tx htx]
    exact h.all_on_workSet_iff tx _

end Reconsidered

namespace Symbolic

/-- A transaction with a peg-in output and the MWEB transaction that mints the coin. -/
def mintingParent : CTransaction sym :=
  { spend [⟨.word 1, 0⟩] [⟨10, .mwebPegin mintKernel.getKernelID⟩] with
    mwebTx := some mintTx
    hogEx_wf := nofun }

/-- A transaction that spends the canonical output. -/
def voutChild : CTransaction sym := spend [⟨mintingParent.getHash, 0⟩] [⟨10, opTrue⟩]

/-- A transaction that spends the minted coin. -/
def mwebChild : CTransaction sym :=
  { spend [] [] with
    mwebTx := some ⟨0, 0, ⟨[input (output 10 7 5 9).getOutputID 10 7 9], [output 9 0 2 3],
      [kernel (some 1) none [] (-7) nonneg_one]⟩, by simp⟩
    hogEx_wf := nofun }

lemma kernelID_ne_txHash (k : Mw.Kernel sym) (t : TxPreimage sym) :
    k.getKernelID ≠ NodeCrypto.txHash t := by
  intro h
  cases (Digest.pair.inj h).1

/-- The child of a canonical output waits for its parent, and is put on the work set. -/
theorem orphans_reconsidered_voutChild :
    ∃ s, [OrphanOp.addOrphanTx 0 voutChild 1].foldlM OrphanState.step .empty = .ok s ∧
      s.pool.orphan? voutChild.getHash = some voutChild ∧
      voutChild.getHash ∈ (s.acceptTx 2 mintingParent).workSet 2 := by
  obtain ⟨s, hrun, -, hpeer, -⟩ := orphans_reconsidered_iff (tagged_injective 14)
    kernelID_ne_txHash [OrphanOp.addOrphanTx 0 voutChild 1]
  have hs : s = ⟨(OrphanPool.empty.addOrphanTx 0 voutChild 1).2, fun _ => ∅⟩ :=
    (Except.ok.inj hrun).symm
  have hstored : s.pool.orphan? voutChild.getHash = some voutChild := by
    rw [hs]
    decide +kernel
  have hspends : voutChild.SpendsOutputOf mintingParent :=
    CTransaction.spendsOutputOf_iff.mpr (.inl ⟨0, by decide +kernel, by decide +kernel⟩)
  refine ⟨s, hrun, hstored, (hpeer 2 mintingParent).mpr ?_ _ _ hstored hspends⟩
  -- the only orphan has no MWEB inputs
  rintro hash orphan horphan ⟨id, hid, -⟩
  have hsmall : ¬ getTransactionWeight voutChild > maxStandardTxWeight := by decide +kernel
  have hpool : s.pool = OrphanPool.empty.storeOrphan ⟨voutChild, 1, 0 + orphanTxExpireTime, 0⟩ := by
    rw [hs, OrphanPool.addOrphanTx, if_neg nofun, if_neg hsmall]
    rfl
  rw [hpool, OrphanPool.orphan?_eq_some_iff, OrphanPool.storeOrphan] at horphan
  obtain ⟨entry, hentry, rfl⟩ := horphan
  by_cases hhash : hash = voutChild.getHash
  · rw [hhash, AList.lookup_insert] at hentry
    obtain rfl := Option.some.inj hentry
    cases hid
  · rw [AList.lookup_insert_ne hhash] at hentry
    cases hentry

/-- The child of an MWEB output waits for its parent, and is not put on the work set. -/
theorem mwebChild_not_reconsidered :
    ∃ s, [OrphanOp.addOrphanTx 0 mwebChild 1].foldlM OrphanState.step .empty = .ok s ∧
      s.pool.orphan? mwebChild.getHash = some mwebChild ∧
      mwebChild.SpendsOutputOf mintingParent ∧
      mwebChild.getHash ∉ (s.acceptTx 2 mintingParent).workSet 2 := by
  refine ⟨⟨(OrphanPool.empty.addOrphanTx 0 mwebChild 1).2, fun _ => ∅⟩, rfl, by decide +kernel,
    CTransaction.spendsOutputOf_iff.mpr (.inr ⟨(output 10 7 5 9).getOutputID, ?_, ?_⟩), ?_⟩
  · decide +kernel
  · decide +kernel
  · decide +kernel

end Symbolic

end Aegisum
