import Aegisum.Foundations.Records
import Aegisum.Mweb.BitSet
import Aegisum.Mweb.MmrCache
import Aegisum.Mweb.MmrRoot

/-!
# Prunable Merkle mountain ranges

`PMMR` with a prune list.  The hash file holds the hashes of all nodes but the compacted ones, whose
positions are set in the prune list; the place of a hash in the file is its position minus the
number of compacted nodes before it.  Data of leaves is kept in memory until it is written to the
database, and never deleted there.

The hash file is a list of bytes here, which is what `AppendOnlyFile` stands for.
-/

namespace Aegisum

open Function List Nat

namespace Mw

/-! ### The prune list -/

/-- The compacted nodes and their number. -/
structure PruneList where
  compacted : BitSet
  totalShift : ℕ

namespace PruneList

/-- The prune list of a file, if there is one. -/
def «open» (file : Option (List UInt8)) : PruneList :=
  let bitset := (file.map BitSet.from).getD ⟨[]⟩
  ⟨bitset, bitset.count⟩

/-- The prune list with the given compacted nodes, and the file it is written to. -/
def commit (compacted : BitSet) : PruneList × List UInt8 :=
  (⟨compacted, compacted.count⟩, compacted.bytes)

/-- How many nodes before a node are compacted; the node itself must not be. -/
def getShift (l : PruneList) (position : ℕ) : Except ViewError ℕ :=
  if l.compacted.test position then .error .assertionFailure
  else .ok (l.compacted.rank position)

end PruneList

/-! ### The range -/

variable {D α : Type} (f : RecordFormat D) (h : MmrHasher D α)

/-- The range: the bytes of its hash file, the leaves that were added since the last commit with
their places by index, the database of leaves and the prune list. -/
structure ListPMMR (D α : Type) where
  hashFile : List UInt8
  leaves : List (Leaf D α)
  leafMap : ℕ → Option ℕ
  leafDB : ℕ → Option α
  pruneList : Option PruneList

/-- Read from a file of bytes. -/
def readBytes (file : List UInt8) (position numBytes : ℕ) : Except ViewError (List UInt8) :=
  if position + numBytes > file.length then .error (.file .fileException)
  else .ok ((file.drop position).take numBytes)

/-- Cut a file of bytes. -/
def rewindBytes (file : List UInt8) (nextPosition : ℕ) : Except ViewError (List UInt8) :=
  if nextPosition > file.length then .error (.file .fileException)
  else .ok (file.take nextPosition)

/-- Write leaves to the database, one after the other. -/
def addToLeafDB (leafDB : ℕ → Option α) (leaves : List (Leaf D α)) : ℕ → Option α :=
  leaves.foldl (fun db leaf => Function.update db leaf.leafIndex (some leaf.data)) leafDB

namespace ListPMMR

/-- Open a range with the given file, database and prune list. -/
def «open» (hashFile : List UInt8) (leafDB : ℕ → Option α) (pruneList : Option PruneList) :
    ListPMMR D α :=
  ⟨hashFile, [], fun _ => none, leafDB, pruneList⟩

/-- The shift of a node. -/
def getShift (m : ListPMMR D α) (position : ℕ) : Except ViewError ℕ :=
  match m.pruneList with
  | none => .ok 0
  | some pruneList => pruneList.getShift position

/-- The hash of a node. -/
def getHash (m : ListPMMR D α) (position : ℕ) : Except ViewError D := do
  let shift ← m.getShift position
  let bytes ← readBytes m.hashFile ((position - shift) * f.size) f.size
  pure (f.decode bytes)

/-- The data of a leaf: one that is not committed yet, or one of the database. -/
def getLeaf (m : ListPMMR D α) (idx : ℕ) : Except ViewError α :=
  match m.leafMap idx with
  | some i =>
    match m.leaves[i]? with
    | some leaf => .ok leaf.data
    | none => .error .undefinedBehaviour
  | none =>
    match m.leafDB idx with
    | some data => .ok data
    | none => .error .notFound

/-- The number of leaves, computed from the size of the file and the number of compacted nodes. -/
def getNumLeaves (m : ListPMMR D α) : ℕ :=
  calculateLeafIndex (m.hashFile.length / f.size + (m.pruneList.map PruneList.totalShift).getD 0)

/-- The range as it is asked. -/
def toIMMR (m : ListPMMR D α) : IMMR D α := ⟨m.getHash f, m.getLeaf, m.getNumLeaves f⟩

/-- Append the parents that a new leaf completes. -/
def addParents : ℕ → ListPMMR D α → D → Index → Except ViewError (ListPMMR D α)
  | 0, m, _, _ => .ok m
  | fuel + 1, m, rightHash, nextIdx =>
    if nextIdx.isLeaf then .ok m
    else do
      let leftHash ← m.getHash f nextIdx.getLeftChild.position
      let parent := h.parentHash nextIdx.position leftHash rightHash
      addParents fuel { m with hashFile := m.hashFile ++ f.encode parent } parent nextIdx.getNext

/-- Append a leaf. -/
def addLeaf (m : ListPMMR D α) (leaf : Leaf D α) : Except ViewError (ListPMMR D α) :=
  addParents f h (leaf.leafIndex + 1)
    { m with
      hashFile := m.hashFile ++ f.encode leaf.hash
      leaves := m.leaves ++ [leaf]
      leafMap := Function.update m.leafMap leaf.leafIndex (some m.leaves.length) }
    leaf.hash (Index.ofPosition (leafPosition leaf.leafIndex + 1))

/-- Append a leaf with the given data. -/
def add (m : ListPMMR D α) (data : α) : Except ViewError (ListPMMR D α) :=
  m.addLeaf f h (Leaf.create h (m.getNumLeaves f) data)

/-- Cut the file after the nodes of the first leaves. -/
def rewind (m : ListPMMR D α) (numLeaves : ℕ) : Except ViewError (ListPMMR D α) := do
  let shift ← m.getShift (leafPosition numLeaves)
  let hashFile ← rewindBytes m.hashFile ((leafPosition numLeaves - shift) * f.size)
  pure { m with hashFile := hashFile }

/-- Hand the leaves in memory to the database. -/
def commitLeaves (m : ListPMMR D α) : ListPMMR D α :=
  { m with
    leaves := []
    leafMap := fun _ => none
    leafDB := addToLeafDB m.leafDB m.leaves }

/-- Take over the leaves of a cache, and commit the file and the leaves. -/
def batchWrite (m : ListPMMR D α) (firstLeafIdx : ℕ) (leaves : List (Leaf D α)) :
    Except ViewError (ListPMMR D α) := do
  let m₁ ← m.rewind f firstLeafIdx
  let m₂ ← leaves.foldlM (fun m leaf => m.addLeaf f h leaf) m₁
  pure m₂.commitLeaves

/-! ### What the file holds -/

/-- The compacted positions. -/
def marked (m : ListPMMR D α) : ℕ → Bool :=
  match m.pruneList with
  | none => fun _ => false
  | some pruneList => pruneList.compacted.test

/-- The file holds the hashes over the leaves, without the compacted ones.  The parent of a
compacted node is there. -/
structure Stores (m : ListPMMR D α) (leaves : List α) : Prop where
  hashFile : m.hashFile = f.file (dropMarked m.marked 0 (Mmr.ofLeaves h leaves).hashes)
  totalShift : (m.pruneList.map PruneList.totalShift).getD 0 =
    Nat.count (m.marked · = true) (leafPosition leaves.length)
  parents : ∀ e k, m.marked (nodePos e k) = true →
    nodePos (e + 1) (k / 2) < leafPosition leaves.length

variable {f h} {m : ListPMMR D α} {leaves : List α}

lemma getShift_eq {position : ℕ} (hmarked : m.marked position = false) :
    m.getShift position = .ok (count (m.marked · = true) position) := by
  unfold getShift marked at *
  cases hlist : m.pruneList with
  | none =>
    have hcount : count (fun _ => false = true) position = 0 :=
      count_iff_forall_not.mpr fun _ _ => Bool.false_ne_true
    rw [hcount]
  | some pruneList =>
    rw [hlist] at hmarked
    dsimp only at hmarked ⊢
    rw [PruneList.getShift, if_neg (by rw [hmarked]; decide), BitSet.rank_eq_count]

variable {hashes : List D}

lemma readBytes_file {i : ℕ} {d : D} (hd : hashes[i]? = some d) :
    readBytes (f.file hashes) (i * f.size) f.size = .ok (f.encode d) := by
  have hlt := (List.getElem?_eq_some_iff.mp hd).1
  have hend : i * f.size + f.size ≤ hashes.length * f.size := by
    rw [← succ_mul]
    exact mul_le_mul_right _ hlt
  rw [readBytes, f.length_file, if_neg (not_lt.mpr hend), f.slice_file hd]

variable {n bound : ℕ}

lemma rewindBytes_file (hn : n ≤ hashes.length) :
    rewindBytes (f.file hashes) (n * f.size) = .ok (f.file (hashes.take n)) := by
  rw [rewindBytes, f.length_file, if_neg (not_lt.mpr (mul_le_mul_right _ hn)), (f.split_file _ _).1]

lemma getHash_eq (hfile : m.hashFile = f.file (dropMarked m.marked 0 hashes)) {position : ℕ}
    (hlt : position < hashes.length) (hmarked : m.marked position = false) :
    m.getHash f position = .ok hashes[position] := by
  have hread := getElem?_dropMarked m.marked hlt hmarked
  rw [getElem?_eq_getElem hlt] at hread
  rw [getHash, bind_of_eq_ok (getShift_eq hmarked), hfile, bind_of_eq_ok (readBytes_file hread),
    f.decode_encode]
  rfl

namespace Stores

lemma length_hashFile (hm : m.Stores f h leaves) :
    m.hashFile.length / f.size + (m.pruneList.map PruneList.totalShift).getD 0 =
      leafPosition leaves.length := by
  have hlen := length_dropMarked_add m.marked (Mmr.ofLeaves h leaves).hashes
  rwa [Mmr.length_hashes_ofLeaves, ← hm.totalShift, ← f.length_file_div, ← hm.hashFile] at hlen

lemma getNumLeaves (hm : m.Stores f h leaves) : m.getNumLeaves f = leaves.length := by
  rw [ListPMMR.getNumLeaves, hm.length_hashFile, calculateLeafIndex_leafPosition]

/-- Compacted nodes are nodes over the leaves. -/
lemma lt_of_marked (hm : m.Stores f h leaves) {position : ℕ} (hmarked : m.marked position = true) :
    position < leafPosition leaves.length := by
  obtain ⟨e, k, rfl⟩ := exists_nodePos_eq position
  exact lt_trans (nodePos_lt_parent e k) (hm.parents e k hmarked)

end Stores

/-! ### Adding leaves -/

/-- The file holds the hashes that are not compacted, and the parents of compacted nodes are among
the hashes. -/
def Files (f : RecordFormat D) (m : ListPMMR D α) (hashes : List D) : Prop :=
  m.hashFile = f.file (dropMarked m.marked 0 hashes) ∧
    ∀ e k, m.marked (nodePos e k) = true → nodePos (e + 1) (k / 2) < hashes.length

/-- The loop over the parents appends to the file what it appends to the list of all nodes.  The
left children it reads have no parent yet, so that they are not compacted. -/
lemma runsParents (f : RecordFormat D) (h : MmrHasher D α) :
    RunsParents h (getHash f) (fun m l => { m with hashFile := m.hashFile ++ f.file l })
      (addParents f h) (Files f) where
  zero _ _ _ := rfl
  succ fuel m d i := by
    simp only [f.file_singleton]
    rfl
  push_nil m := by rw [f.file_nil, List.append_nil]
  push_push m l l' := by rw [f.file_append, List.append_assoc]
  stands := by
    rintro m hashes d ⟨hfile, hmarked⟩
    refine ⟨?_, fun e k hset => ?_⟩
    · have hend : ∀ j, m.marked j = true → j < 0 + hashes.length := by
        intro j hj
        obtain ⟨e, k, rfl⟩ := exists_nodePos_eq j
        rw [Nat.zero_add]
        exact Nat.lt_trans (nodePos_lt_parent e k) (hmarked e k hj)
      change m.hashFile ++ _ = f.file (dropMarked m.marked 0 _)
      rw [dropMarked_append, f.file_append, ← hfile, dropMarked_eq_self m.marked hend]
    · rw [List.length_append]
      exact Nat.lt_add_right _ (hmarked e k hset)
  get_eq := by
    rintro m hashes e q d ⟨hfile, hmarked⟩ hpos hd
    obtain ⟨hlt, rfl⟩ := List.getElem?_eq_some_iff.mp hd
    refine getHash_eq hfile hlt (Bool.eq_false_iff.mpr fun hset => ?_)
    have hparent := hmarked e (2 * q) hset
    rw [Nat.mul_div_cancel_left q (by decide), hpos] at hparent
    exact Nat.lt_irrefl _ hparent

/-- Adding a leaf appends the nodes that are new in the range with the leaf. -/
lemma Stores.addLeaf_eq (hm : m.Stores f h leaves) (data : α) :
    ∃ nodes, m.addLeaf f h (Leaf.create h leaves.length data) =
        .ok { m with
          hashFile := m.hashFile ++ f.file nodes
          leaves := m.leaves ++ [Leaf.create h leaves.length data]
          leafMap := update m.leafMap leaves.length (some m.leaves.length) } ∧
      (Mmr.ofLeaves h (leaves ++ [data])).hashes = (Mmr.ofLeaves h leaves).hashes ++ nodes := by
  have hfiles : m.Files f (Mmr.ofLeaves h leaves).hashes :=
    ⟨hm.hashFile, by rw [Mmr.length_hashes_ofLeaves]; exact hm.parents⟩
  rw [addLeaf, ← f.file_singleton]
  exact (runsParents f h).exists_addLeaf_eq
    (s := { m with
      leaves := m.leaves ++ [Leaf.create h leaves.length data]
      leafMap := update m.leafMap leaves.length (some m.leaves.length) }) hfiles data rfl

/-- Nodes that are appended are not compacted. -/
lemma Stores.append (hm : m.Stores f h leaves) (m' : ListPMMR D α) {more : List α} {nodes : List D}
    (hnodes : (Mmr.ofLeaves h (leaves ++ more)).hashes = (Mmr.ofLeaves h leaves).hashes ++ nodes)
    (hfile : m'.hashFile = m.hashFile ++ f.file nodes) (hprune : m'.pruneList = m.pruneList) :
    m'.Stores f h (leaves ++ more) := by
  have hmarked : m'.marked = m.marked := by rw [marked, hprune, marked]
  have hle : leafPosition leaves.length ≤ leafPosition (leaves ++ more).length :=
    leafPosition_mono (prefix_append _ _).length_le
  have hend : ∀ j, m.marked j = true → j < leafPosition leaves.length := fun j => hm.lt_of_marked
  constructor
  · rw [hfile, hmarked, hnodes, dropMarked_append, f.file_append, ← hm.hashFile, dropMarked_eq_self]
    rw [zero_add, Mmr.length_hashes_ofLeaves]
    exact hend
  · rw [hprune, hmarked, hm.totalShift, count_eq_of_forall_lt hend hle]
  · rw [hmarked]
    exact fun e k hset => lt_of_lt_of_le (hm.parents e k hset) hle

/-! ### Rewinding -/

/-- Rewinding to a size at which the parents of all compacted nodes are there. -/
lemma Stores.rewind_eq (hm : m.Stores f h leaves) (hn : n ≤ leaves.length)
    (hmarked : m.marked (leafPosition n) = false) :
    m.rewind f n = .ok { m with
      hashFile := f.file (dropMarked m.marked 0 (Mmr.ofLeaves h (leaves.take n)).hashes) } := by
  have hrange := congrArg Mmr.hashes (Mmr.rewind_ofLeaves h leaves hn)
  have hle : leafPosition n ≤ (Mmr.ofLeaves h leaves).hashes.length := by
    rw [Mmr.length_hashes_ofLeaves]
    exact leafPosition_mono hn
  have htake := dropMarked_take m.marked hle
  have hfits : leafPosition n - count (m.marked · = true) (leafPosition n) ≤
      (dropMarked m.marked 0 (Mmr.ofLeaves h leaves).hashes).length := by
    have hlen := length_dropMarked_add m.marked
      ((Mmr.ofLeaves h leaves).hashes.take (leafPosition n))
    rw [htake, length_take, length_take, min_eq_left hle] at hlen
    have hcount : count (m.marked · = true) (leafPosition n) ≤ leafPosition n := count_le _
    omega
  rw [rewind, bind_of_eq_ok (getShift_eq hmarked), hm.hashFile,
    bind_of_eq_ok (rewindBytes_file hfits), ← htake, ← hrange]
  rfl

lemma Stores.take (hm : m.Stores f h leaves) (hn : n ≤ leaves.length)
    (hparents : ∀ e k, m.marked (nodePos e k) = true → nodePos (e + 1) (k / 2) < leafPosition n) :
    Stores f h { m with
      hashFile := f.file (dropMarked m.marked 0 (Mmr.ofLeaves h (leaves.take n)).hashes) }
      (leaves.take n) := by
  have hlen : (leaves.take n).length = n := by simpa using hn
  refine ⟨rfl, ?_, ?_⟩
  · rw [hlen]
    change (m.pruneList.map PruneList.totalShift).getD 0 = count (m.marked · = true) _
    rw [hm.totalShift]
    refine count_eq_of_forall_lt (fun j hj => ?_) ?_
    · obtain ⟨e, k, rfl⟩ := exists_nodePos_eq j
      exact lt_trans (nodePos_lt_parent e k) (hparents e k hj)
    · exact leafPosition_mono hn
  · rw [hlen]
    exact hparents

lemma Stores.rewind (hm : m.Stores f h leaves) (hn : n ≤ leaves.length)
    (hparents : ∀ e k, m.marked (nodePos e k) = true → nodePos (e + 1) (k / 2) < leafPosition n) :
    ∃ m', m.rewind f n = .ok m' ∧ m'.Stores f h (leaves.take n) ∧ m'.pruneList = m.pruneList ∧
      m'.leaves = m.leaves ∧ m'.leafMap = m.leafMap ∧ m'.leafDB = m.leafDB := by
  have hmarked : m.marked (leafPosition n) = false := by
    rw [Bool.eq_false_iff]
    intro hset
    rw [leafPosition_eq_nodePos] at hset
    have hlt := lt_trans (nodePos_lt_parent 0 n) (hparents 0 n hset)
    rw [leafPosition_eq_nodePos] at hlt
    exact lt_irrefl _ hlt
  exact ⟨_, hm.rewind_eq hn hmarked, hm.take hn hparents, rfl, rfl, rfl, rfl⟩

/-! ### Data of leaves -/

/-- The data that is found for a leaf. -/
def dataAt (m : ListPMMR D α) (idx : ℕ) : Option α :=
  match m.leafMap idx with
  | some i => m.leaves[i]?.map Leaf.data
  | none => m.leafDB idx

/-- The data of the leaves is found, and something is found for every index below a bound.  The
leaves in memory are those that the database does not have yet. -/
structure Keeps (m : ListPMMR D α) (leaves : List α) (bound : ℕ) : Prop where
  data : ∀ i a, leaves[i]? = some a → m.dataAt i = some a
  mapped : ∀ i j, m.leafMap i = some j → j < m.leaves.length
  pending : ∀ i, addToLeafDB m.leafDB m.leaves i = m.dataAt i
  known : ∀ i, (m.dataAt i).isSome = true ↔ i < bound

namespace Keeps

variable {bound : ℕ}

lemma length_le (hm : m.Keeps leaves bound) : leaves.length ≤ bound := by
  rcases leaves.eq_nil_or_concat' with rfl | ⟨init, a, rfl⟩
  · exact zero_le _
  · have hlast := hm.data init.length a (by simp)
    have hlt := (hm.known init.length).mp (by rw [hlast]; rfl)
    simpa [succ_le_iff] using hlt

lemma getLeaf (hm : m.Keeps leaves bound) (idx : ℕ) :
    m.getLeaf idx = (m.dataAt idx).elim (.error .notFound) .ok := by
  rw [ListPMMR.getLeaf, dataAt]
  cases hmap : m.leafMap idx with
  | none =>
    dsimp only
    cases m.leafDB idx <;> rfl
  | some i =>
    dsimp only
    rw [getElem?_eq_getElem (hm.mapped idx i hmap)]
    rfl

/-- Going back to fewer leaves loses no data. -/
lemma take (hm : m.Keeps leaves bound) (n : ℕ) {m' : ListPMMR D α}
    (hleaves : m'.leaves = m.leaves) (hmap : m'.leafMap = m.leafMap) (hdb : m'.leafDB = m.leafDB) :
    m'.Keeps (leaves.take n) bound := by
  have hdata : m'.dataAt = m.dataAt := by
    funext i
    rw [dataAt, dataAt, hleaves, hmap, hdb]
  constructor
  · intro i a ha
    rw [getElem?_take] at ha
    split at ha
    · rw [hdata, hm.data i a ha]
    · cases ha
  · rw [hleaves, hmap]
    exact hm.mapped
  · rw [hleaves, hdb, hdata]
    exact hm.pending
  · rw [hdata]
    exact hm.known

/-- A leaf that is added is found. -/
lemma add (hm : m.Keeps leaves bound) (data : α) {leaf : Leaf D α} {m' : ListPMMR D α}
    (hleaf : leaf = Leaf.create h leaves.length data) (hleaves : m'.leaves = m.leaves ++ [leaf])
    (hmap : m'.leafMap = update m.leafMap leaves.length (some m.leaves.length))
    (hdb : m'.leafDB = m.leafDB) : m'.Keeps (leaves ++ [data]) (max bound (leaves.length + 1)) := by
  have hdata : ∀ i, m'.dataAt i = if i = leaves.length then some data else m.dataAt i := by
    intro i
    rw [dataAt, hleaves, hmap, hdb]
    by_cases hi : i = leaves.length
    · rw [hi, update_self, if_pos rfl, hleaf]
      simp [Leaf.create]
    · rw [update_of_ne hi, if_neg hi, dataAt]
      cases hold : m.leafMap i with
      | none => rfl
      | some j =>
        dsimp only
        rw [List.getElem?_append_left (hm.mapped i j hold)]
  constructor
  · intro i a ha
    rw [hdata]
    rw [List.getElem?_append] at ha
    split at ha
    case isTrue hlt => rw [if_neg (Nat.ne_of_lt hlt), hm.data i a ha]
    case isFalse hge =>
      have hlt := (List.getElem?_eq_some_iff.mp ha).1
      rw [List.length_singleton] at hlt
      have hi : i = leaves.length := by omega
      rw [hi, Nat.sub_self] at ha
      rw [if_pos hi]
      exact ha
  · intro i j hij
    rw [hleaves, List.length_append, List.length_singleton]
    rw [hmap] at hij
    by_cases hi : i = leaves.length
    · rw [hi, update_self] at hij
      rw [← Option.some.inj hij]
      exact Nat.lt_succ_self _
    · rw [update_of_ne hi] at hij
      exact Nat.lt_succ_of_lt (hm.mapped i j hij)
  · intro i
    rw [hdata, hleaves, hdb, addToLeafDB, List.foldl_append, List.foldl_cons, List.foldl_nil,
      ← addToLeafDB]
    have hidx : leaf.leafIndex = leaves.length := by rw [hleaf]; rfl
    have hdat : leaf.data = data := by rw [hleaf]; rfl
    by_cases hi : i = leaves.length
    · rw [hi, hidx, update_self, if_pos rfl, hdat]
    · rw [hidx, update_of_ne hi, if_neg hi, hm.pending]
  · intro i
    have hle := hm.length_le
    rw [hdata]
    split
    case isTrue hi =>
      rw [hi]
      simp
    case isFalse hi =>
      rw [hm.known, lt_max_iff]
      omega

/-- The leaves in memory go to the database. -/
lemma commitLeaves (hm : m.Keeps leaves bound) : m.commitLeaves.Keeps leaves bound := by
  have hdata : ∀ i, m.commitLeaves.dataAt i = m.dataAt i := hm.pending
  refine ⟨fun i a ha => ?_, fun i j hij => ?_, fun i => ?_, fun i => ?_⟩
  · rw [hdata, hm.data i a ha]
  · cases hij
  · rfl
  · rw [hdata]
    exact hm.known i

end Keeps

/-! ### Flushing a cache -/

lemma exists_addLeaf (hm : m.Stores f h leaves) (hkeeps : m.Keeps leaves bound) (data : α) :
    ∃ m', m.addLeaf f h (Leaf.create h leaves.length data) = .ok m' ∧
      m'.Stores f h (leaves ++ [data]) ∧
      m'.Keeps (leaves ++ [data]) (max bound (leaves.length + 1)) ∧ m'.pruneList = m.pruneList := by
  obtain ⟨nodes, hadd, hnodes⟩ := hm.addLeaf_eq data
  exact ⟨_, hadd, hm.append _ hnodes rfl rfl, hkeeps.add data rfl rfl rfl rfl, rfl⟩

/-- The largest number of leaves while leaves are added. -/
lemma exists_foldlM_addLeaf (ls : List (Leaf D α)) (hm : m.Stores f h leaves)
    (hkeeps : m.Keeps leaves bound)
    (hls : ∀ i leaf, ls[i]? = some leaf → leaf = Leaf.create h (leaves.length + i) leaf.data) :
    ∃ m', ls.foldlM (fun m leaf => m.addLeaf f h leaf) m = .ok m' ∧
      m'.Stores f h (leaves ++ ls.map Leaf.data) ∧
      m'.Keeps (leaves ++ ls.map Leaf.data) (max bound (leaves.length + ls.length)) ∧
      m'.pruneList = m.pruneList := by
  induction ls generalizing m leaves bound with
  | nil =>
    refine ⟨m, rfl, by simpa using hm, ?_, rfl⟩
    have := hkeeps.length_le
    rw [length_nil, add_zero, max_eq_left this]
    simpa using hkeeps
  | cons leaf ls ih =>
    have hleaf : leaf = Leaf.create h leaves.length leaf.data := hls 0 leaf rfl
    obtain ⟨m₁, hadd, hstores₁, hkeeps₁, hprune₁⟩ := exists_addLeaf hm hkeeps leaf.data
    rw [← hleaf] at hadd
    obtain ⟨m', hrest, hstores', hkeeps', hprune⟩ := ih hstores₁ hkeeps₁ (by
      intro i leaf' hleaf'
      rw [length_append, length_singleton, add_assoc, add_comm 1]
      exact hls (i + 1) leaf' hleaf')
    refine ⟨m', foldlM_cons_eq_ok.mpr ⟨m₁, hadd, hrest⟩, by simpa using hstores', ?_,
      hprune.trans hprune₁⟩
    have hbound : max (max bound (leaves.length + 1)) ((leaves ++ [leaf.data]).length + ls.length) =
        max bound (leaves.length + (leaf :: ls).length) := by
      simp only [length_append, length_cons, length_nil]
      omega
    rw [hbound] at hkeeps'
    simpa using hkeeps'

/-- Flushing a cache into a range. -/
lemma exists_batchWrite {top : PMMRCache D α} {baseLeaves : List α} (hm : m.Stores f h baseLeaves)
    (hkeeps : m.Keeps baseLeaves bound) (htop : top.Extends h baseLeaves leaves)
    (hparents : ∀ e k, m.marked (nodePos e k) = true → nodePos (e + 1) (k / 2) <
      leafPosition top.firstLeaf) :
    ∃ m', m.batchWrite f h top.firstLeaf top.leaves = .ok m' ∧ m'.Stores f h leaves ∧
      m'.Keeps leaves (max bound leaves.length) ∧ m'.pruneList = m.pruneList := by
  obtain ⟨m₁, hrewind, hstores₁, hprune₁, hleaves₁, hmap₁, hdb₁⟩ := hm.rewind htop.first_le hparents
  have hkeeps₁ := hkeeps.take top.firstLeaf hleaves₁ hmap₁ hdb₁
  have hlen : (baseLeaves.take top.firstLeaf).length = top.firstLeaf := by
    rw [length_take, min_eq_left htop.first_le]
  obtain ⟨m₂, hfold, hstores₂, hkeeps₂, hprune₂⟩ := exists_foldlM_addLeaf top.leaves hstores₁
    hkeeps₁ (by rw [hlen]; exact htop.created)
  rw [← htop.leaves_eq] at hstores₂ hkeeps₂
  rw [hlen, ← htop.length_eq] at hkeeps₂
  have hstores : m₂.commitLeaves.Stores f h leaves :=
    ⟨hstores₂.hashFile, hstores₂.totalShift, hstores₂.parents⟩
  refine ⟨m₂.commitLeaves, ?_, hstores, hkeeps₂.commitLeaves, hprune₂.trans hprune₁⟩
  rw [batchWrite, bind_of_eq_ok hrewind, bind_of_eq_ok hfold]
  rfl

end ListPMMR

end Mw

end Aegisum
