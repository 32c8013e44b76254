import Aegisum.Mweb.PrunableMmr

/-!
# Merkle mountain ranges in a file

`PMMR` keeps the hashes of all nodes in an append-only file and hands the data of new leaves to
the database.  `BatchWrite` is how a cache is flushed into it: the file is cut at the first leaf
of the cache, the new leaves are added and the file is committed.

Nothing is ever pruned, so the shift of the prune list is left out.  What the file stands for is the
range of `ListPMMR` without a prune list: the two answer alike and do the same, except that the file
may not be committed as it stands.
-/

namespace Aegisum

namespace Mw

open AppendOnlyFile

variable {D α : Type} (h : MmrHasher D α)

/-- The file with the hashes, and the leaves that were added since the last commit. -/
structure PMMR (D α : Type) where
  hashFile : AppendOnlyFile D
  leaves : List (Leaf D α)

namespace PMMR

/-- Open a range with the given hashes. -/
def «open» (hashes : List D) : PMMR D α := ⟨.load hashes, []⟩

/-- The hash of a node. -/
def getHash (m : PMMR D α) (position : ℕ) : Except ViewError D := do
  let data ← (m.hashFile.read position 1).mapError ViewError.file
  match data with
  | [d] => pure d
  | _ => .error .assertionFailure

/-- The data of a leaf: one that is not committed yet, or one of the database. -/
def getLeaf (m : PMMR D α) (leafDB : ℕ → Option α) (idx : ℕ) : Except ViewError α :=
  match leafMap m.leaves idx with
  | some i =>
    match m.leaves[i]? with
    | some leaf => .ok leaf.data
    | none => .error .undefinedBehaviour
  | none =>
    match leafDB idx with
    | some data => .ok data
    | none => .error .notFound

/-- The number of leaves, computed from the number of hashes.  That the next node is a leaf is
asserted there; see `isLeaf_leafPosition`. -/
def getNumLeaves (m : PMMR D α) : ℕ := calculateLeafIndex m.hashFile.getSize

/-- The file as a range. -/
def toIMMR (m : PMMR D α) (leafDB : ℕ → Option α) : IMMR D α :=
  ⟨m.getHash, m.getLeaf leafDB, m.getNumLeaves⟩

/-- Append the parents that a new leaf completes. -/
def addParents : ℕ → PMMR D α → D → Index → Except ViewError (PMMR D α)
  | 0, m, _, _ => .ok m
  | fuel + 1, m, rightHash, nextIdx =>
    if nextIdx.isLeaf then .ok m
    else do
      let leftHash ← m.getHash nextIdx.getLeftChild.position
      let parent := h.parentHash nextIdx.position leftHash rightHash
      addParents fuel { m with hashFile := m.hashFile.append [parent] } parent nextIdx.getNext

/-- Append a leaf. -/
def addLeaf (m : PMMR D α) (leaf : Leaf D α) : Except ViewError (PMMR D α) :=
  addParents h (leaf.leafIndex + 1)
    { hashFile := m.hashFile.append [leaf.hash]
      leaves := m.leaves ++ [leaf] }
    leaf.hash (Index.ofPosition (leafPosition leaf.leafIndex + 1))

/-- Cut the file after the nodes of the first leaves. -/
def rewind (m : PMMR D α) (numLeaves : ℕ) : Except ViewError (PMMR D α) := do
  let hashFile ← (m.hashFile.rewind (leafPosition numLeaves)).mapError ViewError.file
  pure { m with hashFile := hashFile }

/-- Take over the leaves of a cache and commit the file.  Also returned are the leaves that go to
the database. -/
def batchWrite (m : PMMR D α) (firstLeafIdx : ℕ) (leaves : List (Leaf D α)) :
    Except ViewError (PMMR D α × List (Leaf D α)) := do
  let m₁ ← m.rewind firstLeafIdx
  let m₂ ← leaves.foldlM (fun m leaf => m.addLeaf h leaf) m₁
  let hashFile ← m₂.hashFile.commit.mapError ViewError.file
  pure (⟨hashFile, []⟩, m₂.leaves)

/-! ### Adding leaves -/

variable {h} {m : PMMR D α} {leaves : List α}

lemma getHash_eq {position : ℕ} {d : D} (hd : m.hashFile.contents[position]? = some d) :
    m.getHash position = .ok d := by
  rw [getHash, m.hashFile.read_one hd]
  rfl

/-- The range answers as the range over the leaves whose nodes are in the file and whose data is
in the database. -/
lemma holds (leafDB : ℕ → Option α) (hfile : m.hashFile.contents = (Mmr.ofLeaves h leaves).hashes)
    (hpending : m.leaves = []) (hdata : ∀ i a, leaves[i]? = some a → leafDB i = some a) :
    (m.toIMMR leafDB).Holds h leaves := by
  constructor
  · change calculateLeafIndex m.hashFile.getSize = leaves.length
    rw [← length_contents, hfile, Mmr.length_hashes_ofLeaves, calculateLeafIndex_leafPosition]
  · intro pos d hd
    apply getHash_eq
    rw [hfile, hd]
  · intro i a ha
    change m.getLeaf leafDB i = .ok a
    rw [getLeaf, hpending, leafMap_nil]
    dsimp only
    rw [hdata i a ha]

/-- The loop over the parents appends to the file what it appends to the list of all nodes. -/
lemma runsParents (h : MmrHasher D α) :
    RunsParents h getHash (fun m l => { m with hashFile := m.hashFile.append l }) (addParents h)
      fun m hashes => m.hashFile.contents = hashes where
  zero _ _ _ := rfl
  succ _ _ _ _ := rfl
  push_nil m := by simp [append]
  push_push m l l' := by simp [append]
  stands d hm := by rw [contents_append, hm]
  get_eq hm _ hd := getHash_eq (hm ▸ hd)

/-- Adding a leaf appends the nodes that are new in the range with the leaf. -/
lemma addLeaf_eq (hfile : m.hashFile.contents = (Mmr.ofLeaves h leaves).hashes) (data : α) :
    ∃ nodes, m.addLeaf h (Leaf.create h leaves.length data) =
        .ok
          { hashFile := m.hashFile.append nodes
            leaves := m.leaves ++ [Leaf.create h leaves.length data] } ∧
      (Mmr.ofLeaves h (leaves ++ [data])).hashes = (Mmr.ofLeaves h leaves).hashes ++ nodes := by
  obtain ⟨nodes, hloop, hnodes⟩ := (runsParents h).exists_addLeaf_eq
    (s := { m with leaves := m.leaves ++ [Leaf.create h leaves.length data] }) hfile data rfl
  exact ⟨nodes, hloop, hnodes⟩

/-- Adding leaves with consecutive indices one after the other. -/
lemma foldlM_addLeaf_eq (ls : List (Leaf D α))
    (hfile : m.hashFile.contents = (Mmr.ofLeaves h leaves).hashes)
    (hls : ∀ i leaf, ls[i]? = some leaf → leaf = Leaf.create h (leaves.length + i) leaf.data) :
    ∃ nodes, ls.foldlM (fun m leaf => m.addLeaf h leaf) m =
        .ok
          { hashFile := m.hashFile.append nodes
            leaves := m.leaves ++ ls } ∧
      (Mmr.ofLeaves h (leaves ++ ls.map Leaf.data)).hashes =
        (Mmr.ofLeaves h leaves).hashes ++ nodes := by
  induction ls generalizing m leaves with
  | nil => exact ⟨[], by simp [append, pure, Except.pure], by simp⟩
  | cons leaf ls ih =>
    have hleaf : leaf = Leaf.create h leaves.length leaf.data := hls 0 leaf rfl
    obtain ⟨nodes, hadd, hnodes⟩ := addLeaf_eq hfile leaf.data
    rw [← hleaf] at hadd
    have hfile' : (m.hashFile.append nodes).contents =
        (Mmr.ofLeaves h (leaves ++ [leaf.data])).hashes := by
      rw [contents_append, hfile, hnodes]
    obtain ⟨nodes', hrest, hnodes'⟩ := ih (m := ⟨m.hashFile.append nodes, m.leaves ++ [leaf]⟩)
      hfile'
      (by
        intro i leaf' hleaf'
        rw [List.length_append, List.length_singleton, Nat.add_assoc, Nat.add_comm 1]
        exact hls (i + 1) leaf' hleaf')
    refine ⟨nodes ++ nodes', foldlM_cons_eq_ok.mpr ⟨_, hadd, ?_⟩, ?_⟩
    · rw [hrest]
      simp [append]
    · rw [List.append_assoc, List.singleton_append] at hnodes'
      rw [List.map_cons, hnodes', hnodes, List.append_assoc]

/-! ### Flushing a cache into the file -/

/-- Flushing a cache never fails, hands the leaves of the cache to the database and leaves the
intended hashes in the file exactly if the nodes of the cache continue the file as the ones they
replace. -/
lemma exists_batchWrite_eq {baseLeaves : List α} {top : PMMRCache D α}
    (htop : top.Extends h baseLeaves leaves) :
    ∃ disk, («open» (Mmr.ofLeaves h baseLeaves).hashes).batchWrite h top.firstLeaf top.leaves =
        .ok («open» disk, top.leaves) ∧
      disk.length = (Mmr.ofLeaves h leaves).hashes.length ∧
      (disk = (Mmr.ofLeaves h leaves).hashes ↔
        top.nodes <+: (Mmr.ofLeaves h baseLeaves).hashes.drop (leafPosition top.firstLeaf) ++
          top.nodes) := by
  generalize hf : AppendOnlyFile.load (Mmr.ofLeaves h baseLeaves).hashes = f
  have hindex : f.fileSize = f.bufferIndex := by rw [← hf]; rfl
  have hdisk : f.disk = (Mmr.ofLeaves h baseLeaves).hashes := by rw [← hf]; rfl
  have hle : leafPosition top.firstLeaf ≤ f.disk.length := by
    rw [hdisk, Mmr.length_hashes_ofLeaves]
    exact leafPosition_mono htop.first_le
  -- the nodes before the first leaf are the ones that stay in the file
  have hkept : (Mmr.ofLeaves h (baseLeaves.take top.firstLeaf)).hashes =
      f.disk.take (leafPosition top.firstLeaf) := by
    rw [hdisk, ← Mmr.rewind_ofLeaves h baseLeaves htop.first_le]
    rfl
  have hsize : f.getSize = f.disk.length := by
    rw [← hf]
    simp [AppendOnlyFile.getSize, AppendOnlyFile.load]
  rcases f.rewind_eq (leafPosition top.firstLeaf) hindex with ⟨hend, -⟩ | ⟨-, f', hrewind, hcut, -⟩
  · omega
  have hcontents : f.contents = f.disk := by rw [← hf]; simp
  have hbase : f'.contents = (Mmr.ofLeaves h (baseLeaves.take top.firstLeaf)).hashes := by
    rw [hcut, hcontents, hkept]
  have hlen : (baseLeaves.take top.firstLeaf).length = top.firstLeaf := by
    rw [List.length_take, Nat.min_eq_left htop.first_le]
  obtain ⟨nodes, hfold, hnodes⟩ := foldlM_addLeaf_eq (m := ⟨f', []⟩) top.leaves hbase
    (by rw [hlen]; exact htop.created)
  rw [← htop.leaves_eq, hkept] at hnodes
  have htopNodes : top.nodes = nodes := by
    have hdrop : ((f.disk.take (leafPosition top.firstLeaf)) ++ nodes).drop
        (leafPosition top.firstLeaf) = nodes := by
      rw [List.drop_append_of_le_length (by rw [List.length_take]; omega), List.drop_eq_nil_of_le
        (by rw [List.length_take]; omega), List.nil_append]
    rw [htop.nodes_eq, hnodes, hdrop]
  obtain ⟨disk, hwrite⟩ := f.exists_rewrite_eq nodes hindex hle
  have hiff := f.rewrite_eq_iff nodes hindex hle
  have hcommit : (f'.append nodes).commit = .ok (AppendOnlyFile.load disk) := by
    rw [AppendOnlyFile.rewrite, bind_of_eq_ok hrewind] at hwrite
    exact hwrite
  refine ⟨disk, ?_, ?_, ?_⟩
  · rw [batchWrite, «open», rewind, hf, hrewind]
    dsimp only [Except.mapError]
    refine (bind_of_eq_ok rfl _).trans ((bind_of_eq_ok hfold _).trans ?_)
    dsimp only
    rw [hcommit]
    rfl
  · rw [length_of_commit_eq hcommit, ← length_contents, contents_append, hcut, hcontents, hnodes]
  · rw [htopNodes, ← hdisk, ← hiff, hwrite, hnodes]
    constructor
    · intro heq
      rw [heq]
    · exact fun heq => congrArg AppendOnlyFile.disk (Except.ok.inj heq)

/-! ### The list behind the file -/

variable (f : RecordFormat D) {leafDB : ℕ → Option α}

/-- The range without a prune list that the file stands for. -/
def toListPMMR (leafDB : ℕ → Option α) (m : PMMR D α) : ListPMMR D α :=
  ⟨f.file m.hashFile.contents, m.leaves, leafMap m.leaves, leafDB, none⟩

/-- Reading a hash is the same, also where there is none. -/
lemma getHash_toListPMMR : (m.toListPMMR f leafDB).getHash f = m.getHash := by
  funext position
  have hshift : (m.toListPMMR f leafDB).getShift position = .ok 0 := rfl
  rw [ListPMMR.getHash, bind_of_eq_ok hshift, Nat.sub_zero, toListPMMR]
  cases hd : m.hashFile.contents[position]? with
  | some d =>
    rw [getHash_eq hd, bind_of_eq_ok (ListPMMR.readBytes_file hd), f.decode_encode]
    rfl
  | none =>
    have hend := List.getElem?_eq_none_iff.mp hd
    have hbytes := Nat.mul_le_mul_right f.size hend
    have hsize := f.size_pos
    rw [readBytes, f.length_file, if_pos (by omega), getHash, AppendOnlyFile.read,
      if_pos (by rw [length_contents, getSize] at hend; omega)]
    rfl

/-- The file answers as the range without a prune list. -/
lemma toIMMR_toListPMMR : (m.toListPMMR f leafDB).toIMMR f = m.toIMMR leafDB := by
  have hnum : (m.toListPMMR f leafDB).getNumLeaves f = m.getNumLeaves := by
    rw [ListPMMR.getNumLeaves, getNumLeaves, ← length_contents, ← f.length_file_div]
    rfl
  rw [ListPMMR.toIMMR, getHash_toListPMMR, hnum]
  rfl

variable {f} {m' : PMMR D α}

/-- The parents are written alike. -/
lemma addParents_toListPMMR {fuel : ℕ} {d : D} {idx : Index}
    (hadd : m.addParents h fuel d idx = .ok m') :
    (m.toListPMMR f leafDB).addParents f h fuel d idx = .ok (m'.toListPMMR f leafDB) := by
  induction fuel generalizing m d idx with
  | zero =>
    obtain rfl := Except.ok.inj hadd
    rfl
  | succ fuel ih =>
    rw [addParents] at hadd
    rw [ListPMMR.addParents, getHash_toListPMMR]
    split at hadd
    · next hleaf =>
      obtain rfl := Except.ok.inj hadd
      rw [if_pos hleaf]
    · next hleaf =>
      obtain ⟨left, hleft, hrest⟩ := bind_eq_ok.mp hadd
      have hstep := ih hrest
      rw [toListPMMR, contents_append, f.file_append, f.file_singleton] at hstep
      rw [if_neg hleaf, bind_of_eq_ok hleft]
      exact hstep

/-- A leaf is appended alike. -/
lemma addLeaf_toListPMMR {leaf : Leaf D α} (hadd : m.addLeaf h leaf = .ok m') :
    (m.toListPMMR f leafDB).addLeaf f h leaf = .ok (m'.toListPMMR f leafDB) := by
  rw [← addParents_toListPMMR hadd]
  simp only [toListPMMR, contents_append, f.file_append, f.file_singleton, leafMap_append]
  rfl

/-- A run of leaves is appended alike. -/
lemma foldlM_addLeaf_toListPMMR {ls : List (Leaf D α)}
    (hadd : ls.foldlM (fun m leaf => m.addLeaf h leaf) m = .ok m') :
    ls.foldlM (fun m leaf => m.addLeaf f h leaf) (m.toListPMMR f leafDB) =
      .ok (m'.toListPMMR f leafDB) := by
  induction ls generalizing m with
  | nil =>
    obtain rfl := Except.ok.inj hadd
    rfl
  | cons leaf ls ih =>
    obtain ⟨m₁, hfirst, hrest⟩ := foldlM_cons_eq_ok.mp hadd
    exact foldlM_cons_eq_ok.mpr ⟨_, addLeaf_toListPMMR hfirst, ih hrest⟩

/-- A rewind of the file is one of the list. -/
lemma rewind_toListPMMR {n : ℕ} (hrewind : m.rewind n = .ok m') :
    (m.toListPMMR f leafDB).rewind f n = .ok (m'.toListPMMR f leafDB) := by
  obtain ⟨file, hfile, hpure⟩ := bind_eq_ok.mp hrewind
  obtain rfl := Except.ok.inj hpure
  rw [mapError_eq_ok] at hfile
  have hclean : m.hashFile.fileSize = m.hashFile.bufferIndex := by
    by_contra hpending
    rw [AppendOnlyFile.rewind, if_pos hpending] at hfile
    cases hfile
  rcases m.hashFile.rewind_eq (leafPosition n) hclean with ⟨-, hbad⟩ | ⟨hle, file', hok, hcut, -⟩
  · rw [hbad] at hfile
    cases hfile
  · obtain rfl := Except.ok.inj (hfile.symm.trans hok)
    have hshift : (m.toListPMMR f leafDB).getShift (leafPosition n) = .ok 0 := rfl
    rw [← length_contents] at hle
    rw [ListPMMR.rewind, bind_of_eq_ok hshift, Nat.sub_zero, toListPMMR,
      bind_of_eq_ok (ListPMMR.rewindBytes_file hle), ← hcut]
    rfl

/-- Flushing a cache leaves the file as the range without a prune list exactly if the file is
committed as it stands. -/
lemma batchWrite_toListPMMR {first : ℕ} {ls written : List (Leaf D α)}
    (hwrite : m.batchWrite h first ls = .ok (m', written)) :
    ∃ (file : AppendOnlyFile D) (list : ListPMMR D α), file.commit = .ok m'.hashFile ∧
      (m.toListPMMR f leafDB).batchWrite f h first ls = .ok list ∧
      (list = m'.toListPMMR f (addToLeafDB leafDB written) ↔
        file.buffer <+: file.disk.drop file.bufferIndex ++ file.buffer) := by
  obtain ⟨m₁, hrewind, hrest⟩ := bind_eq_ok.mp hwrite
  obtain ⟨m₂, hfold, hrest⟩ := bind_eq_ok.mp hrest
  obtain ⟨file, hcommit, hpure⟩ := bind_eq_ok.mp hrest
  obtain ⟨rfl, rfl⟩ := Prod.mk.inj (Except.ok.inj hpure)
  rw [mapError_eq_ok] at hcommit
  refine ⟨m₂.hashFile, (m₂.toListPMMR f leafDB).commitLeaves, hcommit, ?_, ?_⟩
  · rw [ListPMMR.batchWrite, bind_of_eq_ok (rewind_toListPMMR hrewind),
      bind_of_eq_ok (foldlM_addLeaf_toListPMMR hfold)]
    rfl
  · obtain ⟨disk, hdisk⟩ := m₂.hashFile.exists_commit_eq
    obtain rfl := Except.ok.inj (hcommit.symm.trans hdisk)
    rw [← commit_eq_iff, hdisk]
    constructor
    · intro heq
      have hfile := f.file_injective (congrArg ListPMMR.hashFile heq)
      rw [hfile, contents_load]
    · intro heq
      simp only [toListPMMR, Except.ok.inj heq, contents_load]
      rfl

end PMMR

end Mw

end Aegisum
