import Aegisum.Model.Merkle
import Mathlib.Data.List.Range
import Mathlib.Logic.Function.Iterate
import Mathlib.Tactic.Ring

/-!
# Partial Merkle trees

`CPartialMerkleTree`: the part of a block's Merkle tree that proves a set of its transactions.  The
tree is traversed depth first; a node above a match is descended into, any other one is stored as
its hash.  `TraverseAndBuild` writes one bit for each node and the stored hashes,
`TraverseAndExtract` reads both streams back and recomputes the root.

Accesses to the vectors are `Option`-valued: a read out of range has no result, so that a function
that returns is one whose accesses are all in range.
-/

namespace Aegisum

open List Nat Option

variable {α : Type}

/-- `CPartialMerkleTree`. -/
structure CPartialMerkleTree (α : Type) where
  nTransactions : ℕ
  vBits : List Bool
  vHash : List α
  fBad : Bool
deriving DecidableEq

/-- `MAX_BLOCK_WEIGHT / MIN_TRANSACTION_WEIGHT`. -/
def maxMerkleTransactions : ℕ := 4000000 / (4 * 60)

/-- `CalcTreeWidth`, in unsigned arithmetic of 32 bits. -/
def calcTreeWidth (nTransactions height : ℕ) : ℕ :=
  (nTransactions + 2 ^ height - 1) % 2 ^ 32 / 2 ^ height

/-- The loop that looks for the first level with at most one node. -/
def treeHeightLoop (nTransactions : ℕ) : ℕ → ℕ → ℕ
  | 0, nHeight => nHeight
  | fuel + 1, nHeight =>
    if 1 < calcTreeWidth nTransactions nHeight then
      treeHeightLoop nTransactions fuel (nHeight + 1)
    else nHeight

/-- The height of the tree; a number of 32 bits has fewer than 32 levels. -/
def treeHeight (nTransactions : ℕ) : ℕ :=
  treeHeightLoop nTransactions 32 0

section Definitions

variable (hash : α → α → α)

/-- `CalcHash`. -/
def calcHash (nTransactions : ℕ) (vTxid : List α) : ℕ → ℕ → Option α
  | 0, pos => vTxid[pos]?
  | height + 1, pos => do
    let left ← calcHash nTransactions vTxid height (pos * 2)
    -- the left hash stands for a right one beyond the end of the array
    let right ←
      if pos * 2 + 1 < calcTreeWidth nTransactions height then
        calcHash nTransactions vTxid height (pos * 2 + 1)
      else some left
    some (hash left right)

/-- Whether the node is the parent of a match: the loop over the leaves below it. -/
def parentOfMatch (nTransactions : ℕ) (vMatch : List Bool) (height pos : ℕ) : Option Bool :=
  ((List.range' (pos * 2 ^ height) (2 ^ height)).filter (· < nTransactions)).foldlM
    (fun fParentOfMatch p => vMatch[p]?.map (fParentOfMatch || ·)) false

/-- `TraverseAndBuild`, on the bits and hashes stored so far. -/
def traverseAndBuild (nTransactions : ℕ) (vTxid : List α) (vMatch : List Bool) :
    ℕ → ℕ → List Bool × List α → Option (List Bool × List α)
  | 0, pos, (vBits, vHash) => do
    let fParentOfMatch ← parentOfMatch nTransactions vMatch 0 pos
    let stored ← calcHash hash nTransactions vTxid 0 pos
    some (vBits ++ [fParentOfMatch], vHash ++ [stored])
  | height + 1, pos, (vBits, vHash) => do
    let fParentOfMatch ← parentOfMatch nTransactions vMatch (height + 1) pos
    if fParentOfMatch then
      let st ← traverseAndBuild nTransactions vTxid vMatch height (pos * 2)
        (vBits ++ [fParentOfMatch], vHash)
      if pos * 2 + 1 < calcTreeWidth nTransactions height then
        traverseAndBuild nTransactions vTxid vMatch height (pos * 2 + 1) st
      else some st
    else
      let stored ← calcHash hash nTransactions vTxid (height + 1) pos
      some (vBits ++ [fParentOfMatch], vHash ++ [stored])

/-- The constructor of a partial tree from the transactions and the mask of those to prove. -/
def buildPartialMerkleTree (vTxid : List α) (vMatch : List Bool) :
    Option (CPartialMerkleTree α) := do
  let nTransactions := vTxid.length % 2 ^ 32
  let (vBits, vHash) ←
    traverseAndBuild hash nTransactions vTxid vMatch (treeHeight nTransactions) 0 ([], [])
  some { nTransactions, vBits, vHash, fBad := false }

/-- What `TraverseAndExtract` changes: the flag of the tree and its reference arguments. -/
structure ExtractState (α : Type) where
  fBad : Bool
  nBitsUsed : ℕ
  nHashUsed : ℕ
  vMatch : List α
  vnIndex : List ℕ
deriving DecidableEq

/-- One bit more is used. -/
def ExtractState.useBit (s : ExtractState α) : ExtractState α :=
  { s with nBitsUsed := s.nBitsUsed + 1 }

variable (zero : α)

/-- The next stored hash; at a matched leaf it is reported with its position. -/
def takeHash (t : CPartialMerkleTree α) (matchedLeaf : Bool) (pos : ℕ) (s : ExtractState α) :
    Option (α × ExtractState α) :=
  if t.vHash.length ≤ s.nHashUsed then some (zero, { s with fBad := true })
  else do
    let stored ← t.vHash[s.nHashUsed]?
    let s := { s with nHashUsed := s.nHashUsed + 1 }
    if matchedLeaf then
      some (stored, { s with vMatch := s.vMatch ++ [stored], vnIndex := s.vnIndex ++ [pos] })
    else some (stored, s)

/-- `TraverseAndExtract`. -/
def traverseAndExtract [DecidableEq α] (t : CPartialMerkleTree α) :
    ℕ → ℕ → ExtractState α → Option (α × ExtractState α)
  | 0, pos, s =>
    if t.vBits.length ≤ s.nBitsUsed then some (zero, { s with fBad := true })
    else do
      let fParentOfMatch ← t.vBits[s.nBitsUsed]?
      takeHash zero t fParentOfMatch pos s.useBit
  | height + 1, pos, s =>
    if t.vBits.length ≤ s.nBitsUsed then some (zero, { s with fBad := true })
    else do
      let fParentOfMatch ← t.vBits[s.nBitsUsed]?
      if fParentOfMatch then
        let (left, s) ← traverseAndExtract t height (pos * 2) s.useBit
        if pos * 2 + 1 < calcTreeWidth t.nTransactions height then
          let (right, s) ← traverseAndExtract t height (pos * 2 + 1) s
          -- the transactions below the two branches must be different
          some (hash left right, { s with fBad := s.fBad || right = left })
        else some (hash left left, s)
      else takeHash zero t false pos s.useBit

/-- `ExtractMatches`: the root, or the null hash in case of failure, and what was changed. -/
def extractMatches [DecidableEq α] (t : CPartialMerkleTree α) (vnIndex : List ℕ) :
    Option (α × ExtractState α) :=
  let s : ExtractState α := ⟨t.fBad, 0, 0, [], vnIndex⟩
  if t.nTransactions = 0 then some (zero, s)
  else if maxMerkleTransactions < t.nTransactions then some (zero, s)
  else if t.nTransactions < t.vHash.length then some (zero, s)
  else if t.vBits.length < t.vHash.length then some (zero, s)
  else do
    let (root, s) ← traverseAndExtract hash zero t (treeHeight t.nTransactions) 0 s
    if s.fBad then some (zero, s)
    else if (s.nBitsUsed + 7) / 8 ≠ (t.vBits.length + 7) / 8 then some (zero, s)
    else if s.nHashUsed ≠ t.vHash.length then some (zero, s)
    else some (root, s)

end Definitions

/-! ### The shape of the tree -/

variable {height n pos : ℕ}

/-- The width without overflow. -/
lemma calcTreeWidth_eq (hn : n ≤ 2 ^ 31) (hheight : height ≤ 31) :
    calcTreeWidth n height = (n + 2 ^ height - 1) / 2 ^ height := by
  have hpow : 2 ^ height ≤ 2 ^ 31 := Nat.pow_le_pow_right (by decide) hheight
  have hpos : 0 < 2 ^ height := Nat.pow_pos (by decide)
  rw [calcTreeWidth, Nat.mod_eq_of_lt (by omega)]

/-- The nodes that exist. -/
lemma lt_calcTreeWidth_iff (hn : n ≤ 2 ^ 31) (hheight : height ≤ 31) (pos : ℕ) :
    pos < calcTreeWidth n height ↔ pos * 2 ^ height < n := by
  have hpos : 0 < 2 ^ height := Nat.pow_pos (by decide)
  rw [calcTreeWidth_eq hn hheight, Nat.lt_iff_add_one_le, Nat.le_div_iff_mul_le hpos, Nat.add_mul]
  omega

/-- The nodes at a height. -/
def levelNodes (hash : α → α → α) (l : List α) (height : ℕ) : List α :=
  (nextLevel hash)^[height] l

@[simp] lemma levelNodes_zero (hash : α → α → α) (l : List α) : levelNodes hash l 0 = l := rfl

lemma levelNodes_succ (hash : α → α → α) (l : List α) (height : ℕ) :
    levelNodes hash l (height + 1) = nextLevel hash (levelNodes hash l height) :=
  Function.iterate_succ_apply' _ _ _

lemma getElem?_nextLevel (hash : α → α → α) (l : List α) (pos : ℕ) :
    (nextLevel hash l)[pos]? =
      l[pos * 2]?.map fun left => hash left (l[pos * 2 + 1]?.getD left) := by
  fun_induction nextLevel hash l generalizing pos with
  | case1 a b l ih =>
    cases pos with
    | zero => rfl
    | succ pos =>
      rw [getElem?_cons_succ, ih pos, add_one_mul]
      simp only [getElem?_cons_succ]
  | case2 a => cases pos <;> simp
  | case3 => simp

/-- The nodes of a level. -/
lemma lt_length_levelNodes_iff (hash : α → α → α) (l : List α) (height pos : ℕ) :
    pos < (levelNodes hash l height).length ↔ pos * 2 ^ height < l.length := by
  induction height generalizing pos with
  | zero => simp
  | succ height ih =>
    have hhalf : pos * 2 ^ (height + 1) = pos * 2 * 2 ^ height := by ring
    rw [levelNodes_succ, length_nextLevel, hhalf, ← ih (pos * 2)]
    omega

/-- A node from its children, the left one doubled if alone. -/
lemma getElem?_levelNodes_succ (hash : α → α → α) (l : List α) (height pos : ℕ) :
    (levelNodes hash l (height + 1))[pos]? =
      (levelNodes hash l height)[pos * 2]?.map fun left =>
        hash left ((levelNodes hash l height)[pos * 2 + 1]?.getD left) := by
  rw [levelNodes_succ, getElem?_nextLevel]

variable {l hashes : List α} {x : α}

/-- A node is the hash of its two children, the second being the first where it is missing. -/
lemma levelNodes_succ_eq_some_iff {hash : α → α → α} :
    (levelNodes hash l (height + 1))[pos]? = some x ↔
      ∃ left right, (levelNodes hash l height)[pos * 2]? = some left ∧
        (if (pos * 2 + 1) * 2 ^ height < l.length then
          (levelNodes hash l height)[pos * 2 + 1]? = some right else right = left) ∧
        x = hash left right := by
  rw [getElem?_levelNodes_succ, map_eq_some_iff]
  refine exists_congr fun left => ?_
  split_ifs with hright
  · rw [← lt_length_levelNodes_iff hash] at hright
    rw [getElem?_eq_getElem hright]
    constructor
    · rintro ⟨hleft, rfl⟩
      exact ⟨_, hleft, rfl, rfl⟩
    · rintro ⟨right, hleft, hright', rfl⟩
      obtain rfl := some.inj hright'
      exact ⟨hleft, rfl⟩
  · rw [← lt_length_levelNodes_iff hash] at hright
    rw [getElem?_eq_none (Nat.le_of_not_lt hright)]
    constructor
    · rintro ⟨hleft, rfl⟩
      exact ⟨_, hleft, rfl, rfl⟩
    · rintro ⟨right, hleft, rfl, rfl⟩
      exact ⟨hleft, rfl⟩

/-- `CalcHash` computes the nodes of the levels. -/
lemma calcHash_eq (hash : α → α → α) (hl : l.length ≤ 2 ^ 31) (hheight : height ≤ 32) (pos : ℕ) :
    calcHash hash l.length l height pos = (levelNodes hash l height)[pos]? := by
  induction height generalizing pos with
  | zero => rfl
  | succ height ih =>
    rw [calcHash, ih (by omega), ih (by omega), getElem?_levelNodes_succ]
    cases hleft : (levelNodes hash l height)[pos * 2]? with
    | none => rfl
    | some left =>
      simp only [lt_calcTreeWidth_iff hl (show height ≤ 31 by omega)]
      split_ifs with hright
      · rw [← lt_length_levelNodes_iff hash] at hright
        rw [getElem?_eq_getElem hright]
        rfl
      · rw [← lt_length_levelNodes_iff hash] at hright
        rw [getElem?_eq_none (Nat.le_of_not_lt hright)]
        rfl

/-! ### The height of the tree -/

/-- The loop stops at the first level of one node. -/
lemma treeHeightLoop_spec (n fuel nHeight : ℕ) (hbelow : ∀ k < nHeight, 1 < calcTreeWidth n k)
    (hfuel : ∃ k < nHeight + fuel + 1, calcTreeWidth n k ≤ 1) :
    calcTreeWidth n (treeHeightLoop n fuel nHeight) ≤ 1 ∧
      ∀ k < treeHeightLoop n fuel nHeight, 1 < calcTreeWidth n k := by
  induction fuel generalizing nHeight with
  | zero =>
    obtain ⟨k, hk, hle⟩ := hfuel
    obtain rfl : k = nHeight := by
      by_contra hne
      have := hbelow k (by omega)
      omega
    exact ⟨hle, hbelow⟩
  | succ fuel ih =>
    rw [treeHeightLoop]
    split_ifs with hwide
    · refine ih (nHeight + 1) (fun k hk => ?_) ?_
      · rcases Nat.lt_succ_iff_lt_or_eq.mp hk with hk | rfl
        · exact hbelow k hk
        · exact hwide
      · obtain ⟨k, hk, hle⟩ := hfuel
        exact ⟨k, by omega, hle⟩
    · exact ⟨by omega, hbelow⟩

/-- The height is the first one whose level has at most one node. -/
lemma treeHeight_spec (hn : n ≤ 2 ^ 31) :
    n ≤ 2 ^ treeHeight n ∧ treeHeight n ≤ 31 ∧ ∀ k < treeHeight n, 2 ^ k < n := by
  have hlast : calcTreeWidth n 31 ≤ 1 := by
    have h := lt_calcTreeWidth_iff hn (Nat.le_refl 31) 1
    omega
  obtain ⟨hle, hbelow⟩ := treeHeightLoop_spec n 32 0
    (fun k hk => absurd hk (Nat.not_lt_zero k)) ⟨31, by omega, hlast⟩
  have hheight : treeHeight n ≤ 31 := by
    by_contra hgt
    have := hbelow 31 (Nat.lt_of_not_le hgt)
    omega
  refine ⟨?_, hheight, fun k hk => ?_⟩
  · have h := lt_calcTreeWidth_iff hn hheight 1
    rw [Nat.one_mul] at h
    exact Nat.le_of_not_lt fun hlt => absurd (h.mpr hlt) (Nat.not_lt.mpr hle)
  · have h := (lt_calcTreeWidth_iff hn (show k ≤ 31 by omega) 1).mp (hbelow k hk)
    rwa [Nat.one_mul] at h

variable {hash : α → α → α} {zero : α}

/-! ### How a node is written -/

/-- The matched positions among the `len` ones from `start` on. -/
def matchedPositions (vMatch : List Bool) (start len : ℕ) : List ℕ :=
  (List.range' start len).filter fun p => vMatch[p]? = some true

/-- Matches range by range. -/
lemma matchedPositions_append (vMatch : List Bool) (start m n : ℕ) :
    matchedPositions vMatch start (m + n) =
      matchedPositions vMatch start m ++ matchedPositions vMatch (start + m) n := by
  rw [matchedPositions, ← range'_append_1, filter_append]
  rfl

/-- The leaves below a node are those below its two children. -/
lemma matchedPositions_succ (vMatch : List Bool) (height pos : ℕ) :
    matchedPositions vMatch (pos * 2 ^ (height + 1)) (2 ^ (height + 1)) =
      matchedPositions vMatch (pos * 2 * 2 ^ height) (2 ^ height) ++
        matchedPositions vMatch ((pos * 2 + 1) * 2 ^ height) (2 ^ height) := by
  have hstart : pos * 2 ^ (height + 1) = pos * 2 * 2 ^ height := by ring
  have hright : (pos * 2 + 1) * 2 ^ height = pos * 2 * 2 ^ height + 2 ^ height := by ring
  rw [hstart, hright, ← matchedPositions_append, ← two_mul, pow_succ, mul_comm 2]

variable {vMatch bits : List Bool}

lemma matchedPositions_eq_nil {start : ℕ} (h : vMatch.length ≤ start) (len : ℕ) :
    matchedPositions vMatch start len = [] := by
  rw [matchedPositions, filter_eq_nil_iff]
  intro p hp
  have hle : vMatch.length ≤ p := h.trans (mem_range'_1.mp hp).1
  simp [hle]

/-- A flag says whether a match lies below. -/
lemma parentOfMatch_eq (hlen : vMatch.length = n) (height pos : ℕ) :
    parentOfMatch n vMatch height pos =
      some !(matchedPositions vMatch (pos * 2 ^ height) (2 ^ height)).isEmpty := by
  have hfold (ps : List ℕ) (b : Bool) :
      (ps.filter (· < n)).foldlM (fun fParentOfMatch p => vMatch[p]?.map (fParentOfMatch || ·)) b
        = some (b || !(ps.filter fun p => vMatch[p]? = some true).isEmpty) := by
    induction ps generalizing b with
    | nil => simp
    | cons p ps ih =>
      rcases lt_or_ge p n with hp | hp
      · obtain ⟨x, hx⟩ : ∃ x, vMatch[p]? = some x := ⟨_, getElem?_eq_getElem (hlen ▸ hp)⟩
        rw [filter_cons_of_pos (by simpa using hp), foldlM_cons, hx]
        simp only [map_some, bind_eq_bind, bind_some]
        rw [ih]
        cases x <;> simp [hx]
      · have hx : vMatch[p]? = none := getElem?_eq_none (hlen ▸ hp)
        rw [filter_cons_of_neg (by simpa using hp), ih]
        simp [hx]
  rw [parentOfMatch, hfold, Bool.false_or]
  rfl

/-- The bits and hashes a node is written as. -/
inductive Written (hash : α → α → α) (l : List α) (vMatch : List Bool) :
    ℕ → ℕ → List Bool → List α → Prop
  | leaf {pos : ℕ} {x : α} (hx : l[pos]? = some x) :
    Written hash l vMatch 0 pos [vMatch[pos]? = some true] [x]
  | stored {height pos : ℕ} {x : α}
    (hnone : matchedPositions vMatch (pos * 2 ^ (height + 1)) (2 ^ (height + 1)) = [])
    (hx : (levelNodes hash l (height + 1))[pos]? = some x) :
    Written hash l vMatch (height + 1) pos [false] [x]
  | inner {height pos : ℕ} {bits bits' : List Bool} {hashes hashes' : List α}
    (hsome : matchedPositions vMatch (pos * 2 ^ (height + 1)) (2 ^ (height + 1)) ≠ [])
    (hright : (pos * 2 + 1) * 2 ^ height < l.length)
    (left : Written hash l vMatch height (pos * 2) bits hashes)
    (right : Written hash l vMatch height (pos * 2 + 1) bits' hashes') :
    Written hash l vMatch (height + 1) pos (true :: (bits ++ bits')) (hashes ++ hashes')
  | last {height pos : ℕ} {bits : List Bool} {hashes : List α}
    (hsome : matchedPositions vMatch (pos * 2 ^ (height + 1)) (2 ^ (height + 1)) ≠ [])
    (hright : ¬ (pos * 2 + 1) * 2 ^ height < l.length)
    (left : Written hash l vMatch height (pos * 2) bits hashes) :
    Written hash l vMatch (height + 1) pos (true :: bits) hashes

/-- `TraverseAndBuild` writes the node, and reads within the vectors. -/
lemma exists_written (hash : α → α → α) (hlen : vMatch.length = l.length) (hl : l.length ≤ 2 ^ 31)
    (hheight : height ≤ 32) (hpos : pos * 2 ^ height < l.length) :
    ∃ bits hashes, Written hash l vMatch height pos bits hashes ∧
      ∀ st, traverseAndBuild hash l.length l vMatch height pos st =
        some (st.1 ++ bits, st.2 ++ hashes) := by
  induction height generalizing pos with
  | zero =>
    have hx : l[pos]? = some l[pos] := getElem?_eq_getElem (by simpa using hpos)
    refine ⟨_, _, .leaf hx, fun st => ?_⟩
    have hparent : (!(matchedPositions vMatch (pos * 2 ^ 0) (2 ^ 0)).isEmpty) =
        decide (vMatch[pos]? = some true) := by
      simp only [matchedPositions, pow_zero, mul_one, range'_one]
      by_cases hmatch : vMatch[pos]? = some true <;> simp [hmatch]
    rw [traverseAndBuild, parentOfMatch_eq hlen, hparent, calcHash, hx]
    rfl
  | succ height ih =>
    have hnode : pos < (levelNodes hash l (height + 1)).length :=
      (lt_length_levelNodes_iff hash l _ _).mpr hpos
    have hleft : pos * 2 * 2 ^ height < l.length := by
      rwa [mul_assoc, ← pow_succ']
    by_cases hnone : matchedPositions vMatch (pos * 2 ^ (height + 1)) (2 ^ (height + 1)) = []
    · refine ⟨_, _, .stored hnone (getElem?_eq_getElem hnode), fun st => ?_⟩
      rw [traverseAndBuild, parentOfMatch_eq hlen, hnone, calcHash_eq hash hl hheight,
        getElem?_eq_getElem hnode]
      rfl
    · obtain ⟨bits, hashes, hwritten, hbuild⟩ := ih (by omega) hleft
      have hparent : (!(matchedPositions vMatch (pos * 2 ^ (height + 1))
          (2 ^ (height + 1))).isEmpty) = true := by
        simpa using hnone
      by_cases hright : (pos * 2 + 1) * 2 ^ height < l.length
      · obtain ⟨bits', hashes', hwritten', hbuild'⟩ := ih (by omega) hright
        refine ⟨_, _, .inner hnone hright hwritten hwritten', fun st => ?_⟩
        rw [traverseAndBuild, parentOfMatch_eq hlen, hparent]
        simp only [bind_eq_bind, bind_some, if_true, hbuild,
          lt_calcTreeWidth_iff hl (show height ≤ 31 by omega), hright, hbuild', append_assoc,
          cons_append, nil_append]
      · refine ⟨_, _, .last hnone hright hwritten, fun st => ?_⟩
        rw [traverseAndBuild, parentOfMatch_eq hlen, hparent]
        simp only [bind_eq_bind, bind_some, if_true, hbuild,
          lt_calcTreeWidth_iff hl (show height ≤ 31 by omega), hright, if_false,
          append_assoc, singleton_append]

/-- There is no hash without a bit. -/
lemma Written.length_hashes_le (h : Written hash l vMatch height pos bits hashes) :
    hashes.length ≤ bits.length := by
  induction h with
  | leaf => simp
  | stored => simp
  | inner hsome hright left right ihLeft ihRight =>
    simp only [length_append, length_cons]
    omega
  | last hsome hright left ih =>
    rw [length_cons]
    omega

/-- No more hashes are stored than there are transactions below the node. -/
lemma Written.length_hashes_le_leaves (h : Written hash l vMatch height pos bits hashes) :
    pos * 2 ^ height + hashes.length ≤ l.length ∧ hashes.length ≤ 2 ^ height := by
  induction h with
  | @leaf pos x hx =>
    obtain ⟨hlt, -⟩ := List.getElem?_eq_some_iff.mp hx
    simp only [Nat.pow_zero, Nat.mul_one, List.length_singleton]
    omega
  | @stored height pos x hnone hx =>
    obtain ⟨hlt, -⟩ := List.getElem?_eq_some_iff.mp hx
    rw [lt_length_levelNodes_iff] at hlt
    have hpow : 0 < 2 ^ (height + 1) := Nat.pow_pos (by decide)
    rw [List.length_singleton]
    omega
  | @inner height pos bits bits' hashes hashes' hsome hright left right ihLeft ihRight =>
    have hstart : pos * 2 ^ (height + 1) = pos * 2 * 2 ^ height := by ring
    have hmiddle : (pos * 2 + 1) * 2 ^ height = pos * 2 * 2 ^ height + 2 ^ height := by ring
    have hpow : 2 ^ (height + 1) = 2 ^ height + 2 ^ height := by ring
    rw [List.length_append, hstart]
    omega
  | @last height pos bits hashes hsome hright left ih =>
    have hstart : pos * 2 ^ (height + 1) = pos * 2 * 2 ^ height := by ring
    have hpow : 2 ^ (height + 1) = 2 ^ height + 2 ^ height := by ring
    rw [hstart]
    omega

/-- The constructor writes the root. -/
lemma exists_built (hash : α → α → α) (hlen : vMatch.length = l.length) (hne : l ≠ [])
    (hl : l.length ≤ 2 ^ 31) :
    ∃ bits hashes, Written hash l vMatch (treeHeight l.length) 0 bits hashes ∧
      buildPartialMerkleTree hash l vMatch = some ⟨l.length, bits, hashes, false⟩ := by
  have hpos : 0 * 2 ^ treeHeight l.length < l.length := by
    rw [zero_mul]
    exact length_pos_iff.mpr hne
  have hheight := (treeHeight_spec hl).2.1
  obtain ⟨bits, hashes, hwritten, hbuild⟩ := exists_written hash hlen hl
    (hheight.trans (by decide)) hpos
  refine ⟨bits, hashes, hwritten, ?_⟩
  rw [buildPartialMerkleTree, mod_eq_of_lt (by omega), hbuild]
  rfl

/-! ### What is extracted -/

/-- No node above a match has two equal children. -/
def TwinFree (hash : α → α → α) (l : List α) (vMatch : List Bool) : Prop :=
  ∀ height pos x, matchedPositions vMatch (pos * 2 ^ (height + 1)) (2 ^ (height + 1)) ≠ [] →
    (levelNodes hash l height)[pos * 2]? = some x →
    (levelNodes hash l height)[pos * 2 + 1]? ≠ some x

/-- The state after a node was read: the streams are ahead and its matches are reported. -/
def ExtractState.advance (s : ExtractState α) (bits hashes : ℕ) (l : List α) (ps : List ℕ) :
    ExtractState α :=
  { s with
    nBitsUsed := s.nBitsUsed + bits
    nHashUsed := s.nHashUsed + hashes
    vMatch := s.vMatch ++ ps.filterMap (l[·]?)
    vnIndex := s.vnIndex ++ ps }

lemma ExtractState.advance_useBit (s : ExtractState α) (bits hashes : ℕ) (l : List α)
    (ps : List ℕ) : s.useBit.advance bits hashes l ps = s.advance (bits + 1) hashes l ps := by
  simp only [ExtractState.advance, ExtractState.useBit, ExtractState.mk.injEq, true_and, and_true]
  omega

lemma ExtractState.advance_advance (s : ExtractState α) (bits bits' hashes hashes' : ℕ)
    (l : List α) (ps ps' : List ℕ) :
    (s.advance bits hashes l ps).advance bits' hashes' l ps' =
      s.advance (bits + bits') (hashes + hashes') l (ps ++ ps') := by
  simp only [ExtractState.advance, filterMap_append, append_assoc, add_assoc]

lemma of_drop_eq_cons {r : List α} {k : ℕ} (h : l.drop k = x :: r) :
    l[k]? = some x ∧ l.drop (k + 1) = r := by
  constructor
  · have hzero : (l.drop k)[0]? = some x := by rw [h]; rfl
    simpa using hzero
  · rw [← drop_drop, h]
    rfl

/-- A read that is guarded by the length of the list. -/
lemma guarded_getElem? {β γ : Type} (l : List β) (k : ℕ) (e : Option γ) (f : β → Option γ) :
    (if l.length ≤ k then e else l[k]? >>= f) = l[k]?.elim e f := by
  split_ifs with hend
  · rw [getElem?_eq_none hend]
    rfl
  · rw [getElem?_eq_getElem (by omega)]
    rfl

variable {t : CPartialMerkleTree α} {s : ExtractState α}

/-- The next hash, or a bad proof. -/
lemma takeHash_eq (zero : α) (t : CPartialMerkleTree α) (matchedLeaf : Bool) (pos : ℕ)
    (s : ExtractState α) :
    takeHash zero t matchedLeaf pos s =
      some (t.vHash[s.nHashUsed]?.elim (zero, { s with fBad := true }) fun x =>
        (x, { s with
          nHashUsed := s.nHashUsed + 1
          vMatch := s.vMatch ++ if matchedLeaf then [x] else []
          vnIndex := s.vnIndex ++ if matchedLeaf then [pos] else [] })) := by
  rw [takeHash, guarded_getElem?]
  cases t.vHash[s.nHashUsed]? with
  | none => rfl
  | some x => cases matchedLeaf <;> simp

/-- Every reported transaction is the one at the reported position. -/
def Genuine (l : List α) (s : ExtractState α) : Prop :=
  List.Forall₂ (fun x p => l[p]? = some x) s.vMatch s.vnIndex

/-- A hash that is taken keeps the matches genuine. -/
lemma Genuine.takeHash {matchedLeaf : Bool} {s' : ExtractState α} (hs : Genuine l s)
    (h : Aegisum.takeHash zero t matchedLeaf pos s = some (x, s'))
    (hx : matchedLeaf = true → l[pos]? = some x) : Genuine l s' := by
  rw [takeHash_eq] at h
  cases hread : t.vHash[s.nHashUsed]? with
  | none =>
    rw [hread] at h
    obtain ⟨rfl, rfl⟩ := Prod.mk.inj (some.inj h)
    exact hs
  | some y =>
    rw [hread] at h
    obtain ⟨rfl, rfl⟩ := Prod.mk.inj (some.inj h)
    cases matchedLeaf with
    | false => exact rel_append hs .nil
    | true => exact rel_append hs (.cons (hx rfl) .nil)

/-! ### The root -/

variable [DecidableEq α]

/-- `ComputeMerkleRoot` stops at the first level with at most one node, and reports a mutation
if some level below has a pair of equal nodes. -/
lemma merkleLoop_eq (zero : α) (mutation : Bool) {k fuel : ℕ} (hfuel : k ≤ fuel)
    (hlong : ∀ j < k, 2 ≤ (levelNodes hash l j).length)
    (hshort : (levelNodes hash l k).length ≤ 1) :
    (merkleLoop hash zero fuel l mutation).1 = (levelNodes hash l k).headD zero ∧
      ((merkleLoop hash zero fuel l mutation).2 = false →
        ∀ j < k, hasTwins (levelNodes hash l j) = false) := by
  induction k generalizing fuel l mutation with
  | zero =>
    rw [levelNodes_zero] at hshort
    rw [merkleLoop_of_length_le hshort]
    exact ⟨rfl, fun _ j hj => absurd hj (not_lt_zero j)⟩
  | succ k ih =>
    obtain ⟨fuel, rfl⟩ : ∃ f, fuel = f + 1 := ⟨fuel - 1, by omega⟩
    have hlevel (j : ℕ) : levelNodes hash (nextLevel hash l) j = levelNodes hash l (j + 1) :=
      (Function.iterate_succ_apply _ _ _).symm
    have htwo : 2 ≤ l.length := hlong 0 (by omega)
    rw [merkleLoop_of_two_le htwo]
    obtain ⟨hroot, hmut⟩ := ih (mutation || hasTwins l) (l := nextLevel hash l)
      (show k ≤ fuel by omega)
      (fun j hj => hlevel j ▸ hlong (j + 1) (by omega)) (hlevel k ▸ hshort)
    refine ⟨hlevel k ▸ hroot, fun hfalse j hj => ?_⟩
    cases j with
    | zero => exact (Bool.or_eq_false_iff.mp (mutation_of_merkleLoop hfalse)).2
    | succ j => exact hlevel j ▸ hmut hfalse j (by omega)

/-- No pair of equal children. -/
lemma hasTwins_eq_false_iff :
    hasTwins l = false ↔ ∀ pos a, l[pos * 2]? = some a → l[pos * 2 + 1]? ≠ some a := by
  fun_induction hasTwins l with
  | case1 a b l ih =>
    rw [Bool.or_eq_false_iff, ih, decide_eq_false_iff_not]
    constructor
    · rintro ⟨hab, htail⟩ pos x hx
      cases pos with
      | zero =>
        obtain rfl : a = x := by simpa using hx
        simpa using fun h : b = a => hab h.symm
      | succ pos =>
        rw [add_one_mul] at hx ⊢
        simp only [getElem?_cons_succ] at hx ⊢
        exact htail pos x hx
    · refine fun h => ⟨fun hab => h 0 a rfl (by simp [hab]), fun pos x hx => ?_⟩
      have hnext := h (pos + 1) x (by rw [add_one_mul]; simpa using hx)
      rw [add_one_mul] at hnext
      simpa using hnext
  | case2 l hshort =>
    refine ⟨fun _ pos a _ => ?_, fun _ => rfl⟩
    match l, hshort with
    | [], _ => simp
    | [a], _ => simp
    | a :: b :: l, hshort => exact absurd rfl (hshort a b l)

/-- The root is the node at the height of the tree. -/
lemma levelNodes_treeHeight (hne : l ≠ []) (hl : l.length ≤ 2 ^ 31) :
    (levelNodes hash l (treeHeight l.length))[0]? = some (computeMerkleRoot hash zero l).1 ∧
      ((computeMerkleRoot hash zero l).2 = false →
        ∀ j < treeHeight l.length, hasTwins (levelNodes hash l j) = false) := by
  obtain ⟨htop, -, hbelow⟩ := treeHeight_spec hl
  have hpos : 0 < l.length := length_pos_iff.mpr hne
  have hfuel : treeHeight l.length ≤ l.length := by
    by_contra hgt
    have := hbelow l.length (by omega)
    exact absurd (@Nat.lt_two_pow_self l.length) (by omega)
  have hlong : ∀ j < treeHeight l.length, 2 ≤ (levelNodes hash l j).length := fun j hj =>
    (lt_length_levelNodes_iff hash l j 1).mpr (by rw [Nat.one_mul]; exact hbelow j hj)
  have hshort : (levelNodes hash l (treeHeight l.length)).length ≤ 1 := Nat.le_of_not_lt fun h => by
    have := (lt_length_levelNodes_iff hash l (treeHeight l.length) 1).mp h
    omega
  obtain ⟨hroot, hmut⟩ := merkleLoop_eq zero false hfuel hlong hshort
  refine ⟨?_, hmut⟩
  have hnode := (lt_length_levelNodes_iff hash l (treeHeight l.length) 0).mpr (by omega)
  rw [computeMerkleRoot, hroot, headD_eq_head?_getD, head?_eq_getElem?, getElem?_eq_getElem hnode]
  rfl

/-- A written node is read back: its hash, and the matches below it. -/
lemma Written.extract (zero : α) (hlen : vMatch.length = l.length) (hl : l.length ≤ 2 ^ 31)
    (htwins : TwinFree hash l vMatch) {restBits : List Bool} {restHashes : List α}
    (h : Written hash l vMatch height pos bits hashes) (hheight : height ≤ 32)
    (hn : t.nTransactions = l.length) (hbits : t.vBits.drop s.nBitsUsed = bits ++ restBits)
    (hhashes : t.vHash.drop s.nHashUsed = hashes ++ restHashes) :
    ∃ x, (levelNodes hash l height)[pos]? = some x ∧
      traverseAndExtract hash zero t height pos s =
        some (x, s.advance bits.length hashes.length l
          (matchedPositions vMatch (pos * 2 ^ height) (2 ^ height))) := by
  induction h generalizing s restBits restHashes with
  | @leaf pos x hx =>
    obtain ⟨hbit, -⟩ := of_drop_eq_cons hbits
    obtain ⟨hhash, -⟩ := of_drop_eq_cons hhashes
    refine ⟨x, hx, ?_⟩
    rw [traverseAndExtract, guarded_getElem?, hbit, elim_some, takeHash_eq]
    by_cases hmatch : vMatch[pos]? = some true <;>
      simp [hmatch, hhash, ExtractState.advance, ExtractState.useBit, matchedPositions, hx]
  | @stored height pos x hnone hx =>
    obtain ⟨hbit, -⟩ := of_drop_eq_cons hbits
    obtain ⟨hhash, -⟩ := of_drop_eq_cons hhashes
    refine ⟨x, hx, ?_⟩
    rw [traverseAndExtract, guarded_getElem?, hbit, hnone]
    simp [takeHash_eq, hhash, ExtractState.advance, ExtractState.useBit]
  | @inner height pos bits bits' hashes hashes' hsome hright left right ihLeft ihRight =>
    rw [cons_append, append_assoc] at hbits
    rw [append_assoc] at hhashes
    obtain ⟨hbit, hrest⟩ := of_drop_eq_cons hbits
    obtain ⟨x, hx, hleft⟩ := ihLeft (by omega) (s := s.useBit) hrest hhashes
    obtain ⟨y, hy, hright'⟩ := ihRight (by omega)
      (s := s.useBit.advance bits.length hashes.length l
        (matchedPositions vMatch (pos * 2 * 2 ^ height) (2 ^ height)))
      (by rw [ExtractState.advance, ExtractState.useBit, ← drop_drop, hrest, drop_left])
      (by rw [ExtractState.advance, ExtractState.useBit, ← drop_drop, hhashes,
        drop_left])
    have hne : y ≠ x := fun hxy => htwins height pos x hsome hx (hxy ▸ hy)
    refine ⟨hash x y, levelNodes_succ_eq_some_iff.mpr ⟨x, y, hx, by rwa [if_pos hright], rfl⟩, ?_⟩
    have hwide := (lt_calcTreeWidth_iff hl (show height ≤ 31 by omega) _).mpr hright
    rw [traverseAndExtract, guarded_getElem?, hbit, hn]
    simp only [elim_some, if_true, hleft, hright', if_pos hwide, bind_eq_bind, bind_some]
    simp only [ExtractState.advance_useBit, ExtractState.advance_advance, hne, decide_false,
      Bool.or_false, matchedPositions_succ, length_cons, length_append]
    rw [Nat.add_right_comm]
  | @last height pos bits hashes hsome hright left ih =>
    rw [cons_append] at hbits
    obtain ⟨hbit, hrest⟩ := of_drop_eq_cons hbits
    obtain ⟨x, hx, hleft⟩ := ih (by omega) (s := s.useBit) hrest hhashes
    refine ⟨hash x x, levelNodes_succ_eq_some_iff.mpr ⟨x, x, hx, by rw [if_neg hright], rfl⟩, ?_⟩
    have hnil : matchedPositions vMatch ((pos * 2 + 1) * 2 ^ height) (2 ^ height) = [] :=
      matchedPositions_eq_nil (hlen ▸ Nat.le_of_not_lt hright) _
    have hwide := mt (lt_calcTreeWidth_iff hl (show height ≤ 31 by omega) _).mp hright
    rw [traverseAndExtract, guarded_getElem?, hbit, hn]
    simp only [elim_some, if_true, hleft, if_neg hwide, bind_eq_bind,
      bind_some, ExtractState.advance_useBit, matchedPositions_succ, hnil, append_nil,
      length_cons]

lemma maxMerkleTransactions_le : maxMerkleTransactions ≤ 2 ^ 31 := by decide

/-- What was built is extracted: the root, and the matched transactions with their positions. -/
lemma exists_extracted (hlen : vMatch.length = l.length) (hne : l ≠ [])
    (hmax : l.length ≤ maxMerkleTransactions) (htwins : TwinFree hash l vMatch) :
    ∃ t s, buildPartialMerkleTree hash l vMatch = some t ∧
      extractMatches hash zero t [] = some ((computeMerkleRoot hash zero l).1, s) ∧
      s.vMatch = (matchedPositions vMatch 0 l.length).filterMap (l[·]?) ∧
      s.vnIndex = matchedPositions vMatch 0 l.length := by
  have hl := hmax.trans maxMerkleTransactions_le
  obtain ⟨htop, hheight, -⟩ := treeHeight_spec hl
  obtain ⟨bits, hashes, hwritten, hbuild⟩ := exists_built hash hlen hne hl
  let start : ExtractState α := ⟨false, 0, 0, [], []⟩
  obtain ⟨x, hx, hextract⟩ := hwritten.extract zero hlen hl htwins (hheight.trans (by decide))
    (t := ⟨l.length, bits, hashes, false⟩) (s := start) rfl (append_nil _).symm
    (append_nil _).symm
  obtain rfl : x = (computeMerkleRoot hash zero l).1 :=
    some.inj (hx.symm.trans (levelNodes_treeHeight hne hl).1)
  -- the positions beyond the last transaction have no match
  have hmatched : matchedPositions vMatch 0 (2 ^ treeHeight l.length) =
      matchedPositions vMatch 0 l.length := by
    rw [← add_sub_of_le htop, matchedPositions_append, zero_add,
      matchedPositions_eq_nil hlen.le, append_nil]
  have hleaves := hwritten.length_hashes_le_leaves.1
  rw [zero_mul, zero_add] at hleaves
  rw [zero_mul, hmatched] at hextract
  refine ⟨_, start.advance bits.length hashes.length l (matchedPositions vMatch 0 l.length),
    hbuild, ?_, nil_append _, nil_append _⟩
  simp only [extractMatches, length_eq_zero_iff, hne, if_false, not_lt.mpr hmax,
    not_lt.mpr hleaves, not_lt.mpr hwritten.length_hashes_le]
  rw [hextract]
  simp [start, ExtractState.advance]

/-! ### What a partial tree proves -/

/-- Every read of the traversal is within the two streams. -/
lemma exists_traverseAndExtract (hash : α → α → α) (zero : α) (t : CPartialMerkleTree α)
    (height pos : ℕ) (s : ExtractState α) :
    ∃ r, traverseAndExtract hash zero t height pos s = some r := by
  induction height generalizing pos s with
  | zero =>
    rw [traverseAndExtract, guarded_getElem?]
    cases t.vBits[s.nBitsUsed]? with
    | none => exact ⟨_, rfl⟩
    | some bit => exact ⟨_, takeHash_eq ..⟩
  | succ height ih =>
    rw [traverseAndExtract, guarded_getElem?]
    obtain ⟨⟨left, s₁⟩, hleft⟩ := ih (pos * 2) s.useBit
    obtain ⟨⟨right, s₂⟩, hright⟩ := ih (pos * 2 + 1) s₁
    match t.vBits[s.nBitsUsed]? with
    | none => exact ⟨_, rfl⟩
    | some false => exact ⟨_, takeHash_eq ..⟩
    | some true =>
      simp only [elim_some, if_true, hleft, hright, bind_eq_bind, bind_some]
      split_ifs
      · exact ⟨_, rfl⟩
      · exact ⟨_, rfl⟩

/-- The extraction returns. -/
lemma exists_extractMatches (hash : α → α → α) (zero : α) (t : CPartialMerkleTree α)
    (vnIndex : List ℕ) : ∃ r, extractMatches hash zero t vnIndex = some r := by
  obtain ⟨⟨root, s⟩, h⟩ := exists_traverseAndExtract hash zero t (treeHeight t.nTransactions) 0
    ⟨t.fBad, 0, 0, [], vnIndex⟩
  simp only [extractMatches, h, bind_eq_bind, bind_some]
  split_ifs <;> exact ⟨_, rfl⟩

/-- Against the hashes of the block's own tree an injective hash leaves no freedom: the children
of a node with the right hash have the right hashes. -/
lemma Genuine.traverseAndExtract (hinj : Function.Injective2 hash) (hl : l.length ≤ 2 ^ 31)
    (hn : t.nTransactions = l.length) (hheight : height ≤ 32) {s' : ExtractState α}
    (hs : Genuine l s) (h : Aegisum.traverseAndExtract hash zero t height pos s = some (x, s'))
    (hx : (levelNodes hash l height)[pos]? = some x) : Genuine l s' := by
  induction height generalizing pos s s' x with
  | zero =>
    rw [Aegisum.traverseAndExtract, guarded_getElem?] at h
    cases hbit : t.vBits[s.nBitsUsed]? with
    | none =>
      rw [hbit] at h
      obtain ⟨rfl, rfl⟩ := Prod.mk.inj (some.inj h)
      exact hs
    | some bit =>
      rw [hbit] at h
      exact Genuine.takeHash (s := s.useBit) hs h fun _ => hx
  | succ height ih =>
    rw [Aegisum.traverseAndExtract, guarded_getElem?] at h
    match hbit : t.vBits[s.nBitsUsed]? with
    | none =>
      rw [hbit] at h
      obtain ⟨rfl, rfl⟩ := Prod.mk.inj (some.inj h)
      exact hs
    | some false =>
      rw [hbit] at h
      exact Genuine.takeHash (s := s.useBit) hs h nofun
    | some true =>
      obtain ⟨⟨left, s₁⟩, hleft⟩ := exists_traverseAndExtract hash zero t height (pos * 2) s.useBit
      obtain ⟨⟨right, s₂⟩, hright⟩ := exists_traverseAndExtract hash zero t height (pos * 2 + 1) s₁
      obtain ⟨left', right', hleft', hright', rfl⟩ := levelNodes_succ_eq_some_iff.mp hx
      simp only [hbit, hn, elim_some, if_true, hleft, hright, bind_eq_bind,
        bind_some, lt_calcTreeWidth_iff hl (show height ≤ 31 by omega)] at h
      split_ifs at h hright' with hwide
      · obtain ⟨heq, rfl⟩ := Prod.mk.inj (some.inj h)
        obtain ⟨rfl, rfl⟩ := hinj heq
        have hs₁ : Genuine l s₁ := ih (by omega) (s := s.useBit) hs hleft hleft'
        have hs₂ : Genuine l s₂ := ih (by omega) hs₁ hright hright'
        exact hs₂
      · obtain ⟨heq, rfl⟩ := Prod.mk.inj (some.inj h)
        obtain ⟨rfl, rfl⟩ := hinj heq
        exact ih (by omega) (s := s.useBit) hs hleft hleft'

/-- The right root means genuine matches. -/
lemma genuine_of_extractMatches (hinj : Function.Injective2 hash) (hne : l ≠ [])
    (hn : t.nTransactions = l.length)
    (h : extractMatches hash zero t [] = some ((computeMerkleRoot hash zero l).1, s))
    (hzero : (computeMerkleRoot hash zero l).1 ≠ zero) : Genuine l s := by
  have hnone : ∀ s' : ExtractState α,
      some (zero, s') ≠ some ((computeMerkleRoot hash zero l).1, s) := fun s' heq =>
    hzero (Prod.mk.inj (some.inj heq)).1.symm
  obtain ⟨⟨root, s₁⟩, hextract⟩ := exists_traverseAndExtract hash zero t
    (treeHeight t.nTransactions) 0 ⟨t.fBad, 0, 0, [], []⟩
  simp only [extractMatches, hextract, bind_eq_bind, bind_some] at h
  split_ifs at h with h₁ hmax
  all_goals first | exact absurd h (hnone _) | skip
  obtain ⟨rfl, rfl⟩ := Prod.mk.inj (some.inj h)
  have hl : l.length ≤ 2 ^ 31 := by
    rw [← hn]
    exact (Nat.le_of_not_lt hmax).trans maxMerkleTransactions_le
  rw [hn] at hextract
  have hstart : Genuine l ⟨t.fBad, 0, 0, [], []⟩ := .nil
  exact hstart.traverseAndExtract hinj hl hn ((treeHeight_spec hl).2.1.trans (by decide))
    hextract (levelNodes_treeHeight hne hl).1

/-- A list for which no mutation is reported has no twins anywhere. -/
lemma twinFree_of_not_mutated (hne : l ≠ []) (hl : l.length ≤ 2 ^ 31)
    (hmut : (computeMerkleRoot hash zero l).2 = false) (vMatch : List Bool) :
    TwinFree hash l vMatch := by
  intro height pos x _ hx
  rcases Nat.lt_or_ge height (treeHeight l.length) with hlow | hhigh
  · have hlevel := (levelNodes_treeHeight hne hl).2 hmut height hlow
    exact hasTwins_eq_false_iff.mp hlevel pos x hx
  · have hpow : 2 ^ treeHeight l.length ≤ 2 ^ height := Nat.pow_le_pow_right (by decide) hhigh
    have hshort : (levelNodes hash l height).length ≤ pos * 2 + 1 := Nat.le_of_not_lt fun hlt => by
      have h := (lt_length_levelNodes_iff hash l height _).mp hlt
      have htop := (treeHeight_spec hl).1
      have hone : 2 ^ height ≤ (pos * 2 + 1) * 2 ^ height := Nat.le_mul_of_pos_left _ (by omega)
      omega
    simp [getElem?_eq_none hshort]

/-- Partial trees are complete: what was built for a list and a mask gives the Merkle root and
exactly the matched transactions with their positions.  They are sound: whatever tree gives the
root of a block, with as many transactions as the block, reports transactions of the block at
their positions.  And no vector is read out of range. -/
theorem partialMerkleTree_complete_and_sound (hash : α → α → α) (zero : α) {l : List α}
    (hne : l ≠ []) :
    (∀ vMatch : List Bool, vMatch.length = l.length → l.length ≤ maxMerkleTransactions →
      TwinFree hash l vMatch →
      ∃ t s, buildPartialMerkleTree hash l vMatch = some t ∧
        extractMatches hash zero t [] = some ((computeMerkleRoot hash zero l).1, s) ∧
        s.vMatch = (matchedPositions vMatch 0 l.length).filterMap (l[·]?) ∧
        s.vnIndex = matchedPositions vMatch 0 l.length) ∧
    (Function.Injective2 hash → ∀ (t : CPartialMerkleTree α) (s : ExtractState α),
      t.nTransactions = l.length →
      extractMatches hash zero t [] = some ((computeMerkleRoot hash zero l).1, s) →
      (computeMerkleRoot hash zero l).1 ≠ zero →
      List.Forall₂ (fun x p => l[p]? = some x) s.vMatch s.vnIndex) ∧
    (∀ (t : CPartialMerkleTree α) (vnIndex : List ℕ),
      ∃ r, extractMatches hash zero t vnIndex = some r) ∧
    (∀ vMatch : List Bool, vMatch.length = l.length → l.length ≤ 2 ^ 31 →
      ∃ t, buildPartialMerkleTree hash l vMatch = some t) := by
  refine ⟨fun vMatch hlen hmax htwins => exists_extracted hlen hne hmax htwins,
    fun hinj t s hn h hzero => genuine_of_extractMatches hinj hne hn h hzero,
    fun t vnIndex => exists_extractMatches hash zero t vnIndex, fun vMatch hlen hl => ?_⟩
  obtain ⟨bits, hashes, -, hbuild⟩ := exists_built hash hlen hne hl
  exact ⟨_, hbuild⟩

/-- The second of three transactions is proved, and the proof is accepted. -/
theorem partialMerkleTree_complete_and_sound_three :
    ∃ t s, buildPartialMerkleTree FreeMagma.mul [FreeMagma.of 1, .of 2, .of 3]
        [false, true, false] = some t ∧
      extractMatches FreeMagma.mul (FreeMagma.of 0) t [] =
        some ((computeMerkleRoot FreeMagma.mul (FreeMagma.of 0) [.of 1, .of 2, .of 3]).1, s) ∧
      s.vMatch = [FreeMagma.of 2] ∧ s.vnIndex = [1] ∧
      List.Forall₂ (fun x p => [FreeMagma.of 1, .of 2, .of 3][p]? = some x) s.vMatch s.vnIndex := by
  have hinj : Function.Injective2 (FreeMagma.mul (α := ℕ)) := by
    intro a a' b b' h
    cases h
    exact ⟨rfl, rfl⟩
  have hmut : (computeMerkleRoot FreeMagma.mul (FreeMagma.of 0)
      [FreeMagma.of 1, .of 2, .of 3]).2 = false := by decide
  have htwins : TwinFree FreeMagma.mul [FreeMagma.of 1, .of 2, .of 3] [false, true, false] :=
    twinFree_of_not_mutated (by simp) (by decide) hmut _
  have htheorem := partialMerkleTree_complete_and_sound FreeMagma.mul (FreeMagma.of 0)
    (l := [FreeMagma.of 1, .of 2, .of 3]) (by simp)
  obtain ⟨t, s, hbuild, hextract, hmatch, hindex⟩ := htheorem.1 _ rfl (by decide) htwins
  have hn : t.nTransactions = 3 := by
    have hfields : (buildPartialMerkleTree FreeMagma.mul [FreeMagma.of 1, .of 2, .of 3]
      [false, true, false]).map (·.nTransactions) = some 3 := by decide
    rw [hbuild] at hfields
    exact Option.some.inj hfields
  exact ⟨t, s, hbuild, hextract, hmatch, hindex,
    htheorem.2.1 hinj t s hn hextract (by decide)⟩

/-- Two equal transactions: the root is not extracted from the tree that was built for them. -/
theorem extractMatches_ne_root_of_equal :
    ∃ t s, buildPartialMerkleTree FreeMagma.mul [FreeMagma.of 1, .of 1] [true, false] = some t ∧
      extractMatches FreeMagma.mul (FreeMagma.of 0) t [] = some (FreeMagma.of 0, s) ∧
      (computeMerkleRoot FreeMagma.mul (FreeMagma.of 0) [.of 1, .of 1]).1 ≠ FreeMagma.of 0 :=
  ⟨⟨2, [true, true, false], [.of 1, .of 1], false⟩, ⟨true, 3, 2, [.of 1], [0]⟩, by decide,
    by decide, by decide⟩

end Aegisum
