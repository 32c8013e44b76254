import Mathlib.Data.Int.Notation
import Aegisum.Foundations.Checked

/-!
# Skip pointers of the block index

`GetAncestor` walks down the block index by `pprev` and by the pointers `pskip` that `BuildSkip`
sets, and chooses between the two by the bits of the heights.  Whatever it chooses, it arrives at
the block that is reached by `pprev` alone: a skip pointer leads to an ancestor, and it is taken
only if this ancestor is not below the height that is looked for.  `LastCommonAncestor` walks from
two blocks at once.  An entry is given by its number in the order in which the entries were added.
-/

namespace Aegisum

/-- What the walks read of an entry of the block index. -/
structure IndexEntry where
  pprev : Option ℕ
  pskip : Option ℕ
  nHeight : ℕ
deriving DecidableEq

/-- The entries of the block index in the order in which they were added. -/
abbrev SkipIndex := List IndexEntry

/-- Why a walk stops. -/
inductive WalkError
  | assertion
  | invalidPointer
  | outOfFuel
deriving DecidableEq

/-- Turn the lowest one of a binary number into a zero. -/
def invertLowestOne (n : ℕ) : ℕ := n &&& (n - 1)

/-- The height that the skip pointer of an entry leads to. -/
def getSkipHeight (height : ℕ) : ℕ :=
  if height < 2 then 0
  else if height % 2 = 1 then invertLowestOne (invertLowestOne (height - 1)) + 1
  else invertLowestOne height

/-- A skip pointer leads down. -/
lemma getSkipHeight_succ_le (height : ℕ) : getSkipHeight (height + 1) ≤ height := by
  have hodd : invertLowestOne (invertLowestOne height) ≤ height - 1 :=
    Nat.le_trans Nat.and_le_left Nat.and_le_right
  have heven : invertLowestOne (height + 1) ≤ height := Nat.and_le_right
  rw [getSkipHeight, Nat.add_sub_cancel]
  split_ifs <;> omega

/-- Whether a skip pointer is taken on the way to a height. -/
def FollowsSkip (height heightSkip heightSkipPrev : ℕ) : Prop :=
  heightSkip = height ∨
    heightSkip > height ∧ ¬ (heightSkipPrev + 2 < heightSkip ∧ heightSkipPrev ≥ height)

instance (height heightSkip heightSkipPrev : ℕ) :
    Decidable (FollowsSkip height heightSkip heightSkipPrev) :=
  inferInstanceAs (Decidable (_ ∨ _))

namespace SkipIndex

/-- The entry that a pointer refers to. -/
def deref (t : SkipIndex) (p : ℕ) : Except WalkError IndexEntry :=
  match t[p]? with
  | some entry => .ok entry
  | none => .error .invalidPointer

/-- The loop of `GetAncestor`. -/
def getAncestorLoop (t : SkipIndex) (height : ℕ) : ℕ → ℕ → ℕ → Except WalkError ℕ
  | 0, pindexWalk, heightWalk =>
    if heightWalk > height then .error .outOfFuel else .ok pindexWalk
  | fuel + 1, pindexWalk, heightWalk =>
    if heightWalk > height then do
      let heightSkip := getSkipHeight heightWalk
      let heightSkipPrev := getSkipHeight (heightWalk - 1)
      let entry ← t.deref pindexWalk
      match entry.pskip.filter fun _ => FollowsSkip height heightSkip heightSkipPrev,
        entry.pprev with
      | some pskip, _ => getAncestorLoop t height fuel pskip heightSkip
      | none, some pprev => getAncestorLoop t height fuel pprev (heightWalk - 1)
      | none, none => .error .assertion
    else .ok pindexWalk

/-- The ancestor of a block at a height, or the null pointer. -/
def getAncestor (t : SkipIndex) (block : ℕ) (height : ℤ) : Except WalkError (Option ℕ) := do
  let entry ← t.deref block
  if height > entry.nHeight ∨ height < 0 then pure none
  else
    let ancestor ← t.getAncestorLoop height.toNat entry.nHeight block entry.nHeight
    pure (some ancestor)

/-- A new entry is linked to its parent, and `BuildSkip` sets its skip pointer. -/
def addBlock (t : SkipIndex) (pprev : ℕ) : Except WalkError SkipIndex := do
  let prev ← t.deref pprev
  let nHeight := prev.nHeight + 1
  let pskip ← t.getAncestor pprev (getSkipHeight nHeight)
  pure (t ++ [⟨some pprev, pskip, nHeight⟩])

/-- The loop of `LastCommonAncestor`. -/
def lastCommonAncestorLoop (t : SkipIndex) :
    ℕ → Option ℕ → Option ℕ → Except WalkError (Option ℕ)
  | 0, pa, pb => if pa = pb then .ok pa else .error .outOfFuel
  | fuel + 1, some a, some b =>
    if a = b then .ok (some a)
    else do
      let entryA ← t.deref a
      let entryB ← t.deref b
      lastCommonAncestorLoop t fuel entryA.pprev entryB.pprev
  | _ + 1, pa, pb => if pa = pb then .ok pa else .error .assertion

/-- The higher one of two blocks is replaced by its ancestor at the height of the other one. -/
def levelWith (t : SkipIndex) (block height otherHeight : ℕ) : Except WalkError (Option ℕ) :=
  if height > otherHeight then t.getAncestor block otherHeight else .ok (some block)

/-- The last common ancestor of two blocks. -/
def lastCommonAncestor (t : SkipIndex) (a b : ℕ) : Except WalkError (Option ℕ) := do
  let entryA ← t.deref a
  let entryB ← t.deref b
  let pa ← t.levelWith a entryA.nHeight entryB.nHeight
  let pb ← t.levelWith b entryB.nHeight entryA.nHeight
  t.lastCommonAncestorLoop entryA.nHeight pa pb

/-- The block trees: a genesis block, and blocks added to it one after the other. -/
inductive Built : SkipIndex → Prop
  | genesis : Built [⟨none, none, 0⟩]
  | addBlock {t t' : SkipIndex} {p : ℕ} : Built t → t.addBlock p = .ok t' → Built t'

/-! ### Walking by `pprev` -/

/-- The block that is reached by following `pprev` a number of times. -/
def walkBack (t : SkipIndex) : ℕ → ℕ → Option ℕ
  | 0, i => some i
  | k + 1, i => (t[i]?.bind IndexEntry.pprev).bind (walkBack t k)

/-- A block is an ancestor of another one, or this block itself. -/
def IsAncestor (t : SkipIndex) (a i : ℕ) : Prop := ∃ k, t.walkBack k i = some a

/-- Every entry but the first is one higher than its parent, which was added before, and its skip
pointer leads to an ancestor. -/
def Linked (t : SkipIndex) : Prop :=
  ∀ i entry, t[i]? = some entry → i = 0 ∧ entry = ⟨none, none, 0⟩ ∨
    ∃ p prev, t[p]? = some prev ∧ p < i ∧ entry = ⟨some p,
      t.walkBack (prev.nHeight - getSkipHeight (prev.nHeight + 1)) p, prev.nHeight + 1⟩

lemma walkBack_add (t : SkipIndex) (k l i : ℕ) :
    t.walkBack (k + l) i = (t.walkBack k i).bind (t.walkBack l) := by
  induction k generalizing i with
  | zero => rw [Nat.zero_add]; rfl
  | succ k ih =>
    rw [Nat.succ_add, walkBack, walkBack]
    cases t[i]?.bind IndexEntry.pprev with
    | none => rfl
    | some p => exact ih p

lemma IsAncestor.trans {t : SkipIndex} {a b c : ℕ} (hab : t.IsAncestor a b)
    (hbc : t.IsAncestor b c) : t.IsAncestor a c := by
  obtain ⟨k, hk⟩ := hab
  obtain ⟨l, hl⟩ := hbc
  exact ⟨l + k, by rw [walkBack_add, hl]; exact hk⟩

section Linked

variable {t : SkipIndex} (ht : t.Linked) {i : ℕ} {entry : IndexEntry}

include ht

/-- All blocks but the genesis block have a parent. -/
lemma Linked.parent (hi : t[i]? = some entry) : i = 0 ∧ entry.nHeight = 0 ∧ entry.pprev = none ∨
    ∃ p prev, t[p]? = some prev ∧ entry.pprev = some p ∧ prev.nHeight + 1 = entry.nHeight := by
  obtain ⟨rfl, rfl⟩ | ⟨p, prev, hp, -, rfl⟩ := ht i entry hi
  · exact .inl ⟨rfl, rfl, rfl⟩
  · exact .inr ⟨p, prev, hp, rfl, rfl⟩

/-- Every step goes down by one. -/
lemma Linked.nHeight_walkBack (hi : t[i]? = some entry) {k j : ℕ} (hj : t.walkBack k i = some j) :
    ∃ entry', t[j]? = some entry' ∧ entry'.nHeight + k = entry.nHeight := by
  induction k generalizing i entry with
  | zero =>
    obtain rfl := Option.some.inj hj
    exact ⟨entry, hi, rfl⟩
  | succ k ih =>
    rw [walkBack, hi, Option.bind_some] at hj
    obtain ⟨-, -, hnone⟩ | ⟨p, prev, hp, hpprev, hheight⟩ := ht.parent hi
    · rw [hnone] at hj
      cases hj
    · rw [hpprev] at hj
      obtain ⟨entry', hj, hsum⟩ := ih hp hj
      exact ⟨entry', hj, by omega⟩

/-- There is an ancestor at every height. -/
lemma Linked.exists_walkBack (hi : t[i]? = some entry) {k : ℕ} (hk : k ≤ entry.nHeight) :
    ∃ j, t.walkBack k i = some j := by
  induction k generalizing i entry with
  | zero => exact ⟨i, rfl⟩
  | succ k ih =>
    obtain ⟨-, hzero, -⟩ | ⟨p, prev, hp, hpprev, hheight⟩ := ht.parent hi
    · omega
    · rw [walkBack, hi, Option.bind_some, hpprev]
      exact ih hp (by omega)

/-- The walk arrives at the ancestor of the height that is looked for. -/
lemma Linked.getAncestorLoop_eq {height fuel : ℕ} (hi : t[i]? = some entry)
    (hheight : height ≤ entry.nHeight) (hfuel : entry.nHeight ≤ fuel + height) :
    ∃ j, t.getAncestorLoop height fuel i entry.nHeight = .ok j ∧
      t.walkBack (entry.nHeight - height) i = some j := by
  induction fuel generalizing i entry with
  | zero =>
    rw [getAncestorLoop, if_neg (by omega), show entry.nHeight - height = 0 by omega]
    exact ⟨i, rfl, rfl⟩
  | succ fuel ih =>
    rw [getAncestorLoop]
    by_cases hdone : entry.nHeight > height
    swap
    · rw [if_neg hdone, show entry.nHeight - height = 0 by omega]
      exact ⟨i, rfl, rfl⟩
    rw [if_pos hdone]
    obtain ⟨-, rfl⟩ | ⟨p, prev, hp, -, hentry⟩ := ht i entry hi
    · cases hdone
    have hskip := getSkipHeight_succ_le prev.nHeight
    obtain ⟨s, hs⟩ := ht.exists_walkBack hp
      (Nat.sub_le prev.nHeight (getSkipHeight (prev.nHeight + 1)))
    obtain ⟨entryS, hentryS, hheightS⟩ := ht.nHeight_walkBack hp hs
    rw [hs] at hentry
    subst hentry
    have hstep : ∀ k, t.walkBack (k + 1) i = t.walkBack k p := by
      intro k
      rw [walkBack, hi]
      rfl
    rw [deref, hi]
    dsimp only [bind, Except.bind, Option.filter] at hdone hheight hfuel ⊢
    split_ifs with hfollow
    · -- the skip pointer leads to an ancestor that is not below the height
      have hle : height ≤ getSkipHeight (prev.nHeight + 1) := by
        rcases of_decide_eq_true hfollow with heq | hgt <;> omega
      have hS : entryS.nHeight = getSkipHeight (prev.nHeight + 1) := by omega
      obtain ⟨j, hloop, hwalk⟩ := ih hentryS (by omega) (by omega)
      rw [hS] at hloop hwalk
      refine ⟨j, hloop, ?_⟩
      rw [show prev.nHeight + 1 - height = prev.nHeight - getSkipHeight (prev.nHeight + 1) +
        (getSkipHeight (prev.nHeight + 1) - height) + 1 by omega, hstep, walkBack_add, hs]
      exact hwalk
    · obtain ⟨j, hloop, hwalk⟩ := ih hp (by omega) (by omega)
      refine ⟨j, hloop, ?_⟩
      rw [show prev.nHeight + 1 - height = prev.nHeight - height + 1 by omega, hstep]
      exact hwalk

/-- `GetAncestor` returns the block that is reached by `pprev`. -/
lemma Linked.getAncestor_eq {height : ℕ} (hi : t[i]? = some entry)
    (hheight : height ≤ entry.nHeight) :
    ∃ j, t.getAncestor i height = .ok (some j) ∧
      t.walkBack (entry.nHeight - height) i = some j := by
  obtain ⟨j, hloop, hwalk⟩ := ht.getAncestorLoop_eq hi hheight
    (show entry.nHeight ≤ entry.nHeight + height by omega)
  refine ⟨j, ?_, hwalk⟩
  rw [getAncestor, deref, hi]
  dsimp only [bind, Except.bind]
  rw [if_neg (by omega), Int.toNat_natCast, hloop]
  rfl

/-- A new entry does not change the walks from the others. -/
lemma Linked.walkBack_append (new : IndexEntry) (hi : i < t.length) (k : ℕ) :
    walkBack (t ++ [new]) k i = t.walkBack k i := by
  induction k generalizing i with
  | zero => rfl
  | succ k ih =>
    rw [walkBack, walkBack, List.getElem?_append_left hi, List.getElem?_eq_getElem hi]
    obtain ⟨-, hentry⟩ | ⟨p, prev, hp, hlt, hentry⟩ := ht i _ (List.getElem?_eq_getElem hi)
    · rw [hentry]
      rfl
    · rw [hentry]
      exact ih (Nat.lt_trans hlt hi)

/-- A block can be added to every block, and the entries stay linked. -/
lemma Linked.addBlock_eq {p : ℕ} (hp : p < t.length) :
    ∃ t', t.addBlock p = .ok t' ∧ Linked t' := by
  have hprev := List.getElem?_eq_getElem hp
  generalize t[p] = prev at hprev
  obtain ⟨s, hskip, hwalk⟩ := ht.getAncestor_eq hprev (getSkipHeight_succ_le prev.nHeight)
  refine ⟨t ++ [⟨some p, some s, prev.nHeight + 1⟩], ?_, ?_⟩
  · rw [addBlock, deref, hprev]
    dsimp only [bind, Except.bind]
    rw [hskip]
    rfl
  · intro i entry hi
    by_cases hlt : i < t.length
    · rw [List.getElem?_append_left hlt] at hi
      obtain hroot | ⟨q, prev', hq, hqi, hentry⟩ := ht i entry hi
      · exact .inl hroot
      · refine .inr ⟨q, prev', ?_, hqi, ?_⟩
        · rwa [List.getElem?_append_left (by omega)]
        · rwa [ht.walkBack_append _ (by omega)]
    · rw [List.getElem?_append_right (by omega)] at hi
      obtain ⟨hlast, rfl⟩ : i - t.length = 0 ∧
          (⟨some p, some s, prev.nHeight + 1⟩ : IndexEntry) = entry := by
        simpa [List.getElem?_singleton, eq_comm] using hi
      refine .inr ⟨p, prev, ?_, by omega, ?_⟩
      · rwa [List.getElem?_append_left hp]
      · rw [ht.walkBack_append _ hp, hwalk]

end Linked

lemma Built.linked {t : SkipIndex} (h : Built t) : t.Linked := by
  induction h with
  | genesis =>
    intro i entry hi
    rcases i with _ | i
    · exact .inl ⟨rfl, (Option.some.inj hi).symm⟩
    · cases hi
  | @addBlock t t' p _ hadd ih =>
    obtain ⟨prev, hprev, -⟩ := bind_eq_ok.mp hadd
    have hp : p < t.length := by
      by_contra hge
      rw [deref, List.getElem?_eq_none (by omega)] at hprev
      cases hprev
    obtain ⟨t'', hadd', hlinked⟩ := ih.addBlock_eq hp
    obtain rfl := Except.ok.inj (hadd.symm.trans hadd')
    exact hlinked

/-! ### Common ancestors -/

section Common

variable {t : SkipIndex} (ht : t.Linked) {a b : ℕ} {entryA entryB : IndexEntry}
  (ha : t[a]? = some entryA) (hb : t[b]? = some entryB)

include ha in
/-- The ancestors of a block are the block and those of its parent. -/
lemma isAncestor_iff {p d : ℕ} (hp : entryA.pprev = some p) :
    t.IsAncestor d a ↔ d = a ∨ t.IsAncestor d p := by
  have hstep : ∀ k, t.walkBack (k + 1) a = t.walkBack k p := by
    intro k
    rw [walkBack, ha, Option.bind_some, hp]
    rfl
  constructor
  · rintro ⟨_ | k, hk⟩
    · exact .inl (Option.some.inj hk).symm
    · exact .inr ⟨k, by rwa [← hstep]⟩
  · rintro (rfl | ⟨k, hk⟩)
    · exact ⟨0, rfl⟩
    · exact ⟨k + 1, by rwa [hstep]⟩

include ht ha hb

/-- What two blocks have in common, they have in common below the height of the lower one. -/
lemma Linked.levelWith_eq :
    ∃ c entryC, t.levelWith a entryA.nHeight entryB.nHeight = .ok (some c) ∧
      t[c]? = some entryC ∧ entryC.nHeight = min entryA.nHeight entryB.nHeight ∧
      t.IsAncestor c a ∧ ∀ d, t.IsAncestor d a → t.IsAncestor d b → t.IsAncestor d c := by
  rw [levelWith]
  split
  case isFalse hle =>
    exact ⟨a, entryA, rfl, ha, by omega, ⟨0, rfl⟩, fun d hd _ => hd⟩
  case isTrue hgt =>
    obtain ⟨c, hget, hwalk⟩ := ht.getAncestor_eq ha (Nat.le_of_lt hgt)
    obtain ⟨entryC, hc, hheight⟩ := ht.nHeight_walkBack ha hwalk
    refine ⟨c, entryC, hget, hc, by omega, ⟨_, hwalk⟩, ?_⟩
    rintro d ⟨k, hk⟩ ⟨l, hl⟩
    obtain ⟨entryD, hd, hdA⟩ := ht.nHeight_walkBack ha hk
    obtain ⟨entryD', hd', hdB⟩ := ht.nHeight_walkBack hb hl
    obtain rfl := Option.some.inj (hd.symm.trans hd')
    refine ⟨l, ?_⟩
    rwa [show k = entryA.nHeight - entryB.nHeight + l by omega, walkBack_add, hwalk] at hk

/-- There is one genesis block. -/
lemma Linked.eq_of_nHeight_eq_zero (hA : entryA.nHeight = 0) (hB : entryB.nHeight = 0) :
    a = b := by
  obtain ⟨rfl, -⟩ | ⟨_, _, -, -, hne⟩ := ht.parent ha
  · obtain ⟨rfl, -⟩ | ⟨_, _, -, -, hne⟩ := ht.parent hb
    · rfl
    · omega
  · omega

/-- An ancestor of the same height is the block itself. -/
lemma Linked.eq_of_isAncestor (hheight : entryA.nHeight = entryB.nHeight)
    (h : t.IsAncestor a b) : a = b := by
  obtain ⟨k, hk⟩ := h
  obtain ⟨entry, hentry, hsum⟩ := ht.nHeight_walkBack hb hk
  obtain rfl := Option.some.inj (ha.symm.trans hentry)
  obtain rfl : k = 0 := by omega
  exact (Option.some.inj hk).symm

/-- From two blocks of one height the loop arrives at the last block they have in common. -/
lemma Linked.lastCommonAncestorLoop_eq {fuel : ℕ} (hheight : entryA.nHeight = entryB.nHeight)
    (hfuel : entryA.nHeight ≤ fuel) :
    ∃ c, t.lastCommonAncestorLoop fuel (some a) (some b) = .ok (some c) ∧
      t.IsAncestor c a ∧ t.IsAncestor c b ∧
      ∀ d, t.IsAncestor d a → t.IsAncestor d b → t.IsAncestor d c := by
  induction fuel generalizing a b entryA entryB with
  | zero =>
    obtain rfl : a = b := ht.eq_of_nHeight_eq_zero ha hb (by omega) (by omega)
    exact ⟨a, if_pos rfl, ⟨0, rfl⟩, ⟨0, rfl⟩, fun d hd _ => hd⟩
  | succ fuel ih =>
    rw [lastCommonAncestorLoop]
    by_cases hab : a = b
    · subst hab
      exact ⟨a, if_pos rfl, ⟨0, rfl⟩, ⟨0, rfl⟩, fun d hd _ => hd⟩
    obtain ⟨-, hzero, -⟩ | ⟨p, prevA, hp, hpa, hA⟩ := ht.parent ha
    · exact absurd (ht.eq_of_nHeight_eq_zero ha hb hzero (by omega)) hab
    obtain ⟨-, hzero, -⟩ | ⟨q, prevB, hq, hpb, hB⟩ := ht.parent hb
    · exact absurd (ht.eq_of_nHeight_eq_zero ha hb (by omega) hzero) hab
    obtain ⟨c, hloop, hca, hcb, hlast⟩ := ih hp hq (by omega) (by omega)
    refine ⟨c, ?_, (isAncestor_iff ha hpa).mpr (.inr hca), (isAncestor_iff hb hpb).mpr (.inr hcb),
      ?_⟩
    · rw [if_neg hab, deref, deref, ha, hb, ← hloop, ← hpa, ← hpb]
      rfl
    · intro d hda hdb
      -- the two blocks are different, so neither of them is an ancestor of both
      rcases (isAncestor_iff ha hpa).mp hda with rfl | hdp
      · exact absurd (ht.eq_of_isAncestor ha hb hheight hdb) hab
      rcases (isAncestor_iff hb hpb).mp hdb with rfl | hdq
      · exact absurd (ht.eq_of_isAncestor hb ha hheight.symm hda).symm hab
      exact hlast d hdp hdq

/-- `LastCommonAncestor` returns the last block that two blocks have in common. -/
lemma Linked.lastCommonAncestor_eq :
    ∃ c, t.lastCommonAncestor a b = .ok (some c) ∧ t.IsAncestor c a ∧ t.IsAncestor c b ∧
      ∀ d, t.IsAncestor d a → t.IsAncestor d b → t.IsAncestor d c := by
  obtain ⟨a', entryA', hlevelA, ha', hheightA, hancA, hcommonA⟩ := ht.levelWith_eq ha hb
  obtain ⟨b', entryB', hlevelB, hb', hheightB, hancB, hcommonB⟩ := ht.levelWith_eq hb ha
  obtain ⟨c, hloop, hca, hcb, hlast⟩ :=
    ht.lastCommonAncestorLoop_eq ha' hb' (by omega) (show entryA'.nHeight ≤ entryA.nHeight by omega)
  refine ⟨c, ?_, hca.trans hancA, hcb.trans hancB, ?_⟩
  · rw [lastCommonAncestor, deref, deref, ha, hb]
    dsimp only [bind, Except.bind]
    rw [hlevelA, hlevelB]
    exact hloop
  · intro d hda hdb
    exact hlast d (hcommonA d hda hdb) (hcommonB d hdb hda)

end Common

/-- In every block tree a block can be added to every block, `GetAncestor` returns the block that
is reached by `pprev` at every height not above the block, and `LastCommonAncestor` returns the
deepest common ancestor: all others are ancestors of it.  No assertion fails on the way. -/
theorem skip_walks_correct {t : SkipIndex} (ht : t.Built) :
    (∀ p < t.length, ∃ t', t.addBlock p = .ok t') ∧
    (∀ i entry, t[i]? = some entry → ∀ height : ℕ, height ≤ entry.nHeight → ∃ j,
      t.getAncestor i height = .ok (some j) ∧ t.walkBack (entry.nHeight - height) i = some j) ∧
    ∀ a < t.length, ∀ b < t.length, ∃ c, t.lastCommonAncestor a b = .ok (some c) ∧
      t.IsAncestor c a ∧ t.IsAncestor c b ∧
      ∀ d, t.IsAncestor d a → t.IsAncestor d b → t.IsAncestor d c := by
  refine ⟨fun p hp => ?_, fun i entry hi height hle => ht.linked.getAncestor_eq hi hle, ?_⟩
  · obtain ⟨t', hadd, -⟩ := ht.linked.addBlock_eq hp
    exact ⟨t', hadd⟩
  · intro a ha b hb
    exact ht.linked.lastCommonAncestor_eq (List.getElem?_eq_getElem ha)
      (List.getElem?_eq_getElem hb)

/-- Two blocks on the genesis block, and two more on the second one. -/
def forkedIndex : SkipIndex :=
  [⟨none, none, 0⟩, ⟨some 0, some 0, 1⟩, ⟨some 0, some 0, 1⟩, ⟨some 2, some 0, 2⟩,
    ⟨some 3, some 2, 3⟩]

theorem skip_walks_correct_forkedIndex : forkedIndex.Built ∧
    (∃ j, forkedIndex.getAncestor 4 (1 : ℕ) = .ok (some j) ∧
      forkedIndex.walkBack (3 - 1) 4 = some j) := by
  have hone : Built (forkedIndex.take 2) := .addBlock (p := 0) .genesis rfl
  have htwo : Built (forkedIndex.take 3) := .addBlock (p := 0) hone rfl
  have hthree : Built (forkedIndex.take 4) := .addBlock (p := 2) htwo rfl
  have hfour : Built forkedIndex := .addBlock (p := 3) hthree rfl
  exact ⟨hfour, (skip_walks_correct hfour).2.1 4 _ rfl 1 (by decide)⟩

end SkipIndex

end Aegisum
