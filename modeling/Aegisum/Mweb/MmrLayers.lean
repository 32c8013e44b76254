import Aegisum.Mweb.PrunableMmr
import Aegisum.Model.Symbolic

/-!
# Caches on top of a Merkle mountain range

A stack of `PMMRCache`s on top of a `PMMR` without a prune list.  Leaves are added and rewound at
the top, caches are put on top and taken off, and the topmost cache is flushed into the layer below
it. At every layer the hashes, the number of leaves and the root are those that are defined by
recursion from the list of leaves.  `GetLeaf` finds every leaf; past the last leaf it does not
always report an error, and the theorem says when it does.
-/

namespace Aegisum

namespace Mw

variable {D α : Type} (f : RecordFormat D) (h : MmrHasher D α)

/-! ### The layers -/

/-- The range at the bottom, and the caches on top of it, the topmost first. -/
structure MmrStack (D α : Type) where
  bottom : ListPMMR D α
  caches : List (PMMRCache D α)

/-- The range that is seen through caches. -/
def viewMmr (bottom : ListPMMR D α) : List (PMMRCache D α) → IMMR D α
  | [] => bottom.toIMMR f
  | c :: cs => c.toIMMR (viewMmr bottom cs)

/-- Operations at the top of the stack. -/
inductive MmrOp (α : Type)
  | add (data : α)
  | rewind (numLeaves : ℕ)
  | flush
  | push
  | pop

/-- `PMMRCache::Flush` leaves the cache empty. -/
def PMMRCache.flushed (c : PMMRCache D α) : PMMRCache D α := ⟨c.getNextLeafIdx, [], []⟩

namespace MmrStack

/-- A range without leaves. -/
def empty : MmrStack D α := ⟨.open [] (fun _ => none) none, []⟩

/-- One operation.  Only a cache can be flushed or taken off. -/
def exec (s : MmrStack D α) (op : MmrOp α) : Except ViewError (MmrStack D α) :=
  match op, s.caches with
  | .add data, [] => do
    let bottom ← s.bottom.add f h data
    pure { s with bottom := bottom }
  | .add data, c :: cs => do
    let c' ← c.add h (viewMmr f s.bottom cs) data
    pure { s with caches := c' :: cs }
  | .rewind numLeaves, [] => do
    let bottom ← s.bottom.rewind f numLeaves
    pure { s with bottom := bottom }
  | .rewind numLeaves, c :: cs => .ok { s with caches := c.rewind numLeaves :: cs }
  | .flush, [] => .ok s
  | .flush, [c] => do
    let bottom ← s.bottom.batchWrite f h c.firstLeaf c.leaves
    pure ⟨bottom, [c.flushed]⟩
  | .flush, c :: below :: cs => do
    let below' ← below.batchWrite h (viewMmr f s.bottom cs) c.firstLeaf c.leaves
    pure { s with caches := c.flushed :: below' :: cs }
  | .push, cs => .ok { s with caches := .new (viewMmr f s.bottom cs) :: cs }
  | .pop, [] => .ok s
  | .pop, _ :: cs => .ok { s with caches := cs }

end MmrStack

/-! ### Lists of leaves -/

/-- The lists of leaves that the layers stand for, the topmost first, and the most leaves that the
range at the bottom has had. -/
structure LeafLists (α : Type) where
  caches : List (List α)
  bottom : List α
  largest : ℕ

namespace LeafLists

/-- No leaves. -/
def empty : LeafLists α := ⟨[], [], 0⟩

/-- The leaves after taking off some caches. -/
def layer (l : LeafLists α) (n : ℕ) : List α := (l.caches.drop n).headD l.bottom

/-- The first index from the number of leaves on for which a layer reports an error.  A cache lets
the index after its last leaf through; at the bottom leaves that were rewound are still found. -/
def firstReported (l : LeafLists α) (n : ℕ) : ℕ :=
  match l.caches.drop n with
  | [] => l.largest
  | leaves :: _ => leaves.length + 1

/-- Leaves written to the bottom. -/
def write (l : LeafLists α) (leaves : List α) : LeafLists α :=
  { l with
    bottom := leaves
    largest := max l.largest leaves.length }

/-- The operation on the lists, if it makes sense: there is nothing to rewind beyond the leaves, and
only a cache can be flushed or taken off. -/
def exec (l : LeafLists α) (op : MmrOp α) : Option (LeafLists α) :=
  match op, l.caches with
  | .add data, [] => some (l.write (l.bottom ++ [data]))
  | .add data, leaves :: ls => some { l with caches := (leaves ++ [data]) :: ls }
  | .rewind n, [] => if n ≤ l.bottom.length then some (l.write (l.bottom.take n)) else none
  | .rewind n, leaves :: ls =>
    if n ≤ leaves.length then some { l with caches := leaves.take n :: ls } else none
  | .flush, [] => none
  | .flush, [leaves] => some (l.write leaves)
  | .flush, leaves :: _ :: ls => some { l with caches := leaves :: leaves :: ls }
  | .push, ls => some { l with caches := l.layer 0 :: ls }
  | .pop, [] => none
  | .pop, _ :: ls => some { l with caches := ls }

end LeafLists

/-! ### Every operation -/

/-- Caches stand for lists of leaves, each on top of the next one. -/
def Layered (bottom : List α) : List (PMMRCache D α) → List (List α) → Prop
  | [], [] => True
  | c :: cs, leaves :: ls => c.Extends h (ls.headD bottom) leaves ∧ Layered bottom cs ls
  | _, _ => False

/-- The stack stands for the lists. -/
structure MmrStack.StandsFor (s : MmrStack D α) (l : LeafLists α) : Prop where
  bottom : s.bottom.Stores f h l.bottom
  data : s.bottom.Keeps l.bottom l.largest
  unpruned : s.bottom.pruneList = none
  caches : Layered h l.bottom s.caches l.caches

variable {f h}

variable {m : ListPMMR D α}

lemma ListPMMR.marked_eq_false (hm : m.pruneList = none) (position : ℕ) :
    m.marked position = false := by
  rw [marked, hm]

variable {leaves : List α}

/-- A range without a prune list answers as the range over its leaves. -/
lemma ListPMMR.Stores.holds {bound : ℕ} (hm : m.Stores f h leaves) (hdata : m.Keeps leaves bound)
    (hprune : m.pruneList = none) : (m.toIMMR f).Holds h leaves := by
  refine ⟨hm.getNumLeaves, fun pos d hd => ?_, fun i a ha => ?_⟩
  · obtain ⟨hlt, rfl⟩ := List.getElem?_eq_some_iff.mp hd
    exact getHash_eq hm.hashFile hlt (marked_eq_false hprune pos)
  · change m.getLeaf i = .ok a
    rw [hdata.getLeaf, hdata.data i a ha]
    rfl

/-- Every layer answers as the range over its leaves. -/
lemma Layered.holds {bottom : ListPMMR D α} {cs : List (PMMRCache D α)} {ls : List (List α)}
    (hbottom : (bottom.toIMMR f).Holds h leaves) (hlayers : Layered h leaves cs ls) :
    (viewMmr f bottom cs).Holds h (ls.headD leaves) := by
  match cs, ls, hlayers with
  | [], [], _ => exact hbottom
  | c :: cs, _ :: ls, ⟨hc, hlayers⟩ => exact hc.holds (hlayers.holds hbottom)

/-- The layers that are left when caches are taken off. -/
lemma Layered.drop {cs : List (PMMRCache D α)} {ls : List (List α)}
    (hlayers : Layered h leaves cs ls) (n : ℕ) : Layered h leaves (cs.drop n) (ls.drop n) := by
  induction n generalizing cs ls with
  | zero => exact hlayers
  | succ n ih =>
    match cs, ls, hlayers with
    | [], [], hlayers => exact hlayers
    | _ :: _, _ :: _, ⟨_, hlayers⟩ => exact ih hlayers

lemma Layered.length_eq {cs : List (PMMRCache D α)} {ls : List (List α)}
    (hlayers : Layered h leaves cs ls) : cs.length = ls.length := by
  match cs, ls, hlayers with
  | [], [], _ => rfl
  | _ :: _, _ :: _, ⟨_, hlayers⟩ => rw [List.length_cons, List.length_cons, hlayers.length_eq]

/-- After a flush the cache holds nothing, on top of the leaves it held before. -/
lemma PMMRCache.Extends.flushed {c : PMMRCache D α} {baseLeaves : List α}
    (hc : c.Extends h baseLeaves leaves) : c.flushed.Extends h leaves leaves := by
  have hnext : c.flushed.firstLeaf = leaves.length := hc.next
  refine ⟨Nat.le_of_eq hnext, ?_, ?_, ?_⟩
  · rw [hnext, List.take_length]
    simp [PMMRCache.flushed]
  · simp [PMMRCache.flushed]
  · rw [hnext, ← Mmr.length_hashes_ofLeaves h leaves, List.drop_length]
    rfl

namespace MmrStack.StandsFor

variable {s : MmrStack D α} {l l' : LeafLists α}

section

variable (hs : s.StandsFor f h l)

include hs

lemma holds_bottom : (s.bottom.toIMMR f).Holds h l.bottom :=
  hs.bottom.holds hs.data hs.unpruned

/-- Nothing is compacted, so that every size can be rewound to. -/
lemma parents (n : ℕ) :
    ∀ e k, s.bottom.marked (nodePos e k) = true → nodePos (e + 1) (k / 2) < leafPosition n := by
  intro e k hset
  rw [ListPMMR.marked_eq_false hs.unpruned] at hset
  cases hset

lemma add (data : α) (hop : l.exec (.add data) = some l') :
    ∃ s', s.exec f h (.add data) = .ok s' ∧ s'.StandsFor f h l' := by
  obtain ⟨bottom, caches⟩ := s
  obtain ⟨lists, leaves, largest⟩ := l
  have hholds := hs.holds_bottom
  obtain ⟨hbottom, hdata, hprune, hcaches⟩ := hs
  dsimp only at hbottom hdata hprune hcaches hholds
  match caches, lists, hcaches with
  | [], [], _ =>
    obtain rfl := Option.some.inj hop
    obtain ⟨bottom', hadd, hbottom', hdata', hprune'⟩ := ListPMMR.exists_addLeaf hbottom hdata data
    rw [← hbottom.getNumLeaves] at hadd
    rw [← List.length_singleton (a := data), ← List.length_append] at hdata'
    exact ⟨⟨bottom', []⟩, bind_of_eq_ok hadd _, hbottom', hdata', hprune'.trans hprune, trivial⟩
  | c :: cs, _ :: ls, ⟨hc, hlayers⟩ =>
    obtain rfl := Option.some.inj hop
    obtain ⟨c', hadd, hc'⟩ := hc.add (hlayers.holds hholds) data
    exact ⟨⟨bottom, c' :: cs⟩, bind_of_eq_ok hadd _, hbottom, hdata, hprune, hc', hlayers⟩

lemma rewind (n : ℕ) (hop : l.exec (.rewind n) = some l') :
    ∃ s', s.exec f h (.rewind n) = .ok s' ∧ s'.StandsFor f h l' := by
  obtain ⟨bottom, caches⟩ := s
  obtain ⟨lists, leaves, largest⟩ := l
  have hparents := hs.parents n
  obtain ⟨hbottom, hdata, hprune, hcaches⟩ := hs
  dsimp only at hbottom hdata hprune hcaches hparents
  match caches, lists, hcaches with
  | [], [], _ =>
    obtain ⟨hn, hop⟩ := Option.ite_none_right_eq_some.mp hop
    obtain rfl := Option.some.inj hop
    obtain ⟨bottom', hrewind, hbottom', hprune', hleaves, hmap, hdb⟩ := hbottom.rewind hn hparents
    have hdata' := hdata.take n hleaves hmap hdb
    have hlargest : max largest (leaves.take n).length = largest := by
      have := hdata'.length_le
      omega
    rw [← hlargest] at hdata'
    exact ⟨⟨bottom', []⟩, bind_of_eq_ok hrewind _, hbottom', hdata', hprune'.trans hprune, trivial⟩
  | c :: cs, _ :: ls, ⟨hc, hlayers⟩ =>
    obtain ⟨hn, hop⟩ := Option.ite_none_right_eq_some.mp hop
    obtain rfl := Option.some.inj hop
    exact ⟨⟨bottom, c.rewind n :: cs⟩, rfl, hbottom, hdata, hprune, hc.rewind hn, hlayers⟩

lemma flush (hop : l.exec .flush = some l') :
    ∃ s', s.exec f h .flush = .ok s' ∧ s'.StandsFor f h l' := by
  obtain ⟨bottom, caches⟩ := s
  obtain ⟨lists, leaves, largest⟩ := l
  have hparents := hs.parents
  have hholds := hs.holds_bottom
  obtain ⟨hbottom, hdata, hprune, hcaches⟩ := hs
  dsimp only at hbottom hdata hprune hcaches hparents hholds
  match caches, lists, hcaches with
  | [], [], _ => cases hop
  | [c], [_], ⟨hc, _⟩ =>
    obtain rfl := Option.some.inj hop
    obtain ⟨bottom', hwrite, hbottom', hdata', hprune'⟩ :=
      ListPMMR.exists_batchWrite hbottom hdata hc (hparents _)
    exact ⟨⟨bottom', [c.flushed]⟩, bind_of_eq_ok hwrite _, hbottom', hdata', hprune'.trans hprune,
      hc.flushed, trivial⟩
  | c :: below :: cs, _ :: _ :: ls, ⟨hc, hbelow, hlayers⟩ =>
    obtain rfl := Option.some.inj hop
    obtain ⟨below', hwrite, hbelow'⟩ := hbelow.batchWrite (hlayers.holds hholds) hc
    exact ⟨⟨bottom, c.flushed :: below' :: cs⟩, bind_of_eq_ok hwrite _, hbottom, hdata, hprune,
      hc.flushed, hbelow', hlayers⟩

lemma push (hop : l.exec .push = some l') :
    ∃ s', s.exec f h .push = .ok s' ∧ s'.StandsFor f h l' := by
  obtain rfl := Option.some.inj hop
  exact ⟨{ s with caches := .new (viewMmr f s.bottom s.caches) :: s.caches }, rfl, hs.bottom,
    hs.data, hs.unpruned, PMMRCache.extends_new (hs.caches.holds hs.holds_bottom), hs.caches⟩

lemma pop (hop : l.exec .pop = some l') : ∃ s', s.exec f h .pop = .ok s' ∧ s'.StandsFor f h l' := by
  obtain ⟨bottom, caches⟩ := s
  obtain ⟨lists, leaves, largest⟩ := l
  obtain ⟨hbottom, hdata, hprune, hcaches⟩ := hs
  dsimp only at hbottom hdata hprune hcaches
  match caches, lists, hcaches with
  | [], [], _ => cases hop
  | _ :: cs, _ :: _, ⟨_, hlayers⟩ =>
    obtain rfl := Option.some.inj hop
    exact ⟨⟨bottom, cs⟩, rfl, hbottom, hdata, hprune, hlayers⟩

/-- Every operation does to the stack what it does to the lists. -/
lemma step (op : MmrOp α) (hop : l.exec op = some l') :
    ∃ s', s.exec f h op = .ok s' ∧ s'.StandsFor f h l' := by
  cases op with
  | add data => exact hs.add data hop
  | rewind n => exact hs.rewind n hop
  | flush => exact hs.flush hop
  | push => exact hs.push hop
  | pop => exact hs.pop hop

/-- A run does to the stack what it does to the lists. -/
lemma run (ops : List (MmrOp α)) (hops : ops.foldlM LeafLists.exec l = some l') :
    ∃ s', ops.foldlM (exec f h) s = .ok s' ∧ s'.StandsFor f h l' := by
  induction ops generalizing s l with
  | nil =>
    obtain rfl := Option.some.inj hops
    exact ⟨s, rfl, hs⟩
  | cons op ops ih =>
    obtain ⟨l₁, hop, hops⟩ := Option.bind_eq_some_iff.mp hops
    obtain ⟨s₁, hstep, hs₁⟩ := hs.step op hop
    obtain ⟨s', hrun, hs'⟩ := ih hs₁ hops
    exact ⟨s', foldlM_cons_eq_ok.mpr ⟨s₁, hstep, hrun⟩, hs'⟩

end

end MmrStack.StandsFor

lemma MmrStack.standsFor_empty : (empty : MmrStack D α).StandsFor f h LeafLists.empty := by
  refine ⟨⟨rfl, rfl, fun e k hset => ?_⟩, ⟨?_, ?_, ?_, ?_⟩, rfl, trivial⟩
  · cases hset
  · exact fun i a ha => by cases ha
  · exact fun i j hij => by cases hij
  · exact fun i => rfl
  · exact fun i => iff_of_false Bool.false_ne_true (Nat.not_lt_zero i)

/-! ### Past the last leaf -/

/-- The leaf is not there, and that is reported. -/
def IMMR.Reports (m : IMMR D α) (idx : ℕ) : Prop :=
  ∃ e, m.getLeaf idx = .error e ∧ e ≠ .undefinedBehaviour

lemma PMMRCache.Extends.reports_iff {c : PMMRCache D α} {baseLeaves : List α} (base : IMMR D α)
    (hc : c.Extends h baseLeaves leaves) {i : ℕ} (hi : leaves.length ≤ i) :
    (c.toIMMR base).Reports i ↔ leaves.length + 1 ≤ i := by
  have hlen := hc.length_eq
  have hread : c.getLeaf base i =
      .error (if leaves.length + 1 ≤ i then .outOfRange else .undefinedBehaviour) := by
    rw [getLeaf, if_neg (by omega), List.getElem?_eq_none (by omega)]
    by_cases hlast : leaves.length + 1 ≤ i
    · rw [if_pos (by omega), if_pos hlast]
    · rw [if_neg (by omega), if_neg hlast]
  constructor
  · rintro ⟨e, herr, hne⟩
    by_contra hlast
    rw [if_neg hlast] at hread
    exact hne (Except.error.inj (herr.symm.trans hread))
  · intro hlast
    rw [if_pos hlast] at hread
    exact ⟨.outOfRange, hread, by decide⟩

lemma ListPMMR.Keeps.reports_iff {bound : ℕ} (hm : m.Keeps leaves bound) (i : ℕ) :
    (m.toIMMR f).Reports i ↔ bound ≤ i := by
  have hread : (m.toIMMR f).getLeaf i = (m.dataAt i).elim (.error .notFound) .ok := hm.getLeaf i
  rw [← Nat.not_lt, ← hm.known]
  cases hdata : m.dataAt i with
  | none =>
    rw [hdata] at hread
    exact iff_of_true ⟨.notFound, hread, by decide⟩ (by simp)
  | some a =>
    rw [hdata] at hread
    refine iff_of_false ?_ (by simp)
    rintro ⟨e, herr, -⟩
    cases herr.symm.trans hread

lemma MmrStack.StandsFor.reports_iff {s : MmrStack D α} {l : LeafLists α} (hs : s.StandsFor f h l)
    (n : ℕ) {i : ℕ} (hi : (l.layer n).length ≤ i) :
    (viewMmr f s.bottom (s.caches.drop n)).Reports i ↔ l.firstReported n ≤ i := by
  have hlayers := hs.caches.drop n
  rw [LeafLists.layer] at hi
  rw [LeafLists.firstReported]
  match s.caches.drop n, l.caches.drop n, hlayers, hi with
  | [], [], _, _ => exact hs.data.reports_iff i
  | c :: cs, _ :: _, ⟨hc, _⟩, hi => exact hc.reports_iff (viewMmr f s.bottom cs) hi

/-! ### Ranges in memory -/

variable (h) in
/-- The ranges that leaves can be added to and rewound in memory, with their leaves. -/
inductive MemRun : Mmr D α → List α → Prop
  | empty : MemRun .empty []
  | add {m : Mmr D α} {leaves : List α} (data : α) : MemRun m leaves →
    MemRun (m.addLeaf h data) (leaves ++ [data])
  | rewind {m : Mmr D α} {leaves : List α} (n : ℕ) : MemRun m leaves → n ≤ leaves.length →
    MemRun (m.rewind n) (leaves.take n)

/-- How a range came about does not matter. -/
lemma MemRun.eq_ofLeaves {m : Mmr D α} (hrun : MemRun h m leaves) : m = Mmr.ofLeaves h leaves := by
  induction hrun with
  | empty => rfl
  | add data _ ih => rw [ih, Mmr.ofLeaves_concat]
  | rewind n _ hn ih => rw [ih, Mmr.rewind_ofLeaves h _ hn]

/-! ### Whole runs -/

variable (h) in
/-- A range is the one over the leaves: the hash of every node and the root are defined by recursion
from the leaves, a range in memory has the same root, and the leaves are found. -/
structure IMMR.IsRangeOver [DecidableEq D] (m : IMMR D α) (leaves : List α) : Prop where
  numLeaves : m.nextLeafIdx = leaves.length
  hash : ∀ pos < m.getNumNodes, ∃ e k d, pos = nodePos e k ∧
    nodeHash h.leafHash h.parentHash leaves e k = some d ∧ m.getHash pos = .ok d
  root : h.BagsNonzero leaves →
    m.root h = .ok ((rangeRoot h.leafHash h.parentHash leaves).getD h.zero)
  memRoot : ∀ mem, MemRun h mem leaves → m.root h = .ok (mem.root h)
  leaf : ∀ i a, leaves[i]? = some a → m.getLeaf i = .ok a

lemma IMMR.Holds.isRangeOver [DecidableEq D] {m : IMMR D α} (hm : m.Holds h leaves) :
    m.IsRangeOver h leaves := by
  refine ⟨hm.next, fun pos hpos => ?_, fun hne => ?_, fun mem hmem => ?_, hm.leaf⟩
  · obtain ⟨e, k, rfl⟩ := exists_nodePos_eq pos
    rw [getNumNodes, hm.next, leafPosition_eq_nodePos, nodePos_lt_iff] at hpos
    obtain ⟨d, hd⟩ := Option.isSome_iff_exists.mp
      ((isSome_nodeHash h.leafHash h.parentHash leaves e k).mpr hpos)
    refine ⟨e, k, d, rfl, hd, hm.hash _ _ ?_⟩
    rw [Mmr.getElem?_hashes_ofLeaves, hd]
  · rw [hm.root, Mmr.root_eq_rangeRoot h hne]
  · rw [hm.root, hmem.eq_ofLeaves]

/-- After every sequence of additions, rewinds and flushes, every layer is the range over its
leaves. Past the last leaf, `GetLeaf` reports an error exactly from some index on: a cache from the
second index after its leaves, and the range at the bottom from the most leaves on that it ever
had. -/
theorem MmrStack.isRangeOver_and_reports_iff [DecidableEq D] (ops : List (MmrOp α))
    (l : LeafLists α) (hops : ops.foldlM LeafLists.exec .empty = some l) :
    ∃ s, ops.foldlM (exec f h) .empty = .ok s ∧ s.caches.length = l.caches.length ∧
      ∀ n ≤ l.caches.length,
        (viewMmr f s.bottom (s.caches.drop n)).IsRangeOver h (l.layer n) ∧
        ∀ i, (l.layer n).length ≤ i →
          ((viewMmr f s.bottom (s.caches.drop n)).Reports i ↔ l.firstReported n ≤ i) := by
  obtain ⟨s, hrun, hs⟩ := (standsFor_empty (f := f) (h := h)).run ops hops
  refine ⟨s, hrun, hs.caches.length_eq, fun n _ => ⟨?_, fun i hi => hs.reports_iff n hi⟩⟩
  exact ((hs.caches.drop n).holds hs.holds_bottom).isRangeOver

/-! ### Concrete ranges -/

/-- Hashes that differ in their first byte only. -/
def firstByte : RecordFormat UInt8 where
  size := 32
  encode d := d :: List.replicate 31 0
  decode bytes := bytes.headD 0
  size_pos := by decide
  length_encode _ := rfl
  decode_encode _ := rfl

/-- Hashes as sums. -/
def sumHasher : MmrHasher UInt8 UInt8 :=
  ⟨fun pos a => UInt8.ofNat pos + a + 1, fun pos l r => UInt8.ofNat pos + l + 3 * r + 1, 0⟩

/-- A cache with one leaf reads its second leaf past the end of the vector, and a range that was
rewound still answers with the leaf that was cut off. -/
theorem MmrStack.getLeaf_past_the_end :
    (∃ s, [MmrOp.push, .add 7].foldlM (exec firstByte sumHasher) .empty = .ok s ∧
      (viewMmr firstByte s.bottom s.caches).nextLeafIdx = 1 ∧
      (viewMmr firstByte s.bottom s.caches).getLeaf 1 = .error .undefinedBehaviour) ∧
    ∃ s, [MmrOp.push, .add 7, .add 8, .flush, .rewind 1, .flush, .pop].foldlM
        (exec firstByte sumHasher) .empty = .ok s ∧
      (viewMmr firstByte s.bottom s.caches).nextLeafIdx = 1 ∧
      (viewMmr firstByte s.bottom s.caches).getLeaf 1 = .ok 8 := by
  refine ⟨⟨_, rfl, ?_, ?_⟩, ⟨_, rfl, ?_, ?_⟩⟩
  all_goals decide +kernel

/-- Three leaves that were flushed through two caches, of which the last one was replaced. -/
theorem MmrStack.isRangeOver_and_reports_iff_twoCaches :
    let ops : List (MmrOp UInt8) :=
      [.push, .push, .add 7, .add 8, .add 9, .flush, .rewind 2, .add 4, .flush, .pop, .flush]
    ops.foldlM LeafLists.exec .empty = some ⟨[[7, 8, 4]], [7, 8, 4], 3⟩ ∧
      ∃ s, ops.foldlM (exec firstByte sumHasher) .empty = .ok s ∧
        (viewMmr firstByte s.bottom s.caches).IsRangeOver sumHasher [7, 8, 4] ∧
        (viewMmr firstByte s.bottom (s.caches.drop 1)).IsRangeOver sumHasher [7, 8, 4] ∧
        (viewMmr firstByte s.bottom (s.caches.drop 1)).Reports 3 := by
  have hops : ([.push, .push, .add 7, .add 8, .add 9, .flush, .rewind 2, .add 4, .flush, .pop,
      .flush] : List (MmrOp UInt8)).foldlM LeafLists.exec .empty =
      some ⟨[[7, 8, 4]], [7, 8, 4], 3⟩ := rfl
  obtain ⟨s, hrun, -, hall⟩ :=
    isRangeOver_and_reports_iff (f := firstByte) (h := sumHasher) _ _ hops
  refine ⟨hops, s, hrun, (hall 0 (by decide)).1, (hall 1 (by decide)).1, ?_⟩
  exact ((hall 1 (by decide)).2 3 (by decide)).mpr (by decide)

end Mw

end Aegisum
