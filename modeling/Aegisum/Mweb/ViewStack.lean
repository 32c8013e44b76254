import Aegisum.Mweb.ViewFlush

/-!
# Stacks of views

Caches on top of each other, with the database at the bottom.  Blocks are connected and
disconnected in the cache on top, and flushing it hands its changes to the layer below.  In every
run in which no flush meets one of the two exceptions, flushing never fails and the layer below
then answers as the cache on top did.
-/

namespace Aegisum

namespace Mw

open CoinsViewCache

open CoinsView (Connected Built)

/-- A stack of caches, the top first, over the database. -/
structure ViewStack (P : Primitives) where
  storage : MwStorage P
  db : CoinsViewDB P
  caches : List (CoinsViewCache P)

namespace ViewStack

variable {P : Primitives}

/-- The view on top of the given caches. -/
def view (st : MwStorage P) (db : CoinsViewDB P) : List (CoinsViewCache P) → ICoinsView P
  | [] => db.toView st
  | c :: cs => c.toView (view st db cs)

/-- The view on top of the stack. -/
def top (s : ViewStack P) : ICoinsView P := view s.storage s.db s.caches

/-- The view below the cache on top. -/
def below (s : ViewStack P) : ICoinsView P := view s.storage s.db s.caches.tail

/-- An empty database without caches. -/
def init : ViewStack P := ⟨.empty, .open .empty none, []⟩

/-- Put a new cache on top. -/
def push (s : ViewStack P) : ViewStack P := { s with caches := .new s.top :: s.caches }

/-- The hashes are the intended ones after the flush of a cache into the file `disk`. -/
def HashesContinue (disk : List P.Hash) (c : CoinsViewCache P) : Prop :=
  c.outputPMMR.nodes <+:
    disk.drop (leafPosition c.outputPMMR.firstLeaf) ++ c.outputPMMR.nodes

/-- The cache on top has a best header or the layer below has none; and if the layer below is the
database, the nodes of the cache continue the hash file as those they replace. -/
def FlushesAll (s : ViewStack P) : Prop :=
  match s.caches with
  | [] => True
  | c :: cs =>
    (c.bestHeader.isNone = true → s.below.bestHeader.isNone = true) ∧
      (c.bestHeader.isNone = false → cs.isEmpty = true →
        HashesContinue s.db.outputPMMR.hashFile.disk c)

instance (disk : List P.Hash) (c : CoinsViewCache P) : Decidable (HashesContinue disk c) :=
  inferInstanceAs (Decidable (_ <+: _))

instance : (s : ViewStack P) → Decidable s.FlushesAll
  | ⟨_, _, []⟩ => isTrue trivial
  | ⟨_, _, _ :: _⟩ => inferInstanceAs (Decidable (_ ∧ _))

variable [MwCrypto P]

/-- Flush the cache on top.  The batch for the database is written. -/
def flush (s : ViewStack P) : Except ViewError (ViewStack P) :=
  match s.caches with
  | [] => .ok s
  | [c] => do
    let (c', db', st', batch) ← c.flushToDB s.storage s.db
    pure ⟨st'.write batch, db', [c']⟩
  | c :: lower :: cs => do
    let (c', lower') ← CoinsViewCache.flushToCache (view s.storage s.db cs) lower c
    pure { s with caches := c' :: lower' :: cs }

/-- A sequence of operations on a stack over a database that was empty at first: a cache is put on
top or dropped, a block is connected or disconnected in the cache on top, or the cache on top is
flushed.  For every layer from the top on, the last argument lists the connected blocks. -/
inductive Run : ViewStack P → List (Connected P) → Prop
  | init : Run init [[]]
  | push {s : ViewStack P} {chain : Connected P} {chains : List (Connected P)} :
    Run s (chain :: chains) → Run s.push (chain :: chain :: chains)
  | pop {st : MwStorage P} {db : CoinsViewDB P} {c : CoinsViewCache P}
    {cs : List (CoinsViewCache P)} {chain : Connected P} {chains : List (Connected P)} :
    Run ⟨st, db, c :: cs⟩ (chain :: chains) → Run ⟨st, db, cs⟩ chains
  | applyBlock {st : MwStorage P} {db : CoinsViewDB P} {c c' : CoinsViewCache P}
    {cs : List (CoinsViewCache P)} {chain : Connected P} {chains : List (Connected P)}
    {b : Block P} {undo : BlockUndo P} :
    Run ⟨st, db, c :: cs⟩ (chain :: chains) → c.applyBlock (view st db cs) b = .ok (undo, c') →
      Run ⟨st, db, c' :: cs⟩ (((b, undo) :: chain) :: chains)
  | undoBlock {st : MwStorage P} {db : CoinsViewDB P} {c c' : CoinsViewCache P}
    {cs : List (CoinsViewCache P)} {chain : Connected P} {chains : List (Connected P)}
    {b : Block P} {undo : BlockUndo P} :
    Run ⟨st, db, c :: cs⟩ (((b, undo) :: chain) :: chains) →
      c.undoBlock (view st db cs) undo = .ok c' → Run ⟨st, db, c' :: cs⟩ (chain :: chains)
  | flush {s s' : ViewStack P} {chain below : Connected P} {chains : List (Connected P)} :
    Run s (chain :: below :: chains) → s.FlushesAll → s.flush = .ok s' →
      Run s' (chain :: chain :: chains)

/-! ### What the layers stand for -/

/-- The layers stand for views in which the listed blocks were connected one after the other; `v`
is the view on top. -/
inductive Holds (st : MwStorage P) (db : CoinsViewDB P) :
    List (CoinsViewCache P) → CoinsView P → List (Connected P) → Prop
  | db {v : CoinsView P} {chain : Connected P} :
    db.Stores st v → Built v chain → Holds st db [] v [chain]
  | cache {c : CoinsViewCache P} {cs : List (CoinsViewCache P)} {vb v : CoinsView P}
    {chain : Connected P} {chains : List (Connected P)} :
    Holds st db cs vb chains → c.StandsFor vb v → Built v chain →
      Holds st db (c :: cs) v (chain :: chains)

variable {st : MwStorage P} {db : CoinsViewDB P} {cs : List (CoinsViewCache P)} {v : CoinsView P}
  {chain : Connected P} {chains : List (Connected P)}

lemma Holds.answers (h : Holds st db cs v chains) : (view st db cs).Answers v := by
  induction h with
  | db hdb _ => exact hdb.answers
  | cache _ hc _ ih => exact hc.answers ih

lemma Holds.built (h : Holds st db cs v (chain :: chains)) : Built v chain := by
  cases h with
  | db _ hv => exact hv
  | cache _ _ hv => exact hv

/-- Without a best header no block is connected. -/
lemma eq_nil_of_built (h : Built v chain) (hnone : v.bestHeader = none) : chain = [] := by
  cases h with
  | empty => rfl
  | applyBlock hv happly =>
    obtain ⟨mid, happ⟩ := CoinsView.applied_of_applyBlock happly
    rw [happ.bestHeader] at hnone
    cases hnone

/-- The file after a flush into the database. -/
lemma stores_flushed {disk : List P.Hash} {batch : MwBatch P} {st' : MwStorage P}
    (hst : st'.coins = st.coins ∧ st'.leaves = st.leaves)
    (hcoins : (st.write batch).coins = v.utxos)
    (hleaves : ∀ i a, v.outputPMMR.leaves[i]? = some a → (st.write batch).leaves.get i = some a)
    (hdisk : disk = (Mmr.ofLeaves (outputMmrHasher P) v.outputPMMR.leaves).hashes) :
    CoinsViewDB.Stores (st'.write batch) ⟨v.bestHeader, v.leafSet, .open disk⟩ v where
  bestHeader := rfl
  coins := by
    rw [← hcoins, MwStorage.write, MwStorage.write, hst.1]
  leafSet := rfl
  outputPMMR := by rw [hdisk]
  leaves i a ha := by
    rw [← hleaves i a ha, MwStorage.write, MwStorage.write, hst.2]

/-! ### Flushing the cache on top -/

variable {c : CoinsViewCache P}

/-- Without a best header nothing is flushed. -/
lemma flush_of_isNone (hnone : c.bestHeader.isNone = true) :
    flush ⟨st, db, c :: cs⟩ = .ok ⟨st, db, c :: cs⟩ := by
  cases cs with
  | nil =>
    have hflush : c.flushToDB st db = .ok (c, db, st, .empty) := by
      rw [flushToDB, if_pos hnone]
    exact bind_of_eq_ok hflush _
  | cons lower cs =>
    have hflush : flushToCache (view st db cs) lower c = .ok (c, lower) := by
      rw [flushToCache, if_pos hnone]
    exact bind_of_eq_ok hflush _

/-- A cache with a best header is flushed into the cache below it. -/
lemma Holds.flush_cache {lower : CoinsViewCache P}
    (h : Holds st db (c :: lower :: cs) v (chain :: chains)) (hsome : c.bestHeader.isNone = false) :
    ∃ lower', flush ⟨st, db, c :: lower :: cs⟩ = .ok ⟨st, db, c.flushed :: lower' :: cs⟩ ∧
      Holds st db (lower' :: cs) v (chain :: chains.tail) ∧ c.flushed.StandsFor v v := by
  cases h with
  | cache hbelow hc hv =>
    cases hbelow with
    | cache hbase hlower _ =>
      obtain ⟨lower', hflush, hlower'⟩ := flushToCache_eq hbase.answers hlower hc hsome
      refine ⟨lower', ?_, .cache hbase hlower' hv, hc.flushed⟩
      exact bind_of_eq_ok hflush _

/-- A cache with a best header is flushed into the database, and the database then holds the view
of the cache exactly if the hash file is continued. -/
lemma Holds.flush_db (h : Holds st db [c] v (chain :: chains))
    (hsome : c.bestHeader.isNone = false) :
    ∃ st' disk,
      flush ⟨st, db, [c]⟩ = .ok ⟨st', ⟨v.bestHeader, v.leafSet, .open disk⟩, [c.flushed]⟩ ∧
      c.flushed.StandsFor v v ∧ st'.coins = v.utxos ∧
      disk.length = (Mmr.ofLeaves (outputMmrHasher P) v.outputPMMR.leaves).hashes.length ∧
      (disk = (Mmr.ofLeaves (outputMmrHasher P) v.outputPMMR.leaves).hashes ↔
        HashesContinue db.outputPMMR.hashFile.disk c) ∧
      (HashesContinue db.outputPMMR.hashFile.disk c →
        CoinsViewDB.Stores st' ⟨v.bestHeader, v.leafSet, .open disk⟩ v) := by
  cases h with
  | cache hbelow hc hv =>
    cases hbelow with
    | db hdb _ =>
      obtain ⟨disk, batch, hflush, -, hcoins, hleaves, hlen, hiff⟩ :=
        flushToDB_eq hdb hc hv.synced hsome
      refine ⟨_, disk, bind_of_eq_ok hflush _, hc.flushed, hcoins, hlen, hiff, fun hall => ?_⟩
      exact stores_flushed ⟨rfl, rfl⟩ hcoins hleaves (hiff.mpr hall)

/-- After a flush without exception, all layers hold what they should. -/
lemma Holds.flush (h : Holds st db (c :: cs) v (chain :: chains))
    (hall : FlushesAll ⟨st, db, c :: cs⟩) :
    ∃ st' db' c' cs', flush ⟨st, db, c :: cs⟩ = .ok ⟨st', db', c' :: cs'⟩ ∧
      Holds st' db' cs' v (chain :: chains.tail) ∧ c'.StandsFor v v := by
  cases hheader : c.bestHeader.isNone with
  | true =>
    -- both layers are empty
    refine ⟨st, db, c, cs, flush_of_isNone hheader, ?_⟩
    cases h with
    | @cache _ _ vb _ _ _ hbelow hc hv =>
      have hnone : v.bestHeader = none := by
        rw [← hc.bestHeader]
        simpa using hheader
      have hvbnone : vb.bestHeader = none := by
        rw [← hbelow.answers.bestHeader]
        exact Option.isNone_iff_eq_none.mp (hall.1 hheader)
      obtain rfl := hv.synced.eq_empty hnone
      have hvb : vb.Synced := by
        cases hbelow with
        | db _ hvb => exact hvb.synced
        | cache _ _ hvb => exact hvb.synced
      obtain rfl := hvb.eq_empty hvbnone
      obtain rfl := eq_nil_of_built hv hnone
      cases hbelow with
      | db hdb hvb' =>
        exact ⟨.db hdb .empty, hc⟩
      | cache hbase hlower hvb' =>
        exact ⟨.cache hbase hlower .empty, hc⟩
  | false =>
    cases cs with
    | nil =>
      obtain ⟨st', disk, hflush, hc', -, -, -, hstores⟩ := h.flush_db hheader
      have hchains : chains.tail = [] := by
        cases h with
        | cache hbelow _ _ =>
          cases hbelow
          rfl
      refine ⟨_, _, _, _, hflush, ?_, hc'⟩
      rw [hchains]
      exact .db (hstores (hall.2 hheader rfl)) h.built
    | cons lower cs =>
      obtain ⟨lower', hflush, hholds, hc'⟩ := h.flush_cache hheader
      exact ⟨_, _, _, _, hflush, hholds, hc'⟩

/-! ### Runs -/

lemma holds_init : Holds (P := P) .empty (.open .empty none) [] .empty [[]] := by
  apply Holds.db _ .empty
  constructor
  · rfl
  · rfl
  · rfl
  · rfl
  · intro i a ha
    cases ha

/-- In every run, the layers hold what they should. -/
lemma Run.holds {s : ViewStack P} (h : s.Run chains) :
    ∃ v, Holds s.storage s.db s.caches v chains := by
  induction h with
  | init => exact ⟨.empty, holds_init⟩
  | push _ ih =>
    obtain ⟨v, hholds⟩ := ih
    exact ⟨v, .cache hholds (standsFor_new hholds.answers) hholds.built⟩
  | pop _ ih =>
    obtain ⟨v, hholds⟩ := ih
    cases hholds with
    | cache hbelow _ _ => exact ⟨_, hbelow⟩
  | applyBlock _ happly ih =>
    obtain ⟨v, hholds⟩ := ih
    cases hholds with
    | cache hbelow hc hv =>
      obtain ⟨v', hview, hc'⟩ := hc.applyBlock hbelow.answers hv.synced.consistent happly
      exact ⟨v', .cache hbelow hc' (.applyBlock hv hview)⟩
  | undoBlock _ hundo ih =>
    obtain ⟨v', hholds⟩ := ih
    cases hholds with
    | cache hbelow hc' hv' =>
      cases hv' with
      | applyBlock hv hview =>
        obtain ⟨c'', hundo', hc''⟩ :=
          CoinsViewCache.StandsFor.undoBlock hbelow.answers hv.synced hview hc'
        rw [hundo] at hundo'
        obtain rfl := Except.ok.inj hundo'
        exact ⟨_, .cache hbelow hc'' hv⟩
  | @flush s s' _ _ _ _ hall hflush ih =>
    obtain ⟨v, hholds⟩ := ih
    obtain ⟨st, db, caches⟩ := s
    cases caches with
    | nil => cases hholds
    | cons c cs =>
      obtain ⟨st', db', c', cs', hflush', hholds', hc'⟩ := hholds.flush hall
      rw [hflush] at hflush'
      obtain rfl := Except.ok.inj hflush'
      exact ⟨v, .cache hholds' hc' hholds.built⟩

/-! ### The result -/

omit [MwCrypto P] in
/-- A file that answers with the hashes of the range over some leaves, and has their number, holds
them. -/
lemma disk_eq_of_getHash {disk hashes : List P.Hash} (hlen : disk.length = hashes.length)
    (hhash : ∀ pos d, hashes[pos]? = some d →
      (PMMR.open disk : PMMR P.Hash P.Hash).getHash pos = .ok d) : disk = hashes := by
  apply List.ext_getElem hlen
  intro pos hpos hpos'
  have hdisk : (PMMR.open disk : PMMR P.Hash P.Hash).getHash pos = .ok disk[pos] := by
    apply PMMR.getHash_eq
    rw [show (PMMR.open disk : PMMR P.Hash P.Hash).hashFile.contents = disk from
      AppendOnlyFile.contents_load disk]
    exact List.getElem?_eq_getElem hpos
  rw [hhash pos _ (List.getElem?_eq_getElem hpos')] at hdisk
  exact (Except.ok.inj hdisk).symm

/-- In every run, a read never fails and flushing the cache on top never fails; and the layer below
then answers as the cache on top did exactly if the cache has a best header or the layer below has
none, and the hash file, if the layer below is the database, is continued as it was. -/
theorem flush_refines_iff (s : ViewStack P) (chains : List (Connected P)) (hrun : s.Run chains)
    (hcaches : s.caches ≠ []) :
    ∃ s', s.flush = .ok s' ∧ (∀ id, ∃ coin, s.top.getUTXO id = .ok coin) ∧
      (∀ id, ∃ coin, s'.below.getUTXO id = .ok coin) ∧
      (s'.below.SameAnswers s.top ↔ s.FlushesAll) := by
  obtain ⟨v, hholds⟩ := hrun.holds
  obtain ⟨st, db, caches⟩ := s
  have htop : (top ⟨st, db, caches⟩).Answers v := hholds.answers
  have hread : ∀ id, ∃ coin, (view st db caches).getUTXO id = .ok coin := fun id =>
    ⟨_, htop.getUTXO id⟩
  cases caches with
  | nil => exact absurd rfl hcaches
  | cons c cs =>
    by_cases hall : FlushesAll ⟨st, db, c :: cs⟩
    · obtain ⟨chain, rest, rfl⟩ : ∃ chain rest, chains = chain :: rest := by
        cases hholds with
        | cache _ _ _ => exact ⟨_, _, rfl⟩
      obtain ⟨st', db', c', cs', hflush, hholds', -⟩ := hholds.flush hall
      refine ⟨_, hflush, hread, fun id => ⟨_, hholds'.answers.getUTXO id⟩, ?_⟩
      exact iff_of_true (hholds'.answers.sameAnswers htop) hall
    · cases hholds with
      | @cache _ _ vb _ chain rest hbelow hc hv =>
        cases hheader : c.bestHeader.isNone with
        | true =>
          -- the changes stay in the cache
          refine ⟨_, flush_of_isNone hheader, hread,
            fun id => ⟨_, hbelow.answers.getUTXO id⟩, iff_of_false (fun hsame => ?_) hall⟩
          apply hall
          refine ⟨fun _ => ?_, fun hsome => ?_⟩
          · exact (congrArg Option.isNone hsame.bestHeader).trans hheader
          · rw [hheader] at hsome
            cases hsome
        | false =>
          cases cs with
          | cons lower cs =>
            exact absurd ⟨fun hnone => absurd hnone (by simp [hheader]),
              fun _ hnil => by simp at hnil⟩ hall
          | nil =>
            -- the hash file is not continued
            obtain ⟨st', disk, hflush, -, hcoins, hlen, hiff, -⟩ :=
              (Holds.cache hbelow hc hv).flush_db hheader
            refine ⟨_, hflush, hread, fun id => ⟨_, rfl⟩, iff_of_false (fun hsame => ?_) hall⟩
            apply hall
            refine ⟨fun hnone => absurd hnone (by simp [hheader]), fun _ _ => hiff.mp ?_⟩
            apply disk_eq_of_getHash hlen
            intro pos d hd
            have hpos := (List.getElem?_eq_some_iff.mp hd).1
            rw [Mmr.length_hashes_ofLeaves, ← htop.outputPMMR.next, ← hsame.nextLeafIdx] at hpos
            exact (hsame.hash pos hpos).trans (htop.outputPMMR.hash pos d hd)

section Example

open Symbolic

/-- The minting block connected in a cache on top of the empty database. -/
def afterMint : BlockUndo sym × CoinsViewCache sym :=
  ((CoinsViewCache.new (init (P := sym)).top).applyBlock init.top CoinsView.mint).toOption.get
    (by decide +kernel)

/-- The stack with the minting block in its cache. -/
def minted : ViewStack sym := ⟨init.storage, init.db, [afterMint.2]⟩

lemma run_minted : Run minted [[(CoinsView.mint, afterMint.1)], []] :=
  .applyBlock (.push .init) (eq_ok_toOption_get (by decide +kernel))

/-- The minting block is flushed into the database, which then answers as the cache did. -/
theorem flush_refines_iff_minted :
    ∃ s', minted.flush = .ok s' ∧ minted.FlushesAll ∧ s'.below.SameAnswers minted.top := by
  have hall : minted.FlushesAll := by decide +kernel
  obtain ⟨s', hflush, -, -, hiff⟩ := flush_refines_iff minted _ run_minted (by simp [minted])
  exact ⟨s', hflush, hall, hiff.mpr hall⟩

/-- The stack after the minting block was flushed into the database. -/
def stored : ViewStack sym := minted.flush.toOption.get (by decide +kernel)

lemma flush_minted : minted.flush = .ok stored := eq_ok_toOption_get (by decide +kernel)

lemma stored_eq : stored = ⟨stored.storage, stored.db, [afterMint.2.flushed]⟩ := by
  obtain ⟨v, hholds⟩ := run_minted.holds
  obtain ⟨st', disk, hflush, -⟩ := hholds.flush_db (by decide +kernel)
  have heq := Except.ok.inj (flush_minted.symm.trans hflush)
  rw [heq]

lemma run_stored : Run ⟨stored.storage, stored.db, [afterMint.2.flushed]⟩
    [[(CoinsView.mint, afterMint.1)], [(CoinsView.mint, afterMint.1)]] := by
  rw [← stored_eq]
  exact .flush run_minted (by decide +kernel) flush_minted

/-- The cache in which the minting block was disconnected again. -/
def unminted : CoinsViewCache sym :=
  (afterMint.2.flushed.undoBlock (view stored.storage stored.db []) afterMint.1).toOption.get
    (by decide +kernel)

lemma run_unminted : Run ⟨stored.storage, stored.db, [unminted]⟩
    [[], [(CoinsView.mint, afterMint.1)]] :=
  .undoBlock run_stored (eq_ok_toOption_get (by decide +kernel))

/-- A block that pegs in 10 units into another output. -/
def remint : Block sym :=
  (CoinsView.empty.buildNextBlock 1
    [{ mintTx with
      body := ⟨[], [output 10 8 5 9], [{ mintKernel with excess := (0, 8) }]⟩
      kernels_ne_nil := by simp }]).toOption.get (by decide +kernel)

/-- The cache in which the minting block was replaced by the other one. -/
def reminted : BlockUndo sym × CoinsViewCache sym :=
  (unminted.applyBlock (view stored.storage stored.db []) remint).toOption.get (by decide +kernel)

lemma run_reminted : Run ⟨stored.storage, stored.db, [reminted.2]⟩
    [[(remint, reminted.1)], [(CoinsView.mint, afterMint.1)]] :=
  .applyBlock run_unminted (eq_ok_toOption_get (by decide +kernel))

/-- The stack after the other block was flushed into the database. -/
def restored : ViewStack sym :=
  (flush ⟨stored.storage, stored.db, [reminted.2]⟩).toOption.get (by decide +kernel)

/-- Disconnecting the first block and flushing leaves the block in the database; replacing it by
another one and flushing leaves a root in the database that is not the one of the cache. -/
theorem flush_keeps_old_state :
    (∃ (s s' : ViewStack sym) (chains : List (Connected sym)), s.Run chains ∧ s.flush = .ok s' ∧
      s.top.bestHeader.isNone = true ∧ s'.below.bestHeader.isNone = false) ∧
    ∃ (s s' : ViewStack sym) (chains : List (Connected sym)), s.Run chains ∧ s.flush = .ok s' ∧
      s'.below.outputPMMR.root (outputMmrHasher sym) ≠
        s.top.outputPMMR.root (outputMmrHasher sym) := by
  constructor
  · exact ⟨_, _, _, run_unminted, flush_of_isNone (by decide +kernel), by decide +kernel,
      by decide +kernel⟩
  · exact ⟨_, restored, _, run_reminted, eq_ok_toOption_get (by decide +kernel), by decide +kernel⟩

end Example

end ViewStack

end Mw

end Aegisum
