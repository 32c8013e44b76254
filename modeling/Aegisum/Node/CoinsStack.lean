import Aegisum.Model.Symbolic
import Aegisum.Node.CoinsViewCache

/-!
# Coins caches answer like plain maps

Every layer of a stack of caches stands for a plain map from outpoints to unspent coins, and so does
the database.  What an entry says is tied to two of these maps only: the one of its own layer and
the one of the layer below.  This relation is kept by every operation, and it contains the rules
for the flags DIRTY and FRESH.
-/

namespace Aegisum

open CCoinsViewCache Function

variable {P : Primitives}

/-- What a layer stands for: the unspent coins. -/
abbrev CoinMap (P : Primitives) := COutPoint P → Option (Coin P)

/-! ### One entry -/

lemma Coin.unspent?_of_isSpent {coin : Coin P} (h : coin.isSpent = true) : coin.unspent? = none :=
  if_pos h

lemma Coin.unspent?_of_not_isSpent {coin : Coin P} (h : coin.isSpent = false) :
    coin.unspent? = some coin := by
  simp [Coin.unspent?, h]

lemma Coin.unspent?_eq_none_iff {coin : Coin P} : coin.unspent? = none ↔ coin.isSpent = true := by
  simp [Coin.unspent?]

lemma Coin.unspent?_bind_unspent? (coin : Coin P) :
    coin.unspent?.bind Coin.unspent? = coin.unspent? := by
  cases h : coin.isSpent with
  | true => simp [unspent?_of_isSpent h]
  | false => simp [unspent?_of_not_isSpent h]

/-- The five combinations of spentness and flags that are valid. -/
def CCoinsCacheEntry.Valid (entry : CCoinsCacheEntry P) : Prop :=
  if entry.coin.isSpent then entry.fresh = !entry.dirty else entry.fresh = true → entry.dirty = true

/-- What the entry of an outpoint, if there is one, says about the coin in the own layer and in the
layer below. -/
def CellAgrees : Option (CCoinsCacheEntry P) → Option (Coin P) → Option (Coin P) → Prop
  | none, own, below => own = below
  | some entry, own, below =>
    entry.coin.unspent? = own ∧ entry.Valid ∧ (entry.fresh = true → below = none) ∧
      (entry.dirty = false → own = below)

namespace CellAgrees

variable {cell : Option (CCoinsCacheEntry P)} {entry : CCoinsCacheEntry P}
  {own below : Option (Coin P)}

/-- The coin that an entry or the layer below gives. -/
lemma fetched (coin : Coin P) :
    CellAgrees (some ⟨coin, false, coin.isSpent⟩) coin.unspent? coin.unspent? := by
  refine ⟨rfl, ?_, Coin.unspent?_of_isSpent, fun _ => rfl⟩
  cases h : coin.isSpent <;> simp [CCoinsCacheEntry.Valid, h]

/-- Spending a coin, with the entry dropped if the layer below does not have the coin. -/
lemma spent (h : CellAgrees (some entry) own below) :
    CellAgrees (if entry.fresh then none else some ⟨.cleared, true, entry.fresh⟩) none below := by
  obtain ⟨-, -, hfresh, -⟩ := h
  cases hf : entry.fresh with
  | true => exact (hfresh hf).symm
  | false => exact ⟨rfl, rfl, by simp, by simp⟩

/-- Adding a coin.  If no overwriting is expected the layer must not have the coin. -/
lemma added (h : CellAgrees cell own below) {coin : Coin P} (hcoin : coin.isSpent = false)
    {possibleOverwrite : Bool} (hown : possibleOverwrite = false → own = none) :
    CellAgrees
      (some ⟨coin, true, (cell.getD .new).fresh || (!possibleOverwrite && !(cell.getD .new).dirty)⟩)
      (some coin) below := by
  refine ⟨Coin.unspent?_of_not_isSpent hcoin, by simp [CCoinsCacheEntry.Valid, hcoin], ?_, by simp⟩
  intro hfresh
  rw [Bool.or_eq_true, Bool.and_eq_true, Bool.not_eq_true', Bool.not_eq_true'] at hfresh
  cases cell with
  | none =>
    -- without an entry the layer below has what the own layer has
    rcases hfresh with hf | ⟨hpo, -⟩
    · cases hf
    · exact h ▸ hown hpo
  | some entry =>
    obtain ⟨-, -, hbelow, hclean⟩ := h
    rcases hfresh with hf | ⟨hpo, hd⟩
    · exact hbelow hf
    · exact hclean hd ▸ hown hpo

/-- An entry that is looked up for writing is spent if the layer does not have the coin. -/
lemma isSpent_getD (h : CellAgrees cell none below) : (cell.getD .new).coin.isSpent = true := by
  cases cell with
  | none => rfl
  | some entry => exact Coin.unspent?_eq_none_iff.mp h.1

/-- An entry without flags can be dropped. -/
lemma dropped (h : CellAgrees (some entry) own below)
    (hflags : (!entry.dirty && !entry.fresh) = true) : CellAgrees none own below := by
  rw [Bool.and_eq_true, Bool.not_eq_true', Bool.not_eq_true'] at hflags
  exact h.2.2.2 hflags.1

/-- An entry merges into the layer below, which then has the coin of the layer on top. -/
lemma merged {base : Option (Coin P)} (h : CellAgrees (some entry) own below)
    (hbelow : CellAgrees cell below base) :
    ∃ cell', mergeEntry entry cell = .ok cell' ∧ CellAgrees cell' own base := by
  obtain ⟨hcoin, hvalid, hfresh, hclean⟩ := h
  cases hd : entry.dirty with
  | false =>
    refine ⟨cell, by simp [mergeEntry, hd], ?_⟩
    rw [hclean hd]
    exact hbelow
  | true =>
    rw [CCoinsCacheEntry.Valid, hd] at hvalid
    cases cell with
    | none =>
      refine ⟨some ⟨entry.coin, true, entry.fresh⟩, ?_, hcoin, ?_, ?_, by simp⟩
      · cases hs : entry.coin.isSpent with
        | true =>
          have hf : entry.fresh = false := by simpa [hs] using hvalid
          simp [mergeEntry, hd, hf]
        | false => simp [mergeEntry, hd, hs]
      · rwa [CCoinsCacheEntry.Valid]
      · exact fun hf => hbelow ▸ hfresh hf
    | some mine =>
      obtain ⟨hmine, -, hbase, -⟩ := hbelow
      -- a fresh entry on top means that the own entry is a spent one
      have hnot : (entry.fresh && !mine.coin.isSpent) = false := by
        cases hf : entry.fresh with
        | false => rfl
        | true => simp [Coin.unspent?_eq_none_iff.mp (hmine.trans (hfresh hf))]
      cases hdrop : (mine.fresh && entry.coin.isSpent) with
      | true =>
        obtain ⟨hf, hs⟩ := Bool.and_eq_true_iff.mp hdrop
        refine ⟨none, ?_, ?_⟩
        · rw [mergeEntry]
          simp only [hd, Bool.not_true, Bool.false_eq_true, if_false, hnot, hdrop, if_true]
        · exact hcoin.symm.trans ((Coin.unspent?_of_isSpent hs).trans (hbase hf).symm)
      | false =>
        refine ⟨some ⟨entry.coin, true, mine.fresh⟩, ?_, hcoin, ?_, hbase, by simp⟩
        · rw [mergeEntry]
          simp only [hd, Bool.not_true, Bool.false_eq_true, if_false, hnot, hdrop]
        · cases hs : entry.coin.isSpent with
          | true =>
            have hf : mine.fresh = false := by simpa [hs] using hdrop
            simp [CCoinsCacheEntry.Valid, hs, hf]
          | false => simp [CCoinsCacheEntry.Valid, hs]

/-- An entry written to the database leaves the coin of the layer there. -/
lemma written {stored : Option (Coin P)}
    (h : CellAgrees (some entry) own (stored.bind Coin.unspent?)) :
    (writeEntry entry stored).bind Coin.unspent? = own := by
  obtain ⟨rfl, -, -, hclean⟩ := h
  cases hd : entry.dirty with
  | true => simp [writeEntry, hd, Coin.unspent?_bind_unspent?]
  | false => simp [writeEntry, hd, hclean hd]

end CellAgrees

/-! ### Layers -/

/-- A cache stands for `own` over a layer that stands for `below`. -/
def CCoinsViewCache.Agrees (c : CCoinsViewCache P) (own below : CoinMap P) : Prop :=
  ∀ outpoint, CellAgrees (c.cacheCoins.lookup outpoint) (own outpoint) (below outpoint)

/-- What the database stands for. -/
def Coins.view (db : Coins P) : CoinMap P := fun outpoint => (db.get outpoint).bind Coin.unspent?

/-- The caches over the database stand for a list of maps, the last of which is the one of the
database. -/
def StackAgrees (db : Coins P) : List (CCoinsViewCache P) → List (CoinMap P) → Prop
  | [], [m] => m = db.view
  | c :: cs, own :: below :: ms => c.Agrees own below ∧ StackAgrees db cs (below :: ms)
  | _, _ => False

namespace CCoinsViewCache

variable {db : Coins P} {c : CCoinsViewCache P} {cs : List (CCoinsViewCache P)}
  {own below : CoinMap P} {ms : List (CoinMap P)}

lemma agrees_empty (m : CoinMap P) : (empty : CCoinsViewCache P).Agrees m m := fun _ => rfl

/-- Only the lookups of the map count. -/
lemma Agrees.congr (h : c.Agrees own below) {own' : CoinMap P} (heq : ∀ a, own a = own' a) :
    c.Agrees own' below := fun a => heq a ▸ h a

/-- Replacing the entry of one outpoint, and the coin at it. -/
lemma Agrees.setCell (h : c.Agrees own below) (outpoint : COutPoint P)
    (cell : Option (CCoinsCacheEntry P)) (coin : Option (Coin P))
    (hcell : CellAgrees cell coin (below outpoint)) :
    CCoinsViewCache.Agrees ⟨c.cacheCoins.setCell outpoint cell⟩
      (update own outpoint coin) below := by
  intro o
  by_cases ho : o = outpoint
  · subst ho
    rw [CellMap.lookup_setCell_self, update_self]
    exact hcell
  · rw [CellMap.lookup_setCell_of_ne _ _ ho, update_of_ne ho]
    exact h o

/-- The coin changes in the own layer and in the layer below if there is no entry for it. -/
lemma Agrees.update (h : c.Agrees own below) {outpoint : COutPoint P}
    (hnone : c.cacheCoins.lookup outpoint = none) (coin : Option (Coin P)) :
    c.Agrees (update own outpoint coin) (update below outpoint coin) := by
  intro o
  by_cases ho : o = outpoint
  · subst ho
    rw [hnone, update_self, update_self]
    rfl
  · rw [update_of_ne ho, update_of_ne ho]
    exact h o

/-- What fetching an entry gives: the coin of the layer, with nothing changed in what the layers
stand for. -/
structure Fetched (db : Coins P) (own below : CoinMap P) (ms : List (CoinMap P))
    (outpoint : COutPoint P)
    (r : Option (CCoinsCacheEntry P) × CCoinsViewCache P × List (CCoinsViewCache P)) : Prop where
  coin : (r.1.bind fun entry => entry.coin.unspent?) = own outpoint
  cached : r.2.1.cacheCoins.lookup outpoint = r.1
  agrees : StackAgrees db (r.2.1 :: r.2.2) (own :: below :: ms)

lemma fetchCoin_fetched (h : c.Agrees own below) (outpoint : COutPoint P)
    {getBase : COutPoint P → Option (Coin P) × List (CCoinsViewCache P)}
    (hbase : (getBase outpoint).1.bind Coin.unspent? = below outpoint)
    (hcs : StackAgrees db cs (below :: ms))
    (hcs' : StackAgrees db (getBase outpoint).2 (below :: ms)) :
    Fetched db own below ms outpoint (c.fetchCoin cs getBase outpoint) := by
  have hcell := h outpoint
  cases hlookup : c.cacheCoins.lookup outpoint with
  | some entry =>
    rw [hlookup] at hcell
    have hfetch : c.fetchCoin cs getBase outpoint = (some entry, c, cs) := by
      simp [fetchCoin, hlookup]
    rw [hfetch]
    exact ⟨hcell.1, hlookup, h, hcs⟩
  | none =>
    rw [hlookup] at hcell
    rcases hget : getBase outpoint with ⟨_ | coin, cs'⟩
    · have hfetch : c.fetchCoin cs getBase outpoint = (none, c, cs') := by
        simp [fetchCoin, hlookup, hget]
      rw [hget] at hbase hcs'
      rw [hfetch]
      exact ⟨hbase.trans hcell.symm, hlookup, h, hcs'⟩
    · have hfetch : c.fetchCoin cs getBase outpoint =
          (some ⟨coin, false, coin.isSpent⟩,
            ⟨c.cacheCoins.setCell outpoint (some ⟨coin, false, coin.isSpent⟩)⟩, cs') := by
        simp [fetchCoin, hlookup, hget, CellMap.setCell]
      rw [hget] at hbase hcs'
      have hown : own outpoint = coin.unspent? := hcell.trans hbase.symm
      rw [hfetch]
      refine ⟨hown.symm, CellMap.lookup_setCell_self _ _ _, ?_, hcs'⟩
      have hset := h.setCell outpoint (some ⟨coin, false, coin.isSpent⟩) coin.unspent? (by
        rw [← hbase]
        exact CellAgrees.fetched coin)
      rwa [← hown, update_eq_self] at hset

lemma getCoin_cons_fst (outpoint : COutPoint P) :
    (getCoin db (c :: cs) outpoint).1 =
      (c.fetchCoin cs (getCoin db cs) outpoint).1.bind fun entry => entry.coin.unspent? := rfl

/-- A query is answered by the map of the layer; only the database may answer with a spent coin. -/
lemma getCoin_spec (h : StackAgrees db cs (own :: ms)) (outpoint : COutPoint P) :
    (getCoin db cs outpoint).1.bind Coin.unspent? = own outpoint ∧
      (cs ≠ [] → (getCoin db cs outpoint).1 = own outpoint) ∧
      StackAgrees db (getCoin db cs outpoint).2 (own :: ms) := by
  induction cs generalizing own ms with
  | nil =>
    cases ms with
    | nil => exact ⟨congrFun h.symm outpoint, by simp, h⟩
    | cons _ _ => exact h.elim
  | cons c cs ih =>
    cases ms with
    | nil => exact h.elim
    | cons below ms =>
      obtain ⟨hbase, -, hcs'⟩ := ih h.2
      obtain ⟨hcoin, -, hagrees⟩ := fetchCoin_fetched h.1 outpoint hbase h.2 hcs'
      refine ⟨?_, fun _ => hcoin, hagrees⟩
      rw [← hcoin, getCoin_cons_fst, Option.bind_assoc]
      simp only [Coin.unspent?_bind_unspent?]

section

variable (h : StackAgrees db (c :: cs) (own :: below :: ms)) (outpoint : COutPoint P)

include h outpoint

/-- Fetching an entry in the cache on top of a stack. -/
lemma fetched : Fetched db own below ms outpoint (c.fetchCoin cs (getCoin db cs) outpoint) := by
  obtain ⟨hbase, -, hcs'⟩ := getCoin_spec h.2 outpoint
  exact fetchCoin_fetched h.1 outpoint hbase h.2 hcs'

/-- The queries answer as the map does. -/
lemma haveCoin_eq : (c.haveCoin db cs outpoint).1 = (own outpoint).isSome := by
  rw [← (fetched h outpoint).coin]
  change Option.any _ (c.fetchCoin cs (getCoin db cs) outpoint).1 = _
  cases (c.fetchCoin cs (getCoin db cs) outpoint).1 with
  | none => rfl
  | some entry => cases hs : entry.coin.isSpent <;> simp [Coin.unspent?, hs]

lemma unspent?_accessCoin : (c.accessCoin db cs outpoint).1.unspent? = own outpoint := by
  rw [← (fetched h outpoint).coin]
  change Coin.unspent? (Option.elim (c.fetchCoin cs (getCoin db cs) outpoint).1 _ _) = _
  cases (c.fetchCoin cs (getCoin db cs) outpoint).1 <;> rfl

/-- Spending removes the coin from the map of the layer. -/
lemma spendCoin_spec :
    (c.spendCoin db cs outpoint).1.bind Coin.unspent? = own outpoint ∧
      StackAgrees db ((c.spendCoin db cs outpoint).2.1 :: (c.spendCoin db cs outpoint).2.2)
        (update own outpoint none :: below :: ms) := by
  obtain ⟨hcoin, hcached, hc', hcs'⟩ := fetched h outpoint
  rcases hfetch : c.fetchCoin cs (getCoin db cs) outpoint with ⟨_ | entry, c', cs'⟩
  · have hspend : c.spendCoin db cs outpoint = (none, c', cs') := by simp [spendCoin, hfetch]
    rw [hfetch] at hcoin hc' hcs'
    have hsame : update own outpoint none = own := by
      rw [update_eq_self_iff]
      exact hcoin
    rw [hspend, hsame]
    exact ⟨hcoin, hc', hcs'⟩
  · have hspend : c.spendCoin db cs outpoint = (some entry.coin,
        ⟨c'.cacheCoins.setCell outpoint
          (if entry.fresh then none else some ⟨.cleared, true, entry.fresh⟩)⟩, cs') := by
      simp [spendCoin, hfetch]
    rw [hfetch] at hcoin hcached hc' hcs'
    have hcell := hc' outpoint
    rw [hcached] at hcell
    rw [hspend]
    exact ⟨hcoin, Agrees.setCell hc' outpoint _ none hcell.spent, hcs'⟩

end

/-- The map of a layer after a coin was added. -/
def addToMap (outpoint : COutPoint P) (coin : Coin P) (m : CoinMap P) : CoinMap P :=
  if coin.out.scriptPubKey.isUnspendable then m else Function.update m outpoint (some coin)

/-- Adding a coin fails only for a spent coin, and otherwise adds it to the map of the layer. -/
lemma addCoin_spec (h : c.Agrees own below) (outpoint : COutPoint P) {coin : Coin P}
    (hcoin : coin.isSpent = false) {possibleOverwrite : Bool}
    (hown : possibleOverwrite = false → own outpoint = none) :
    ∃ c', c.addCoin outpoint coin possibleOverwrite = .ok c' ∧
      c'.Agrees (addToMap outpoint coin own) below := by
  cases hu : coin.out.scriptPubKey.isUnspendable with
  | true =>
    refine ⟨c, ?_, by simpa [addToMap, hu] using h⟩
    simp [addCoin, hcoin, hu, rejectIf, bind, Except.bind, pure, Except.pure]
  | false =>
    have hcell := h outpoint
    refine ⟨⟨c.cacheCoins.setCell outpoint (some ⟨coin, true,
      ((c.cacheCoins.lookup outpoint).getD .new).fresh ||
        (!possibleOverwrite && !((c.cacheCoins.lookup outpoint).getD .new).dirty)⟩)⟩, ?_, ?_⟩
    · have hreject : ¬(possibleOverwrite = false ∧
          ((c.cacheCoins.lookup outpoint).getD .new).coin.isSpent = false) := by
        rintro ⟨hpo, hs⟩
        rw [hown hpo] at hcell
        rw [hcell.isSpent_getD] at hs
        cases hs
      simp [addCoin, hcoin, hu, rejectIf, bind, Except.bind, pure, Except.pure, hreject,
        CellMap.setCell]
    · simpa [addToMap, hu] using h.setCell outpoint _ (some coin) (hcell.added hcoin hown)

lemma uncache_agrees (h : c.Agrees own below) (outpoint : COutPoint P) :
    (c.uncache outpoint).Agrees own below := by
  have hcell := h outpoint
  cases hlookup : c.cacheCoins.lookup outpoint with
  | none => simpa [uncache, hlookup] using h
  | some entry =>
    rw [hlookup] at hcell
    cases hflags : (!entry.dirty && !entry.fresh) with
    | false =>
      have hsame : c.uncache outpoint = c := by
        simp only [uncache, hlookup, hflags, Bool.false_eq_true, if_false]
      rwa [hsame]
    | true =>
      have hset := h.setCell outpoint none (own outpoint) (hcell.dropped hflags)
      rw [update_eq_self] at hset
      have herase : c.uncache outpoint = ⟨c.cacheCoins.setCell outpoint none⟩ := by
        simp only [uncache, hlookup, hflags, if_true]
        rfl
      rwa [herase]

/-- Flushing makes the layer below stand for the map of the layer on top. -/
lemma flush_spec (h : StackAgrees db (c :: cs) (own :: below :: ms)) :
    ∃ db' cs', flush db (c :: cs) = .ok (db', cs') ∧ StackAgrees db' cs' (own :: own :: ms) := by
  obtain ⟨hc, hcs⟩ := h
  cases cs with
  | nil =>
    cases ms with
    | cons _ _ => exact hcs.elim
    | nil =>
      refine ⟨_, _, rfl, agrees_empty own, ?_⟩
      funext outpoint
      have hcell := hc outpoint
      rw [show below = db.view from hcs] at hcell
      rw [Coins.view, CellMap.get_writeTo]
      cases hlookup : c.cacheCoins.lookup outpoint with
      | none =>
        rw [hlookup] at hcell
        exact hcell
      | some entry =>
        rw [hlookup] at hcell
        exact hcell.written.symm
  | cons parent cs =>
    cases ms with
    | nil => exact hcs.elim
    | cons base ms =>
      obtain ⟨hparent, hcs⟩ := hcs
      have hcells : ∀ outpoint entry, c.cacheCoins.lookup outpoint = some entry →
          ∃ cell, mergeEntry entry (parent.cacheCoins.lookup outpoint) = .ok cell ∧
            CellAgrees cell (own outpoint) (base outpoint) := by
        intro outpoint entry hlookup
        have hcell := hc outpoint
        rw [hlookup] at hcell
        exact hcell.merged (hparent outpoint)
      obtain ⟨merged, hmerge, hsome, hnone⟩ :=
        CellMap.exists_mergeFrom_eq mergeEntry parent.cacheCoins c.cacheCoins
          fun outpoint entry hlookup => (hcells outpoint entry hlookup).imp fun _ hcell => hcell.1
      refine ⟨db, empty :: ⟨merged⟩ :: cs, bind_of_eq_ok hmerge _, agrees_empty own, ?_, hcs⟩
      intro outpoint
      cases hlookup : c.cacheCoins.lookup outpoint with
      | none =>
        have hcell := hc outpoint
        rw [hlookup] at hcell
        rw [hnone outpoint hlookup, show own outpoint = below outpoint from hcell]
        exact hparent outpoint
      | some entry =>
        obtain ⟨cell, hcell, hagrees⟩ := hcells outpoint entry hlookup
        obtain rfl : merged.lookup outpoint = cell :=
          Except.ok.inj ((hsome outpoint entry hlookup).symm.trans hcell)
        exact hagrees

end CCoinsViewCache

/-! ### Runs -/

namespace CoinsOp

variable {db : Coins P} {c : CCoinsViewCache P} {cs : List (CCoinsViewCache P)}
  {own below : CoinMap P} {ms : List (CoinMap P)}

/-- The outpoint at which an operation changes a coin. -/
def changed : CoinsOp P → Option (COutPoint P)
  | .addCoin outpoint _ _ => some outpoint
  | .spendCoin outpoint => some outpoint
  | _ => none

/-- The map of a layer after an operation on it or on a layer below. -/
def touch (op : CoinsOp P) (m : CoinMap P) : CoinMap P :=
  match op with
  | .addCoin outpoint coin _ => CCoinsViewCache.addToMap outpoint coin m
  | .spendCoin outpoint => Function.update m outpoint none
  | _ => m

/-- The maps after an operation on the layer on top. -/
def onMaps (op : CoinsOp P) : List (CoinMap P) → List (CoinMap P)
  | [] => []
  | [m] => [op.touch m]
  | own :: below :: ms =>
    match op with
    | .flush => own :: own :: ms
    | _ => op.touch own :: below :: ms

/-- The maps after an operation on the layer that has `depth` caches above it. -/
def onMapsAt (op : CoinsOp P) : ℕ → List (CoinMap P) → List (CoinMap P)
  | 0, ms => op.onMaps ms
  | _ + 1, [] => []
  | depth + 1, m :: ms => op.touch m :: onMapsAt op depth ms

/-- The operation may be called on the layer that has `depth` caches above it: no cache above has an
entry for the coin that is changed, and a coin is added without possible overwriting only if the
layer does not have it. -/
structure Allowed (op : CoinsOp P) (depth : ℕ) (cs : List (CCoinsViewCache P))
    (ms : List (CoinMap P)) : Prop where
  layer : depth < cs.length
  topDown : ∀ outpoint, op.changed = some outpoint → ∀ c ∈ cs.take depth,
    c.cacheCoins.lookup outpoint = none
  noOverwrite : ∀ outpoint coin, op = .addCoin outpoint coin false →
    ∀ m, ms[depth]? = some m → m outpoint = none

lemma head_onMapsAt (op : CoinsOp P) (depth : ℕ) (m : CoinMap P) (ms : List (CoinMap P)) :
    ∃ ms', op.onMapsAt depth (m :: ms) = op.touch m :: ms' := by
  cases depth with
  | succ depth => exact ⟨_, rfl⟩
  | zero =>
    cases ms with
    | nil => exact ⟨_, rfl⟩
    | cons below ms => cases op <;> exact ⟨_, rfl⟩

/-- A cache above the changed layer still agrees if it has no entry for the changed coin. -/
lemma agrees_touch (op : CoinsOp P) (h : c.Agrees own below)
    (hnone : ∀ outpoint, op.changed = some outpoint → c.cacheCoins.lookup outpoint = none) :
    c.Agrees (op.touch own) (op.touch below) := by
  cases op with
  | addCoin outpoint coin possibleOverwrite =>
    rw [touch, touch, addToMap, addToMap]
    split
    · exact h
    · exact h.update (hnone outpoint rfl) _
  | spendCoin outpoint => exact h.update (hnone outpoint rfl) none
  | getCoin _ => exact h
  | haveCoin _ => exact h
  | accessCoin _ => exact h
  | uncache _ => exact h
  | flush => exact h

/-- An operation on the cache on top changes the maps accordingly, or was called to add a spent
coin. -/
lemma exec_spec (op : CoinsOp P) (h : StackAgrees db (c :: cs) (own :: below :: ms))
    (hadd : ∀ outpoint coin, op = .addCoin outpoint coin false → own outpoint = none) :
    op.exec db (c :: cs) = .error .spentCoin ∨
      ∃ db' cs', op.exec db (c :: cs) = .ok (db', cs') ∧
        StackAgrees db' cs' (op.onMaps (own :: below :: ms)) := by
  cases op with
  | addCoin outpoint coin possibleOverwrite =>
    cases hs : coin.isSpent with
    | true =>
      left
      have hfail : c.addCoin outpoint coin possibleOverwrite = .error .spentCoin := by
        simp [CCoinsViewCache.addCoin, rejectIf, hs, bind, Except.bind]
      simp [exec, hfail, bind, Except.bind]
    | false =>
      have hown : possibleOverwrite = false → own outpoint = none :=
        fun hpo => hadd outpoint coin (by rw [hpo])
      obtain ⟨c', hadded, hc'⟩ := CCoinsViewCache.addCoin_spec h.1 outpoint hs hown
      exact .inr ⟨db, c' :: cs, bind_of_eq_ok hadded _, hc', h.2⟩
  | spendCoin outpoint =>
    exact .inr ⟨_, _, rfl, (CCoinsViewCache.spendCoin_spec h outpoint).2⟩
  | getCoin outpoint => exact .inr ⟨_, _, rfl, (CCoinsViewCache.getCoin_spec h outpoint).2.2⟩
  | haveCoin outpoint => exact .inr ⟨_, _, rfl, (CCoinsViewCache.fetched h outpoint).agrees⟩
  | accessCoin outpoint => exact .inr ⟨_, _, rfl, (CCoinsViewCache.fetched h outpoint).agrees⟩
  | uncache outpoint =>
    exact .inr ⟨_, _, rfl, CCoinsViewCache.uncache_agrees h.1 outpoint, h.2⟩
  | flush => exact .inr (CCoinsViewCache.flush_spec h)

/-- An operation on any layer changes the maps accordingly, or was called to add a spent coin. -/
lemma execAt_spec (op : CoinsOp P) {depth : ℕ} (h : StackAgrees db cs ms)
    (hallowed : op.Allowed depth cs ms) :
    op.execAt db depth cs = .error .spentCoin ∨
      ∃ db' cs', op.execAt db depth cs = .ok (db', cs') ∧
        StackAgrees db' cs' (op.onMapsAt depth ms) := by
  induction depth generalizing cs ms with
  | zero =>
    match cs, ms, h with
    | [], [_], _ => exact absurd hallowed.layer (by simp)
    | c :: cs, own :: below :: ms, h =>
      exact op.exec_spec h fun outpoint coin hop => hallowed.noOverwrite outpoint coin hop own rfl
  | succ depth ih =>
    match cs, ms, h with
    | [], [_], _ => exact absurd hallowed.layer (by simp)
    | c :: cs, own :: below :: ms, ⟨hc, hcs⟩ =>
      have hbelow : op.Allowed depth cs (below :: ms) :=
        { layer := Nat.lt_of_succ_lt_succ hallowed.layer
          topDown := fun outpoint hchanged c' hc' =>
            hallowed.topDown outpoint hchanged c' (List.mem_cons_of_mem _ hc')
          noOverwrite := fun outpoint coin hop m hm => hallowed.noOverwrite outpoint coin hop m hm }
      rcases ih hcs hbelow with hfail | ⟨db', cs', hexec, hcs'⟩
      · left
        simp [execAt, hfail, bind, Except.bind]
      · refine .inr ⟨db', c :: cs', bind_of_eq_ok hexec _, ?_⟩
        have hc' := op.agrees_touch hc fun outpoint hchanged =>
          hallowed.topDown outpoint hchanged c List.mem_cons_self
        obtain ⟨ms', hms'⟩ := op.head_onMapsAt depth below ms
        rw [onMapsAt, hms']
        rw [hms'] at hcs'
        exact ⟨hc', hcs'⟩

end CoinsOp

/-- The stacks that can come up, each with the plain maps that its layers and the database stand
for.  A run starts with new caches over a database; caches can also be put on top and dropped. -/
inductive CoinsRun : Coins P → List (CCoinsViewCache P) → List (CoinMap P) → Prop
  | init (db : Coins P) (n : ℕ) :
    CoinsRun db (List.replicate n .empty) (List.replicate (n + 1) db.view)
  | step {db db' : Coins P} {cs cs' : List (CCoinsViewCache P)} {ms : List (CoinMap P)}
    (run : CoinsRun db cs ms) (op : CoinsOp P) (depth : ℕ) (hallowed : op.Allowed depth cs ms)
    (hexec : op.execAt db depth cs = .ok (db', cs')) : CoinsRun db' cs' (op.onMapsAt depth ms)
  | push {db : Coins P} {cs : List (CCoinsViewCache P)} {m : CoinMap P} {ms : List (CoinMap P)}
    (run : CoinsRun db cs (m :: ms)) : CoinsRun db (.empty :: cs) (m :: m :: ms)
  | pop {db : Coins P} {c : CCoinsViewCache P} {cs : List (CCoinsViewCache P)} {m : CoinMap P}
    {ms : List (CoinMap P)} (run : CoinsRun db (c :: cs) (m :: ms)) : CoinsRun db cs ms

namespace CCoinsViewCache

/-- The queries on a cache over the layers `rest` answer as a plain map would. -/
structure AnswersAs (db : Coins P) (c : CCoinsViewCache P) (rest : List (CCoinsViewCache P))
    (m : CoinMap P) : Prop where
  getCoin : ∀ outpoint, (CCoinsViewCache.getCoin db (c :: rest) outpoint).1 = m outpoint
  haveCoin : ∀ outpoint, (c.haveCoin db rest outpoint).1 = (m outpoint).isSome
  accessCoin : ∀ outpoint, (c.accessCoin db rest outpoint).1.unspent? = m outpoint

/-- The rules for the flags: an entry is in one of the five valid states, FRESH means that the layer
below does not have the coin or has it as a spent one, and an entry that is not DIRTY has what the
layer below has. -/
structure FlagsSound (db : Coins P) (entry : CCoinsCacheEntry P) (rest : List (CCoinsViewCache P))
    (outpoint : COutPoint P) : Prop where
  valid : entry.Valid
  fresh : entry.fresh = true → (getCoin db rest outpoint).1.bind Coin.unspent? = none
  clean : entry.dirty = false →
    (getCoin db rest outpoint).1.bind Coin.unspent? = entry.coin.unspent?

end CCoinsViewCache

namespace CoinsRun

variable {db : Coins P} {cs : List (CCoinsViewCache P)} {ms : List (CoinMap P)}

lemma stackAgrees_replicate (db : Coins P) (n : ℕ) :
    StackAgrees db (List.replicate n .empty) (List.replicate (n + 1) db.view) := by
  induction n with
  | zero => rfl
  | succ n ih => exact ⟨agrees_empty _, ih⟩

/-- The layers stand for their maps in every run. -/
lemma stackAgrees (run : CoinsRun db cs ms) : StackAgrees db cs ms := by
  induction run with
  | init db n => exact stackAgrees_replicate db n
  | step _ op depth hallowed hexec ih =>
    rcases op.execAt_spec ih hallowed with hfail | ⟨db', cs', hok, hagrees⟩
    · rw [hfail] at hexec
      cases hexec
    · obtain ⟨rfl, rfl⟩ := Prod.mk.inj (Except.ok.inj (hok.symm.trans hexec))
      exact hagrees
  | push _ ih => exact ⟨agrees_empty _, ih⟩
  | @pop db c cs m ms _ ih =>
    match ms, ih with
    | _ :: _, ih => exact ih.2

/-- A cache of the stack, what it stands for and what the layers below it stand for. -/
lemma exists_stackAgrees_drop (h : StackAgrees db cs ms) {depth : ℕ} {c : CCoinsViewCache P}
    {rest : List (CCoinsViewCache P)} (hdrop : cs.drop depth = c :: rest) :
    ∃ own below ms', ms.drop depth = own :: below :: ms' ∧
      StackAgrees db (c :: rest) (own :: below :: ms') := by
  induction depth generalizing cs ms with
  | zero =>
    match cs, ms, h with
    | [], [_], _ => cases hdrop
    | _ :: _, own :: below :: ms, h =>
      obtain ⟨rfl, rfl⟩ := List.cons.inj hdrop
      exact ⟨own, below, ms, rfl, h⟩
  | succ depth ih =>
    match cs, ms, h with
    | [], [_], _ => cases hdrop
    | _ :: _, _ :: _ :: _, h => exact ih h.2 hdrop

/-- In every run every layer answers as the plain map it stands for, the rules for the flags hold
for every entry, and neither of the two exceptions is thrown by a call that is allowed. -/
theorem answers_as_map (run : CoinsRun db cs ms) :
    (∀ depth c rest, cs.drop depth = c :: rest →
      (∃ m, ms[depth]? = some m ∧ c.AnswersAs db rest m) ∧
        ∀ outpoint entry, c.cacheCoins.lookup outpoint = some entry →
          CCoinsViewCache.FlagsSound db entry rest outpoint) ∧
      ∀ (op : CoinsOp P) depth, op.Allowed depth cs ms →
        op.execAt db depth cs ≠ .error .freshMisapplied ∧
          op.execAt db depth cs ≠ .error .overwriteUnspent := by
  refine ⟨fun depth c rest hdrop => ?_, fun op depth hallowed => ?_⟩
  · obtain ⟨own, below, ms', hms, h⟩ := exists_stackAgrees_drop run.stackAgrees hdrop
    have hm : ms[depth]? = some own := by
      rw [← List.head?_drop, hms]
      rfl
    refine ⟨⟨own, hm, ?_⟩, ?_⟩
    · exact
        { getCoin := fun outpoint => (CCoinsViewCache.getCoin_spec h outpoint).2.1 (by simp)
          haveCoin := CCoinsViewCache.haveCoin_eq h
          accessCoin := CCoinsViewCache.unspent?_accessCoin h }
    · intro outpoint entry hlookup
      have hcell := h.1 outpoint
      rw [hlookup, ← (CCoinsViewCache.getCoin_spec h.2 outpoint).1] at hcell
      obtain ⟨hcoin, hvalid, hfresh, hclean⟩ := hcell
      exact ⟨hvalid, hfresh, fun hd => (hcoin.trans (hclean hd)).symm⟩
  · rcases op.execAt_spec run.stackAgrees hallowed with hfail | ⟨_, _, hok, -⟩
    · simp [hfail]
    · simp [hok]

/-- A coin in the cache on top of two, flushed to the cache below. -/
theorem answers_as_map_flushed :
    ∃ (db : Coins Symbolic.sym) (cs : List (CCoinsViewCache Symbolic.sym))
      (m : CoinMap Symbolic.sym) (outpoint : COutPoint Symbolic.sym),
      cs.length = 1 ∧ (m outpoint).isSome ∧ CCoinsViewCache.empty.AnswersAs db cs m := by
  let coin : Coin Symbolic.sym := ⟨⟨50, .raw ⟨[0x51], rfl⟩⟩, 1, false, false⟩
  let outpoint : COutPoint Symbolic.sym := ⟨.word 1, 0⟩
  have run := (((CoinsRun.init FiniteMap.empty 2).step (.addCoin outpoint coin false) 0
    ⟨by simp, by simp, by
      rintro o c hop m hm
      obtain rfl : m = _ := (Option.some.inj hm).symm
      rfl⟩ rfl).step .flush 0 ⟨by simp, by simp, by simp⟩ rfl)
  obtain ⟨⟨m, hm, hanswers⟩, -⟩ := (answers_as_map run).1 0 _ _ rfl
  refine ⟨_, _, m, outpoint, ?_, ?_, hanswers⟩
  · rfl
  · obtain rfl := Option.some.inj hm
    rfl

end CoinsRun

end Aegisum
