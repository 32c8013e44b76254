import Aegisum.Foundations.FiniteMap
import Aegisum.Node.CheckTx

/-!
# Canonical coins

`AddCoin`, `AddCoins`, `SpendCoin` and `UpdateCoins` on the cache in which a block is connected.
The cache starts empty on top of the coins of the tip, so it is given by the coins it shows and
by the outpoints it has added itself.
-/

namespace Aegisum

variable {P : Primitives}

/-- The unspent canonical coins. -/
abbrev Coins (P : Primitives) := FiniteMap (COutPoint P) (Coin P)

/-- A `CCoinsViewCache` in which one block is connected. -/
structure CoinsCache (P : Primitives) where
  /-- The unspent coins as seen through the cache. -/
  coins : Coins P
  /-- The outpoints that were added in this cache. -/
  added : List (COutPoint P)

/-- The inputs whose coins a transaction spends: a coinbase spends none. -/
def CTransaction.spentInputs (tx : CTransaction P) : List (CTxIn P) :=
  if tx.isCoinBase then [] else tx.vin

namespace CoinsCache

/-- Add a coin.  A coin that was added in this cache and is unspent is only replaced when that
is expected; a coin that can never be spent is not stored. -/
def addCoin (c : CoinsCache P) (outpoint : COutPoint P) (coin : Coin P)
    (possibleOverwrite : Bool) : Except BlockFailure (CoinsCache P) := do
  rejectIf (coin.out.nValue = -1) .exception
  if coin.out.scriptPubKey.isUnspendable then pure c
  else do
    rejectIf (possibleOverwrite = false ∧ outpoint ∈ c.added ∧ c.coins.get outpoint ≠ none)
      .exception
    pure ⟨c.coins.set outpoint (some coin), outpoint :: c.added⟩

/-- Spend a coin, which must be unspent; returns it for the undo data. -/
def spendCoin (c : CoinsCache P) (outpoint : COutPoint P) :
    Except BlockFailure (Coin P × CoinsCache P) :=
  match c.coins.get outpoint with
  | none => .error .exception
  | some coin => .ok (coin, ⟨c.coins.set outpoint none, c.added⟩)

/-- One step of spending the inputs of a transaction. -/
def spendInput (s : List (Coin P) × CoinsCache P) (txin : CTxIn P) :
    Except BlockFailure (List (Coin P) × CoinsCache P) := do
  let (coin, c) ← s.2.spendCoin txin.prevout
  pure (s.1 ++ [coin], c)

/-- The coin of an output.  The outputs of a HogEx after the first one are peg-outs. -/
def outputCoin (tx : CTransaction P) (nHeight : ℤ) (out : CTxOut P) (i : ℕ) : Coin P :=
  ⟨out, nHeight, tx.isCoinBase, tx.isHogEx && 0 < i⟩

variable [NodeCrypto P]

/-- One step of adding the outputs of a transaction. -/
def addOutput (tx : CTransaction P) (nHeight : ℤ) (c : CoinsCache P) (out : CTxOut P × ℕ) :
    Except BlockFailure (CoinsCache P) :=
  c.addCoin ⟨tx.getHash, out.2⟩ (outputCoin tx nHeight out.1 out.2) tx.isCoinBase

/-- Add the outputs of a transaction. -/
def addCoins (c : CoinsCache P) (tx : CTransaction P) (nHeight : ℤ) :
    Except BlockFailure (CoinsCache P) :=
  tx.vout.zipIdx.foldlM (addOutput tx nHeight) c

/-- Spend the inputs and add the outputs of a transaction; returns the spent coins. -/
def updateCoins (c : CoinsCache P) (tx : CTransaction P) (nHeight : ℤ) :
    Except BlockFailure (List (Coin P) × CoinsCache P) := do
  let (vprevout, c) ← tx.spentInputs.foldlM spendInput ([], c)
  let c ← c.addCoins tx nHeight
  pure (vprevout, c)

end CoinsCache

/-! ### Values -/

/-- The value of a coin. -/
def Coin.value (coin : Coin P) : ℤ := coin.out.nValue.toInt

/-- The value of all unspent coins. -/
noncomputable def Coins.totalValue (coins : Coins P) : ℤ := coins.total Coin.value

/-- No coin has a negative value. -/
def Coins.Nonneg (coins : Coins P) : Prop := ∀ a coin, coins.get a = some coin → 0 ≤ coin.value

/-- Replacing the coin at an outpoint adds at most the value of the new one. -/
lemma Coins.totalValue_set_le {coins : Coins P} (h : coins.Nonneg) (a : COutPoint P)
    (coin : Coin P) : totalValue (coins.set a (some coin)) ≤ coins.totalValue + coin.value := by
  have hold : 0 ≤ FiniteMap.weight Coin.value (coins.get a) := by
    cases hget : coins.get a with
    | none => exact Int.le_refl 0
    | some old => exact h a old hget
  rw [totalValue, FiniteMap.total_set, FiniteMap.weight_some, totalValue]
  omega

/-- Rebinding one outpoint to a coin of non-negative value keeps all values non-negative. -/
lemma Coins.Nonneg.set {coins : Coins P} (h : coins.Nonneg) {a : COutPoint P}
    {v : Option (Coin P)} (hv : ∀ coin, v = some coin → 0 ≤ coin.value) :
    Coins.Nonneg (coins.set a v) := by
  intro x coin hget
  by_cases hx : x = a
  · subst hx
    exact hv coin (by simpa using hget)
  · exact h x coin (by simpa [hx] using hget)

/-! ### What the operations do -/

namespace CoinsCache

/-- What spending a list of inputs does. -/
structure InputsSpent (c : CoinsCache P) (ins : List (CTxIn P)) (spent : List (Coin P))
    (c' : CoinsCache P) : Prop where
  nodup : (ins.map CTxIn.prevout).Nodup
  coins_eq : ins.map (fun txin => c.coins.get txin.prevout) = spent.map some
  get_eq : ∀ a, c'.coins.get a =
    if a ∈ ins.map CTxIn.prevout then none else c.coins.get a
  total_eq : c'.coins.totalValue = c.coins.totalValue - (spent.map Coin.value).sum
  added_eq : c'.added = c.added

variable {c c' : CoinsCache P}

lemma spendCoin_eq_ok {o : COutPoint P} {coin : Coin P} :
    c.spendCoin o = .ok (coin, c') ↔
      c.coins.get o = some coin ∧ c' = ⟨c.coins.set o none, c.added⟩ := by
  unfold spendCoin
  cases c.coins.get o with
  | none => simp
  | some coin' => simp [eq_comm]

/-- The loop over the inputs spends one coin after the other, all of them different. -/
lemma inputsSpent_of_loop {ins : List (CTxIn P)} {acc acc' : List (Coin P)}
    (h : ins.foldlM spendInput (acc, c) = .ok (acc', c')) :
    ∃ spent, acc' = acc ++ spent ∧ c.InputsSpent ins spent c' := by
  induction ins generalizing acc c with
  | nil =>
    obtain ⟨rfl, rfl⟩ : acc = acc' ∧ c = c' := by simpa [pure, Except.pure] using h
    exact ⟨[], by simp, by simp, rfl, by simp, by simp, rfl⟩
  | cons txin ins ih =>
    obtain ⟨⟨acc₁, c₁⟩, hstep, hrest⟩ := foldlM_cons_eq_ok.mp h
    obtain ⟨⟨coin, c₂⟩, hspend, hpure⟩ := bind_eq_ok.mp hstep
    obtain ⟨hcoin, rfl⟩ := spendCoin_eq_ok.mp hspend
    obtain ⟨rfl, rfl⟩ := Prod.mk.inj (Except.ok.inj hpure)
    obtain ⟨spent, rfl, hspent⟩ := ih hrest
    -- the later inputs find their coins, so none of them names the first outpoint again
    have hne : txin.prevout ∉ ins.map CTxIn.prevout := by
      intro hmem
      obtain ⟨other, hother, heq⟩ := List.mem_map.mp hmem
      have hin : (none : Option (Coin P)) ∈ spent.map some := by
        rw [← hspent.coins_eq]
        exact List.mem_map.mpr ⟨other, hother, by simp [heq]⟩
      simp at hin
    refine ⟨coin :: spent, by simp, ?_, ?_, ?_, ?_, hspent.added_eq⟩
    · exact List.nodup_cons.mpr ⟨hne, hspent.nodup⟩
    · rw [List.map_cons, List.map_cons, hcoin, ← hspent.coins_eq]
      refine congrArg _ (List.map_congr_left fun other hother => ?_)
      have hdiff : other.prevout ≠ txin.prevout := fun heq =>
        hne (heq ▸ List.mem_map_of_mem hother)
      exact (FiniteMap.get_set_of_ne _ _ hdiff).symm
    · intro a
      rw [hspent.get_eq a]
      by_cases ha : a = txin.prevout
      · simp [ha]
      · simp [ha]
    · rw [hspent.total_eq, Coins.totalValue, FiniteMap.total_set, hcoin]
      simp only [FiniteMap.weight_some, FiniteMap.weight_none, List.map_cons, List.sum_cons,
        Coins.totalValue]
      omega

variable [NodeCrypto P]

/-- The coin that a list of outputs, numbered from `k` on, creates at an outpoint. -/
def createdFrom (tx : CTransaction P) (nHeight : ℤ) (outs : List (CTxOut P)) (k : ℕ)
    (a : COutPoint P) : Option (Coin P) :=
  if a.hash = tx.getHash ∧ k ≤ a.n then
    (outs[a.n - k]?.filter fun out => !out.scriptPubKey.isUnspendable).map fun out =>
      outputCoin tx nHeight out a.n
  else none

/-- The coin that a transaction creates at an outpoint. -/
def created (tx : CTransaction P) (nHeight : ℤ) (a : COutPoint P) : Option (Coin P) :=
  createdFrom tx nHeight tx.vout 0 a

variable {tx : CTransaction P} {nHeight : ℤ}

lemma created_eq_some {a : COutPoint P} {coin : Coin P} :
    created tx nHeight a = some coin ↔ a.hash = tx.getHash ∧ ∃ out, tx.vout[a.n]? = some out ∧
      out.scriptPubKey.isUnspendable = false ∧ coin = outputCoin tx nHeight out a.n := by
  by_cases h : a.hash = tx.getHash
  · simp only [created, createdFrom, h, Nat.zero_le, and_self, if_true, Nat.sub_zero,
      Option.map_eq_some_iff, Option.filter_eq_some_iff, Bool.not_eq_true', true_and]
    constructor
    · rintro ⟨out, ⟨hout, hspendable⟩, rfl⟩
      exact ⟨out, hout, hspendable, rfl⟩
    · rintro ⟨out, hout, hspendable, rfl⟩
      exact ⟨out, ⟨hout, hspendable⟩, rfl⟩
  · simp [created, createdFrom, h]

/-- A stored output binds its outpoint, an unspendable one changes nothing. -/
lemma addOutput_eq_ok {out : CTxOut P × ℕ} (h : addOutput tx nHeight c out = .ok c') :
    c'.coins = if out.1.scriptPubKey.isUnspendable then c.coins
      else c.coins.set ⟨tx.getHash, out.2⟩ (some (outputCoin tx nHeight out.1 out.2)) := by
  replace h := of_rejectIf h
  change (if out.1.scriptPubKey.isUnspendable = true then _ else _) = _ at h
  split at h
  case isTrue hun =>
    cases h
    rw [if_pos hun]
  case isFalse hun =>
    replace h := of_rejectIf h
    cases h
    rw [if_neg hun]

lemma createdFrom_cons (tx : CTransaction P) (nHeight : ℤ) (out : CTxOut P)
    (outs : List (CTxOut P)) (k : ℕ) (a : COutPoint P) :
    createdFrom tx nHeight (out :: outs) k a =
      (createdFrom tx nHeight outs (k + 1) a).or
        (if a = ⟨tx.getHash, k⟩ ∧ out.scriptPubKey.isUnspendable = false then
          some (outputCoin tx nHeight out k) else none) := by
  obtain ⟨hash, n⟩ := a
  by_cases hhash : hash = tx.getHash
  · rcases Nat.lt_trichotomy n k with hlt | rfl | hgt
    · have h1 : ¬ k ≤ n := by omega
      have h2 : ¬ k + 1 ≤ n := by omega
      have h3 : n ≠ k := by omega
      simp [createdFrom, h1, h2, h3]
    · by_cases hun : out.scriptPubKey.isUnspendable = true
      · simp [createdFrom, hhash, Option.filter, hun]
      · simp [createdFrom, hhash, Option.filter, hun]
    · have h1 : k ≤ n := by omega
      have h2 : k + 1 ≤ n := by omega
      have h3 : n ≠ k := by omega
      have h4 : n - k = n - (k + 1) + 1 := by omega
      simp [createdFrom, hhash, h1, h2, h3, h4]
  · simp [createdFrom, hhash]

variable {outs : List (CTxOut P)} {k : ℕ}

/-- Adding the outputs of a transaction binds the outpoints of the spendable ones. -/
lemma addCoins_loop (h : (outs.zipIdx k).foldlM (addOutput tx nHeight) c = .ok c') (a : COutPoint P)
    : c'.coins.get a = (createdFrom tx nHeight outs k a).or (c.coins.get a) := by
  induction outs generalizing k c with
  | nil =>
    obtain rfl := Except.ok.inj h
    simp [createdFrom]
  | cons out outs ih =>
    obtain ⟨c₁, hout, hrest⟩ := foldlM_cons_eq_ok.mp h
    rw [ih hrest, createdFrom_cons, addOutput_eq_ok hout, Option.or_assoc]
    refine congrArg _ ?_
    by_cases hun : out.scriptPubKey.isUnspendable = true
    · simp [hun]
    · by_cases ha : a = ⟨tx.getHash, k⟩
      · simp [hun, ha]
      · simp [hun, ha]

/-- A stored output is noted as added; it does not replace an unspent one that was added before,
unless the transaction is a coinbase. -/
lemma addOutput_added {out : CTxOut P × ℕ} (h : addOutput tx nHeight c out = .ok c') :
    (∀ a ∈ c.added, a ∈ c'.added) ∧ (out.1.scriptPubKey.isUnspendable = false →
      (⟨tx.getHash, out.2⟩ : COutPoint P) ∈ c'.added ∧
        (tx.isCoinBase = false → (⟨tx.getHash, out.2⟩ : COutPoint P) ∈ c.added →
          c.coins.get ⟨tx.getHash, out.2⟩ = none)) := by
  replace h := of_rejectIf h
  change (if out.1.scriptPubKey.isUnspendable = true then _ else _) = _ at h
  split at h
  case isTrue hun =>
    cases h
    exact ⟨fun _ ha => ha, fun hun' => by simp [hun] at hun'⟩
  case isFalse hun =>
    obtain ⟨hfresh, h⟩ := rejectIf_bind_eq_ok.mp h
    cases h
    refine ⟨fun a ha => List.mem_cons_of_mem _ ha, fun _ => ⟨List.mem_cons_self, ?_⟩⟩
    intro hcb hmem
    by_contra hne
    exact hfresh ⟨hcb, hmem, hne⟩

/-- The same for all outputs of a transaction. -/
lemma addCoins_added (h : (outs.zipIdx k).foldlM (addOutput tx nHeight) c = .ok c') :
    (∀ a ∈ c.added, a ∈ c'.added) ∧
      (∀ a coin, createdFrom tx nHeight outs k a = some coin → a ∈ c'.added) ∧
      (tx.isCoinBase = false → ∀ a ∈ c.added, c.coins.get a ≠ none →
        createdFrom tx nHeight outs k a = none) := by
  induction outs generalizing k c with
  | nil =>
    obtain rfl := Except.ok.inj h
    exact ⟨fun _ ha => ha, by simp [createdFrom], by simp [createdFrom]⟩
  | cons out outs ih =>
    obtain ⟨c₁, hout, hrest⟩ := foldlM_cons_eq_ok.mp h
    obtain ⟨hkeep, hnew⟩ := addOutput_added hout
    obtain ⟨hkeep', hcreated', hfresh'⟩ := ih hrest
    refine ⟨fun a ha => hkeep' a (hkeep a ha), fun a coin hcreated => ?_, fun hcb a ha hget => ?_⟩
    · rw [createdFrom_cons] at hcreated
      rcases Option.or_eq_some_iff.mp hcreated with hlater | ⟨-, hfirst⟩
      · exact hcreated' a coin hlater
      · split at hfirst
        case isTrue hpoint =>
          obtain ⟨rfl, hspendable⟩ := hpoint
          exact hkeep' _ (hnew hspendable).1
        case isFalse => cases hfirst
    · -- the outpoint is not that of the first output, so it keeps its coin
      have hne : ¬ (a = ⟨tx.getHash, k⟩ ∧ out.scriptPubKey.isUnspendable = false) := by
        rintro ⟨rfl, hspendable⟩
        exact hget ((hnew hspendable).2 hcb ha)
      have hget₁ : c₁.coins.get a = c.coins.get a := by
        rw [addOutput_eq_ok hout]
        split
        case isTrue => rfl
        case isFalse hun =>
          exact FiniteMap.get_set_of_ne _ _ fun heq => hne ⟨heq, by simpa using hun⟩
      rw [createdFrom_cons, hfresh' hcb a (hkeep a ha) (by rwa [hget₁]), if_neg hne]
      rfl

/-- Adding outputs of non-negative value raises the total by at most their value. -/
lemma addCoins_total_le (hc : c.coins.Nonneg) (houts : ∀ out ∈ outs, 0 ≤ out.nValue.toInt)
    (h : (outs.zipIdx k).foldlM (addOutput tx nHeight) c = .ok c') :
    c'.coins.Nonneg ∧ c'.coins.totalValue ≤ c.coins.totalValue + outputsValue outs := by
  induction outs generalizing k c with
  | nil =>
    obtain rfl := Except.ok.inj h
    exact ⟨hc, by simp [outputsValue]⟩
  | cons out outs ih =>
    obtain ⟨c₁, hout, hrest⟩ := foldlM_cons_eq_ok.mp h
    have hvalue : 0 ≤ (outputCoin tx nHeight out k).value := houts out (by simp)
    have hc₁ := addOutput_eq_ok hout
    have hstep : c₁.coins.Nonneg ∧ c₁.coins.totalValue ≤ c.coins.totalValue + out.nValue.toInt := by
      split at hc₁
      case isTrue =>
        rw [hc₁]
        exact ⟨hc, by have : 0 ≤ out.nValue.toInt := hvalue; omega⟩
      case isFalse =>
        rw [hc₁]
        refine ⟨hc.set fun coin hcoin => ?_, Coins.totalValue_set_le hc _ _⟩
        rwa [← Option.some.inj hcoin]
    obtain ⟨hnonneg, htotal⟩ := ih hstep.1 (fun o ho => houts o (by simp [ho])) hrest
    refine ⟨hnonneg, ?_⟩
    have hsplit : outputsValue (out :: outs) = out.nValue.toInt + outputsValue outs :=
      intSum_cons _ _ _
    have := hstep.2
    omega

/-- What `UpdateCoins` does. -/
structure Updated (c : CoinsCache P) (tx : CTransaction P) (nHeight : ℤ)
    (vprevout : List (Coin P)) (c' : CoinsCache P) : Prop where
  nodup : (tx.spentInputs.map CTxIn.prevout).Nodup
  coins_eq : tx.spentInputs.map (fun txin => c.coins.get txin.prevout) = vprevout.map some
  get_eq : ∀ a, c'.coins.get a = (created tx nHeight a).or
    (if a ∈ tx.spentInputs.map CTxIn.prevout then none else c.coins.get a)
  /-- With non-negative values, the total changes by at most outputs minus inputs. -/
  total_le : c.coins.Nonneg → (∀ out ∈ tx.vout, 0 ≤ out.nValue.toInt) →
    c'.coins.Nonneg ∧ c'.coins.totalValue ≤
      c.coins.totalValue - (vprevout.map Coin.value).sum + outputsValue tx.vout
  added_subset : ∀ a ∈ c.added, a ∈ c'.added
  created_added : ∀ a coin, created tx nHeight a = some coin → a ∈ c'.added
  /-- Unspent coins that were added before are not replaced. -/
  no_overwrite : tx.isCoinBase = false → ∀ a ∈ c.added,
    a ∉ tx.spentInputs.map CTxIn.prevout → c.coins.get a ≠ none → created tx nHeight a = none

lemma updated_of_updateCoins {vprevout : List (Coin P)}
    (h : c.updateCoins tx nHeight = .ok (vprevout, c')) : c.Updated tx nHeight vprevout c' := by
  obtain ⟨⟨spent, c₁⟩, hspend, h⟩ := bind_eq_ok.mp h
  obtain ⟨c₂, hadd, h⟩ := bind_eq_ok.mp h
  obtain ⟨rfl, rfl⟩ := Prod.mk.inj (Except.ok.inj h)
  obtain ⟨spent', hnil, hspent⟩ := inputsSpent_of_loop hspend
  obtain rfl : spent = spent' := by simpa using hnil
  obtain ⟨hkeep, hcreated, hfresh⟩ := addCoins_added hadd
  rw [hspent.added_eq] at hkeep hfresh
  refine ⟨hspent.nodup, hspent.coins_eq, fun a => ?_, fun hc houts => ?_, hkeep, hcreated,
    fun hcb a ha hnot hget => hfresh hcb a ha ?_⟩
  · rw [addCoins_loop hadd a, hspent.get_eq a, created]
  · have hc₁ : c₁.coins.Nonneg := by
      intro a coin hget
      rw [hspent.get_eq a] at hget
      split at hget
      case isTrue => cases hget
      case isFalse => exact hc a coin hget
    rw [← hspent.total_eq]
    exact addCoins_total_le hc₁ houts hadd
  · rwa [hspent.get_eq a, if_neg hnot]

end CoinsCache

end Aegisum
