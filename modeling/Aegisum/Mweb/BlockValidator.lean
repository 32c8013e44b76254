import Mathlib.Data.List.Perm.Subperm
import Aegisum.Mweb.Sums

/-!
# Validation of extension blocks

`StealthSumValidator`, `mw::Block::Validate`, `mw::Transaction::Validate` and the
`BlockValidator` that compares the kernels' peg-ins and peg-outs with the canonical coins.

Canonical peg-ins are collected in a map that keeps the first coin for each kernel id; a
second coin with the same id is dropped without an error.
-/

namespace Aegisum

open List

namespace Mw

open PegInCoin

variable {P : Primitives} [MwCrypto P]

/-! ### Stealth sums -/

/-- The sum of a list of keys; without keys it is the key with all bytes zero. -/
def totalKey (keys : List P.Point) : Except MwError P.Point :=
  if keys = [] then .ok 0 else liftCrypto (addPublicKeys keys)

/-- Sender and input keys balance with stealth excesses, spent receiver keys and the offset. -/
def stealthSumValidate (stealthOffset : P.Scalar) (body : TxBody P) : Except MwError Unit := do
  let lhsTotal ← totalKey
    (body.outputs.map Output.senderPubKey ++ body.inputs.filterMap Input.inputPubKey)
  let rhsTotal ← totalKey
    (body.getStealthExcesses ++ body.inputs.map Input.outputPubKey ++
      if stealthOffset ≠ 0 then [stealthOffset • P.genG] else [])
  rejectIf (lhsTotal ≠ rhsTotal) .stealthSums

/-! ### Blocks and transactions -/

/-- The kernel MMR of a list of kernels. -/
def kernelMmr (kernels : List (Kernel P)) : Mmr P.Hash (Kernel P) :=
  kernels.foldl (fun m k => m.addLeaf (kernelMmrHasher P) k) Mmr.empty

/-- The context-free checks of an extension block. -/
def Block.validate (b : Block P) : Except MwError Unit := do
  rejectIf (b.header.numKernels ≠ b.body.kernels.length) .mmrMismatch
  b.body.validate
  stealthSumValidate b.header.stealthOffset b.body
  rejectIf (b.header.kernelRoot ≠ (kernelMmr b.body.kernels).root (kernelMmrHasher P))
    .mmrMismatch

/-- The context-free checks of a loose transaction. -/
def Transaction.validate (tx : Transaction P) : Except MwError Unit := do
  tx.body.validate
  validateForTx tx
  stealthSumValidate tx.stealthOffset tx.body

variable {b : Block P}

lemma Block.valid_of_validate (h : b.validate = .ok ()) : b.body.Valid := by
  replace h := of_rejectIf h
  obtain ⟨_, hbody, _⟩ := bind_eq_ok.mp h
  exact TxBody.validate_eq_ok.mp hbody

/-! ### Peg-ins and peg-outs -/

/-- `unordered_map::insert`: a key that is present keeps its value. -/
def insertPegIn (pegInAmounts : List (PegInCoin P)) (coin : PegInCoin P) : List (PegInCoin P) :=
  if pegInAmounts.any (·.kernelID = coin.kernelID) then pegInAmounts else pegInAmounts ++ [coin]

/-- The map from kernel ids to amounts, as the list of the coins it was filled with. -/
def pegInAmounts (pegInCoins : List (PegInCoin P)) : List (PegInCoin P) :=
  pegInCoins.foldl insertPegIn []

/-- The canonical peg-ins match the kernels' peg-ins. -/
def validatePegInCoins (b : Block P) (pegInCoins : List (PegInCoin P)) :
    Except MwError Unit := do
  rejectIf (b.body.getPegIns.length ≠ (pegInAmounts pegInCoins).length) .peginMismatch
  forM b.body.getPegIns fun pegin =>
    rejectIf (((pegInAmounts pegInCoins).find? (·.kernelID = pegin.kernelID)).map
      PegInCoin.amount ≠ some pegin.amount) .peginMismatch

/-- The canonical peg-outs match the kernels' peg-outs as a multiset. -/
def validatePegOutCoins (b : Block P) (pegOutCoins : List (PegOutCoin P)) :
    Except MwError Unit := do
  rejectIf (b.body.getPegOuts.length ≠ pegOutCoins.length) .pegoutMismatch
  let _ ← b.body.getPegOuts.foldlM
    (fun hogexPegouts pegout =>
      if pegout ∈ hogexPegouts then .ok (hogexPegouts.erase pegout) else .error .pegoutMismatch)
    pegOutCoins
  pure ()

/-- The block is valid and agrees with the canonical peg-ins and peg-outs. -/
def validateBlock (b : Block P) (pegInCoins : List (PegInCoin P))
    (pegOutCoins : List (PegOutCoin P)) : Bool :=
  match (do
    b.validate
    validatePegInCoins b pegInCoins
    validatePegOutCoins b pegOutCoins : Except MwError Unit) with
  | .ok _ => true
  | .error _ => false

variable {pegInCoins : List (PegInCoin P)} {pegOutCoins : List (PegOutCoin P)}

lemma validateBlock_eq_true :
    validateBlock b pegInCoins pegOutCoins = true ↔
      b.validate = .ok () ∧ validatePegInCoins b pegInCoins = .ok () ∧
        validatePegOutCoins b pegOutCoins = .ok () := by
  unfold validateBlock
  split
  case h_1 h =>
    obtain ⟨_, hv, h⟩ := bind_eq_ok.mp h
    obtain ⟨_, hi, ho⟩ := bind_eq_ok.mp h
    simp [hv, hi, ho]
  case h_2 h =>
    simp only [Bool.false_eq_true, false_iff]
    rintro ⟨hv, hi, ho⟩
    rw [hv] at h
    simp [hi, ho, bind, Except.bind] at h

/-! ### What the peg checks establish -/

omit [MwCrypto P] in
private lemma perm_of_eraseLoop {kernelPegouts hogexPegouts rest : List (PegOutCoin P)}
    (h : kernelPegouts.foldlM
      (fun (ms : List (PegOutCoin P)) p =>
        if p ∈ ms then (.ok (ms.erase p) : Except MwError _) else .error .pegoutMismatch)
      hogexPegouts = .ok rest) : hogexPegouts.Perm (kernelPegouts ++ rest) := by
  induction kernelPegouts generalizing hogexPegouts with
  | nil =>
    obtain rfl := Except.ok.inj h
    simp
  | cons p ps ih =>
    obtain ⟨ms, hp, hps⟩ := foldlM_cons_eq_ok.mp h
    split at hp
    case isFalse => cases hp
    case isTrue hmem =>
      cases hp
      exact (perm_cons_erase hmem).trans ((ih hps).cons p)

omit [MwCrypto P] in
/-- The peg-out check accepts exactly a rearrangement of the kernels' peg-outs. -/
lemma perm_of_validatePegOutCoins (h : validatePegOutCoins b pegOutCoins = .ok ()) :
    pegOutCoins.Perm b.body.getPegOuts := by
  obtain ⟨hlen, h⟩ := rejectIf_bind_eq_ok.mp h
  obtain ⟨rest, hloop, -⟩ := bind_eq_ok.mp h
  have hperm := perm_of_eraseLoop hloop
  -- equal lengths leave nothing over
  have hrest : rest = [] := by
    have := hperm.length_eq
    rw [length_append] at this
    exact length_eq_zero_iff.mp (by omega)
  simpa [hrest] using hperm

omit [MwCrypto P] in
private lemma eraseLoop_eq_nil {kernelPegouts hogexPegouts : List (PegOutCoin P)}
    (h : hogexPegouts.Perm kernelPegouts) :
    kernelPegouts.foldlM
      (fun (ms : List (PegOutCoin P)) p =>
        if p ∈ ms then (.ok (ms.erase p) : Except MwError _) else .error .pegoutMismatch)
      hogexPegouts = .ok [] := by
  induction kernelPegouts generalizing hogexPegouts with
  | nil =>
    obtain rfl := h.eq_nil
    rfl
  | cons p ps ih =>
    have hmem : p ∈ hogexPegouts := h.mem_iff.mpr mem_cons_self
    have hperm : (hogexPegouts.erase p).Perm ps := by simpa using h.erase p
    rw [foldlM_cons, if_pos hmem]
    exact ih hperm

omit [MwCrypto P] in
/-- Every rearrangement of the kernels' peg-outs is accepted. -/
lemma validatePegOutCoins_of_perm (h : pegOutCoins.Perm b.body.getPegOuts) :
    validatePegOutCoins b pegOutCoins = .ok () := by
  refine rejectIf_bind_eq_ok.mpr ⟨not_not.mpr h.length_eq.symm, ?_⟩
  exact bind_of_eq_ok (eraseLoop_eq_nil h) _

omit [MwCrypto P] in
/-- Coins for different kernels are all entered into the map. -/
lemma pegInAmounts_eq_self {coins : List (PegInCoin P)}
    (h : (coins.map kernelID).Nodup) : pegInAmounts coins = coins := by
  suffices ∀ m : List (PegInCoin P), ((m ++ coins).map kernelID).Nodup →
      coins.foldl insertPegIn m = m ++ coins from this [] h
  clear h
  induction coins with
  | nil => simp
  | cons c cs ih =>
    intro m hm
    have hnew : c.kernelID ∉ m.map kernelID := by
      rw [map_append, map_cons] at hm
      exact fun hmem => (disjoint_of_nodup_append hm) hmem mem_cons_self
    have hinsert : insertPegIn m c = m ++ [c] := by
      rw [insertPegIn, if_neg (by simpa using hnew)]
    rw [foldl_cons, hinsert, ih (m ++ [c]) (by simpa using hm), append_assoc]
    rfl

/-- Canonical peg-ins for the same kernels, one for each, are accepted exactly if the kernels'
peg-ins are among them. -/
lemma validatePegInCoins_eq_ok_iff (hnodup : (pegInCoins.map kernelID).Nodup)
    (hlength : b.body.getPegIns.length = pegInCoins.length) :
    validatePegInCoins b pegInCoins = .ok () ↔ b.body.getPegIns ⊆ pegInCoins := by
  have hfind : ∀ pegin : PegInCoin P,
      (pegInCoins.find? (·.kernelID = pegin.kernelID)).map amount = some pegin.amount ↔
        pegin ∈ pegInCoins := by
    intro pegin
    constructor
    · intro h
      obtain ⟨coin, hcoin, hamount⟩ := Option.map_eq_some_iff.mp h
      have hid : coin.kernelID = pegin.kernelID := by simpa using find?_some hcoin
      have heq : coin = pegin := by
        cases coin
        cases pegin
        simp_all
      exact heq ▸ mem_of_find?_eq_some hcoin
    · intro hmem
      obtain ⟨coin, hcoin⟩ : ∃ coin, pegInCoins.find? (·.kernelID = pegin.kernelID) = some coin :=
        Option.isSome_iff_exists.mp (find?_isSome.mpr ⟨pegin, hmem, by simp⟩)
      have hid : coin.kernelID = pegin.kernelID := by simpa using find?_some hcoin
      have heq : coin = pegin := inj_on_of_nodup_map hnodup (mem_of_find?_eq_some hcoin) hmem hid
      rw [hcoin, heq]
      rfl
  rw [validatePegInCoins, rejectIf_bind_eq_ok, pegInAmounts_eq_self hnodup, forM_eq_ok]
  refine (and_iff_right (not_not.mpr hlength)).trans ?_
  exact forall₂_congr fun pegin _ => rejectIf_eq_ok.trans (not_not.trans (hfind pegin))

omit [MwCrypto P] in
private lemma nodup_insertPegIn {m : List (PegInCoin P)} (hm : (m.map kernelID).Nodup)
    (coin : PegInCoin P) : ((insertPegIn m coin).map kernelID).Nodup := by
  unfold insertPegIn
  split
  · exact hm
  · next hnew =>
    have hnew' : coin.kernelID ∉ m.map kernelID := by
      simpa using hnew
    rw [map_append, nodup_append]
    refine ⟨hm, by simp, fun a ha b hb => ?_⟩
    rintro rfl
    simp only [map_cons, map_nil, mem_singleton] at hb
    exact hnew' (hb ▸ ha)

omit [MwCrypto P] in
private lemma mem_insertPegIn_kernelID {m : List (PegInCoin P)} {coin : PegInCoin P} {id : P.Hash} :
    id ∈ (insertPegIn m coin).map kernelID ↔
      id ∈ m.map kernelID ∨ id = coin.kernelID := by
  unfold insertPegIn
  split
  · next hold =>
    have hold' : coin.kernelID ∈ m.map kernelID := by
      simpa using hold
    constructor
    · exact Or.inl
    · rintro (h | rfl)
      · exact h
      · exact hold'
  · simp

omit [MwCrypto P] in
/-- The map has one entry per kernel id, and an entry for every id among the coins. -/
lemma pegInAmounts_kernelIDs (coins : List (PegInCoin P)) :
    ((pegInAmounts coins).map kernelID).Nodup ∧
      ∀ id, id ∈ (pegInAmounts coins).map kernelID ↔
        id ∈ coins.map kernelID := by
  unfold pegInAmounts
  -- the invariant of the insertion loop, for the map built so far
  suffices ∀ m : List (PegInCoin P), (m.map kernelID).Nodup →
      ((coins.foldl insertPegIn m).map kernelID).Nodup ∧
        ∀ id, id ∈ (coins.foldl insertPegIn m).map kernelID ↔
          id ∈ m.map kernelID ∨ id ∈ coins.map kernelID by
    simpa using this [] (by simp)
  induction coins with
  | nil => intro m hm; simpa using hm
  | cons c cs ih =>
    intro m hm
    obtain ⟨hnodup, hmem⟩ := ih (insertPegIn m c) (nodup_insertPegIn hm c)
    refine ⟨hnodup, fun id => ?_⟩
    rw [foldl_cons, hmem, mem_insertPegIn_kernelID, map_cons, mem_cons, or_assoc]

lemma getPegIns_kernelIDs_sublist (body : TxBody P) :
    (body.getPegIns.map kernelID).Sublist body.getKernelIDs := by
  unfold TxBody.getPegIns TxBody.getKernelIDs
  induction body.kernels with
  | nil => simp
  | cons k ks ih =>
    by_cases hk : k.hasPegIn
    · simpa [hk] using ih
    · simpa [hk] using ih.cons _

/-- A valid block passes with its own peg-ins and peg-outs in any order. -/
lemma validateBlock_of_perm (hvalidate : b.validate = .ok ())
    (hpegins : pegInCoins.Perm b.body.getPegIns) (hpegouts : pegOutCoins.Perm b.body.getPegOuts) :
    validateBlock b pegInCoins pegOutCoins = true := by
  have hids : (b.body.getPegIns.map kernelID).Nodup :=
    (Block.valid_of_validate hvalidate).nodup_kernels.sublist (getPegIns_kernelIDs_sublist _)
  have hnodup : (pegInCoins.map kernelID).Nodup := (hpegins.map kernelID).nodup_iff.mpr hids
  refine validateBlock_eq_true.mpr ⟨hvalidate, ?_, validatePegOutCoins_of_perm hpegouts⟩
  exact (validatePegInCoins_eq_ok_iff hnodup hpegins.length_eq.symm).mpr hpegins.symm.subset

/-- With distinct kernels, the peg-in check leaves no canonical peg-in without a kernel: the
kernel ids of the coins and of the kernels' peg-ins are the same. -/
lemma pegIn_kernelIDs_of_validate (hk : b.body.getKernelIDs.Nodup)
    (h : validatePegInCoins b pegInCoins = .ok ()) (id : P.Hash) :
    id ∈ pegInCoins.map kernelID ↔ id ∈ b.body.getPegIns.map kernelID := by
  obtain ⟨hlen, h⟩ := rejectIf_bind_eq_ok.mp h
  obtain ⟨hnodup, hmem⟩ := pegInAmounts_kernelIDs pegInCoins
  have hsub : b.body.getPegIns.map kernelID ⊆
      (pegInAmounts pegInCoins).map kernelID := by
    intro id hid
    obtain ⟨pegin, hpegin, rfl⟩ := mem_map.mp hid
    have hfind := not_not.mp (rejectIf_eq_ok.mp (forM_eq_ok.mp h pegin hpegin))
    obtain ⟨coin, hcoin, -⟩ := Option.map_eq_some_iff.mp hfind
    have hid' : coin.kernelID = pegin.kernelID := by simpa using find?_some hcoin
    exact hid' ▸ mem_map_of_mem (mem_of_find?_eq_some hcoin)
  -- a duplicate-free list inside another of the same length is all of it
  have hperm : (b.body.getPegIns.map kernelID).Perm
      ((pegInAmounts pegInCoins).map kernelID) :=
    (subperm_of_subset (hk.sublist (getPegIns_kernelIDs_sublist _)) hsub).perm_of_length_le
      (by simp; omega)
  rw [← hmem id, hperm.mem_iff]

end Mw

end Aegisum
