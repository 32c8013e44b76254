import Mathlib.Data.List.Forall2
import Aegisum.Node.CheckBlock

/-!
# What a block header commits to

A header commits to the transaction ids, and through a commitment in the coinbase to the
witnesses.  It does not commit to the HogEx markers.  This file compares blocks with the same
transaction ids: their transactions agree in everything but witnesses and markers, and they agree
in the witnesses as well when both pass the witness checks.
-/

namespace Aegisum

open CTransaction List

open Mw (Bytes)

/-! ### Lists in parallel -/

section Forall

variable {α β γ : Type} {R : α → β → Prop} {l : List α} {l' : List β}

/-- Every element on the left has a partner on the right. -/
lemma forall₂_exists_right (h : List.Forall₂ R l l') {a : α} (ha : a ∈ l) : ∃ b ∈ l', R a b := by
  induction h with
  | nil => cases ha
  | @cons x y l l' hxy _ ih =>
    rcases mem_cons.mp ha with rfl | ha
    · exact ⟨y, by simp, hxy⟩
    · obtain ⟨b, hb, hab⟩ := ih ha
      exact ⟨b, by simp [hb], hab⟩

variable {f : α → γ} {g : β → γ}

/-- Functions that agree on partners have the same images. -/
lemma map_eq_of_forall₂ (h : List.Forall₂ R l l') (hfg : ∀ a ∈ l, ∀ b ∈ l', R a b → f a = g b) :
    l.map f = l'.map g := by
  induction h with
  | nil => rfl
  | @cons x y l l' hxy _ ih =>
    rw [map_cons, map_cons, hfg x (by simp) y (by simp) hxy,
      ih fun a ha b hb => hfg a (by simp [ha]) b (by simp [hb])]

/-- Partners with the same images. -/
lemma forall₂_and_of_map_eq (h : List.Forall₂ R l l') (heq : l.map f = l'.map g) :
    List.Forall₂ (fun a b => R a b ∧ f a = g b) l l' := by
  induction h with
  | nil => exact .nil
  | cons hxy _ ih =>
    rw [map_cons, map_cons, cons.injEq] at heq
    exact .cons ⟨hxy, heq.1⟩ (ih heq.2)

/-- Elements with the same images are partners. -/
lemma forall₂_of_map_eq (h : l.map f = l'.map g) (hR : ∀ a ∈ l, ∀ b ∈ l', f a = g b → R a b) :
    List.Forall₂ R l l' := by
  induction l generalizing l' with
  | nil =>
    obtain rfl : l' = [] := by simpa using h.symm
    exact .nil
  | cons a l ih =>
    cases l' with
    | nil => simp at h
    | cons b l' =>
      rw [map_cons, map_cons, cons.injEq] at h
      refine .cons (hR a (by simp) b (by simp) h.1) (ih h.2 fun x hx y hy => ?_)
      exact hR x (by simp [hx]) y (by simp [hy])

/-- Lists with different images differ at some pair of partners. -/
lemma forall₂_split_of_map_ne (h : List.Forall₂ R l l') (hne : l.map f ≠ l'.map g) :
    ∃ p a q p' b q', l = p ++ a :: q ∧ l' = p' ++ b :: q' ∧ R a b ∧ List.Forall₂ R q q' ∧
      f a ≠ g b := by
  classical
  induction h with
  | nil => exact absurd rfl hne
  | @cons x y l l' hxy hrest ih =>
    by_cases hhead : f x = g y
    · have htail : l.map f ≠ l'.map g := fun heq => hne (by simp [hhead, heq])
      obtain ⟨p, a, q, p', b, q', rfl, rfl, hab⟩ := ih htail
      exact ⟨x :: p, a, q, y :: p', b, q', rfl, rfl, hab⟩
    · exact ⟨[], x, l, [], y, l', rfl, rfl, hxy, hrest, hhead⟩

/-- The last elements are partners. -/
lemma forall₂_getLast? (h : List.Forall₂ R l l') {a : α} {b : β} (ha : l.getLast? = some a)
    (hb : l'.getLast? = some b) : R a b := by
  rw [getLast?_eq_head?_reverse] at ha hb
  have hrev := forall₂_reverse_iff.mpr h
  revert ha hb
  generalize l.reverse = r, l'.reverse = r' at hrev
  intro ha hb
  cases hrev with
  | nil => cases ha
  | cons hxy _ =>
    obtain rfl := Option.some.inj ha
    obtain rfl := Option.some.inj hb
    exact hxy

end Forall

variable {P : Primitives}

/-! ### Transactions with the same id -/

/-- The transactions have the same base serialization and no MWEB data. -/
structure SameBase (tx' tx : CTransaction P) : Prop where
  base : tx'.basePreimage = tx.basePreimage
  mwebTx' : tx'.mwebTx = none
  mwebTx : tx.mwebTx = none

/-- The witness stacks of a transaction. -/
def CTransaction.witness (tx : CTransaction P) : List (List Bytes) := tx.vin.map CTxIn.scriptWitness

namespace SameBase

variable {tx' tx : CTransaction P} (h : SameBase tx' tx)

include h

lemma vout_eq : tx'.vout = tx.vout := vout_eq_of_basePreimage_eq h.base

lemma nLockTime_eq : tx'.nLockTime = tx.nLockTime := congrArg TxPreimage.nLockTime h.base

/-- Inputs agree in everything but the witness. -/
lemma vin_map_eq {α : Type} (f : TxInPreimage P → α) :
    tx'.vin.map (fun txin => f ⟨txin.prevout, txin.scriptSig, txin.nSequence⟩) =
      tx.vin.map (fun txin => f ⟨txin.prevout, txin.scriptSig, txin.nSequence⟩) := by
  have hvin := congrArg (fun t : TxPreimage P => t.vin.map f) h.base
  simpa [basePreimage, Function.comp_def] using hvin

lemma length_vin_eq : tx'.vin.length = tx.vin.length := by
  simpa using congrArg length (h.vin_map_eq id)

lemma prevouts_eq : tx'.vin.map CTxIn.prevout = tx.vin.map CTxIn.prevout :=
  h.vin_map_eq TxInPreimage.prevout

lemma isCoinBase_eq : tx'.isCoinBase = tx.isCoinBase := isCoinBase_congr h.prevouts_eq

lemma strippedSize_eq : tx'.strippedSize = tx.strippedSize := by
  have hsum := h.vin_map_eq fun txin =>
    36 + (compactSizeLength txin.scriptSig.length + txin.scriptSig.length) + 4
  dsimp only at hsum
  unfold strippedSize
  rw [hsum, h.length_vin_eq, h.vout_eq]

lemma isFinalTx_eq (nBlockHeight nBlockTime : ℤ) :
    isFinalTx tx' nBlockHeight nBlockTime = isFinalTx tx nBlockHeight nBlockTime := by
  have hseq := h.vin_map_eq fun txin => decide (txin.nSequence = sequenceFinal)
  have hall : (tx'.vin.all fun txin => txin.nSequence = sequenceFinal) =
      tx.vin.all fun txin => txin.nSequence = sequenceFinal := by
    simpa [all_map, Function.comp_def] using congrArg (all · id) hseq
  simp only [isFinalTx, mwebLockHeight, h.mwebTx, h.mwebTx', h.nLockTime_eq, hall]

/-- With the same witnesses the inputs are the same. -/
lemma vin_eq (hwitness : tx'.witness = tx.witness) : tx'.vin = tx.vin := by
  have hbase := h.vin_map_eq id
  have hlist : ∀ l' l : List (CTxIn P),
      l'.map (fun txin => (⟨txin.prevout, txin.scriptSig, txin.nSequence⟩ : TxInPreimage P)) =
        l.map (fun txin => ⟨txin.prevout, txin.scriptSig, txin.nSequence⟩) →
      l'.map CTxIn.scriptWitness = l.map CTxIn.scriptWitness → l' = l := by
    intro l'
    induction l' with
    | nil =>
      intro l hl _
      simpa using hl
    | cons a l' ih =>
      intro l hl hw
      cases l with
      | nil => simp at hl
      | cons b l =>
        rw [map_cons, map_cons, cons.injEq] at hl hw
        rw [ih l hl.2 hw.2]
        cases a
        cases b
        simp_all
  exact hlist _ _ hbase hwitness

variable [NodeCrypto P]

lemma getHash_eq : tx'.getHash = tx.getHash := by
  rw [getHash_of_mwebTx_eq_none h.mwebTx', getHash_of_mwebTx_eq_none h.mwebTx, h.base]

lemma peginOutPoints_eq : tx'.peginOutPoints = tx.peginOutPoints := by
  unfold peginOutPoints
  rw [h.vout_eq, h.getHash_eq]

/-- With the same witnesses the witness ids are the same. -/
lemma getWitnessHash_eq (hwitness : tx'.witness = tx.witness) :
    tx'.getWitnessHash = tx.getWitnessHash := by
  have hvin := h.vin_eq hwitness
  have hpre : tx'.witnessPreimage = tx.witnessPreimage := by
    simp only [witnessPreimage, h.base, hvin]
  rw [getWitnessHash, getWitnessHash, h.getHash_eq, hpre, hasWitness, hasWitness, hvin]

omit [NodeCrypto P] in
/-- Without witnesses all stacks are empty. -/
lemma witness_eq_of_not_hasWitness (h1 : tx'.hasWitness = false) (h2 : tx.hasWitness = false) :
    tx'.witness = tx.witness := by
  have hempty : ∀ t : CTransaction P, t.hasWitness = false →
      t.witness = replicate t.vin.length [] := by
    intro t ht
    refine eq_replicate_iff.mpr ⟨by simp [witness], fun stack hstack => ?_⟩
    obtain ⟨txin, htxin, rfl⟩ := mem_map.mp hstack
    have := any_eq_false.mp ht txin htxin
    simpa using this
  rw [hempty _ h1, hempty _ h2, h.length_vin_eq]

/-- The witness id determines the witnesses. -/
lemma witness_eq_of_getWitnessHash_eq (hinj : TxHashInjective P)
    (heq : tx'.getWitnessHash = tx.getWitnessHash) : tx'.witness = tx.witness := by
  unfold getWitnessHash at heq
  rw [getHash_of_mwebTx_eq_none h.mwebTx', getHash_of_mwebTx_eq_none h.mwebTx] at heq
  cases h1 : tx'.hasWitness with
  | true =>
    cases h2 : tx.hasWitness with
    | true =>
      rw [h1, h2, if_pos rfl, if_pos rfl] at heq
      exact Option.some.inj (congrArg TxPreimage.witness (hinj heq))
    | false =>
      rw [h1, h2, if_pos rfl, if_neg (by simp)] at heq
      cases congrArg TxPreimage.witness (hinj heq)
  | false =>
    cases h2 : tx.hasWitness with
    | true =>
      rw [h1, h2, if_pos rfl, if_neg (by simp)] at heq
      cases congrArg TxPreimage.witness (hinj heq)
    | false => exact h.witness_eq_of_not_hasWitness h1 h2

end SameBase

/-! ### Blocks with the same ids -/

/-- The witnesses of all transactions of a block. -/
def CBlock.witnesses (b : CBlock P) : List (List (List Bytes)) := b.vtx.map CTransaction.witness

/-- The blocks have the same header, and their transactions have the same ids. -/
structure SameIds (b' b : CBlock P) : Prop where
  header : b'.header = b.header
  txs : List.Forall₂ SameBase b'.vtx b.vtx

/-- A coinbase has one input. -/
lemma CTransaction.exists_vin_of_isCoinBase {tx : CTransaction P} (h : tx.isCoinBase = true) :
    ∃ txin, tx.vin = [txin] := by
  unfold isCoinBase at h
  split at h
  case h_1 txin hvin => exact ⟨txin, hvin⟩
  case h_2 => cases h

variable [NodeCrypto P]

/-- Checked blocks with the same header and the same transaction ids. -/
lemma sameIds_of_getHash (hinj : TxHashInjective P) {b' b : CBlock P} (hb' : CheckedBlock b')
    (hb : CheckedBlock b) (hheader : b'.header = b.header)
    (hids : b'.vtx.map getHash = b.vtx.map getHash) : SameIds b' b := by
  refine ⟨hheader, forall₂_of_map_eq hids fun tx' htx' tx htx heq => ?_⟩
  have hmweb' := hb'.mwebTx_eq tx' htx'
  have hmweb := hb.mwebTx_eq tx htx
  exact ⟨basePreimage_eq_of_getHash_eq hinj hmweb' hmweb heq, hmweb', hmweb⟩

lemma CheckedBlock.sameIds_self {b : CBlock P} (h : CheckedBlock b) : SameIds b b :=
  ⟨rfl, forall₂_same.mpr fun tx htx => ⟨rfl, h.mwebTx_eq tx htx, h.mwebTx_eq tx htx⟩⟩

/-- The checks of witnesses only fail as mutated. -/
lemma checkWitness_eq_error {params : ConsensusParams P} {nHeight : ℤ} {b : CBlock P}
    {coinbase : CTransaction P} {coinbaseIn : CTxIn P} {e : BlockFailure}
    (h : checkWitness params nHeight b coinbase coinbaseIn = .error e) :
    ∃ reason, e = .invalid .blockMutated reason := by
  have hnone : ∀ {e}, checkNoWitness b = .error e → ∃ reason, e = .invalid .blockMutated reason :=
    fun h => ⟨_, (rejectIf_eq_error.mp h).2.symm⟩
  unfold checkWitness at h
  split at h
  case isFalse => exact hnone h
  case isTrue =>
    split at h
    case h_2 => exact hnone h
    case h_1 commitment _ =>
      unfold checkCommitment at h
      split at h
      case h_2 => exact ⟨_, (Except.error.inj h).symm⟩
      case h_1 nonce =>
        rcases rejectIf_bind_eq_error.mp h with ⟨-, rfl⟩ | ⟨-, h⟩
        · exact ⟨_, rfl⟩
        · exact ⟨_, (rejectIf_eq_error.mp h).2.symm⟩

namespace SameIds

variable {b' b : CBlock P} {coinbase' coinbase : CTransaction P}
  {rest' rest : List (CTransaction P)} {coinbaseIn' coinbaseIn : CTxIn P}

section

variable (h : SameIds b' b)

include h

omit [NodeCrypto P] in
/-- The parts of two blocks that start with a coinbase. -/
lemma coinbases (hb' : b'.vtx = coinbase' :: rest') (hb : b.vtx = coinbase :: rest) :
    SameBase coinbase' coinbase ∧ List.Forall₂ SameBase rest' rest := by
  have htxs := h.txs
  rw [hb', hb] at htxs
  exact forall₂_cons.mp htxs

omit [NodeCrypto P] in
lemma witnesses_eq_of_not_hasWitness (hb' : b'.vtx.any hasWitness = false)
    (hb : b.vtx.any hasWitness = false) : b'.witnesses = b.witnesses := by
  rw [any_eq_false] at hb' hb
  refine map_eq_of_forall₂ h.txs fun tx' htx' tx htx hsame => ?_
  exact hsame.witness_eq_of_not_hasWitness (by simpa using hb' tx' htx')
    (by simpa using hb tx htx)

omit [NodeCrypto P] in
/-- The transactions of blocks with the same ids and witnesses, side by side. -/
lemma txs_and_witness (hw : b'.witnesses = b.witnesses) :
    List.Forall₂ (fun tx' tx => SameBase tx' tx ∧ tx'.witness = tx.witness) b'.vtx b.vtx :=
  forall₂_and_of_map_eq h.txs hw

omit [NodeCrypto P] in
lemma strippedSize_eq : b'.strippedSize = b.strippedSize := by
  have hsizes : b'.vtx.map strippedSize = b.vtx.map strippedSize :=
    map_eq_of_forall₂ h.txs fun _ _ _ _ htx => htx.strippedSize_eq
  rw [CBlock.strippedSize, CBlock.strippedSize, hsizes, List.Forall₂.length_eq h.txs]

omit [NodeCrypto P] in
lemma hasWitness_eq (hw : b'.witnesses = b.witnesses) :
    b'.vtx.map hasWitness = b.vtx.map hasWitness := by
  refine map_eq_of_forall₂ (h.txs_and_witness hw) fun tx' _ tx _ htx => ?_
  rw [hasWitness, hasWitness, htx.1.vin_eq htx.2]

omit [NodeCrypto P] in
/-- With the same witnesses the blocks have the same weight. -/
lemma getBlockWeight_eq (hw : b'.witnesses = b.witnesses) :
    b'.getBlockWeight = b.getBlockWeight := by
  have hsizes : b'.vtx.map totalSize = b.vtx.map totalSize := by
    refine map_eq_of_forall₂ (h.txs_and_witness hw) fun tx' _ tx _ htx => ?_
    have hvin := htx.1.vin_eq htx.2
    have hsize : tx'.witnessSize = tx.witnessSize := by
      rw [witnessSize, witnessSize, hvin]
    have hhas : tx'.hasWitness = tx.hasWitness := by
      rw [hasWitness, hasWitness, hvin]
    rw [totalSize, totalSize, htx.1.strippedSize_eq, hsize, hhas]
  rw [CBlock.getBlockWeight, CBlock.getBlockWeight, h.strippedSize_eq, CBlock.totalSize,
    CBlock.totalSize, hsizes, List.Forall₂.length_eq h.txs]

variable (hb' : b'.vtx = coinbase' :: rest') (hb : b.vtx = coinbase :: rest)
  (hin' : coinbase'.vin = [coinbaseIn']) (hin : coinbase.vin = [coinbaseIn])

include hb' hb hin' hin

/-- With the same witnesses the checks of witnesses give the same result. -/
lemma checkWitness_eq (hw : b'.witnesses = b.witnesses) (params : ConsensusParams P)
    (nHeight : ℤ) :
    checkWitness params nHeight b' coinbase' coinbaseIn' =
      checkWitness params nHeight b coinbase coinbaseIn := by
  have htxs := h.txs_and_witness hw
  rw [hb', hb] at htxs
  obtain ⟨hcoinbase, hrest⟩ := forall₂_cons.mp htxs
  have hcommitment : witnessCommitment coinbase' = witnessCommitment coinbase := by
    rw [witnessCommitment, witnessCommitment, hcoinbase.1.vout_eq]
  have hroot : blockWitnessMerkleRoot b' = blockWitnessMerkleRoot b := by
    have hids : rest'.map getWitnessHash = rest.map getWitnessHash :=
      map_eq_of_forall₂ hrest fun _ _ _ _ htx => htx.1.getWitnessHash_eq htx.2
    rw [blockWitnessMerkleRoot, blockWitnessMerkleRoot, hb', hb, tail_cons, tail_cons, hids]
  have hnone : checkNoWitness b' = checkNoWitness b := by
    have hany : b'.vtx.any hasWitness = b.vtx.any hasWitness := by
      simpa [any_map] using congrArg (any · id) (h.hasWitness_eq hw)
    simp only [checkNoWitness, hany]
  have hinEq : coinbaseIn' = coinbaseIn := by
    have hvin := hcoinbase.1.vin_eq hcoinbase.2
    rw [hin', hin] at hvin
    simpa using hvin
  have hcommit : ∀ witness commitment,
      checkCommitment b' witness commitment = checkCommitment b witness commitment := by
    intro witness commitment
    simp only [checkCommitment, hroot]
  simp only [checkWitness, hcommitment, hnone, hinEq, hcommit]

variable (hinj : TxHashInjective P) (hmerkle : Function.Injective2 (NodeCrypto.merkleHash (P := P)))
  (hcommit : Function.Injective2 (NodeCrypto.witnessCommitmentHash (P := P)))

include hinj hmerkle hcommit

/-- Blocks that both carry the committed witnesses carry the same ones. -/
lemma witnesses_eq_of_commitment {commitment : P.Hash}
    (hok' : checkCommitment b' coinbaseIn'.scriptWitness commitment = .ok ())
    (hok : checkCommitment b coinbaseIn.scriptWitness commitment = .ok ()) :
    b'.witnesses = b.witnesses := by
  have hinv : ∀ {b : CBlock P} {witness : List Bytes},
      checkCommitment b witness commitment = .ok () → ∃ nonce, witness = [nonce] ∧
        NodeCrypto.witnessCommitmentHash (blockWitnessMerkleRoot b) nonce = commitment := by
    intro b witness hok
    unfold checkCommitment at hok
    split at hok
    case h_2 => cases hok
    case h_1 nonce =>
      replace hok := of_rejectIf hok
      exact ⟨nonce, rfl, not_not.mp (rejectIf_eq_ok.mp hok)⟩
  obtain ⟨nonce', hw', hhash'⟩ := hinv hok'
  obtain ⟨nonce, hw, hhash⟩ := hinv hok
  obtain ⟨hroot, rfl⟩ := hcommit (hhash'.trans hhash.symm)
  obtain ⟨-, hrest⟩ := h.coinbases hb' hb
  -- the trees have the same number of leaves, so equal roots mean equal leaves
  have hlen := List.Forall₂.length_eq hrest
  unfold blockWitnessMerkleRoot at hroot
  rw [hb', hb, tail_cons, tail_cons] at hroot
  have hleaves := computeMerkleRoot_injective_of_length hmerkle (by simp [hlen]) hroot
  rw [cons.injEq] at hleaves
  have hwitness : rest'.map witness = rest.map witness :=
    map_eq_of_forall₂ (forall₂_and_of_map_eq hrest hleaves.2) fun tx' _ tx _ htx =>
      htx.1.witness_eq_of_getWitnessHash_eq hinj htx.2
  rw [CBlock.witnesses, CBlock.witnesses, hb', hb, map_cons, map_cons, hwitness,
    witness, witness, hin', hin, map_singleton,
    map_singleton, hw', hw]

/-- Blocks that both pass the checks of witnesses carry the same witnesses. -/
lemma witnesses_eq {params : ConsensusParams P} {nHeight : ℤ}
    (hok' : checkWitness params nHeight b' coinbase' coinbaseIn' = .ok ())
    (hok : checkWitness params nHeight b coinbase coinbaseIn = .ok ()) :
    b'.witnesses = b.witnesses := by
  have hvout := (h.coinbases hb' hb).1.vout_eq
  have hcommitment : witnessCommitment coinbase' = witnessCommitment coinbase := by
    rw [witnessCommitment, witnessCommitment, hvout]
  have hnone : checkNoWitness b' = .ok () → checkNoWitness b = .ok () →
      b'.witnesses = b.witnesses := fun h' h₀ =>
    h.witnesses_eq_of_not_hasWitness (by simpa using rejectIf_eq_ok.mp h')
      (by simpa using rejectIf_eq_ok.mp h₀)
  unfold checkWitness at hok' hok
  rw [hcommitment] at hok'
  split at hok
  case isFalse hheight =>
    rw [if_neg hheight] at hok'
    exact hnone hok' hok
  case isTrue hheight =>
    rw [if_pos hheight] at hok'
    split at hok
    case h_2 hc =>
      rw [hc] at hok'
      exact hnone hok' hok
    case h_1 commitment hc =>
      rw [hc] at hok'
      exact h.witnesses_eq_of_commitment hb' hb hin' hin hinj hmerkle hcommit hok' hok

end

end SameIds

end Aegisum
