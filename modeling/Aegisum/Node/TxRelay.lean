import Aegisum.Node.OrphanPool
import Aegisum.Node.PreChecks

/-!
# Transactions from peers

The handler of `tx` messages, `ProcessOrphanTx` and `AlreadyHaveTx`, while the tip of the chain
does not change.  A transaction that was refused is remembered by its witness id, and so is one
that waits for its parents; what has that witness id is not looked at again.  The witness id covers
neither an attached MWEB transaction nor the HogEx marker, and of a transaction with MWEB data only
it covers no more than the first kernel.

The handler works with any mempool that answers; `poolRelay` is the one of the node, whose answers
are those of `PreChecks`.
-/

namespace Aegisum

variable {P : Primitives} {M : Type}

/-- `GenTxid`. -/
structure GenTxid (P : Primitives) where
  isWtxid : Bool
  hash : P.Hash

/-- A filter entry: the hash and the transaction it was inserted for. -/
abbrev RejectEntry (P : Primitives) := P.Hash × CTransaction P

/-- The filters and limits of the handler. -/
structure RelayFilters (P : Primitives) where
  /-- `g_recent_confirmed_transactions`, which changes with the tip only. -/
  recentlyConfirmed : P.Hash → Bool
  /-- What the rolling filter keeps when something is inserted. -/
  keep : List (RejectEntry P) → List (RejectEntry P)
  keep_subset : ∀ l, keep l ⊆ l
  keep_last : ∀ e l, e ∈ keep (e :: l)
  nMaxOrphanTx : ℕ

/-- What the handler works with while the tip stays the same. -/
structure RelayEnv (P : Primitives) (M : Type) extends RelayFilters P where
  /-- `CTxMemPool::exists`. -/
  existsTx : M → GenTxid P → Bool
  /-- `AcceptToMemoryPool`: the answer, and the mempool after it. -/
  acceptToMemoryPool : M → CTransaction P → Except TxFailure Unit × M

/-- The mempool, the orphans with the work sets, and `recentRejects` without false positives. -/
structure RelayState (P : Primitives) (M : Type) extends OrphanState P where
  mempool : M
  recentRejects : List (RejectEntry P)

/-- A message, or a call of `ProcessOrphanTx` between two messages.  The work set is run through in
the given order; the other parameters are those of `LimitOrphanTxSize`. -/
inductive RelayEvent (P : Primitives) where
  | txMessage (peer : ℤ) (tx : CTransaction P) (nNow : ℤ) (order : List P.Hash)
      (arrange : List P.Hash → List P.Hash) (choice : ℕ → ℕ)
  | processOrphans (peer : ℤ) (order : List P.Hash)

/-- The transaction that is received. -/
def RelayEvent.received : RelayEvent P → Option (CTransaction P)
  | .txMessage _ tx _ _ _ _ => some tx
  | .processOrphans _ _ => none

namespace RelayEnv

/-- `AlreadyHaveTx`, without the reset for a new tip. -/
def alreadyHaveTx (env : RelayEnv P M) (s : RelayState P M) (gtxid : GenTxid P) : Bool :=
  if !gtxid.isWtxid && (s.pool.mapOrphanTransactions.lookup gtxid.hash).isSome then true
  else if gtxid.isWtxid && (s.pool.orphansByWtxid.lookup gtxid.hash).isSome then true
  else if env.recentlyConfirmed gtxid.hash then true
  else s.recentRejects.any (·.1 = gtxid.hash) || env.existsTx s.mempool gtxid

/-- Insert a hash into `recentRejects`. -/
def insertReject (env : RelayEnv P M) (hash : P.Hash) (tx : CTransaction P)
    (s : RelayState P M) : RelayState P M :=
  { s with recentRejects := (hash, tx) :: env.keep s.recentRejects }

variable [NodeCrypto P]

/-- What is remembered of a refused transaction. -/
def rejectTx (env : RelayEnv P M) (result : TxValidationResult) (tx : CTransaction P)
    (s : RelayState P M) : RelayState P M :=
  if result = .txWitnessStripped then s
  else
    let s := env.insertReject tx.getWitnessHash tx s
    if result = .txInputsNotStandard ∧ tx.getWitnessHash ≠ tx.getHash
      then env.insertReject tx.getHash tx s else s

/-- `ProcessOrphanTx`: the first orphan that is accepted or refused ends the loop. -/
def processOrphanTx (env : RelayEnv P M) (peer : ℤ) :
    List P.Hash → RelayState P M → Except Fault (RelayState P M)
  | [], s => .ok s
  | hash :: order, s =>
    let workSet := (s.workSet peer).erase hash
    let s := { s with workSet := Function.update s.workSet peer workSet }
    match s.pool.orphan? hash with
    | none => processOrphanTx env peer order s
    | some tx =>
      let (answer, mempool) := env.acceptToMemoryPool s.mempool tx
      let s := { s with mempool := mempool }
      match answer with
      | .ok _ => do
        let workSet := s.pool.putOnWorkSet hash tx.vout.length workSet
        let pool ← s.pool.eraseOrphanTx hash
        .ok { s with pool := pool, workSet := Function.update s.workSet peer workSet }
      | .error (.invalid .txMissingInputs _) => processOrphanTx env peer order s
      | .error (.invalid result _) => do
        let s := env.rejectTx result tx s
        let pool ← s.pool.eraseOrphanTx hash
        .ok { s with pool := pool }
      | .error .exception => .ok s

/-- The transaction waits for its parents, unless one of them was refused. -/
def keepOrphan (env : RelayEnv P M) (peer : ℤ) (tx : CTransaction P) (nNow : ℤ)
    (arrange : List P.Hash → List P.Hash) (choice : ℕ → ℕ) (s : RelayState P M) :
    Except Fault (RelayState P M) :=
  let fRejectedParents := tx.vin.any fun txin => s.recentRejects.any (·.1 = txin.prevout.hash)
  if !fRejectedParents then do
    let pool := (s.pool.addOrphanTx nNow tx peer).2
    let pool ← pool.limitOrphanTxSize arrange choice nNow env.nMaxOrphanTx
    .ok { s with pool := pool }
  else .ok (env.insertReject tx.getWitnessHash tx (env.insertReject tx.getHash tx s))

/-- The handler of `tx` messages, and `ProcessOrphanTx`. -/
def step (env : RelayEnv P M) (s : RelayState P M) :
    RelayEvent P → Except Fault (RelayState P M)
  | .txMessage peer tx nNow order arrange choice =>
    if env.alreadyHaveTx s ⟨true, tx.getWitnessHash⟩ then .ok s
    else
      let (answer, mempool) := env.acceptToMemoryPool s.mempool tx
      let s := { s with mempool := mempool }
      match answer with
      | .ok _ => env.processOrphanTx peer order { s with toOrphanState := s.acceptTx peer tx }
      | .error (.invalid .txMissingInputs _) => env.keepOrphan peer tx nNow arrange choice s
      | .error (.invalid result _) => .ok (env.rejectTx result tx s)
      | .error .exception => .ok s
  | .processOrphans peer order => env.processOrphanTx peer order s

end RelayEnv

/-- `CTxMemPool::exists`. -/
def CTxMemPool.existsTx [NodeCrypto P] (pool : CTxMemPool P) (gtxid : GenTxid P) : Bool :=
  if gtxid.isWtxid then pool.mapTx.entries.any (·.2.tx.getWitnessHash = gtxid.hash)
  else gtxid.hash ∈ pool.mapTx

/-- The handler with the memory pool of the node, at a tip. -/
def poolRelay [NodeCrypto P] (filters : RelayFilters P) (env : AcceptEnv P) (chain : Chain P)
    (tip : CoinsTip P) : RelayEnv P (CTxMemPool P) where
  toRelayFilters := filters
  existsTx := CTxMemPool.existsTx
  acceptToMemoryPool pool := MemPoolAccept.acceptSingleTransaction env ⟨chain, tip, pool⟩

/-! ### Transactions with the same witness id -/

section Censorship

variable [NodeCrypto P]

/-- `AlreadyHaveTx` is true of the transaction because of another one with its witness id, which was
refused or waits for its parents. -/
def RelayState.CensoredBy (s : RelayState P M) (tx other : CTransaction P) : Prop :=
  other.getWitnessHash = tx.getWitnessHash ∧ other ≠ tx ∧
    ((∃ hash, (hash = tx.getHash ∨ hash = tx.getWitnessHash) ∧ (hash, other) ∈ s.recentRejects) ∨
      s.pool.orphan? tx.getHash = some other ∨
      ∃ hash, s.pool.orphansByWtxid.lookup tx.getWitnessHash = some hash ∧
        s.pool.orphan? hash = some other)

/-- No other transaction with the witness id was refused or waits for its parents. -/
structure RelayState.Clear (tx : CTransaction P) (s : RelayState P M) : Prop where
  rejects : ∀ e ∈ s.recentRejects, e.2.getWitnessHash = tx.getWitnessHash → e.2 = tx
  orphans : ∀ hash other, s.pool.orphan? hash = some other →
    other.getWitnessHash = tx.getWitnessHash → other = tx

lemma RelayState.Clear.not_censoredBy {tx other : CTransaction P} {s : RelayState P M}
    (h : s.Clear tx) : ¬ s.CensoredBy tx other := by
  rintro ⟨hwtxid, hne, ⟨hash, -, hmem⟩ | horphan | ⟨hash, -, horphan⟩⟩
  · exact hne (h.rejects _ hmem hwtxid)
  · exact hne (h.orphans _ _ horphan hwtxid)
  · exact hne (h.orphans _ _ horphan hwtxid)

/-- With fewer orphans and with what was refused before, nothing gets worse. -/
lemma RelayState.Clear.of_within {tx : CTransaction P} {s s' : RelayState P M} (h : s.Clear tx)
    (hpool : s'.pool.Within s.pool) (hrejects : s'.recentRejects = s.recentRejects) : s'.Clear tx :=
  ⟨hrejects ▸ h.rejects, fun hash other hother => h.orphans hash other (hpool hash other hother)⟩

/-- The answers after which nothing is remembered of a transaction. -/
def Forgotten : Except TxFailure Unit → Prop
  | .ok _ => True
  | .error (.invalid .txWitnessStripped _) => True
  | .error (.invalid _ _) => False
  | .error .exception => True

/-- The transaction is known already, or the mempool takes it or finds that it lacks a witness. -/
def RelayEnv.Harmless (env : RelayEnv P M) (s : RelayState P M) (tx : CTransaction P) : Prop :=
  env.alreadyHaveTx s ⟨true, tx.getWitnessHash⟩ = true ∨
    Forgotten (env.acceptToMemoryPool s.mempool tx).1

namespace RelayEnv

variable {env : RelayEnv P M} {tx : CTransaction P}

variable {other : CTransaction P} {s : RelayState P M}

lemma clear_insertReject (h : s.Clear tx) (hash : P.Hash)
    (hother : other.getWitnessHash = tx.getWitnessHash → other = tx) :
    (env.insertReject hash other s).Clear tx where
  rejects e he hwtxid := by
    rcases List.mem_cons.mp he with rfl | he
    · exact hother hwtxid
    · exact h.rejects e (env.keep_subset _ he) hwtxid
  orphans := h.orphans

lemma clear_rejectTx (h : s.Clear tx) (result : TxValidationResult)
    (hother : other.getWitnessHash = tx.getWitnessHash → other = tx) :
    (env.rejectTx result other s).Clear tx := by
  rw [rejectTx]
  split_ifs
  · exact h
  · exact clear_insertReject (clear_insertReject h _ hother) _ hother
  · exact clear_insertReject h _ hother

lemma pool_rejectTx (s : RelayState P M) (result : TxValidationResult) (other : CTransaction P) :
    (env.rejectTx result other s).pool = s.pool := by
  rw [rejectTx]
  split_ifs <;> rfl

/-- `ProcessOrphanTx` remembers only transactions that were among the orphans. -/
lemma exists_processOrphanTx (hids : OrphanPool.WtxidsFaithful P) (peer : ℤ) (order : List P.Hash)
    (hpool : s.pool.Consistent) (h : s.Clear tx) :
    ∃ s', env.processOrphanTx peer order s = .ok s' ∧ s'.pool.Consistent ∧ s'.Clear tx := by
  induction order generalizing s with
  | nil => exact ⟨s, rfl, hpool, h⟩
  | cons hash order ih =>
    rw [processOrphanTx]
    cases horphan : s.pool.orphan? hash with
    | none => exact ih hpool (h.of_within (fun _ _ hother => hother) rfl)
    | some other =>
      obtain ⟨pool, hok, herased⟩ := hpool.exists_eraseOrphanTx hids hash
      have hother := h.orphans hash other horphan
      dsimp only
      split
      case h_1 =>
        exact ⟨_, bind_of_eq_ok hok _, herased.consistent, h.of_within herased.within rfl⟩
      case h_2 => exact ih hpool (h.of_within (fun _ _ hother => hother) rfl)
      case h_3 =>
        -- the orphan that is refused now is the transaction itself, if it has its witness id
        refine ⟨_, bind_of_eq_ok (by rw [pool_rejectTx]; exact hok) _, herased.consistent, ?_⟩
        have hcleared : RelayState.Clear tx { s with
            mempool := (env.acceptToMemoryPool s.mempool other).2
            workSet := Function.update s.workSet peer ((s.workSet peer).erase hash) } :=
          h.of_within (fun _ _ hother => hother) rfl
        refine (clear_rejectTx hcleared _ hother).of_within ?_ rfl
        rw [pool_rejectTx]
        exact herased.within
      case h_4 => exact ⟨_, rfl, hpool, h.of_within (fun _ _ hother => hother) rfl⟩

/-- An event keeps the state clear if the transaction received is the one in question, has another
witness id or is harmless. -/
lemma exists_step (hids : OrphanPool.WtxidsFaithful P) (hpool : s.pool.Consistent) (h : s.Clear tx)
    (event : RelayEvent P)
    (hharmless : ∀ other, event.received = some other →
      other.getWitnessHash = tx.getWitnessHash → other ≠ tx → env.Harmless s other) :
    ∃ s', env.step s event = .ok s' ∧ s'.pool.Consistent ∧ s'.Clear tx := by
  cases event with
  | processOrphans peer order => exact exists_processOrphanTx hids peer order hpool h
  | txMessage peer other nNow order arrange choice =>
    rw [step]
    split_ifs with hknown
    · exact ⟨s, rfl, hpool, h⟩
    -- what is remembered of the transaction does not matter
    have hkept : ¬ Forgotten (env.acceptToMemoryPool s.mempool other).1 →
        other.getWitnessHash = tx.getWitnessHash → other = tx := by
      intro hremembered hwtxid
      by_contra hne
      exact (hharmless other rfl hwtxid hne).elim (fun hhave => hknown hhave) hremembered
    have hsame : ∀ mempool, RelayState.Clear tx { s with mempool := mempool } := fun mempool =>
      h.of_within (fun _ _ hother => hother) rfl
    dsimp only
    split
    case h_1 =>
      exact exists_processOrphanTx hids peer order hpool
        (h.of_within (fun _ _ hother => hother) rfl)
    case h_2 hanswer =>
      have hother := hkept (by rw [hanswer]; exact id)
      rw [keepOrphan]
      split_ifs
      · obtain ⟨pool, hok, hpool', hwithin, -⟩ :=
          (hpool.addOrphanTx hids nNow other peer).exists_limitOrphanTxSize hids arrange choice nNow
            env.nMaxOrphanTx
        refine ⟨_, bind_of_eq_ok hok _, hpool', h.rejects, fun hash other' hother' hwtxid => ?_⟩
        obtain rfl | hold := OrphanPool.orphan?_addOrphanTx (hwithin hash other' hother')
        · exact hother hwtxid
        · exact h.orphans hash other' hold hwtxid
      · exact ⟨_, rfl, hpool, clear_insertReject (clear_insertReject (hsame _) _ hother) _ hother⟩
    case h_3 result reason hne hanswer =>
      by_cases hstripped : result = .txWitnessStripped
      · rw [hstripped, rejectTx, if_pos rfl]
        exact ⟨_, rfl, hpool, hsame _⟩
      · have hother := hkept (by
          rw [hanswer]
          cases result <;> first | exact id | exact absurd rfl hstripped)
        refine ⟨_, rfl, ?_, clear_rejectTx (hsame _) _ hother⟩
        rw [pool_rejectTx]
        exact hpool
    case h_4 => exact ⟨_, rfl, hpool, hsame _⟩

/-- A run in which every transaction received is harmless in the state that it meets. -/
lemma exists_run (hids : OrphanPool.WtxidsFaithful P) (events : List (RelayEvent P))
    (hpool : s.pool.Consistent) (h : s.Clear tx)
    (hharmless : ∀ before event after s' other, events = before ++ event :: after →
      before.foldlM env.step s = .ok s' → event.received = some other →
      other.getWitnessHash = tx.getWitnessHash → other ≠ tx → env.Harmless s' other) :
    ∃ s', events.foldlM env.step s = .ok s' ∧ s'.pool.Consistent ∧ s'.Clear tx := by
  induction events generalizing s with
  | nil => exact ⟨s, rfl, hpool, h⟩
  | cons event events ih =>
    obtain ⟨s₁, hok, hpool₁, h₁⟩ := exists_step hids hpool h event
      fun other => hharmless [] event events s other rfl rfl
    rw [List.foldlM_cons, bind_of_eq_ok hok]
    refine ih hpool₁ h₁ fun before event' after s' other heq hrun => ?_
    refine hharmless (event :: before) event' after s' other (by rw [heq]; rfl) ?_
    rw [List.foldlM_cons, bind_of_eq_ok hok]
    exact hrun

variable (env : RelayEnv P M) (hwtxid : other.getWitnessHash = tx.getWitnessHash)
  (hne : other ≠ tx) (hnew : env.alreadyHaveTx s ⟨true, other.getWitnessHash⟩ = false)

include hwtxid hne

/-- What is remembered under a witness id censors every other transaction that has it. -/
lemma censoredBy_of_mem (hmem : (other.getWitnessHash, other) ∈ s.recentRejects) :
    s.CensoredBy tx other ∧ env.alreadyHaveTx s ⟨true, tx.getWitnessHash⟩ = true := by
  rw [hwtxid] at hmem
  have hany : s.recentRejects.any (·.1 = tx.getWitnessHash) = true :=
    List.any_eq_true.mpr ⟨_, hmem, by simp⟩
  refine ⟨⟨hwtxid, hne, .inl ⟨_, .inr rfl, hmem⟩⟩, ?_⟩
  rw [alreadyHaveTx]
  split_ifs
  · rfl
  · rfl
  · rfl
  · simp only [hany, Bool.true_or]

include hnew

/-- A transaction that is refused for another reason than a missing witness, or missing inputs,
censors all transactions with its witness id. -/
lemma censoredBy_of_refused {result : TxValidationResult} {reason : String}
    (hanswer : (env.acceptToMemoryPool s.mempool other).1 = .error (.invalid result reason))
    (hstripped : result ≠ .txWitnessStripped) (hmissing : result ≠ .txMissingInputs) (peer nNow : ℤ)
    (order : List P.Hash) (arrange : List P.Hash → List P.Hash) (choice : ℕ → ℕ) :
    ∃ s', env.step s (.txMessage peer other nNow order arrange choice) = .ok s' ∧
      s'.CensoredBy tx other ∧ env.alreadyHaveTx s' ⟨true, tx.getWitnessHash⟩ = true ∧
      s'.mempool = (env.acceptToMemoryPool s.mempool other).2 := by
  have hstep : env.step s (.txMessage peer other nNow order arrange choice) =
      .ok (env.rejectTx result other
        { s with mempool := (env.acceptToMemoryPool s.mempool other).2 }) := by
    rw [step, if_neg (by simp [hnew])]
    simp only [hanswer]
  have hmem : ∀ s₁ : RelayState P M,
      (other.getWitnessHash, other) ∈ (env.rejectTx result other s₁).recentRejects := by
    intro s₁
    rw [rejectTx, if_neg hstripped]
    split_ifs
    · exact List.mem_cons_of_mem _ (env.keep_last _ _)
    · exact List.mem_cons_self
  obtain ⟨hcensored, hhave⟩ := env.censoredBy_of_mem hwtxid hne (hmem _)
  refine ⟨_, hstep, hcensored, hhave, ?_⟩
  rw [rejectTx]
  split_ifs <;> rfl

/-- A transaction whose inputs are missing censors as well, if one of its parents was refused or if
it is then among the orphans: it is not if it is too large, if another one with its id is, or if it
was thrown out at once to keep their number. -/
lemma censoredBy_of_missing (hids : OrphanPool.WtxidsFaithful P) (hpool : s.pool.Consistent)
    {reason : String} (hanswer : (env.acceptToMemoryPool s.mempool other).1 =
      .error (.invalid .txMissingInputs reason)) (peer nNow : ℤ) (order : List P.Hash)
    (arrange : List P.Hash → List P.Hash) (choice : ℕ → ℕ) :
    ∃ s', env.step s (.txMessage peer other nNow order arrange choice) = .ok s' ∧
      ((∃ txin ∈ other.vin, ∃ e ∈ s.recentRejects, e.1 = txin.prevout.hash) ∨
          s'.pool.orphan? other.getHash = some other →
        s'.CensoredBy tx other ∧ env.alreadyHaveTx s' ⟨true, tx.getWitnessHash⟩ = true) := by
  have hstep : env.step s (.txMessage peer other nNow order arrange choice) =
      env.keepOrphan peer other nNow arrange choice
        { s with mempool := (env.acceptToMemoryPool s.mempool other).2 } := by
    rw [step, if_neg (by simp [hnew])]
    simp only [hanswer]
  rw [hstep, keepOrphan]
  by_cases hparents : ∃ txin ∈ other.vin, ∃ e ∈ s.recentRejects, e.1 = txin.prevout.hash
  · rw [if_neg (by simpa using hparents)]
    exact ⟨_, rfl, fun _ => env.censoredBy_of_mem hwtxid hne List.mem_cons_self⟩
  · rw [if_pos (by simpa using hparents)]
    obtain ⟨pool, hok, hpool', -⟩ :=
      (hpool.addOrphanTx hids nNow other peer).exists_limitOrphanTxSize hids arrange choice nNow
        env.nMaxOrphanTx
    refine ⟨_, bind_of_eq_ok hok _, fun h => ?_⟩
    have horphan := h.resolve_left hparents
    have hindex := (hpool'.byWtxid tx.getWitnessHash other.getHash).mpr ⟨other, horphan, hwtxid⟩
    exact ⟨⟨hwtxid, hne, .inr (.inr ⟨_, hindex, horphan⟩)⟩, by simp [alreadyHaveTx, hindex]⟩

end RelayEnv

/-- While the tip stays the same, in every run of messages from any peers: if every other
transaction with the witness id of the given one that is received is known already, taken by the
mempool or found to lack a witness, then none of them makes `AlreadyHaveTx` true of it.  And one
that is received in any state and is refused for another reason does; if its inputs are missing it
does when one of its parents was refused or when it is kept as an orphan. -/
theorem relay_not_censored (hinj : Function.Injective (NodeCrypto.txHash (P := P)))
    (hkernel : ∀ (k : Mw.Kernel P) t, k.getKernelID ≠ NodeCrypto.txHash t) (env : RelayEnv P M)
    (tx : CTransaction P) :
    (∀ (s : RelayState P M) (events : List (RelayEvent P)), s.pool.Consistent → s.Clear tx →
      (∀ before event after s' other, events = before ++ event :: after →
        before.foldlM env.step s = .ok s' → event.received = some other →
        other.getWitnessHash = tx.getWitnessHash → other ≠ tx → env.Harmless s' other) →
      ∃ s', events.foldlM env.step s = .ok s' ∧ ∀ other, ¬ s'.CensoredBy tx other) ∧
    ∀ (s : RelayState P M) other, other.getWitnessHash = tx.getWitnessHash → other ≠ tx →
      env.alreadyHaveTx s ⟨true, other.getWitnessHash⟩ = false →
      (∀ result reason,
        (env.acceptToMemoryPool s.mempool other).1 = .error (.invalid result reason) →
        result ≠ .txWitnessStripped → result ≠ .txMissingInputs →
        ∀ peer nNow order arrange choice, ∃ s',
          env.step s (.txMessage peer other nNow order arrange choice) = .ok s' ∧
          s'.CensoredBy tx other ∧ env.alreadyHaveTx s' ⟨true, tx.getWitnessHash⟩ = true) ∧
      (s.pool.Consistent → ∀ reason,
        (env.acceptToMemoryPool s.mempool other).1 = .error (.invalid .txMissingInputs reason) →
        ∀ peer nNow order arrange choice, ∃ s',
          env.step s (.txMessage peer other nNow order arrange choice) = .ok s' ∧
          ((∃ txin ∈ other.vin, ∃ e ∈ s.recentRejects, e.1 = txin.prevout.hash) ∨
              s'.pool.orphan? other.getHash = some other →
            s'.CensoredBy tx other ∧
              env.alreadyHaveTx s' ⟨true, tx.getWitnessHash⟩ = true)) := by
  have hids := OrphanPool.wtxidsFaithful hinj hkernel
  refine ⟨fun s events hpool hclear hharmless => ?_,
    fun s other hwtxid hne hnew =>
      ⟨fun result reason hanswer => ?_, fun hpool reason hanswer => ?_⟩⟩
  · obtain ⟨s', hrun, -, hclear'⟩ := RelayEnv.exists_run hids events hpool hclear hharmless
    exact ⟨s', hrun, fun other => hclear'.not_censoredBy⟩
  · intro hstripped hmissing peer nNow order arrange choice
    obtain ⟨s', hstep, hcensored, hhave, -⟩ := RelayEnv.censoredBy_of_refused env hwtxid hne hnew
      hanswer hstripped hmissing peer nNow order arrange choice
    exact ⟨s', hstep, hcensored, hhave⟩
  · exact RelayEnv.censoredBy_of_missing env hwtxid hne hnew hids hpool hanswer

end Censorship

namespace Symbolic

/-- The memory pool of a node at a tip with one coin, with filters that forget nothing. -/
def openRelay : RelayEnv sym (CTxMemPool sym) :=
  poolRelay ⟨fun _ => false, id, fun _ => List.Subset.refl _, fun _ _ => List.mem_cons_self, 100⟩
    replacementEnv plainChain (poolWith []).tip

/-- The peg-in transaction with an output that goes to another key. -/
def otherMinting : CTransaction sym :=
  { changeMint with
    mwebTx := some
      { mintTx with
        stealthOffset := 6
        body := { mintTx.body with outputs := [output 10 7 6 9] } }
    hogEx_wf := nofun }

/-- The peg-in transaction with a range proof that is not valid. -/
def brokenMinting : CTransaction sym :=
  { changeMint with
    mwebTx := some
      { mintTx with
        body := { mintTx.body with outputs := [{ output 10 7 5 9 with proof := [] }] } }
    hogEx_wf := nofun }

/-- A node without orphans, with nothing refused. -/
def freshRelay : RelayState sym (CTxMemPool sym) := ⟨.empty, .empty, []⟩

lemma clear_freshRelay (tx : CTransaction sym) : freshRelay.Clear tx := ⟨nofun, nofun⟩

/-- Another transaction with the witness id is taken by the mempool. -/
theorem relay_not_censored_otherMinting :
    otherMinting.getWitnessHash = changeMint.getWitnessHash ∧ otherMinting ≠ changeMint ∧
    ∃ s', [RelayEvent.txMessage 1 otherMinting 0 [] id id].foldlM openRelay.step freshRelay =
        .ok s' ∧ ∀ other, ¬ s'.CensoredBy changeMint other := by
  refine ⟨by decide +kernel, by decide +kernel, ?_⟩
  refine (relay_not_censored (tagged_injective 14) kernelID_ne_txHash openRelay changeMint).1
    freshRelay _ OrphanPool.consistent_empty (clear_freshRelay _) ?_
  intro before event after s' other heq hrun hreceived _ _
  have haccepted : (openRelay.acceptToMemoryPool freshRelay.mempool otherMinting).1 = .ok () := by
    decide +kernel
  cases before with
  | nil =>
    obtain ⟨rfl, -⟩ := List.cons.inj heq
    obtain rfl := Option.some.inj hreceived
    obtain rfl := Except.ok.inj hrun
    right
    rw [haccepted]
    trivial
  | cons e before => simp at heq

/-- A transaction with a broken range proof is refused; the valid one with the same witness id,
which the mempool would take, is not looked at any more. -/
theorem brokenMinting_censors :
    brokenMinting.getWitnessHash = changeMint.getWitnessHash ∧ brokenMinting ≠ changeMint ∧
    ∃ s', [RelayEvent.txMessage 1 brokenMinting 0 [] id id].foldlM openRelay.step freshRelay =
        .ok s' ∧ (openRelay.acceptToMemoryPool s'.mempool changeMint).1 = .ok () ∧
      s'.CensoredBy changeMint brokenMinting ∧
      openRelay.alreadyHaveTx s' ⟨true, changeMint.getWitnessHash⟩ = true := by
  have hwtxid : brokenMinting.getWitnessHash = changeMint.getWitnessHash := by decide +kernel
  have hne : brokenMinting ≠ changeMint := by decide +kernel
  have hanswer : (openRelay.acceptToMemoryPool freshRelay.mempool brokenMinting).1 =
      .error (.invalid .txWitnessMutated "bad-mweb-txn") := by decide +kernel
  obtain ⟨s', hstep, hcensored, hhave, hmempool⟩ := RelayEnv.censoredBy_of_refused openRelay
    hwtxid hne (by decide +kernel) hanswer (by decide) (by decide) 1 0 [] id id
  refine ⟨hwtxid, hne, s', ?_, ?_, hcensored, hhave⟩
  · rw [List.foldlM_cons, bind_of_eq_ok hstep]
    rfl
  · rw [hmempool]
    decide +kernel

end Symbolic

end Aegisum
