import AuraChain.Engine
import AuraChain.MempoolRun
import AuraChain.Replay

/-! What a commit leaves in the pool. The clean-up goes by the hashes of the
block's transactions, while the nonce of an account counts those executed. -/

namespace AuraChain

inductive CommitCall
  | addTransaction (tx : Transaction)
  | commitBlock (env : Env) (block : Block)

namespace Mempool

variable {c : Crates} {pool : Mempool} {tx : Transaction}

theorem removeCommitted_byHash (c : Crates) (pool : Mempool) (txs : List Transaction) (h : Hash) :
    (pool.removeCommitted c txs).byHash[h]? =
      if h ∈ txs.map (Transaction.txHash c) then none else pool.byHash[h]? := by
  induction txs generalizing pool with
  | nil => rfl
  | cons t txs ih =>
    have htail := ih (pool.evictTransaction (t.txHash c)).1
    rw [evictTransaction_byHash, OrdMap.lookup_erase] at htail
    have hunfold : pool.removeCommitted c (t :: txs) =
        (pool.evictTransaction (t.txHash c)).1.removeCommitted c txs := rfl
    rw [hunfold, htail, List.map_cons]
    by_cases ht : t.txHash c = h
    · simp [ht]
    · simp [ht, Ne.symm ht]

theorem mem_removeCommitted (hc : pool.Consistent c) (txs : List Transaction) :
    tx ∈ (pool.removeCommitted c txs).pooled ↔
      tx ∈ pool.pooled ∧ tx.txHash c ∉ txs.map (Transaction.txHash c) := by
  rw [mem_pooled (hc.removeCommitted txs), mem_pooled hc, removeCommitted_byHash]
  split_ifs with h <;> simp [h]

end Mempool

namespace ConsensusEngine

/-- The commits of a run are logged. A commit that fails is a panic and ends it. -/
def commitStep (c : Crates) (engine : ConsensusEngine) :
    CommitCall → Option (ConsensusEngine × List Block)
  | .addTransaction tx => (engine.mempool.addTransaction c tx engine.stateDb).map fun r =>
      ({ engine with mempool := r.1 }, [])
  | .commitBlock env block => (engine.commitProposal c env block).toOption.map fun r => (r, [block])

def nonceAfter (c : Crates) (engine : ConsensusEngine) (block : Block) (a : Address) : UInt64 :=
  (engine.stateDb.getAccount c a).nonce +
    UInt64.ofNat (block.transactions.countP fun tx => tx.sender = a)

/-- What the block does not contain itself is still ahead of its sender's account. -/
def leavesAhead (c : Crates) (engine : ConsensusEngine) (block : Block) : Prop :=
  ∀ t ∈ engine.mempool.pooled, t.txHash c ∉ block.transactions.map (Transaction.txHash c) →
    engine.nonceAfter c block t.sender < t.nonce

def keepsAhead (c : Crates) (engine : ConsensusEngine) : CommitCall → Prop
  | .addTransaction _ => True
  | .commitBlock _ block => engine.leavesAhead c block

instance (c : Crates) (engine : ConsensusEngine) (call : CommitCall) :
    Decidable (engine.keepsAhead c call) :=
  match call with
  | .addTransaction _ => isTrue trivial
  | .commitBlock _ block => inferInstanceAs (Decidable (∀ t ∈ engine.mempool.pooled,
      t.txHash c ∉ block.transactions.map (Transaction.txHash c) →
        engine.nonceAfter c block t.sender < t.nonce))

/-- No pooled transaction is stale, and no harvested one is refused for that. -/
structure NoneStale (c : Crates) (engine : ConsensusEngine) : Prop where
  nonce : ∀ t ∈ engine.mempool.pooled, (engine.stateDb.getAccount c t.sender).nonce < t.nonce
  harvest : ∀ maxBytes, ∀ t ∈ engine.mempool.harvest maxBytes, ∀ expected got,
    validateStateful t (engine.stateDb.getAccount c t.sender) ≠ .error (.nonceTooLow expected got)

variable {c : Crates} {engine engine' : ConsensusEngine} {block : Block} {env : Env}

theorem validateStateful_nonce {tx : Transaction} {account : Account}
    (h : account.nonce < tx.nonce) (expected got : UInt64) :
    validateStateful tx account ≠ .error (.nonceTooLow expected got) := by
  rw [validateStateful, if_neg (UInt64.not_le.mpr h)]
  dsimp only
  split_ifs
  · simp
  · simp
  · rw [validateType]
    cases tx.txType with
    | registerValidator =>
      simp only
      split_ifs <;> simp
    | unstake =>
      simp only
      split_ifs <;> simp
    | transfer => simp
    | stake => simp

theorem noneStale_iff (hc : engine.mempool.Consistent c) : NoneStale c engine ↔
    ∀ t ∈ engine.mempool.pooled, (engine.stateDb.getAccount c t.sender).nonce < t.nonce := by
  refine ⟨NoneStale.nonce, fun h => ⟨h, fun maxBytes t ht => ?_⟩⟩
  exact validateStateful_nonce (h t ((Mempool.mem_pooled hc).mpr (Mempool.harvest_mem hc ht)))

theorem commitProposal_cases (h : engine.commitProposal c env block = .ok engine') :
    ∃ db root, engine.stateDb.commitBlock c env block (executeTransactionsSpeculative c engine.stateDb
        block.transactions StateOverlay.new) = (db, .ok root) ∧
      engine' = { engine with
        stateDb := db
        mempool := engine.mempool.removeCommitted c block.transactions } := by
  rw [commitProposal] at h
  cases hcb : engine.stateDb.commitBlock c env block (executeTransactionsSpeculative c engine.stateDb
      block.transactions StateOverlay.new) with
  | mk db res =>
    rw [hcb] at h
    cases res with
    | error e => cases h
    | ok root =>
      cases h
      exact ⟨db, root, rfl, rfl⟩

/-- One commit leaves no stale transaction exactly when all that it leaves are
ahead of their accounts. -/
theorem commitProposal_noneStale_iff (hrt : c.AccountRoundTrip) (hc : engine.mempool.Consistent c)
    (h : engine.commitProposal c env block = .ok engine') :
    NoneStale c engine' ↔ engine.leavesAhead c block := by
  obtain ⟨db, root, hcb, rfl⟩ := commitProposal_cases h
  have hnonce : ∀ a, (db.getAccount c a).nonce = engine.nonceAfter c block a :=
    StateDB.commitBlock_nonce hrt hcb
  rw [noneStale_iff (hc.removeCommitted block.transactions)]
  simp only [hnonce, Mempool.mem_removeCommitted hc, and_imp, leavesAhead]

theorem addTransaction_ahead (hc : engine.mempool.Consistent c)
    (h : ∀ t ∈ engine.mempool.pooled, (engine.stateDb.getAccount c t.sender).nonce < t.nonce)
    {tx : Transaction} {r : Mempool × Except MempoolError Hash}
    (hr : engine.mempool.addTransaction c tx engine.stateDb = some r) :
    r.1.Consistent c ∧ ∀ t ∈ r.1.pooled, (engine.stateDb.getAccount c t.sender).nonce < t.nonce := by
  obtain ⟨hc', hpooled⟩ := Mempool.addTransaction_pooled hc hr
  refine ⟨hc', fun t ht => ?_⟩
  rcases hpooled t ht with hold | ⟨rfl, hchecks⟩
  · exact h t hold
  · exact (validateStateful_ok hchecks.stateful).1

theorem commitStep_cases {call : CommitCall} {out : List Block}
    (h : engine.commitStep c call = some (engine', out)) :
    (∃ tx r, call = .addTransaction tx ∧
      engine.mempool.addTransaction c tx engine.stateDb = some r ∧
      engine' = { engine with mempool := r.1 }) ∨
    ∃ env block, call = .commitBlock env block ∧ engine.commitProposal c env block = .ok engine' := by
  cases call with
  | addTransaction tx =>
    obtain ⟨r, hr, he⟩ := Option.map_eq_some_iff.mp h
    cases he
    exact .inl ⟨tx, r, rfl, hr, rfl⟩
  | commitBlock env block =>
    obtain ⟨r, hr, he⟩ := Option.map_eq_some_iff.mp h
    cases he
    refine .inr ⟨env, block, rfl, ?_⟩
    cases hcommit : engine.commitProposal c env block with
    | error p => simp [hcommit, Except.toOption] at hr
    | ok e =>
      simp only [hcommit, Except.toOption, Option.some.injEq] at hr
      rw [hr]

theorem commitStep_consistent (hc : engine.mempool.Consistent c) {call : CommitCall}
    {out : List Block} (h : engine.commitStep c call = some (engine', out)) :
    engine'.mempool.Consistent c := by
  rcases commitStep_cases h with ⟨tx, r, -, hr, rfl⟩ | ⟨env, block, -, hcommit⟩
  · exact (Mempool.addTransaction_pooled hc hr).1
  · obtain ⟨db, root, -, rfl⟩ := commitProposal_cases hcommit
    exact hc.removeCommitted block.transactions

/-- As long as every block leaves what it does not contain ahead of the accounts,
no transaction in the pool is stale; any other block leaves a stale one. -/
theorem commits_leave_none_stale (hrt : c.AccountRoundTrip) (keypair : SecretKey) (stateDb : StateDB)
    (config : MempoolConfig) (chainId : Bytes) :
    (∀ engine log, TracedRun (commitStep c) (keepsAhead c)
      (new c keypair stateDb (Mempool.new config) chainId, []) (engine, log) → NoneStale c engine) ∧
    ∀ engine log, TracedRun (commitStep c) (fun _ _ => True)
      (new c keypair stateDb (Mempool.new config) chainId, []) (engine, log) →
      ∀ env block engine', engine.commitProposal c env block = .ok engine' →
        (NoneStale c engine' ↔ engine.leavesAhead c block) := by
  constructor
  · intro engine log hrun
    have hinv : engine.mempool.Consistent c ∧ NoneStale c engine := by
      refine TracedRun.invariant (P := fun e _ => e.mempool.Consistent c ∧ NoneStale c e) hrun ?_ ?_
      · have hnew := Mempool.Consistent.new c config
        have hempty : ∀ t, t ∉ (Mempool.new config).pooled := fun t => by
          rw [Mempool.mem_pooled hnew]
          simp [Mempool.new]
        exact ⟨hnew, (noneStale_iff hnew).mpr fun t ht => absurd ht (hempty t)⟩
      · rintro s _ call t out ⟨hc, hnone⟩ ha hs
        refine ⟨commitStep_consistent hc hs, ?_⟩
        rcases commitStep_cases hs with ⟨tx, r, -, hr, rfl⟩ | ⟨env, block, rfl, hcommit⟩
        · obtain ⟨hc', hahead⟩ := addTransaction_ahead hc hnone.nonce hr
          exact (noneStale_iff hc').mpr hahead
        · exact (commitProposal_noneStale_iff hrt hc hcommit).mpr ha
    exact hinv.2
  · intro engine log hrun env block engine' hcommit
    have hc : engine.mempool.Consistent c :=
      TracedRun.invariant (P := fun e _ => e.mempool.Consistent c) hrun (.new c config)
        fun _ _ _ _ _ hc _ hs => commitStep_consistent hc hs
    exact commitProposal_noneStale_iff hrt hc hcommit

end ConsensusEngine

namespace StaleTransactions

def transfer (amount nonce : UInt64) : Transaction :=
  Reference.transaction .transfer 2 (Reference.address 3) amount 200 nonce

def block (amount : UInt64) : Block := Reference.block 1 Hash.zero 0 [transfer amount 1]

def crates (amount : UInt64) : Crates :=
  Reference.crates [Reference.genesisBlock [1], block amount]

def engine (amount : UInt64) : ConsensusEngine :=
  Reference.engine [1] 1 [Reference.genesisBlock [1], block amount]

theorem commits_leave_none_stale_second : ∃ engine', engine'.mempool.pooled = [transfer 1000 2] ∧
    ConsensusEngine.NoneStale (crates 1000) engine' := by
  have hcalls : (runAll (ConsensusEngine.commitStep (crates 1000))
      (ConsensusEngine.keepsAhead (crates 1000)) (engine 1000)
      [.addTransaction (transfer 1000 1), .addTransaction (transfer 1000 2),
        .commitBlock Reference.env (block 1000)]).map (fun t => t.1.mempool.pooled) =
      some [transfer 1000 2] := by decide +kernel
  obtain ⟨⟨engine', log⟩, hrun, hpooled⟩ := TracedRun.of_map hcalls
  have hnone := (ConsensusEngine.commits_leave_none_stale (Reference.accountRoundTrip _)
    (Reference.secretKey 1) _ MempoolConfig.default (ascii "aura-testnet")).1 engine' log hrun
  exact ⟨engine', hpooled, hnone⟩

/-- Another node's block holds a different transaction with the same nonce. -/
theorem conflicting_block_leaves_stale : ¬ ∀ (c : Crates) (keypair : SecretKey) (stateDb : StateDB)
    (config : MempoolConfig) (chainId : Bytes) (engine : ConsensusEngine) (log : List Block),
    TracedRun (ConsensusEngine.commitStep c) (fun _ _ => True)
      (ConsensusEngine.new c keypair stateDb (Mempool.new config) chainId, []) (engine, log) →
    ConsensusEngine.NoneStale c engine := by
  intro hclaim
  have hcalls : (runAll (ConsensusEngine.commitStep (crates 2000)) (fun _ _ => True) (engine 2000)
      [.addTransaction (transfer 1000 1), .commitBlock Reference.env (block 2000)]).map
      (fun t => (t.1.mempool.pooled, (t.1.stateDb.getAccount (crates 2000)
        (transfer 1000 1).sender).nonce)) = some ([transfer 1000 1], 1) := by decide +kernel
  obtain ⟨⟨engine', log⟩, hrun, hstate⟩ := TracedRun.of_map hcalls
  obtain ⟨hpooled, hnonce⟩ := Prod.mk.inj hstate
  have hnone := hclaim (crates 2000) (Reference.secretKey 1) _ MempoolConfig.default
    (ascii "aura-testnet") engine' log hrun
  have hlt := hnone.nonce (transfer 1000 1) (hpooled ▸ List.mem_singleton_self _)
  rw [hnonce] at hlt
  exact absurd hlt (by decide)

end StaleTransactions

end AuraChain
