import AuraChain.EngineSpec
import AuraChain.LockScope
import AuraChain.Reference

/-! The guards that the handlers of the engine take, in the order and for the
scopes of Rust 2021: a `let` guard lives to the end of its block, the guard of an
`if let` through the block, that of an `if` condition not, and that of the value
of an assignment while the place is locked. -/

namespace AuraChain

open LockScope

inductive LockId
  | currentHeight
  | currentRound
  | step
  | proposedBlock
  | prevotes
  | precommits
  | lastQc
  | kvData
  | smt
  | byHash
  | bySender
  | priorityIndex
  | totalBytes
  deriving DecidableEq

def LockId.isTable : LockId → Bool
  | prevotes | precommits => true
  | _ => false

abbrev LockScript := Script LockId

def readStore : LockScript := .touch .kvData .read

def StateDB.getBlockByHeightLocks (db : StateDB) (height : UInt64) : LockScript :=
  .block [readStore, if (db.kv.get (heightKey height)).isSome then readStore else .skip]

def StateDB.commitBlockLocks (c : Crates) (db : StateDB) (block : Block) : LockScript :=
  .hold .smt .write <| if (c.serializeBlock block).isSome then
    .block [.touch .kvData .write, if db.kv.dbPath.isSome then readStore else .skip] else .skip

def accountLocks (overlay : StateOverlay) (a : Address) : LockScript :=
  if a ∈ overlay.accounts then .skip else readStore

def executeLocks (c : Crates) (db : StateDB) : StateOverlay → List Transaction → LockScript
  | _, [] => .skip
  | overlay, tx :: txs =>
    .block [accountLocks overlay tx.sender,
      if tx.txType = .transfer then accountLocks overlay tx.recipient else .skip,
      executeLocks c db (executeTransaction c db overlay tx) txs]

namespace Mempool

def harvestLocks : LockScript := .hold .priorityIndex .read (.touch .byHash .read)

def evictTransactionLocks (pool : Mempool) (txHash : Hash) : LockScript :=
  .block [.touch .byHash .write,
    if txHash ∈ pool.byHash then
      .block [.touch .priorityIndex .write, .touch .bySender .write,
        .hold .totalBytes .read (.touch .totalBytes .write)]
    else .skip]

def removeCommittedLocks (c : Crates) : Mempool → List Transaction → LockScript
  | _, [] => .skip
  | pool, tx :: txs =>
    .block [pool.evictTransactionLocks (tx.txHash c),
      removeCommittedLocks c (pool.evictTransaction (tx.txHash c)).1 txs]

end Mempool

namespace ConsensusEngine

def commitProposalLocks (c : Crates) (env : Env) (engine : ConsensusEngine) (block : Block) :
    LockScript :=
  .block [executeLocks c engine.stateDb StateOverlay.new block.transactions,
    engine.stateDb.commitBlockLocks c block,
    if engine.stateDb.commitFails c env block then .panic
    else engine.mempool.removeCommittedLocks c block.transactions]

def commitMatchingLocks (c : Crates) (env : Env) (engine : ConsensusEngine) (blockHash : Hash) :
    LockScript :=
  .hold .proposedBlock .read <| match engine.proposedBlock with
    | some block => if block.hash c = blockHash then engine.commitProposalLocks c env block else .skip
    | none => .skip

def quorumLocks (c : Crates) (env : Env) (engine : ConsensusEngine) (vote : Vote) : LockScript :=
  .block ([.touch .step .write, .hold .currentHeight .read (.touch .currentRound .read),
    engine.commitMatchingLocks c env vote.blockHash, .touch .lastQc .write,
    .touch .currentHeight .write, .touch .currentRound .write, .touch .step .write,
    .touch .proposedBlock .write, .touch .prevotes .write] ++ [.touch .precommits .write])

def handlePrecommitLocks (c : Crates) (env : Env) (engine : ConsensusEngine) (vote : Vote) :
    LockScript :=
  .hold .precommits .write <| .block [readStore,
    if engine.sees c (recordVote engine.precommits vote) then
      .block [.touch .step .read,
        if engine.completesPrecommit c vote then engine.quorumLocks c env vote else .skip]
    else .skip]

def handlePrevoteLocks (c : Crates) (env : Env) (engine : ConsensusEngine) (vote : Vote) :
    LockScript :=
  .hold .prevotes .write <| .block [readStore,
    if engine.sees c (recordVote engine.prevotes vote) then
      .block [.touch .step .read,
        if engine.completesPrevote c vote then
          .block [.touch .step .write, .touch .currentHeight .read, .touch .currentRound .read,
            handlePrecommitLocks c env { engine.recordPrevote vote with step := .preCommit }
              (engine.ownPrecommit c vote.blockHash)]
        else .skip]
    else .skip]

def handleProposalLocks (c : Crates) (env : Env) (engine : ConsensusEngine) (block : Block) :
    LockScript :=
  .block [.touch .currentHeight .read, .touch .currentRound .read,
    if engine.accepts c block then
      .block [.touch .proposedBlock .write, .touch .step .write,
        handlePrevoteLocks c env { engine with proposedBlock := some block, step := .preVote }
          (engine.ownPrevote c (block.hash c))]
    else .skip]

def createProposalLocks (c : Crates) (env : Env) (engine : ConsensusEngine) : LockScript :=
  .block [.touch .currentHeight .read, .touch .currentRound .read, readStore,
    if engine.isProposer c engine.currentHeight engine.currentRound then
      .block [engine.stateDb.getBlockByHeightLocks (engine.currentHeight - 1),
        match engine.stateDb.getBlockByHeight c (engine.currentHeight - 1) with
        | none => .panic
        | some prevBlock =>
          let txs := engine.mempool.harvest (1024 * 1024)
          .block [Mempool.harvestLocks, executeLocks c engine.stateDb StateOverlay.new txs,
            .touch .smt .read, .touch .lastQc .read,
            match (engine.proposalHeader c env prevBlock txs).sign c engine.keypair with
            | .error _ => .skip
            | .ok _ => .block [.touch .proposedBlock .write, .touch .step .write]]]
    else .skip]

/-- The branch that commits and resets the tables, unless the store fails in it. -/
def entersCommit (c : Crates) (env : Env) (engine : ConsensusEngine) (vote : Vote) : Prop :=
  engine.completesPrecommit c vote = true ∧ ¬ engine.refusesProposal c env vote.blockHash

end ConsensusEngine

namespace Call

open ConsensusEngine

def locks (c : Crates) (engine : ConsensusEngine) : Call → LockScript
  | .createProposal env => engine.createProposalLocks c env
  | .handleProposal env block => engine.handleProposalLocks c env block
  | .handlePrevote env vote => engine.handlePrevoteLocks c env vote
  | .handlePrecommit env vote => engine.handlePrecommitLocks c env vote
  | .poolChanged _ => .skip

/-- The call requests no lock that it still holds. -/
def returns (c : Crates) (engine : ConsensusEngine) (call : Call) : Prop :=
  (call.locks c engine).run [] ≠ .blocked

instance (c : Crates) (engine : ConsensusEngine) (call : Call) : Decidable (call.returns c engine) :=
  inferInstanceAs (Decidable (_ ≠ _))

def prevoteEntersCommit (c : Crates) (env : Env) (engine : ConsensusEngine) (vote : Vote) : Prop :=
  engine.completesPrevote c vote = true ∧
    entersCommit c env { engine.recordPrevote vote with step := .preCommit }
      (engine.ownPrecommit c vote.blockHash)

def entersCommit (c : Crates) (engine : ConsensusEngine) : Call → Prop
  | .createProposal _ => False
  | .handleProposal env block => engine.accepts c block = true ∧
      prevoteEntersCommit c env { engine with proposedBlock := some block, step := .preVote }
        (engine.ownPrevote c (block.hash c))
  | .handlePrevote env vote => prevoteEntersCommit c env engine vote
  | .handlePrecommit env vote => engine.entersCommit c env vote
  | .poolChanged _ => False

end Call

section Locks

variable {held : List (LockId × Mode)} {c : Crates} {env : Env} {engine : ConsensusEngine}
  {vote : Vote}

theorem readStore_done (h : conflicts held .kvData .read = false) : readStore.run held = .done :=
  Script.run_touch h

theorem executeLocks_panicFree (c : Crates) (db : StateDB) (overlay : StateOverlay)
    (txs : List Transaction) : (executeLocks c db overlay txs).panicFree = true := by
  induction txs generalizing overlay with
  | nil => rfl
  | cons tx txs ih =>
    have hacc : ∀ a, (accountLocks overlay a).panicFree = true := by
      intro a
      rw [accountLocks]
      split_ifs <;> rfl
    simp only [executeLocks, Script.block, List.foldr, Script.panicFree, hacc, ih, Bool.and_true,
      Bool.true_and]
    split_ifs
    · exact hacc _
    · rfl

theorem executeLocks_done (h : conflicts held .kvData .read = false) (c : Crates) (db : StateDB)
    (overlay : StateOverlay) (txs : List Transaction) :
    (executeLocks c db overlay txs).run held = .done := by
  induction txs generalizing overlay with
  | nil => rfl
  | cons tx txs ih =>
    have hacc : ∀ a, (accountLocks overlay a).run held = .done := by
      intro a
      rw [accountLocks]
      split_ifs
      · rfl
      · exact readStore_done h
    have hrecipient : (if tx.txType = .transfer then accountLocks overlay tx.recipient
        else .skip).run held = .done := by
      split_ifs
      · exact hacc _
      · rfl
    rw [executeLocks, Script.run_block_cons (hacc _), Script.run_block_cons hrecipient,
      Script.run_block_singleton, ih]

theorem removeCommittedLocks_panicFree (c : Crates) (pool : Mempool) (txs : List Transaction) :
    (pool.removeCommittedLocks c txs).panicFree = true := by
  induction txs generalizing pool with
  | nil => rfl
  | cons tx txs ih =>
    have hevict : (pool.evictTransactionLocks (tx.txHash c)).panicFree = true := by
      rw [Mempool.evictTransactionLocks]
      split_ifs <;> rfl
    simp [Mempool.removeCommittedLocks, Script.block, Script.panicFree, hevict, ih]

/-- Nothing but the two vote tables is held. -/
def TablesOnly (held : List (LockId × Mode)) : Prop :=
  ∀ l m, l.isTable = false → conflicts held l m = false

theorem TablesOnly.nil : TablesOnly [] := fun _ _ _ => rfl

theorem TablesOnly.table (h : TablesOnly held) (t : LockId) (ht : t.isTable = true) :
    TablesOnly ((t, .write) :: held) := by
  intro l m hl
  have hne : t ≠ l := by
    rintro rfl
    rw [ht] at hl
    cases hl
  rw [Script.conflicts_cons_ne hne, h l m hl]

theorem TablesOnly.touch (h : TablesOnly held) {l : LockId} (m : Mode) (hl : l.isTable = false) :
    (Script.touch l m).run held = .done :=
  Script.run_touch (h l m hl)

theorem TablesOnly.readStore (h : TablesOnly held) : AuraChain.readStore.run held = .done :=
  h.touch .read rfl

theorem commitMatchingLocks_panicFree {blockHash : Hash}
    (h : ¬ engine.refusesProposal c env blockHash) :
    (engine.commitMatchingLocks c env blockHash).panicFree = true := by
  rw [ConsensusEngine.commitMatchingLocks]
  simp only [Script.panicFree]
  cases hp : engine.proposedBlock with
  | none => rfl
  | some block =>
    simp only
    split_ifs with hh
    · have hcommit : (engine.stateDb.commitBlockLocks c block).panicFree = true := by
        rw [StateDB.commitBlockLocks]
        split_ifs <;> rfl
      have hstore : engine.stateDb.commitFails c env block = false :=
        Bool.eq_false_of_not_eq_true fun hf => h ⟨block, hp, hh, hf⟩
      simp [ConsensusEngine.commitProposalLocks, Script.block, Script.panicFree,
        executeLocks_panicFree, hcommit, hstore, removeCommittedLocks_panicFree]
    · rfl

theorem commitMatchingLocks_panicked (hheld : TablesOnly held) {block : Block}
    (hblock : engine.proposedBlock = some block)
    (hfails : engine.stateDb.commitFails c env block = true) :
    (engine.commitMatchingLocks c env (block.hash c)).run held = .panicked := by
  have hkv : ∀ m, conflicts ((LockId.proposedBlock, .read) :: held) .kvData m = false :=
    fun m => (Script.conflicts_cons_ne (by decide) _ m).trans (hheld _ m rfl)
  have hsmt : conflicts ((LockId.proposedBlock, .read) :: held) .smt .write = false :=
    (Script.conflicts_cons_ne (by decide) _ _).trans (hheld _ _ rfl)
  have hkv' : ∀ m, conflicts ((LockId.smt, .write) :: (LockId.proposedBlock, .read) :: held)
      .kvData m = false :=
    fun m => (Script.conflicts_cons_ne (by decide) _ m).trans (hkv m)
  have hcommit : (engine.stateDb.commitBlockLocks c block).run
      ((LockId.proposedBlock, .read) :: held) = .done := by
    rw [StateDB.commitBlockLocks, Script.run_hold hsmt]
    split_ifs
    · rw [Script.run_block_cons (Script.run_touch (hkv' .write)), Script.run_block_singleton,
        readStore_done (hkv' .read)]
    · rw [Script.run_block_cons (Script.run_touch (hkv' .write)), Script.run_block_singleton,
        Script.run_skip]
    · rfl
  rw [ConsensusEngine.commitMatchingLocks,
    Script.run_hold (hheld _ _ rfl), hblock]
  simp only [if_true, ConsensusEngine.commitProposalLocks, hfails]
  rw [Script.run_block_cons (executeLocks_done (hkv .read) ..), Script.run_block_cons hcommit]
  exact Script.run_block_panicked rfl

theorem quorumLocks_blocked (hheld : conflicts held .precommits .write = true)
    (h : ¬ engine.refusesProposal c env vote.blockHash) :
    (engine.quorumLocks c env vote).run held = .blocked := by
  refine Script.run_block_blocked (fun p hp => Script.run_ne_panicked ?_)
    (Script.run_touch_blocked hheld)
  simp only [List.mem_cons, List.not_mem_nil, or_false] at hp
  rcases hp with rfl | rfl | rfl | rfl | rfl | rfl | rfl | rfl | rfl
  case inr.inr.inl => exact commitMatchingLocks_panicFree h
  all_goals rfl

theorem quorumLocks_panicked (hheld : TablesOnly held)
    (h : engine.refusesProposal c env vote.blockHash) :
    (engine.quorumLocks c env vote).run held = .panicked := by
  obtain ⟨block, hblock, hhash, hfails⟩ := h
  have hround : conflicts ((LockId.currentHeight, .read) :: held) .currentRound .read = false :=
    (Script.conflicts_cons_ne (by decide) _ _).trans (hheld _ _ rfl)
  have hheight : (Script.hold LockId.currentHeight .read (.touch .currentRound .read)).run held =
      .done := by
    rw [Script.run_hold (hheld _ _ rfl), Script.run_touch hround]
  rw [ConsensusEngine.quorumLocks,
    List.cons_append, Script.run_block_cons (hheld.touch .write rfl),
    List.cons_append, Script.run_block_cons hheight, List.cons_append, ← hhash]
  exact Script.run_block_panicked (commitMatchingLocks_panicked hheld hblock hfails)

/-- In both handlers of votes only the branch behind a full tally can block. -/
theorem run_tally_blocked_iff (hheld : TablesOnly held) {table : LockId} (htable : table.isTable = true)
    (hfree : conflicts held table .write = false) {sees completes : Bool}
    (hsees : completes = true → sees = true) (script : LockScript) :
    (Script.hold table .write <| .block [readStore,
        if sees then .block [.touch .step .read, if completes then script else .skip]
        else .skip]).run held = .blocked ↔
      completes = true ∧ script.run ((table, .write) :: held) = .blocked := by
  have htables := hheld.table table htable
  rw [Script.run_hold hfree, Script.run_block_cons htables.readStore, Script.run_block_singleton]
  by_cases hq : completes = true
  · rw [if_pos (hsees hq), Script.run_block_cons (htables.touch .read rfl),
      Script.run_block_singleton, if_pos hq]
    exact (and_iff_right hq).symm
  · simp only [hq, Bool.false_eq_true, if_false, false_and, iff_false]
    split_ifs
    · rw [Script.run_block_cons (htables.touch .read rfl), Script.run_block_singleton]
      simp
    · simp

/-- Alone or below `handle_prevote`, the handler of precommits blocks exactly in
the commit branch. -/
theorem handlePrecommitLocks_blocked_iff (hheld : TablesOnly held)
    (hfree : conflicts held .precommits .write = false) :
    (engine.handlePrecommitLocks c env vote).run held = .blocked ↔ engine.entersCommit c env vote := by
  have htables := hheld.table .precommits rfl
  rw [ConsensusEngine.handlePrecommitLocks, run_tally_blocked_iff hheld rfl hfree
    ConsensusEngine.sees_of_completesPrecommit, ConsensusEngine.entersCommit]
  refine and_congr_right fun _ => ?_
  by_cases hstore : engine.refusesProposal c env vote.blockHash
  · have hpanic := quorumLocks_panicked htables hstore
    simp [hpanic, hstore]
  · have hblocked := quorumLocks_blocked (Script.conflicts_write_self held .precommits .write) hstore
    exact iff_of_true hblocked hstore

theorem handlePrevoteLocks_blocked_iff :
    (engine.handlePrevoteLocks c env vote).run [] = .blocked ↔
      Call.prevoteEntersCommit c env engine vote := by
  have htables := TablesOnly.nil.table .prevotes rfl
  rw [ConsensusEngine.handlePrevoteLocks, run_tally_blocked_iff TablesOnly.nil rfl rfl
    ConsensusEngine.sees_of_completesPrevote, Call.prevoteEntersCommit]
  refine and_congr_right fun _ => ?_
  rw [Script.run_block_cons (htables.touch .write rfl), Script.run_block_cons (htables.touch .read rfl),
    Script.run_block_cons (htables.touch .read rfl), Script.run_block_singleton,
    handlePrecommitLocks_blocked_iff htables rfl]

theorem handleProposalLocks_blocked_iff {block : Block} :
    (engine.handleProposalLocks c env block).run [] = .blocked ↔
      Call.entersCommit c engine (.handleProposal env block) := by
  unfold ConsensusEngine.handleProposalLocks Call.entersCommit
  rw [Script.run_block_cons (Script.run_touch rfl), Script.run_block_cons (Script.run_touch rfl),
    Script.run_block_singleton]
  by_cases ha : engine.accepts c block = true
  · rw [if_pos ha, Script.run_block_cons (Script.run_touch rfl),
      Script.run_block_cons (Script.run_touch rfl), Script.run_block_singleton,
      handlePrevoteLocks_blocked_iff]
    simp [ha]
  · simp [ha]

theorem createProposalLocks_not_blocked :
    (engine.createProposalLocks c env).run [] ≠ .blocked := by
  have hget : (engine.stateDb.getBlockByHeightLocks (engine.currentHeight - 1)).run [] = .done := by
    rw [StateDB.getBlockByHeightLocks,
      Script.run_block_cons (readStore_done rfl), Script.run_block_singleton]
    split_ifs
    · exact readStore_done rfl
    · rfl
  rw [ConsensusEngine.createProposalLocks,
    Script.run_block_cons (Script.run_touch rfl), Script.run_block_cons (Script.run_touch rfl),
    Script.run_block_cons (readStore_done rfl), Script.run_block_singleton]
  split_ifs
  · rw [Script.run_block_cons hget, Script.run_block_singleton]
    cases engine.stateDb.getBlockByHeight c (engine.currentHeight - 1) with
    | none => simp [Script.run]
    | some prevBlock =>
      simp only
      rw [Script.run_block_cons rfl, Script.run_block_cons (executeLocks_done rfl ..),
        Script.run_block_cons (Script.run_touch rfl), Script.run_block_cons (Script.run_touch rfl),
        Script.run_block_singleton]
      cases (engine.proposalHeader c env prevBlock (engine.mempool.harvest (1024 * 1024))).sign c
        engine.keypair with
      | error e => simp
      | ok header =>
        simp only
        rw [Script.run_block_cons (Script.run_touch rfl), Script.run_block_singleton,
          Script.run_touch rfl]
        simp
  · simp

/-- A call requests a lock that it still holds exactly if it gets to commit: the
tables are cleared under their own guards there. -/
theorem call_blocked_iff (c : Crates) (engine : ConsensusEngine) (call : Call) :
    (call.locks c engine).run [] ≠ .blocked ↔ ¬ call.entersCommit c engine := by
  cases call with
  | createProposal env =>
    simp only [Call.entersCommit, not_false_eq_true, iff_true]
    exact createProposalLocks_not_blocked
  | handleProposal env block => exact not_congr handleProposalLocks_blocked_iff
  | handlePrevote env vote => exact not_congr handlePrevoteLocks_blocked_iff
  | handlePrecommit env vote =>
    exact not_congr (handlePrecommitLocks_blocked_iff TablesOnly.nil rfl)
  | poolChanged mempool => simp [Call.locks, Call.entersCommit]

end Locks

namespace EngineLocks

def crates : Crates := Reference.crates [Reference.genesisBlock [1]]

def engine : ConsensusEngine := Reference.engine [1] 1 [Reference.genesisBlock [1]]

/-- The only validator's precommit blocks the engine. -/
theorem quorum_blocks : ¬ ∀ t log call, EngineRun crates (fun _ _ => True) (engine, []) (t, log) →
    (Call.locks crates t call).run [] ≠ .blocked := by
  intro hall
  have hblocked : (Call.locks crates engine
      (.handlePrecommit Reference.env (engine.ownPrecommit crates Hash.zero))).run [] = .blocked := by
    decide +kernel
  exact hall engine [] _ .refl hblocked

end EngineLocks

end AuraChain
