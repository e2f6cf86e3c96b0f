import AuraChain.Engine

/-! What a call of the engine that returns can have done: one case for every
path through its handlers. -/

namespace AuraChain

namespace ConsensusEngine

variable {c : Crates} {env : Env} {engine : ConsensusEngine} {vote : Vote} {block : Block}

theorem sees_of_completesPrecommit (h : engine.completesPrecommit c vote = true) :
    engine.sees c (recordVote engine.precommits vote) = true :=
  ((Bool.and_eq_true _ _).mp h).1

theorem sees_of_completesPrevote (h : engine.completesPrevote c vote = true) :
    engine.sees c (recordVote engine.prevotes vote) = true :=
  ((Bool.and_eq_true _ _).mp h).1

theorem step_of_completesPrevote (h : engine.completesPrevote c vote = true) :
    engine.step = .preVote :=
  of_decide_eq_true ((Bool.and_eq_true _ _).mp h).2

theorem commitMatching_cases {hash : Hash} {committed : ConsensusEngine}
    (h : commitMatching c env engine hash = .ok committed) :
    (∃ block db root, engine.proposedBlock = some block ∧ block.hash c = hash ∧
      engine.stateDb.commitBlock c env block (executeTransactionsSpeculative c engine.stateDb
        block.transactions StateOverlay.new) = (db, .ok root) ∧
      committed = { engine with
        stateDb := db, mempool := engine.mempool.removeCommitted c block.transactions }) ∨
    ((∀ block, engine.proposedBlock = some block → block.hash c ≠ hash) ∧ committed = engine) := by
  rw [commitMatching] at h
  cases hp : engine.proposedBlock with
  | none =>
    rw [hp] at h
    exact .inr ⟨by simp, (Except.ok.inj h).symm⟩
  | some block =>
    simp only [hp] at h
    split_ifs at h with hh
    · unfold commitProposal at h
      dsimp only at h
      cases hc : engine.stateDb.commitBlock c env block (executeTransactionsSpeculative c
          engine.stateDb block.transactions StateOverlay.new) with
      | mk db res =>
        rw [hc] at h
        cases res with
        | error e => simp at h
        | ok root =>
          refine .inl ⟨block, db, root, rfl, hh, hc, ?_⟩
          rw [← hp]
          exact (Except.ok.inj h).symm
    · refine .inr ⟨fun b hb => ?_, (Except.ok.inj h).symm⟩
      rw [← Option.some.inj hb]
      exact hh

theorem handlePrecommit_cases {r : Reply (Option QuorumCertificate)}
    (h : handlePrecommit c env engine vote = .ok r) :
    (engine.completesPrecommit c vote = false ∧
      r = ⟨engine.recordPrecommit vote, none, [.precommitGiven vote]⟩) ∨
    (engine.completesPrecommit c vote = true ∧ ∃ committed,
      commitMatching c env { engine.recordPrecommit vote with step := .commit } vote.blockHash =
        .ok committed ∧
      r = ⟨committed.advance (engine.certificate c vote (recordVote engine.precommits vote)),
        some (engine.certificate c vote (recordVote engine.precommits vote)),
        [.precommitGiven vote,
          .precommitQuorum (engine.certificate c vote (recordVote engine.precommits vote))
            (countedVotes (engine.getActiveValidators c) (recordVote engine.precommits vote))]⟩) := by
  rw [handlePrecommit] at h
  cases hq : engine.completesPrecommit c vote with
  | false =>
    simp only [hq, Bool.false_eq_true, if_false, Except.ok.injEq] at h
    exact .inl ⟨rfl, h.symm⟩
  | true =>
    simp only [hq, if_true] at h
    cases hc : commitMatching c env { engine.recordPrecommit vote with step := .commit }
        vote.blockHash with
    | error p => simp [hc] at h
    | ok committed =>
      simp only [hc, Except.ok.injEq] at h
      exact .inr ⟨rfl, committed, rfl, h.symm⟩

/-- A certificate is in the log of a call exactly if the call returns it. -/
theorem handlePrecommit_returns {r : Reply (Option QuorumCertificate)} {qc : QuorumCertificate}
    (h : handlePrecommit c env engine vote = .ok r) :
    r.value = some qc ↔ ∃ counted, Event.precommitQuorum qc counted ∈ r.log := by
  rcases handlePrecommit_cases h with ⟨-, rfl⟩ | ⟨-, committed, -, rfl⟩
  · simp
  · simp [eq_comm]

/-- A certificate passes the check of the primitives crate. -/
theorem isValidQuorum_certificate (hq : engine.completesPrecommit c vote = true) :
    (engine.certificate c vote (recordVote engine.precommits vote)).isValidQuorum = true := by
  obtain ⟨hpos, hpower⟩ := of_decide_eq_true (sees_of_completesPrecommit hq)
  have hne : totalPower (engine.getActiveValidators c) ≠ 0 := (UInt64.ne_of_lt hpos).symm
  simp [QuorumCertificate.isValidQuorum, certificate, hne, hpower]

theorem handlePrevote_cases {r : Reply (Option Vote)}
    (h : handlePrevote c env engine vote = .ok r) :
    (engine.completesPrevote c vote = false ∧ r = ⟨engine.recordPrevote vote, none, []⟩) ∨
    (engine.completesPrevote c vote = true ∧ ∃ inner,
      handlePrecommit c env { engine.recordPrevote vote with step := .preCommit }
        (engine.ownPrecommit c vote.blockHash) = .ok inner ∧
      r = ⟨inner.engine, some (engine.ownPrecommit c vote.blockHash),
        .prevoteQuorum engine.currentHeight engine.currentRound
          (countedVotes (engine.getActiveValidators c) (recordVote engine.prevotes vote)) ::
        .signed (engine.ownPrecommit c vote.blockHash) :: inner.log⟩) := by
  rw [handlePrevote] at h
  cases hq : engine.completesPrevote c vote with
  | false =>
    simp only [hq, Bool.false_eq_true, if_false, Except.ok.injEq] at h
    exact .inl ⟨rfl, h.symm⟩
  | true =>
    simp only [hq, if_true] at h
    cases hc : handlePrecommit c env { engine.recordPrevote vote with step := .preCommit }
        (engine.ownPrecommit c vote.blockHash) with
    | error p => simp [hc] at h
    | ok inner =>
      simp only [hc, Except.ok.injEq] at h
      exact .inr ⟨rfl, inner, rfl, h.symm⟩

theorem handleProposal_cases {r : Reply (Except ConsensusError Vote)}
    (h : handleProposal c env engine block = .ok r) :
    (engine.accepts c block = false ∧ r = ⟨engine, .error .invalidProposal, []⟩) ∨
    (engine.accepts c block = true ∧ ∃ inner,
      handlePrevote c env { engine with proposedBlock := some block, step := .preVote }
        (engine.ownPrevote c (block.hash c)) = .ok inner ∧
      r = ⟨inner.engine, .ok (engine.ownPrevote c (block.hash c)),
        .signed (engine.ownPrevote c (block.hash c)) :: inner.log⟩) := by
  rw [handleProposal] at h
  cases hq : engine.accepts c block with
  | false =>
    simp only [hq, Bool.false_eq_true, if_false, Except.ok.injEq] at h
    exact .inl ⟨rfl, h.symm⟩
  | true =>
    simp only [hq, if_true] at h
    cases hc : handlePrevote c env { engine with proposedBlock := some block, step := .preVote }
        (engine.ownPrevote c (block.hash c)) with
    | error p => simp [hc] at h
    | ok inner =>
      simp only [hc, Except.ok.injEq] at h
      exact .inr ⟨rfl, inner, rfl, h.symm⟩

/-- What the proposer signs and keeps. -/
def ownProposal (c : Crates) (env : Env) (engine : ConsensusEngine) (prevBlock : Block) : Block :=
  let header := engine.proposalHeader c env prevBlock (engine.mempool.harvest (1024 * 1024))
  ⟨{ header with signature := c.sign engine.keypair header.signingBytes },
    engine.mempool.harvest (1024 * 1024), engine.lastQc⟩

theorem createProposal_signed {r : Reply (Except ConsensusError Block)}
    (h : createProposal c env engine = .ok r) :
    (∃ e, r = ⟨engine, .error e, []⟩) ∨
    engine.isProposer c engine.currentHeight engine.currentRound = true ∧
    ∃ prevBlock, r = ⟨{ engine with
        proposedBlock := some (engine.ownProposal c env prevBlock), step := .propose },
      .ok (engine.ownProposal c env prevBlock), []⟩ := by
  rw [createProposal] at h
  dsimp only at h
  cases hs : selectProposer c engine.currentHeight engine.currentRound
      (engine.getActiveValidators c) with
  | none =>
    simp only [hs, Except.ok.injEq] at h
    exact .inl ⟨_, h.symm⟩
  | some proposer =>
    simp only [hs] at h
    split_ifs at h with hp
    · exact .inl ⟨_, (Except.ok.inj h).symm⟩
    · have hprop : engine.isProposer c engine.currentHeight engine.currentRound = true := by
        rw [isProposer, hs]
        exact decide_eq_true (not_not.mp hp)
      cases hprev : engine.stateDb.getBlockByHeight c (engine.currentHeight - 1) with
      | none => simp [hprev] at h
      | some prevBlock =>
        simp only [hprev, BlockHeader.sign] at h
        split_ifs at h with ha
        · exact .inl ⟨_, (Except.ok.inj h).symm⟩
        · exact .inr ⟨hprop, prevBlock, (Except.ok.inj h).symm⟩

theorem createProposal_cases {r : Reply (Except ConsensusError Block)}
    (h : createProposal c env engine = .ok r) :
    (∃ e, r = ⟨engine, .error e, []⟩) ∨
    engine.isProposer c engine.currentHeight engine.currentRound = true ∧
    ∃ block, block.header.height = engine.currentHeight ∧ block.header.round = engine.currentRound ∧
      r = ⟨{ engine with proposedBlock := some block, step := .propose }, .ok block, []⟩ := by
  refine (createProposal_signed h).imp_right ?_
  rintro ⟨hprop, prevBlock, hr⟩
  exact ⟨hprop, engine.ownProposal c env prevBlock, rfl, rfl, hr⟩

theorem createProposal_block {r : Reply (Except ConsensusError Block)}
    (h : createProposal c env engine = .ok r) (hb : r.value = .ok block) :
    ∃ prevBlock, block = engine.ownProposal c env prevBlock := by
  rcases createProposal_signed h with ⟨e, rfl⟩ | ⟨-, prevBlock, rfl⟩
  · cases hb
  · exact ⟨prevBlock, (Except.ok.inj hb).symm⟩

/-- What a call can do to the state database: one commit that succeeds. -/
def Commits (c : Crates) (db db' : StateDB) : Prop :=
  ∃ env block overlay root, db.commitBlock c env block overlay = (db', .ok root)

theorem handlePrecommit_stateDb {r : Reply (Option QuorumCertificate)}
    (h : handlePrecommit c env engine vote = .ok r) :
    r.engine.stateDb = engine.stateDb ∨ Commits c engine.stateDb r.engine.stateDb := by
  rcases handlePrecommit_cases h with ⟨-, rfl⟩ | ⟨-, committed, hm, rfl⟩
  · exact .inl rfl
  · rcases commitMatching_cases hm with ⟨block, db, root, -, -, hc, rfl⟩ | ⟨-, rfl⟩
    · exact .inr ⟨env, block, _, root, hc⟩
    · exact .inl rfl

theorem handlePrevote_stateDb {r : Reply (Option Vote)} (h : handlePrevote c env engine vote = .ok r) :
    r.engine.stateDb = engine.stateDb ∨ Commits c engine.stateDb r.engine.stateDb := by
  rcases handlePrevote_cases h with ⟨-, rfl⟩ | ⟨-, inner, hi, rfl⟩
  · exact .inl rfl
  · have hinner := handlePrecommit_stateDb hi
    exact hinner

theorem handleProposal_stateDb {r : Reply (Except ConsensusError Vote)}
    (h : handleProposal c env engine block = .ok r) :
    r.engine.stateDb = engine.stateDb ∨ Commits c engine.stateDb r.engine.stateDb := by
  rcases handleProposal_cases h with ⟨-, rfl⟩ | ⟨-, inner, hi, rfl⟩
  · exact .inl rfl
  · have hinner := handlePrevote_stateDb hi
    exact hinner

theorem createProposal_stateDb {r : Reply (Except ConsensusError Block)}
    (h : createProposal c env engine = .ok r) : r.engine.stateDb = engine.stateDb := by
  rcases createProposal_cases h with ⟨e, rfl⟩ | ⟨-, block, -, -, rfl⟩ <;> rfl

/-- The store refuses the proposal that a quorum for the hash would commit. -/
def refusesProposal (c : Crates) (env : Env) (engine : ConsensusEngine) (hash : Hash) : Prop :=
  ∃ block, engine.proposedBlock = some block ∧ block.hash c = hash ∧
    engine.stateDb.commitFails c env block = true

def precommitPanics (c : Crates) (env : Env) (engine : ConsensusEngine) (vote : Vote) : Prop :=
  engine.completesPrecommit c vote = true ∧ engine.refusesProposal c env vote.blockHash

def prevotePanics (c : Crates) (env : Env) (engine : ConsensusEngine) (vote : Vote) : Prop :=
  engine.completesPrevote c vote = true ∧
    precommitPanics c env { engine.recordPrevote vote with step := .preCommit }
      (engine.ownPrecommit c vote.blockHash)

theorem commitMatching_ok_iff {hash : Hash} :
    (∃ committed, commitMatching c env engine hash = .ok committed) ↔
      ¬ engine.refusesProposal c env hash := by
  unfold commitMatching refusesProposal
  cases hp : engine.proposedBlock with
  | none => simp
  | some block =>
    by_cases hh : block.hash c = hash
    · cases hf : engine.stateDb.commitFails c env block with
      | false =>
        obtain ⟨db, root, hc⟩ := StateDB.commitBlock_succeeds hf
          (executeTransactionsSpeculative c engine.stateDb block.transactions StateOverlay.new)
        simp [hh, commitProposal, hc, hf]
      | true =>
        obtain ⟨db, e, hc⟩ := StateDB.commitBlock_fails hf
          (executeTransactionsSpeculative c engine.stateDb block.transactions StateOverlay.new)
        simp [hh, commitProposal, hc, hf]
    · simp [hh]

theorem handlePrecommit_ok_iff :
    (∃ r, handlePrecommit c env engine vote = .ok r) ↔ ¬ engine.precommitPanics c env vote := by
  unfold handlePrecommit precommitPanics
  cases hq : engine.completesPrecommit c vote with
  | false => simp
  | true =>
    have hcommit : (∃ committed, commitMatching c env
        { engine.recordPrecommit vote with step := .commit } vote.blockHash = .ok committed) ↔
          ¬ engine.refusesProposal c env vote.blockHash := commitMatching_ok_iff
    simp only [if_true, true_and, ← hcommit]
    cases commitMatching c env { engine.recordPrecommit vote with step := .commit }
      vote.blockHash <;> simp

theorem handlePrevote_ok_iff :
    (∃ r, handlePrevote c env engine vote = .ok r) ↔ ¬ engine.prevotePanics c env vote := by
  unfold handlePrevote prevotePanics
  cases hq : engine.completesPrevote c vote with
  | false => simp
  | true =>
    have hinner : (∃ r, handlePrecommit c env { engine.recordPrevote vote with step := .preCommit }
        (engine.ownPrecommit c vote.blockHash) = .ok r) ↔
          ¬ precommitPanics c env { engine.recordPrevote vote with step := .preCommit }
            (engine.ownPrecommit c vote.blockHash) := handlePrecommit_ok_iff
    simp only [if_true, true_and, ← hinner]
    cases handlePrecommit c env { engine.recordPrevote vote with step := .preCommit }
      (engine.ownPrecommit c vote.blockHash) <;> simp

theorem of_toOption_map {ε α β : Type} {x : Except ε α} {f : α → β} {y : β}
    (h : (x.map f).toOption = some y) : ∃ a, x = .ok a ∧ f a = y := by
  cases x with
  | error e => simp [Except.map, Except.toOption] at h
  | ok a =>
    simp only [Except.map, Except.toOption, Option.some.injEq] at h
    exact ⟨a, rfl, h⟩

/-- What a call that returns leaves behind, by handler. -/
inductive Returns (c : Crates) (engine : ConsensusEngine) :
    Call → ConsensusEngine → List Event → Prop
  | createProposal {env : Env} {r : Reply (Except ConsensusError Block)}
      (h : engine.createProposal c env = .ok r) :
      Returns c engine (.createProposal env) r.engine r.log
  | handleProposal {env : Env} {block : Block} {r : Reply (Except ConsensusError Vote)}
      (h : engine.handleProposal c env block = .ok r) :
      Returns c engine (.handleProposal env block) r.engine r.log
  | handlePrevote {env : Env} {vote : Vote} {r : Reply (Option Vote)}
      (h : engine.handlePrevote c env vote = .ok r) :
      Returns c engine (.handlePrevote env vote) r.engine r.log
  | handlePrecommit {env : Env} {vote : Vote} {r : Reply (Option QuorumCertificate)}
      (h : engine.handlePrecommit c env vote = .ok r) :
      Returns c engine (.handlePrecommit env vote) r.engine r.log
  | poolChanged (mempool : Mempool) :
      Returns c engine (.poolChanged mempool) { engine with mempool := mempool } []

theorem next_returns {call : Call} {engine' : ConsensusEngine} {out : List Event}
    (h : engine.next c call = some (engine', out)) : Returns c engine call engine' out := by
  cases call with
  | createProposal env =>
    obtain ⟨r, hr, he⟩ := of_toOption_map h
    cases he
    exact .createProposal hr
  | handleProposal env block =>
    obtain ⟨r, hr, he⟩ := of_toOption_map h
    cases he
    exact .handleProposal hr
  | handlePrevote env vote =>
    obtain ⟨r, hr, he⟩ := of_toOption_map h
    cases he
    exact .handlePrevote hr
  | handlePrecommit env vote =>
    obtain ⟨r, hr, he⟩ := of_toOption_map h
    cases he
    exact .handlePrecommit hr
  | poolChanged mempool =>
    cases h
    exact .poolChanged mempool

theorem next_stateDb {call : Call} {engine' : ConsensusEngine} {out : List Event}
    (h : engine.next c call = some (engine', out)) :
    engine'.stateDb = engine.stateDb ∨ Commits c engine.stateDb engine'.stateDb := by
  cases next_returns h with
  | createProposal hr => exact .inl (createProposal_stateDb hr)
  | handleProposal hr => exact handleProposal_stateDb hr
  | handlePrevote hr => exact handlePrevote_stateDb hr
  | handlePrecommit hr => exact handlePrecommit_stateDb hr
  | poolChanged mempool => exact .inl rfl

theorem getActiveValidators_nodup (c : Crates) (engine : ConsensusEngine) :
    ((engine.getActiveValidators c).map ValidatorInfo.address).Nodup := by
  have hk := StateDB.getValidators_nodup c engine.stateDb
  rw [List.Nodup, List.pairwise_map] at hk
  rw [List.Nodup, List.pairwise_map, getActiveValidators, List.pairwise_filterMap]
  refine hk.imp ?_
  intro p q hpq v hv w hw hvw
  have haddr : ∀ {p : Address × Account} {v : ValidatorInfo}, validatorInfo p = some v →
      v.address = p.1 := by
    intro p v h
    obtain ⟨pk, -, hpk⟩ := Option.map_eq_some_iff.mp h
    rw [← hpk]
  exact hpq ((haddr hv).symm.trans (hvw.trans (haddr hw)))

end ConsensusEngine

theorem mem_recordVote {table : VoteTable} {vote v : Vote} (h : v ∈ recordVote table vote) :
    v ∈ table.getD vote.blockHash [] ∨ v = vote ∧ hasVoted table vote = false := by
  unfold recordVote at h
  dsimp only at h
  split_ifs at h with hany
  · exact .inl h
  · simpa [hany] using h

theorem recordVote_nodup {table : VoteTable} {vote : Vote}
    (h : ((table.getD vote.blockHash []).map Vote.validator).Nodup) :
    ((recordVote table vote).map Vote.validator).Nodup := by
  unfold recordVote
  dsimp only
  split_ifs with hany
  · exact h
  · rw [List.map_append, List.nodup_append']
    refine ⟨h, by simp, ?_⟩
    intro a ha hb
    obtain ⟨v, hv, rfl⟩ := List.mem_map.mp ha
    have he : v.validator = vote.validator := by simpa using hb
    exact hany (List.any_eq_true.mpr ⟨v, hv, by simpa using he⟩)

end AuraChain
