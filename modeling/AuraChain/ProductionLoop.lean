import AuraChain.EngineLocks
import AuraChain.Sync

/-! The four calls by which a node and the test harness make a block. Each hands
the reply of one handler to the next, but the handlers also call each other. -/

namespace AuraChain

theorem recordVote_of_hasVoted {table : VoteTable} {vote : Vote} (h : hasVoted table vote = true) :
    recordVote table vote = table.getD vote.blockHash [] := by
  simp [recordVote, h]

theorem recordVote_again (table : VoteTable) (vote : Vote) :
    recordVote (table.insert vote.blockHash (recordVote table vote)) vote = recordVote table vote := by
  have hself : (table.insert vote.blockHash (recordVote table vote)).getD vote.blockHash [] =
      recordVote table vote := by
    rw [OrdMap.getD_insert_ite, if_pos rfl]
  have hvoted : hasVoted (table.insert vote.blockHash (recordVote table vote)) vote = true := by
    rw [hasVoted, hself, List.any_eq_true]
    by_cases h : hasVoted table vote = true
    · obtain ⟨v, hv, hsame⟩ := List.any_eq_true.mp h
      exact ⟨v, by rwa [recordVote_of_hasVoted h], hsame⟩
    · exact ⟨vote, by simp [recordVote, h], by simp⟩
  rw [recordVote_of_hasVoted hvoted, hself]

namespace ConsensusEngine

variable {c : Crates} {env : Env} {engine : ConsensusEngine} {block : Block} {vote : Vote}

theorem handlePrevote_quiet (h : engine.completesPrevote c vote = false) (env : Env) :
    engine.handlePrevote c env vote = .ok ⟨engine.recordPrevote vote, none, []⟩ := by
  simp [handlePrevote, h]

/-- The prevote that `handle_proposal` returns has been handled in it already:
the step has moved on, or there was no quorum and there is none now. -/
theorem handlePrevote_repeated {r : Reply (Except ConsensusError Vote)}
    (hr : engine.handleProposal c env block = .ok r) (hv : r.value = .ok vote) :
    r.engine.completesPrevote c vote = false := by
  rcases handleProposal_cases hr with ⟨-, rfl⟩ | ⟨-, inner, hi, rfl⟩
  · cases hv
  · obtain rfl := Except.ok.inj hv
    rcases handlePrevote_cases hi with ⟨hq, rfl⟩ | ⟨-, last, hl, rfl⟩
    · rw [completesPrevote] at hq ⊢
      have hagain := recordVote_again engine.prevotes (engine.ownPrevote c (block.hash c))
      simp only [recordPrevote, hagain]
      exact hq
    · rw [completesPrevote, Bool.and_eq_false_iff]
      refine .inr (decide_eq_false ?_)
      rcases handlePrecommit_cases hl with ⟨-, rfl⟩ | ⟨-, committed, -, rfl⟩
      · simp [recordPrecommit]
      · simp [ConsensusEngine.advance]

/-- A proposal names the block below it in the store. -/
theorem createProposal_prevBlock {r : Reply (Except ConsensusError Block)}
    (h : engine.createProposal c env = .ok r) (hb : r.value = .ok block) :
    ∃ prevBlock, engine.stateDb.getBlockByHeight c (engine.currentHeight - 1) = some prevBlock ∧
      block = engine.ownProposal c env prevBlock := by
  rw [createProposal] at h
  dsimp only at h
  cases hs : selectProposer c engine.currentHeight engine.currentRound
      (engine.getActiveValidators c) with
  | none =>
    simp only [hs, Except.ok.injEq] at h
    rw [← h] at hb
    cases hb
  | some proposer =>
    simp only [hs, BlockHeader.sign] at h
    cases hprev : engine.stateDb.getBlockByHeight c (engine.currentHeight - 1) with
    | none =>
      simp only [hprev] at h
      split_ifs at h
      rw [← Except.ok.inj h] at hb
      cases hb
    | some prevBlock =>
      simp only [hprev] at h
      split_ifs at h <;> rw [← Except.ok.inj h] at hb
      · cases hb
      · cases hb
      · exact ⟨prevBlock, rfl, (Except.ok.inj hb).symm⟩

/-- `handle_proposal` commits exactly where it blocks. -/
theorem handleProposal_outcome {r : Reply (Except ConsensusError Vote)}
    (hr : engine.handleProposal c env block = .ok r) :
    (engine.handleProposalLocks c env block).run [] ≠ .blocked ∧
        r.engine.stateDb = engine.stateDb ∧ r.engine.currentHeight = engine.currentHeight ∨
      (engine.handleProposalLocks c env block).run [] = .blocked ∧
        ∃ root, engine.stateDb.commitBlock c env block (executeTransactionsSpeculative c engine.stateDb
          block.transactions StateOverlay.new) = (r.engine.stateDb, .ok root) := by
  rw [Ne, handleProposalLocks_blocked_iff]
  rcases handleProposal_cases hr with ⟨ha, rfl⟩ | ⟨ha, inner, hi, rfl⟩
  · exact .inl ⟨fun h => absurd (ha.symm.trans h.1) (by simp), rfl, rfl⟩
  · rcases handlePrevote_cases hi with ⟨hq, rfl⟩ | ⟨hq, last, hl, rfl⟩
    · exact .inl ⟨fun h => absurd (hq.symm.trans h.2.1) (by simp), rfl, rfl⟩
    · rcases handlePrecommit_cases hl with ⟨hp, rfl⟩ | ⟨hp, committed, hm, rfl⟩
      · exact .inl ⟨fun h => absurd (hp.symm.trans h.2.2.1) (by simp), rfl, rfl⟩
      · have hcommits := commitMatching_ok_iff.mp ⟨committed, hm⟩
        refine .inr ⟨⟨ha, hq, hp, hcommits⟩, ?_⟩
        rcases commitMatching_cases hm with ⟨b, db, root, hb, -, hc, rfl⟩ | ⟨hno, -⟩
        · have hblock : block = b := Option.some.inj hb
          subst hblock
          exact ⟨root, hc⟩
        · exact absurd rfl (hno block rfl)

end ConsensusEngine

/-- Where a round of the test harness gives up. -/
inductive HarnessPanic
  | noNode
  | engine (p : Panic)
  | proposalCreated (e : ConsensusError)
  | prevoteCast (e : ConsensusError)
  | precommitCast
  | blockCommitted
  deriving DecidableEq

/-- A round hangs where a handler requests a lock that it holds. -/
inductive RoundOutcome
  | committed (blockHash : Hash)
  | panics (p : HarnessPanic)
  | hangs
  deriving DecidableEq

structure TestNode where
  keypair : SecretKey
  address : Address
  stateDb : StateDB
  mempool : Mempool

structure TestCluster where
  nodes : List TestNode
  genesis : GenesisConfig

/-- What the outside answers during a round: to each of the four calls of the
engine, and to the commits of the syncer. -/
structure RoundEnv where
  created : Env
  proposed : Env
  prevoted : Env
  precommitted : Env
  synced : Block → Env

namespace TestCluster

def valEngine (c : Crates) (cluster : TestCluster) (proposerNode : TestNode) : ConsensusEngine :=
  ConsensusEngine.new c proposerNode.keypair proposerNode.stateDb proposerNode.mempool
    cluster.genesis.chainId

def stepBlockRound (c : Crates) (env : RoundEnv) (cluster : TestCluster) : RoundOutcome :=
  match cluster.nodes with
  | [] => .panics .noNode
  | proposerNode :: others =>
    match (cluster.valEngine c proposerNode).createProposal c env.created with
    | .error p => .panics (.engine p)
    | .ok ⟨_, .error e, _⟩ => .panics (.proposalCreated e)
    | .ok ⟨valEngine, .ok proposal, _⟩ =>
      if (valEngine.handleProposalLocks c env.proposed proposal).run [] = .blocked then .hangs
      else match valEngine.handleProposal c env.proposed proposal with
      | .error p => .panics (.engine p)
      | .ok ⟨_, .error e, _⟩ => .panics (.prevoteCast e)
      | .ok ⟨valEngine, .ok prevote, _⟩ =>
        if (valEngine.handlePrevoteLocks c env.prevoted prevote).run [] = .blocked then .hangs
        else match valEngine.handlePrevote c env.prevoted prevote with
        | .error p => .panics (.engine p)
        | .ok ⟨_, none, _⟩ => .panics .precommitCast
        | .ok ⟨valEngine, some precommit, _⟩ =>
          if (valEngine.handlePrecommitLocks c env.precommitted precommit).run [] = .blocked then .hangs
          else match valEngine.handlePrecommit c env.precommitted precommit with
          | .error p => .panics (.engine p)
          | .ok ⟨_, none, _⟩ => .panics .blockCommitted
          | .ok ⟨_, some qc, _⟩ =>
            match others with
            | [] => .panics .noNode
            | peer :: _ =>
              match ChainSyncer.applyBlockBatch c env.synced peer.stateDb [proposal] with
              | .error p => .panics (.engine p)
              | .ok _ => .committed qc.blockHash

/-- The first node proposes a block that its own two votes commit. -/
def DecidesAlone (c : Crates) (env : RoundEnv) (cluster : TestCluster) : Prop :=
  ∃ proposerNode engine proposal log, cluster.nodes.head? = some proposerNode ∧
    (cluster.valEngine c proposerNode).createProposal c env.created =
      .ok ⟨engine, .ok proposal, log⟩ ∧
    Call.entersCommit c engine (.handleProposal env.proposed proposal)

variable {c : Crates} {env : RoundEnv} {cluster : TestCluster} {proposerNode : TestNode}
  {others : List TestNode} {engine : ConsensusEngine} {proposal : Block} {log : List Event}

theorem decidesAlone_iff (hnodes : cluster.nodes = proposerNode :: others)
    (hcreated : (cluster.valEngine c proposerNode).createProposal c env.created =
      .ok ⟨engine, .ok proposal, log⟩) :
    cluster.DecidesAlone c env ↔ Call.entersCommit c engine (.handleProposal env.proposed proposal) := by
  constructor
  · rintro ⟨node, e, b, l, hnode, hc, henters⟩
    rw [hnodes, List.head?_cons, Option.some.injEq] at hnode
    rw [← hnode, hcreated] at hc
    cases hc
    exact henters
  · exact fun henters => ⟨proposerNode, engine, proposal, log, by rw [hnodes, List.head?_cons],
      hcreated, henters⟩

theorem not_decidesAlone (hnodes : cluster.nodes = proposerNode :: others)
    (hcreated : ∀ engine proposal log, (cluster.valEngine c proposerNode).createProposal c env.created ≠
      .ok ⟨engine, .ok proposal, log⟩) : ¬ cluster.DecidesAlone c env := by
  rintro ⟨node, e, b, l, hnode, hc, -⟩
  rw [hnodes, List.head?_cons, Option.some.injEq] at hnode
  rw [← hnode] at hc
  exact hcreated e b l hc

/-- The vote that `handle_proposal` returns is counted in it already: giving it to
`handle_prevote` neither blocks nor makes a precommit. -/
theorem handlePrevote_returned {r : Reply (Except ConsensusError Vote)} {prevote : Vote}
    (hr : engine.handleProposal c env.proposed proposal = .ok r) (hv : r.value = .ok prevote) :
    (r.engine.handlePrevoteLocks c env.prevoted prevote).run [] ≠ .blocked ∧
      r.engine.handlePrevote c env.prevoted prevote =
        .ok ⟨r.engine.recordPrevote prevote, none, []⟩ := by
  have hrepeated := ConsensusEngine.handlePrevote_repeated hr hv
  refine ⟨?_, ConsensusEngine.handlePrevote_quiet hrepeated env.prevoted⟩
  rw [Ne, handlePrevoteLocks_blocked_iff, Call.prevoteEntersCommit, hrepeated]
  simp

theorem stepBlockRound_cases (c : Crates) (env : RoundEnv) (cluster : TestCluster) :
    (cluster.DecidesAlone c env → stepBlockRound c env cluster = .hangs) ∧
      (¬ cluster.DecidesAlone c env →
        ∃ p, stepBlockRound c env cluster = .panics p ∧ p ≠ .blockCommitted) := by
  rw [stepBlockRound]
  cases hnodes : cluster.nodes with
  | nil =>
    refine ⟨fun h => ?_, fun _ => ⟨.noNode, rfl, by simp⟩⟩
    obtain ⟨node, -, -, -, hnode, -⟩ := h
    simp [hnodes] at hnode
  | cons proposerNode others =>
    cases hc : (cluster.valEngine c proposerNode).createProposal c env.created with
    | error p =>
      have hnot : ¬ cluster.DecidesAlone c env := not_decidesAlone hnodes (by simp [hc])
      simp only [hc]
      exact ⟨fun h => absurd h hnot, fun _ => ⟨.engine p, rfl, by simp⟩⟩
    | ok created =>
      obtain ⟨engine, value, log⟩ := created
      cases value with
      | error e =>
        have hnot : ¬ cluster.DecidesAlone c env := not_decidesAlone hnodes (by simp [hc])
        simp only [hc]
        exact ⟨fun h => absurd h hnot, fun _ => ⟨.proposalCreated e, rfl, by simp⟩⟩
      | ok proposal =>
        simp only [hc]
        rw [decidesAlone_iff hnodes hc, ← handleProposalLocks_blocked_iff]
        refine ⟨fun hblocked => if_pos hblocked, fun hfree => ?_⟩
        rw [if_neg hfree]
        cases hp : engine.handleProposal c env.proposed proposal with
        | error p => exact ⟨.engine p, rfl, by simp⟩
        | ok proposed =>
          obtain ⟨engine', value', log'⟩ := proposed
          cases value' with
          | error e => exact ⟨.prevoteCast e, rfl, by simp⟩
          | ok prevote =>
            obtain ⟨hreturns, hquiet⟩ := handlePrevote_returned hp rfl
            dsimp only at hreturns hquiet ⊢
            rw [if_neg hreturns, hquiet]
            exact ⟨.precommitCast, rfl, by simp⟩

/-- A round of the harness never returns. It hangs where the first node decides
alone, and elsewhere panics before its certificate. -/
theorem stepBlockRound_never_returns (c : Crates) (env : RoundEnv) (cluster : TestCluster) :
    (stepBlockRound c env cluster = .hangs ↔ cluster.DecidesAlone c env) ∧
      (∀ blockHash, stepBlockRound c env cluster ≠ .committed blockHash) ∧
      stepBlockRound c env cluster ≠ .panics .blockCommitted := by
  obtain ⟨halone, hothers⟩ := stepBlockRound_cases c env cluster
  by_cases h : cluster.DecidesAlone c env
  · have hhangs := halone h
    simp [hhangs, h]
  · obtain ⟨p, hpanics, hp⟩ := hothers h
    simp [hpanics, h, hp]

end TestCluster

end AuraChain
