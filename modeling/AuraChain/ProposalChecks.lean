import AuraChain.EngineLocks

/-! Which proposals an engine prevotes. It compares height and round and checks
the body, so that whatever else makes a proposal legitimate is up to its sender.
An engine whose own votes make both quorums does not get to return its vote. -/

namespace AuraChain

namespace ConsensusEngine

structure Legitimate (c : Crates) (engine : ConsensusEngine) (block : Block) : Prop where
  signed : ∃ v, selectProposer c engine.currentHeight engine.currentRound
      (engine.getActiveValidators c) = some v ∧ block.header.verifySignature c v.pubkey = .ok ()
  chain : block.header.chainId = engine.chainId
  linked : ∃ prev, engine.stateDb.getBlockByHeight c (block.header.height - 1) = some prev ∧
    block.header.prevHash = prev.hash c

/-- The vote that `handle_proposal` returns, if it does return. -/
def PrevotesLegitimate (c : Crates) (env : Env) (engine : ConsensusEngine) (block : Block) : Prop :=
  ∀ r vote, engine.handleProposal c env block = .ok r → r.value = .ok vote →
    (Call.handleProposal env block).returns c engine → engine.Legitimate c block

/-- The engine makes the quorum alone, and its store refuses the block. -/
def proposalPanics (c : Crates) (env : Env) (engine : ConsensusEngine) (block : Block) : Prop :=
  prevotePanics c env { engine with proposedBlock := some block, step := .preVote }
    (engine.ownPrevote c (block.hash c))

/-- The engine's own votes for the block complete both quorums. -/
def decidesAlone (c : Crates) (engine : ConsensusEngine) (block : Block) : Prop :=
  let voting := { engine with proposedBlock := some block, step := .preVote }
  let prevote := engine.ownPrevote c (block.hash c)
  voting.completesPrevote c prevote = true ∧
    completesPrecommit c { voting.recordPrevote prevote with step := .preCommit }
      (voting.ownPrecommit c (block.hash c)) = true

variable {c : Crates} {env : Env} {engine : ConsensusEngine} {block : Block}

/-- It blocks where the store takes the block, and panics where the store fails. -/
theorem decidesAlone_iff (ha : engine.accepts c block = true) : engine.decidesAlone c block ↔
    ¬ ((∃ r, engine.handleProposal c env block = .ok r) ∧
      (Call.handleProposal env block).returns c engine) := by
  have hblocks : (Call.handleProposal env block).returns c engine ↔
      ¬ (Call.handleProposal env block).entersCommit c engine := call_blocked_iff c engine _
  have hpanics : (∃ r, engine.handleProposal c env block = .ok r) ↔
      ¬ engine.proposalPanics c env block := by
    rw [proposalPanics, ← handlePrevote_ok_iff]
    simp only [handleProposal, ha, if_true]
    cases handlePrevote c env { engine with proposedBlock := some block, step := .preVote }
      (engine.ownPrevote c (block.hash c)) <;> simp
  rw [hblocks, hpanics, ← not_or, not_not]
  simp only [decidesAlone, proposalPanics, prevotePanics, precommitPanics, Call.entersCommit, ha,
    Call.prevoteEntersCommit, ConsensusEngine.entersCommit, true_and]
  constructor
  · rintro ⟨hprevote, hprecommit⟩
    by_cases hstore : refusesProposal c env { recordPrevote
        { engine with proposedBlock := some block, step := .preVote }
        (engine.ownPrevote c (block.hash c)) with step := .preCommit } (block.hash c)
    · exact .inl ⟨hprevote, hprecommit, hstore⟩
    · exact .inr ⟨hprevote, hprecommit, hstore⟩
  · rintro (⟨hprevote, hprecommit, -⟩ | ⟨hprevote, hprecommit, -⟩) <;> exact ⟨hprevote, hprecommit⟩

/-- Only a legitimate proposal is prevoted exactly if the proposal is one, or is
refused for its height, its round or its body, or is decided by the engine alone. -/
theorem handleProposal_legitimate_iff (c : Crates) (env : Env) (engine : ConsensusEngine)
    (block : Block) : engine.PrevotesLegitimate c env block ↔
      (engine.accepts c block = true → ¬ engine.decidesAlone c block →
        engine.Legitimate c block) := by
  constructor
  · intro hproperty ha hothers
    obtain ⟨⟨r, hr⟩, hreturns⟩ := not_not.mp (mt (decidesAlone_iff ha).mpr hothers)
    rcases handleProposal_cases hr with ⟨hrefused, -⟩ | ⟨-, inner, -, hvalue⟩
    · rw [ha] at hrefused
      cases hrefused
    · exact hproperty r _ hr (congrArg Reply.value hvalue) hreturns
  · intro hlegit r vote hr hv hreturns
    rcases handleProposal_cases hr with ⟨-, rfl⟩ | ⟨ha, inner, hi, -⟩
    · cases hv
    · exact hlegit ha fun halone => (decidesAlone_iff ha).mp halone ⟨⟨r, hr⟩, hreturns⟩

end ConsensusEngine

namespace ProposalChecks

def genesisHash : Hash := (Reference.genesisBlock [1, 4]).hash (Reference.crates [])

/-- The second of two validators is elected for the first round. -/
def signedBlock : Block :=
  let block := Reference.block 1 genesisHash 0 []
  let header := { block.header with proposer := Reference.address 4 }
  { block with header := { header with
      signature := Reference.sign (Reference.secretKey 4) header.signingBytes } }

def foreignBlock : Block :=
  let block := Reference.block 1 Hash.zero 0 []
  { block with header := { block.header with
      chainId := ascii "another-net", proposer := Address.zero } }

def blocks : List Block := [Reference.genesisBlock [1, 4], signedBlock, foreignBlock]

def crates : Crates := Reference.crates blocks

def engine : ConsensusEngine := Reference.engine [1, 4] 1 blocks

theorem handleProposal_legitimate_signed :
    engine.PrevotesLegitimate crates Reference.env signedBlock := by
  refine (engine.handleProposal_legitimate_iff crates Reference.env signedBlock).mpr fun _ _ => ?_
  refine ⟨⟨⟨Reference.address 4, Reference.secretKey 4, 1000000⟩, ?_, ?_⟩, rfl,
    Reference.genesisBlock [1, 4], ?_, ?_⟩
  · decide +kernel
  · decide +kernel
  · decide +kernel
  · decide +kernel

/-- Unsigned, of another chain and linked to nothing, but of the right height. -/
theorem foreign_proposal_prevoted : ¬ ∀ t log block,
    EngineRun crates (fun engine call => call.returns crates engine) (engine, []) (t, log) →
    t.PrevotesLegitimate crates Reference.env block := by
  intro hall
  have hvote : ((engine.handleProposal crates Reference.env foreignBlock).toOption.map
      fun r => r.value.toOption.isSome) = some true := by decide +kernel
  have hreturns : (Call.handleProposal Reference.env foreignBlock).returns crates engine := by
    decide +kernel
  have hlegit := hall engine [] foreignBlock .refl
  cases hr : engine.handleProposal crates Reference.env foreignBlock with
  | error p => simp [hr, Except.toOption] at hvote
  | ok r =>
    cases hv : r.value with
    | error e => simp [hr, hv, Except.toOption] at hvote
    | ok vote =>
      have hchain := (hlegit r vote hr hv hreturns).chain
      exact absurd hchain (by decide)

end ProposalChecks

end AuraChain
