import AuraChain.CertificateSoundness
import AuraChain.FailedCommit
import AuraChain.MempoolRun
import AuraChain.ProposalChecks

/-! An honest proposal against the checks of those who receive it. The pool lets
in nothing that fails them, and the Merkle root is taken of what was harvested. -/

namespace AuraChain

namespace ConsensusEngine

variable {c : Crates} {config : MempoolConfig} {env : Env} {proposer engine : ConsensusEngine}
  {r : Reply (Except ConsensusError Block)} {block : Block}

theorem pooled_verified {pool : Mempool} (hreach : Mempool.Reachable c config pool) {h : Hash}
    {tx : Transaction} (hl : pool.byHash[h]? = some tx) : tx.verify c = .ok () := by
  have hpooled : tx ∈ pool.pooled := (OrdMap.mem_contents _ _).mpr ⟨h, hl⟩
  have hstateless := hreach.pooled_forall (P := fun tx => validateStateless c tx = .ok ())
    (fun _ _ _ hchecks => hchecks.stateless) tx hpooled
  exact (validateStateless_ok hstateless).2.2.2

theorem harvest_verified (hreach : Mempool.Reachable c config proposer.mempool) {maxBytes : Nat} :
    ∀ tx ∈ proposer.mempool.harvest maxBytes, tx.verify c = .ok () := by
  intro tx htx
  obtain ⟨key, -, hl⟩ := Mempool.harvestKeys_mem htx
  exact pooled_verified hreach hl

theorem createProposal_validateBasic (hreach : Mempool.Reachable c config proposer.mempool)
    (h : proposer.createProposal c env = .ok r) (hb : r.value = .ok block) :
    block.header.height = proposer.currentHeight ∧ block.header.round = proposer.currentRound ∧
      block.validateBasic c = .ok () := by
  obtain ⟨prevBlock, rfl⟩ := createProposal_block h hb
  exact ⟨rfl, rfl, Block.validateBasic_ok_iff.mpr ⟨rfl, harvest_verified hreach⟩⟩

theorem handleProposal_votes_iff (ha : engine.accepts c block = true) :
    (∃ r vote, engine.handleProposal c env block = .ok r ∧ r.value = .ok vote ∧
      vote.blockHash = block.hash c) ↔ ¬ engine.proposalPanics c env block := by
  rw [proposalPanics, ← handlePrevote_ok_iff]
  constructor
  · rintro ⟨r, vote, hr, -, -⟩
    rcases handleProposal_cases hr with ⟨hrefused, -⟩ | ⟨-, inner, hi, -⟩
    · rw [ha] at hrefused
      cases hrefused
    · exact ⟨inner, hi⟩
  · rintro ⟨inner, hi⟩
    refine ⟨⟨inner.engine, .ok (engine.ownPrevote c (block.hash c)),
      .signed (engine.ownPrevote c (block.hash c)) :: inner.log⟩, _, ?_, rfl, rfl⟩
    simp only [handleProposal, ha, if_true, hi]

/-- What an honest proposer proposes passes the checks of every engine at its
height and in its round, and is voted for unless the store then fails. -/
theorem honest_proposal_accepted (hreach : Mempool.Reachable c config proposer.mempool)
    (h : proposer.createProposal c env = .ok r) (hb : r.value = .ok block)
    (hheight : engine.currentHeight = proposer.currentHeight)
    (hround : engine.currentRound = proposer.currentRound) :
    engine.accepts c block = true ∧ ∀ env',
      (∃ r' vote, engine.handleProposal c env' block = .ok r' ∧ r'.value = .ok vote ∧
        vote.blockHash = block.hash c) ↔ ¬ engine.proposalPanics c env' block := by
  obtain ⟨hblockHeight, hblockRound, hbasic⟩ := createProposal_validateBasic hreach h hb
  have ha : engine.accepts c block = true := by
    rw [accepts, decide_eq_true_eq, hheight, hround]
    exact ⟨hblockHeight, hblockRound, hbasic⟩
  exact ⟨ha, fun env' => handleProposal_votes_iff ha⟩

theorem recordVote_first (vote : Vote) : recordVote ∅ vote = [vote] := by
  simp [recordVote, hasVoted]

theorem sees_of_proposalPanics {keypair : SecretKey} {stateDb : StateDB} {mempool : Mempool}
    {chainId : Bytes} (h : (new c keypair stateDb mempool chainId).proposalPanics c env block) :
    (new c keypair stateDb mempool chainId).sees c
      [(new c keypair stateDb mempool chainId).ownPrevote c (block.hash c)] = true := by
  obtain ⟨hprevote, -⟩ := h
  have hsees := sees_of_completesPrevote hprevote
  rw [← recordVote_first]
  exact hsees

/-- A sole validator makes both quorums with its own votes. -/
theorem proposalPanics_alone {keypair : SecretKey} {stateDb : StateDB} {mempool : Mempool}
    {chainId : Bytes} {v : ValidatorInfo} (hpower : 0 < v.votingPower)
    (hactive : (new c keypair stateDb mempool chainId).getActiveValidators c = [v])
    (hown : v.address = Address.fromPubkey c (c.verifyingKey keypair))
    (hfails : stateDb.commitFails c env block = true) :
    (new c keypair stateDb mempool chainId).proposalPanics c env block := by
  have hsees : ∀ (e : ConsensusEngine) (vote : Vote), e.stateDb = stateDb →
      vote.validator = v.address → e.sees c [vote] = true := by
    intro e vote hdb hvote
    have hv : e.getActiveValidators c = [v] := by
      rw [← hactive, getActiveValidators, getActiveValidators, hdb]
      rfl
    rw [UInt64.lt_iff_toNat_lt, UInt64.toNat_zero] at hpower
    simp [sees, hv, totalPower, votePower, findValidator, hvote, UInt64.sum, isQuorum,
      UInt64.lt_iff_toNat_lt]
    omega
  refine ⟨?_, ?_, block, rfl, rfl, hfails⟩
  · refine (Bool.and_eq_true _ _).mpr ⟨?_, rfl⟩
    have hprevote := hsees { new c keypair stateDb mempool chainId with
      proposedBlock := some block, step := .preVote }
      ((new c keypair stateDb mempool chainId).ownPrevote c (block.hash c)) rfl hown.symm
    rw [← recordVote_first] at hprevote
    exact hprevote
  · refine (Bool.and_eq_true _ _).mpr ⟨?_, rfl⟩
    have hprecommit := hsees { new c keypair stateDb mempool chainId with
      proposedBlock := some block, step := .preCommit }
      ((new c keypair stateDb mempool chainId).ownPrecommit c (block.hash c)) rfl hown.symm
    rw [← recordVote_first] at hprecommit
    exact hprecommit

end ConsensusEngine

namespace HonestProposal

/-- Two validators of equal power, of whom the second is elected first. -/
def votersCrates : Crates := Reference.crates [Reference.genesisBlock [1, 4]]

def voter (key : UInt8) (mempool : Mempool) : ConsensusEngine :=
  .new votersCrates (Reference.secretKey key)
    (Reference.stateDb [1, 4] [Reference.genesisBlock [1, 4]]) mempool (ascii "aura-testnet")

def proposedLength (mempool : Mempool) : Option (Option Nat) :=
  (((voter 4 mempool).createProposal votersCrates Reference.env).map fun r =>
    r.value.toOption.map fun block => block.transactions.length).toOption

theorem voter_height (key key' : UInt8) (mempool mempool' : Mempool) :
    (voter key mempool).currentHeight = (voter key' mempool').currentHeight := by
  simp only [voter, ConsensusEngine.new]

theorem voter_no_quorum (mempool : Mempool) (block : Block) :
    ¬ (voter 1 mempool).proposalPanics votersCrates Reference.env block := by
  intro hpanics
  have hsees := ConsensusEngine.sees_of_proposalPanics hpanics
  rw [← voter] at hsees
  have hactive : (voter 1 mempool).getActiveValidators votersCrates =
      [⟨Reference.address 1, Reference.secretKey 1, 1000000⟩,
        ⟨Reference.address 4, Reference.secretKey 4, 1000000⟩] := by
    have hdb : (voter 1 mempool).stateDb = (voter 1 (Mempool.new MempoolConfig.default)).stateDb := rfl
    rw [ConsensusEngine.getActiveValidators, hdb]
    decide +kernel
  have hown : ((voter 1 mempool).ownPrevote votersCrates (block.hash votersCrates)).validator =
      Reference.address 1 := rfl
  simp [ConsensusEngine.sees, hactive, totalPower, votePower, findValidator, hown, UInt64.sum,
    isQuorum] at hsees

theorem honest_proposal_transfer : ∃ (block : Block) (r : Reply (Except ConsensusError Vote))
    (vote : Vote), block.transactions.length = 1 ∧
      (voter 1 (Mempool.new MempoolConfig.default)).handleProposal votersCrates Reference.env block =
        .ok r ∧ r.value = .ok vote ∧ vote.blockHash = block.hash votersCrates := by
  have hcalls : (runAll (Mempool.step votersCrates) (fun _ _ => True)
      (Mempool.new MempoolConfig.default)
      [.addTransaction (Reference.transfer 1) (voter 4 (Mempool.new MempoolConfig.default)).stateDb]).map
      (fun t => proposedLength t.1) = some (some (some 1)) := by decide +kernel
  obtain ⟨pool, hreach, hpool⟩ := Mempool.Reachable.of_calls hcalls
  obtain ⟨r, hr, hvalue⟩ := ConsensusEngine.of_toOption_map hpool
  cases hb : r.value with
  | error e => simp [hb, Except.toOption] at hvalue
  | ok block =>
    simp only [hb, Except.toOption, Option.map_some, Option.some.injEq] at hvalue
    have hpooled : Mempool.Reachable votersCrates MempoolConfig.default (voter 4 pool).mempool :=
      hreach
    have haccepted : (voter 1 (Mempool.new MempoolConfig.default)).accepts votersCrates block =
        true ∧ _ := ConsensusEngine.honest_proposal_accepted hpooled hr hb (voter_height ..) rfl
    obtain ⟨-, hvotes⟩ := haccepted
    obtain ⟨r', vote, hr', hvote, hhash⟩ := (hvotes Reference.env).mpr (voter_no_quorum _ block)
    exact ⟨block, r', vote, hvalue, hr', hvote, hhash⟩

def genesisBlock : Block := Reference.genesisBlock [1]

def store (blocks : List Block) : StateDB :=
  ((StateDB.new (Reference.crates blocks) FailedCommit.diskStore).applyGenesis
    (Reference.crates blocks) none (Reference.genesis [1])).1

def diskEngine (blocks : List Block) : ConsensusEngine :=
  .new (Reference.crates blocks) (Reference.secretKey 1) (store blocks)
    (Mempool.new MempoolConfig.default) (ascii "aura-testnet")

def proposed : Option Block :=
  (((diskEngine [genesisBlock]).createProposal (Reference.crates [genesisBlock])
    Reference.env).map fun r => r.value.toOption).toOption.join

/-- The blocks that serialize: genesis, and what the engine proposes on it. -/
def blocks : List Block := genesisBlock :: proposed.toList

def crates : Crates := Reference.crates blocks

/-- The sole validator receives its own proposal, and the disk is full. -/
theorem honest_proposal_disk_error : ¬ ∀ (c : Crates) (config : MempoolConfig) (env env' : Env)
    (proposer engine : ConsensusEngine) (r : Reply (Except ConsensusError Block)) (block : Block),
    Mempool.Reachable c config proposer.mempool → proposer.createProposal c env = .ok r →
      r.value = .ok block → engine.currentHeight = proposer.currentHeight →
      engine.currentRound = proposer.currentRound → PowerFits (engine.getActiveValidators c) →
      ∃ r' vote, engine.handleProposal c env' block = .ok r' ∧ r'.value = .ok vote ∧
        vote.blockHash = block.hash c := by
  intro hclaim
  have hproposed : (((diskEngine blocks).createProposal crates Reference.env).map fun r =>
      r.value.toOption.isSome).toOption = some true := by decide +kernel
  obtain ⟨r, hr, hvalue⟩ := ConsensusEngine.of_toOption_map hproposed
  cases hb : r.value with
  | error e => simp [hb, Except.toOption] at hvalue
  | ok block =>
    have hactive : (diskEngine blocks).getActiveValidators crates =
        [⟨Reference.address 1, Reference.secretKey 1, 1000000⟩] := by decide +kernel
    have hfits : PowerFits ((diskEngine blocks).getActiveValidators crates) := by
      rw [PowerFits, hactive]
      decide
    have hdisk : (store blocks).commitFails crates FailedCommit.env block = true := by
      refine (Bool.or_eq_true _ _).mpr (.inr ?_)
      decide +kernel
    have hpanics : (diskEngine blocks).proposalPanics crates FailedCommit.env block :=
      ConsensusEngine.proposalPanics_alone (by decide) hactive (by decide +kernel) hdisk
    have hreach : Mempool.Reachable crates MempoolConfig.default (diskEngine blocks).mempool :=
      ⟨[], .refl⟩
    have hvotes := hclaim crates _ Reference.env FailedCommit.env (diskEngine blocks)
      (diskEngine blocks) r block hreach hr hb rfl rfl hfits
    obtain ⟨hheight, hround, hbasic⟩ := ConsensusEngine.createProposal_validateBasic hreach hr hb
    have haccepts : (diskEngine blocks).accepts crates block = true :=
      decide_eq_true ⟨hheight, hround, hbasic⟩
    exact (ConsensusEngine.handleProposal_votes_iff haccepts).mp hvotes hpanics

end HonestProposal

end AuraChain
