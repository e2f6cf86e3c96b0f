import AuraChain.EngineLocks

/-! Which votes a quorum counts. The handlers check nothing, so that a quorum is
authentic as long as the votes they are given are. -/

namespace AuraChain

def Vote.isCurrent (c : Crates) (height : UInt64) (round : UInt32) (voteType : VoteType)
    (vote : Vote) : Prop :=
  vote.verify c = .ok () ∧ vote.voteType = voteType ∧ vote.height = height ∧ vote.round = round

instance (c : Crates) (height : UInt64) (round : UInt32) (voteType : VoteType) (vote : Vote) :
    Decidable (vote.isCurrent c height round voteType) :=
  inferInstanceAs (Decidable (_ ∧ _ ∧ _ ∧ _))

def Event.isAuthentic (c : Crates) : Event → Prop
  | .prevoteQuorum height round counted => ∀ v ∈ counted, v.isCurrent c height round .preVote
  | .precommitQuorum qc counted => ∀ v ∈ counted, v.isCurrent c qc.height qc.round .preCommit
  | _ => True

namespace ConsensusEngine

def isActive (c : Crates) (engine : ConsensusEngine) (vote : Vote) : Bool :=
  (findValidator (engine.getActiveValidators c) vote).isSome

def votesChecked (c : Crates) (engine : ConsensusEngine) : Call → Prop
  | .handlePrevote _ vote => hasVoted engine.prevotes vote = false → engine.isActive c vote = true →
      vote.isCurrent c engine.currentHeight engine.currentRound .preVote
  | .handlePrecommit _ vote => hasVoted engine.precommits vote = false →
      engine.isActive c vote = true →
      vote.isCurrent c engine.currentHeight engine.currentRound .preCommit
  | _ => True

instance (c : Crates) (engine : ConsensusEngine) (call : Call) :
    Decidable (engine.votesChecked c call) :=
  match call with
  | .createProposal _ => isTrue trivial
  | .handleProposal .. => isTrue trivial
  | .handlePrevote .. => inferInstanceAs (Decidable (_ → _ → _))
  | .handlePrecommit .. => inferInstanceAs (Decidable (_ → _ → _))
  | .poolChanged _ => isTrue trivial

def tableChecked (c : Crates) (engine : ConsensusEngine) (voteType : VoteType) (table : VoteTable) :
    Prop :=
  ∀ (x : Hash) (v : Vote), v ∈ table.getD x [] → engine.isActive c v = true →
    v.isCurrent c engine.currentHeight engine.currentRound voteType

structure TablesChecked (c : Crates) (engine : ConsensusEngine) : Prop where
  prevotes : engine.tableChecked c .preVote engine.prevotes
  precommits : engine.tableChecked c .preCommit engine.precommits

variable {c : Crates} {env : Env} {engine : ConsensusEngine} {voteType : VoteType}
  {table : VoteTable} {vote : Vote}

theorem tableChecked.list (h : engine.tableChecked c voteType table)
    (hvote : hasVoted table vote = false → engine.isActive c vote = true →
      vote.isCurrent c engine.currentHeight engine.currentRound voteType) {v : Vote}
    (hv : v ∈ recordVote table vote) (ha : engine.isActive c v = true) :
    v.isCurrent c engine.currentHeight engine.currentRound voteType := by
  rcases mem_recordVote hv with hv | ⟨rfl, hnew⟩
  · exact h _ v hv ha
  · exact hvote hnew ha

theorem tableChecked.record (h : engine.tableChecked c voteType table)
    (hvote : hasVoted table vote = false → engine.isActive c vote = true →
      vote.isCurrent c engine.currentHeight engine.currentRound voteType) :
    engine.tableChecked c voteType (table.insert vote.blockHash (recordVote table vote)) := by
  intro x v hv ha
  rw [OrdMap.getD_insert_ite] at hv
  split_ifs at hv
  · exact h.list hvote hv ha
  · exact h x v hv ha

theorem TablesChecked.advance (c : Crates) (engine : ConsensusEngine) (qc : QuorumCertificate) :
    (engine.advance qc).TablesChecked c := by
  constructor <;> intro x v hv <;> simp [ConsensusEngine.advance] at hv

theorem own_isCurrent (hsign : c.SignVerifies) (engine : ConsensusEngine) (blockHash : Hash) :
    (engine.ownPrecommit c blockHash).isCurrent c engine.currentHeight engine.currentRound .preCommit ∧
      (engine.ownPrevote c blockHash).isCurrent c engine.currentHeight engine.currentRound .preVote :=
  ⟨⟨Vote.newSigned_verify hsign .., rfl, rfl, rfl⟩, ⟨Vote.newSigned_verify hsign .., rfl, rfl, rfl⟩⟩

theorem TablesChecked.handlePrecommit (h : engine.TablesChecked c)
    (hvote : hasVoted engine.precommits vote = false → engine.isActive c vote = true →
      vote.isCurrent c engine.currentHeight engine.currentRound .preCommit)
    {r : Reply (Option QuorumCertificate)} (hr : engine.handlePrecommit c env vote = .ok r) :
    r.engine.TablesChecked c ∧ ∀ e ∈ r.log, e.isAuthentic c := by
  rcases handlePrecommit_cases hr with ⟨-, rfl⟩ | ⟨-, committed, -, rfl⟩
  · refine ⟨⟨h.prevotes, h.precommits.record hvote⟩, ?_⟩
    simp [Event.isAuthentic]
  · refine ⟨TablesChecked.advance c committed _, ?_⟩
    simp only [List.mem_cons, List.not_mem_nil, or_false, forall_eq_or_imp, forall_eq,
      Event.isAuthentic, true_and]
    intro v hv
    obtain ⟨hv, ha⟩ := List.mem_filter.mp hv
    exact h.precommits.list hvote hv ha

theorem TablesChecked.handlePrevote (hsign : c.SignVerifies) (h : engine.TablesChecked c)
    (hvote : hasVoted engine.prevotes vote = false → engine.isActive c vote = true →
      vote.isCurrent c engine.currentHeight engine.currentRound .preVote)
    {r : Reply (Option Vote)} (hr : engine.handlePrevote c env vote = .ok r) :
    r.engine.TablesChecked c ∧ ∀ e ∈ r.log, e.isAuthentic c := by
  rcases handlePrevote_cases hr with ⟨-, rfl⟩ | ⟨-, inner, hi, rfl⟩
  · exact ⟨⟨h.prevotes.record hvote, h.precommits⟩, by simp⟩
  · have hmid : TablesChecked c { engine.recordPrevote vote with step := .preCommit } :=
      ⟨h.prevotes.record hvote, h.precommits⟩
    obtain ⟨hlast, hlog⟩ := hmid.handlePrecommit (fun _ _ => (own_isCurrent hsign engine _).1) hi
    refine ⟨hlast, ?_⟩
    simp only [List.mem_cons, forall_eq_or_imp, Event.isAuthentic, true_and]
    refine ⟨fun v hv => ?_, hlog⟩
    obtain ⟨hv, ha⟩ := List.mem_filter.mp hv
    exact h.prevotes.list hvote hv ha

theorem TablesChecked.call (hsign : c.SignVerifies) (h : engine.TablesChecked c) {call : Call}
    (hcall : engine.votesChecked c call) {engine' : ConsensusEngine} {out : List Event}
    (hn : engine.next c call = some (engine', out)) :
    engine'.TablesChecked c ∧ ∀ e ∈ out, e.isAuthentic c := by
  cases next_returns hn with
  | createProposal hr =>
    rcases createProposal_cases hr with ⟨e, rfl⟩ | ⟨-, block, -, -, rfl⟩
    · exact ⟨h, by simp⟩
    · exact ⟨⟨h.prevotes, h.precommits⟩, by simp⟩
  | @handleProposal env block r hr =>
    rcases handleProposal_cases hr with ⟨-, rfl⟩ | ⟨-, inner, hi, rfl⟩
    · exact ⟨h, by simp⟩
    · have hmid : TablesChecked c { engine with proposedBlock := some block, step := .preVote } :=
        ⟨h.prevotes, h.precommits⟩
      obtain ⟨hlast, hlog⟩ :=
        hmid.handlePrevote hsign (fun _ _ => (own_isCurrent hsign engine _).2) hi
      refine ⟨hlast, ?_⟩
      simp only [List.mem_cons, forall_eq_or_imp, Event.isAuthentic, true_and]
      exact hlog
  | handlePrevote hr => exact h.handlePrevote hsign hcall hr
  | handlePrecommit hr => exact h.handlePrecommit hcall hr
  | poolChanged mempool => exact ⟨⟨h.prevotes, h.precommits⟩, by simp⟩

end ConsensusEngine

open ConsensusEngine in
/-- Given only checked votes, an engine counts only checked votes. -/
theorem quorums_authentic {c : Crates} (hsign : c.SignVerifies) {keypair : SecretKey}
    {stateDb : StateDB} {mempool : Mempool} {chainId : Bytes} {engine : ConsensusEngine}
    {log : List Event}
    (hrun : EngineRun c (votesChecked c) (ConsensusEngine.new c keypair stateDb mempool chainId, [])
      (engine, log)) : ∀ e ∈ log, e.isAuthentic c := by
  have hinit : TablesChecked c (ConsensusEngine.new c keypair stateDb mempool chainId) := by
    constructor <;> intro x v hv <;> simp [ConsensusEngine.new] at hv
  refine (TracedRun.events hrun hinit ?_).2
  intro s call t out hs hcall hn
  exact hs.call hsign hcall hn

namespace VoteAuthenticity

def proposal : Block := Reference.block 1 Hash.zero 0 []

def crates : Crates := Reference.crates [Reference.genesisBlock [1, 4, 5], proposal]

/-- One of three validators of equal power: its own votes make no quorum. -/
def engine (key : UInt8) : ConsensusEngine :=
  Reference.engine [1, 4, 5] key [Reference.genesisBlock [1, 4, 5], proposal]

def prevote (key : UInt8) : Vote := (engine key).ownPrevote crates (proposal.hash crates)

/-- Nobody signed this vote, it is of the other phase, and of a later height. -/
def forged (vote : Vote) : Vote :=
  { vote with voteType := .preCommit, height := 7, signature := FixedBytes.zero 64 }

def calls (first second : Vote) : List Call :=
  [.handleProposal Reference.env proposal, .handlePrevote Reference.env first,
    .handlePrevote Reference.env second]

/-- The engine votes for the proposal, and takes the two votes for a quorum. -/
def log (first second : Vote) : List Event :=
  let precommit := (engine 1).ownPrecommit crates (proposal.hash crates)
  [.signed (prevote 1), .prevoteQuorum 1 0 [prevote 1, first, second], .signed precommit,
    .precommitGiven precommit]

theorem quorums_authentic_honest : (prevote 1).isCurrent crates 1 0 .preVote ∧
    (prevote 4).isCurrent crates 1 0 .preVote ∧ (prevote 5).isCurrent crates 1 0 .preVote := by
  have hlog : (runAll (ConsensusEngine.next crates) (ConsensusEngine.votesChecked crates) (engine 1)
      (calls (prevote 4) (prevote 5))).map Prod.snd = some (log (prevote 4) (prevote 5)) := by
    decide +kernel
  obtain ⟨t, hrun⟩ := TracedRun.of_log hlog
  have hcurrent : ∀ vote ∈ [prevote 1, prevote 4, prevote 5], vote.isCurrent crates 1 0 .preVote :=
    quorums_authentic (Reference.signVerifies _) hrun _ (List.mem_cons_of_mem _ List.mem_cons_self)
  exact ⟨hcurrent _ (by simp), hcurrent _ (by simp), hcurrent _ (by simp)⟩

/-- Two votes that nobody signed make the engine precommit, and every call returns. -/
theorem forged_vote_counted : ¬ ∀ t log,
    EngineRun crates (fun engine call => call.returns crates engine) (engine 1, []) (t, log) →
    ∀ e ∈ log, e.isAuthentic crates := by
  intro hall
  have hlog : (runAll (ConsensusEngine.next crates) (fun engine call => call.returns crates engine)
      (engine 1) (calls (forged (prevote 4)) (forged (prevote 5)))).map Prod.snd =
      some (log (forged (prevote 4)) (forged (prevote 5))) := by
    decide +kernel
  obtain ⟨t, hrun⟩ := TracedRun.of_log hlog
  have hauth := hall t _ hrun _ (List.mem_cons_of_mem _ List.mem_cons_self) (forged (prevote 4))
    (List.mem_cons_of_mem _ List.mem_cons_self)
  have htype : (forged (prevote 4)).voteType = .preVote := hauth.2.1
  cases htype

end VoteAuthenticity

end AuraChain
