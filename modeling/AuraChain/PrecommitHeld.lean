import AuraChain.CertificateSoundness
import AuraChain.PastLog

/-! Which precommits the engine signs. The handler of prevotes looks at the hash
of the vote that completes a quorum, and not at the proposal that it holds. -/

namespace AuraChain

inductive Observation
  | accepted (height : UInt64) (round : UInt32) (block : Block)
  | precommitted (vote : Vote) (held : Option Block)
  deriving DecidableEq

/-- A precommit is for the proposal that the engine holds, and it has accepted
that proposal at the height and in the round of the vote. -/
def Justified (c : Crates) (past : List Observation) : Observation → Prop
  | .accepted .. => True
  | .precommitted vote held => ∃ block, held = some block ∧ block.hash c = vote.blockHash ∧
      .accepted vote.height vote.round block ∈ past

namespace ConsensusEngine

def observePrevote (c : Crates) (engine : ConsensusEngine) (vote : Vote) : List Observation :=
  if engine.completesPrevote c vote then
    [.precommitted (engine.ownPrecommit c vote.blockHash) engine.proposedBlock]
  else []

def observe (c : Crates) (engine : ConsensusEngine) : Call → List Observation
  | .createProposal _ => []
  | .handleProposal _ block =>
    if engine.accepts c block then
      .accepted engine.currentHeight engine.currentRound block ::
        observePrevote c { engine with proposedBlock := some block, step := .preVote }
          (engine.ownPrevote c (block.hash c))
    else []
  | .handlePrevote _ vote => engine.observePrevote c vote
  | .handlePrecommit _ _ => []
  | .poolChanged _ => []

def observedStep (c : Crates) (engine : ConsensusEngine) :
    OpenCall → Option (ConsensusEngine × List Observation)
  | .call call => (engine.next c call).map fun r => (r.1, engine.observe c call)
  | .storeChanged stateDb => some ({ engine with stateDb := stateDb }, [])

/-- A prevote that completes a quorum is for the proposal that is held. -/
def QuorumOnProposal (c : Crates) (engine : ConsensusEngine) : OpenCall → Prop
  | .call (.handlePrevote _ vote) => engine.completesPrevote c vote = true →
      ∃ block, engine.proposedBlock = some block ∧ block.hash c = vote.blockHash
  | _ => True

structure Backed (c : Crates) (engine : ConsensusEngine) (log : List Observation) : Prop where
  held : engine.step = .preVote → ∃ block, engine.proposedBlock = some block ∧
    .accepted engine.currentHeight engine.currentRound block ∈ log
  justified : Along (Justified c) log

variable {c : Crates} {env : Env} {engine engine' : ConsensusEngine} {log : List Observation}
  {vote : Vote} {call : Call} {out : List Event}

theorem Backed.of_step (hstep : engine.step ≠ .preVote) (h : Along (Justified c) log) :
    Backed c engine log :=
  ⟨fun hprevote => absurd hprevote hstep, h⟩

theorem Backed.handlePrecommit (h : Backed c engine log) {r : Reply (Option QuorumCertificate)}
    (hr : engine.handlePrecommit c env vote = .ok r) : Backed c r.engine log := by
  rcases handlePrecommit_cases hr with ⟨-, rfl⟩ | ⟨-, committed, -, rfl⟩
  · exact ⟨h.held, h.justified⟩
  · exact .of_step (by simp [advance]) h.justified

theorem Backed.handlePrevote (h : Backed c engine log)
    (hquorum : engine.completesPrevote c vote = true →
      ∃ block, engine.proposedBlock = some block ∧ block.hash c = vote.blockHash)
    {r : Reply (Option Vote)} (hr : engine.handlePrevote c env vote = .ok r) :
    Backed c r.engine (log ++ engine.observePrevote c vote) := by
  rcases handlePrevote_cases hr with ⟨hq, rfl⟩ | ⟨hq, inner, hi, rfl⟩
  · rw [observePrevote, hq, if_neg Bool.false_ne_true, List.append_nil]
    exact ⟨h.held, h.justified⟩
  · rw [observePrevote, if_pos hq]
    obtain ⟨block, hblock, hhash⟩ := hquorum hq
    obtain ⟨accepted, haccepted, hmem⟩ := h.held (step_of_completesPrevote hq)
    have heq : accepted = block := Option.some.inj (haccepted.symm.trans hblock)
    subst heq
    have hjustified : Justified c log (.precommitted (engine.ownPrecommit c vote.blockHash)
        engine.proposedBlock) := ⟨accepted, hblock, hhash, hmem⟩
    have hlog := h.justified.snoc hjustified
    exact Backed.handlePrecommit (.of_step (by simp) hlog) hi

theorem Backed.handleProposal (h : Backed c engine log) {block : Block}
    {r : Reply (Except ConsensusError Vote)} (hr : engine.handleProposal c env block = .ok r) :
    Backed c r.engine (log ++ engine.observe c (.handleProposal env block)) := by
  rcases handleProposal_cases hr with ⟨hq, rfl⟩ | ⟨hq, inner, hi, rfl⟩
  · rw [observe, hq, if_neg Bool.false_ne_true, List.append_nil]
    exact h
  · rw [observe, if_pos hq, List.append_cons]
    have haccepted : Justified c log
        (.accepted engine.currentHeight engine.currentRound block) := trivial
    have hlog := h.justified.snoc haccepted
    have hmid : Backed c { engine with proposedBlock := some block, step := .preVote }
        (log ++ [.accepted engine.currentHeight engine.currentRound block]) :=
      ⟨fun _ => ⟨block, rfl, by simp⟩, hlog⟩
    exact hmid.handlePrevote (fun _ => ⟨block, rfl, rfl⟩) hi

theorem Backed.next (h : Backed c engine log) (hquorum : engine.QuorumOnProposal c (.call call))
    (hn : engine.next c call = some (engine', out)) :
    Backed c engine' (log ++ engine.observe c call) := by
  cases next_returns hn with
  | createProposal hr =>
    rw [observe, List.append_nil]
    rcases createProposal_cases hr with ⟨e, rfl⟩ | ⟨-, block, -, -, rfl⟩
    · exact h
    · exact .of_step (by simp) h.justified
  | handleProposal hr => exact h.handleProposal hr
  | handlePrevote hr => exact h.handlePrevote hquorum hr
  | handlePrecommit hr =>
    rw [observe, List.append_nil]
    exact h.handlePrecommit hr
  | poolChanged mempool =>
    rw [observe, List.append_nil]
    exact ⟨h.held, h.justified⟩

theorem Backed.step (h : Backed c engine log) {call : OpenCall} {seen : List Observation}
    (hquorum : engine.QuorumOnProposal c call)
    (hs : engine.observedStep c call = some (engine', seen)) : Backed c engine' (log ++ seen) := by
  cases call with
  | call call =>
    obtain ⟨⟨engine'', out⟩, hn, heq⟩ := Option.map_eq_some_iff.mp hs
    obtain ⟨rfl, rfl⟩ := Prod.mk.inj heq
    exact h.next hquorum hn
  | storeChanged stateDb =>
    cases hs
    rw [List.append_nil]
    exact ⟨h.held, h.justified⟩

/-- A precommit for another block than the held one has no justification. -/
theorem quorumOnProposal_of_along {call : OpenCall} {seen : List Observation}
    (hs : engine.observedStep c call = some (engine', seen))
    (h : Along (Justified c) (log ++ seen)) : engine.QuorumOnProposal c call := by
  cases call with
  | call call =>
    obtain ⟨⟨engine'', out⟩, -, heq⟩ := Option.map_eq_some_iff.mp hs
    obtain ⟨rfl, rfl⟩ := Prod.mk.inj heq
    cases call with
    | handlePrevote env vote =>
      intro hq
      rw [observe, observePrevote, if_pos hq] at h
      obtain ⟨block, hblock, hhash, -⟩ := h log _ [] rfl
      exact ⟨block, hblock, hhash⟩
    | createProposal env => trivial
    | handleProposal env block => trivial
    | handlePrecommit env vote => trivial
    | poolChanged mempool => trivial
  | storeChanged stateDb => trivial

theorem handlePrecommit_signs {r : Reply (Option QuorumCertificate)} {v : Vote}
    (hr : engine.handlePrecommit c env vote = .ok r) : .signed v ∉ r.log := by
  rcases handlePrecommit_cases hr with ⟨-, rfl⟩ | ⟨-, committed, -, rfl⟩
  · simp
  · simp

theorem handlePrevote_signs {r : Reply (Option Vote)} {v : Vote}
    (hr : engine.handlePrevote c env vote = .ok r) :
    .signed v ∈ r.log ↔ ∃ held, .precommitted v held ∈ engine.observePrevote c vote := by
  rcases handlePrevote_cases hr with ⟨hq, rfl⟩ | ⟨hq, inner, hi, rfl⟩
  · simp [observePrevote, hq]
  · have hinner := handlePrecommit_signs (v := v) hi
    simp [observePrevote, hq, hinner]

/-- The precommits that a call signs are those observed of it. -/
theorem signed_iff_observed (hn : engine.next c call = some (engine', out)) {v : Vote}
    (hv : v.voteType = .preCommit) :
    .signed v ∈ out ↔ ∃ held, .precommitted v held ∈ engine.observe c call := by
  cases next_returns hn with
  | createProposal hr =>
    rcases createProposal_cases hr with ⟨e, rfl⟩ | ⟨-, block, -, -, rfl⟩ <;> simp [observe]
  | @handleProposal env block r hr =>
    rcases handleProposal_cases hr with ⟨hq, rfl⟩ | ⟨hq, inner, hi, rfl⟩
    · simp [observe, hq]
    · have hown : v ≠ engine.ownPrevote c (block.hash c) := by
        rintro rfl
        cases hv
      have hinner := handlePrevote_signs (v := v) hi
      simp [observe, hq, hown, hinner]
  | handlePrevote hr => exact handlePrevote_signs hr
  | handlePrecommit hr => simp [observe, handlePrecommit_signs hr]
  | poolChanged mempool => simp [observe]

/-- The engine has accepted the block of every precommit in a run, and holds it,
exactly if no quorum of prevotes in the run was for another block. -/
theorem precommit_held_iff {keypair : SecretKey} {stateDb : StateDB} {mempool : Mempool}
    {chainId : Bytes} :
    TracedRun (observedStep c) (fun _ _ => True) (new c keypair stateDb mempool chainId, [])
      (engine, log) ∧ Along (Justified c) log ↔
    TracedRun (observedStep c) (QuorumOnProposal c) (new c keypair stateDb mempool chainId, [])
      (engine, log) := by
  constructor
  · rintro ⟨hrun, hlog⟩
    have hall : ∀ x, TracedRun (observedStep c) (fun _ _ => True)
        (new c keypair stateDb mempool chainId, []) x → Along (Justified c) x.2 →
        TracedRun (observedStep c) (QuorumOnProposal c)
          (new c keypair stateDb mempool chainId, []) x := by
      intro x hx
      induction hx with
      | refl => exact fun _ => .refl
      | tail _ hs ih =>
        intro hjustified
        obtain ⟨call, seen, -, hstep, hlog⟩ := hs
        rw [hlog] at hjustified
        refine (ih hjustified.of_append).tail ⟨call, seen, ?_, hstep, hlog⟩
        exact quorumOnProposal_of_along hstep hjustified
    exact hall _ hrun hlog
  · intro hrun
    refine ⟨Relation.ReflTransGen.mono ?_ _ _ hrun, ?_⟩
    · rintro s t ⟨call, seen, -, hs⟩
      exact ⟨call, seen, trivial, hs⟩
    · refine (TracedRun.invariant (P := fun engine log => Backed c engine log) hrun
        (.of_step (by simp [new]) along_nil) ?_).justified
      intro engine log call engine' seen h hquorum hs
      exact h.step hquorum hs

end ConsensusEngine

namespace PrecommitHeld

open CertificateSoundness

def proposal : Block :=
  Reference.block 1 ((Reference.genesisBlock [1, 2, 3, 4]).hash crates) 1700000001 []

def prevote (key : UInt8) (hash : Hash) : OpenCall :=
  .call (.handlePrevote Reference.env
    (Vote.newSigned crates hash 1 0 .preVote (Reference.secretKey key)))

def competing : Hash := FixedBytes.ofNat 32 7

/-- Three of four validators prevote another block than the one accepted. -/
theorem precommit_competing : ¬ ∀ (c : Crates) (keypair : SecretKey) (stateDb : StateDB)
    (mempool : Mempool) (chainId : Bytes) (engine : ConsensusEngine) (log : List Observation),
    TracedRun (ConsensusEngine.observedStep c) (fun _ _ => True)
      (ConsensusEngine.new c keypair stateDb mempool chainId, []) (engine, log) →
      Along (Justified c) log := by
  intro hclaim
  have hcalls : (runAll (ConsensusEngine.observedStep crates) (fun _ _ => True) engine
      [.call (.handleProposal Reference.env proposal), prevote 2 competing, prevote 3 competing,
        prevote 4 competing]).map Prod.snd =
      some [.accepted 1 0 proposal,
        .precommitted (engine.ownPrecommit crates competing) (some proposal)] := by decide +kernel
  obtain ⟨engine', hrun⟩ := TracedRun.of_log hcalls
  obtain ⟨block, hblock, hhash, -⟩ := hclaim _ _ _ _ _ _ _ hrun [_] _ [] rfl
  rw [← Option.some.inj hblock] at hhash
  exact absurd hhash (by decide +kernel)

end PrecommitHeld

end AuraChain
