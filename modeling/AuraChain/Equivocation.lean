import AuraChain.EngineSpec
import AuraChain.Reference

/-! Which votes an engine signs. The step separates the phases of a height, but
a proposal is taken in every step and opens the phases again. -/

namespace AuraChain

inductive SlashingError
  | invalidSignature (e : PrimitiveError)
  | invalidEvidenceParams
  | identicalVotes
  | validatorMismatch
  deriving DecidableEq

structure DoubleSignEvidence where
  voteA : Vote
  voteB : Vote

def DoubleSignEvidence.verify (c : Crates) (evidence : DoubleSignEvidence) :
    Except SlashingError Address :=
  if evidence.voteA.validator ≠ evidence.voteB.validator then .error .validatorMismatch
  else if evidence.voteA.height ≠ evidence.voteB.height ∨
      evidence.voteA.round ≠ evidence.voteB.round ∨
      evidence.voteA.voteType ≠ evidence.voteB.voteType then .error .invalidEvidenceParams
  else if evidence.voteA.blockHash = evidence.voteB.blockHash then .error .identicalVotes
  else match evidence.voteA.verify c with
    | .error e => .error (.invalidSignature e)
    | .ok () =>
      match evidence.voteB.verify c with
      | .error e => .error (.invalidSignature e)
      | .ok () => .ok evidence.voteA.validator

theorem DoubleSignEvidence.verify_ok_iff {c : Crates} {evidence : DoubleSignEvidence} {a : Address} :
    evidence.verify c = .ok a ↔
    (evidence.voteA.validator = evidence.voteB.validator ∧
      evidence.voteA.height = evidence.voteB.height ∧
      evidence.voteA.round = evidence.voteB.round ∧
      evidence.voteA.voteType = evidence.voteB.voteType ∧
      evidence.voteA.blockHash ≠ evidence.voteB.blockHash) ∧
    evidence.voteA.verify c = .ok () ∧ evidence.voteB.verify c = .ok () ∧
      evidence.voteA.validator = a := by
  rw [verify]
  split_ifs with hv hp hb
  · simp [hv]
  · simp only [false_iff]
    tauto
  · simp [hb]
  · simp only [not_or, not_not] at hv hp
    cases ha : evidence.voteA.verify c with
    | error e => simp
    | ok _ =>
      cases hw : evidence.voteB.verify c with
      | error e => simp
      | ok _ => simp [hv, hp, hb]

namespace ConsensusEngine

/-- The engine is not told to propose once it has voted, nor given a proposal
that it accepts once it has, unless it is the one it prevotes. -/
def keepsStep (c : Crates) (engine : ConsensusEngine) : Call → Prop
  | .createProposal _ => engine.isProposer c engine.currentHeight engine.currentRound = true →
      engine.step = .newRound ∨ engine.step = .propose
  | .handleProposal _ block => engine.accepts c block = true →
      (engine.step = .newRound ∨ engine.step = .propose) ∨
        engine.step = .preVote ∧ engine.proposedBlock.map (Block.hash c) = some (block.hash c)
  | _ => True

instance (c : Crates) (engine : ConsensusEngine) (call : Call) : Decidable (engine.keepsStep c call) :=
  match call with
  | .createProposal _ => inferInstanceAs (Decidable (_ → _ ∨ _))
  | .handleProposal .. => inferInstanceAs (Decidable (_ → (_ ∨ _) ∨ _ ∧ _))
  | .handlePrevote .. => isTrue trivial
  | .handlePrecommit .. => isTrue trivial
  | .poolChanged _ => isTrue trivial

def hasSigned (log : List Event) (height : UInt64) (voteType : VoteType) (hash : Hash) : Prop :=
  ∃ v, Event.signed v ∈ log ∧ v.height = height ∧ v.voteType = voteType ∧ v.blockHash = hash

/-- What has been signed at the current height, by step: nothing before the
proposal, then a prevote for it, then a precommit. -/
structure VotesOnce (c : Crates) (engine : ConsensusEngine) (log : List Event) : Prop where
  past : ∀ v, Event.signed v ∈ log → v.height ≤ engine.currentHeight
  prevote : ∀ hash, hasSigned log engine.currentHeight .preVote hash →
    engine.step = .preCommit ∨
      engine.step = .preVote ∧ engine.proposedBlock.map (Block.hash c) = some hash
  precommit : ∀ hash, hasSigned log engine.currentHeight .preCommit hash → engine.step = .preCommit
  once : ∀ height voteType x y, hasSigned log height voteType x → hasSigned log height voteType y →
    x = y

variable {c : Crates} {env : Env} {engine engine' : ConsensusEngine} {log out : List Event}
  {vote : Vote}

theorem hasSigned_append {height : UInt64} {voteType : VoteType} {hash : Hash} :
    hasSigned (log ++ out) height voteType hash ↔
      hasSigned log height voteType hash ∨ hasSigned out height voteType hash := by
  simp only [hasSigned, List.mem_append, or_and_right, exists_or]

theorem VotesOnce.quiet (h : engine.VotesOnce c log) (out : List Event)
    (hout : ∀ v, Event.signed v ∉ out) : engine.VotesOnce c (log ++ out) := by
  have hnone : ∀ height voteType hash, hasSigned (log ++ out) height voteType hash →
      hasSigned log height voteType hash := by
    intro height voteType hash hs
    rcases hasSigned_append.mp hs with hs | ⟨v, hv, -⟩
    · exact hs
    · exact absurd hv (hout v)
  refine ⟨fun v hv => ?_, fun hash hs => h.prevote hash (hnone _ _ _ hs),
    fun hash hs => h.precommit hash (hnone _ _ _ hs),
    fun height voteType x y hx hy => h.once height voteType x y (hnone _ _ _ hx) (hnone _ _ _ hy)⟩
  rcases List.mem_append.mp hv with hv | hv
  · exact h.past v hv
  · exact absurd hv (hout v)

theorem hasSigned_signed {height : UInt64} {voteType : VoteType} {hash : Hash} :
    hasSigned (log ++ [.signed vote]) height voteType hash ↔ hasSigned log height voteType hash ∨
      vote.height = height ∧ vote.voteType = voteType ∧ vote.blockHash = hash := by
  rw [hasSigned_append]
  simp [hasSigned]

/-- A vote at the current height may be signed if it repeats what was signed
there for its phase, and if the step then says so. -/
theorem VotesOnce.sign (h : engine.VotesOnce c log) (vote : Vote)
    (hvote : vote.height = engine.currentHeight)
    (hsame : ∀ hash, hasSigned log engine.currentHeight vote.voteType hash → vote.blockHash = hash)
    (engine' : ConsensusEngine) (hheight : engine'.currentHeight = engine.currentHeight)
    (hprevote : ∀ hash, hasSigned (log ++ [.signed vote]) engine.currentHeight .preVote hash →
      engine'.step = .preCommit ∨
        engine'.step = .preVote ∧ engine'.proposedBlock.map (Block.hash c) = some hash)
    (hprecommit : ∀ hash, hasSigned (log ++ [.signed vote]) engine.currentHeight .preCommit hash →
      engine'.step = .preCommit) : engine'.VotesOnce c (log ++ [.signed vote]) where
  past v hv := by
    rw [hheight]
    rcases List.mem_append.mp hv with hv | hv
    · exact h.past v hv
    · have he : v = vote := by simpa using hv
      rw [he, hvote]
      exact UInt64.le_refl _
  prevote := by
    rw [hheight]
    exact hprevote
  precommit := by
    rw [hheight]
    exact hprecommit
  once height voteType x y hx hy := by
    rcases hasSigned_signed.mp hx with hx | ⟨hvx, htx, rfl⟩ <;>
      rcases hasSigned_signed.mp hy with hy | ⟨hvy, hty, rfl⟩
    · exact h.once height voteType x y hx hy
    · rw [← hvy, ← hty, hvote] at hx
      exact (hsame x hx).symm
    · rw [← hvx, ← htx, hvote] at hy
      exact hsame y hy
    · rfl

theorem VotesOnce.advance (h : engine.VotesOnce c log)
    (hheight : engine.currentHeight.toNat + 1 < 2 ^ 64) (qc : QuorumCertificate) :
    (engine.advance qc).VotesOnce c log := by
  have hnext : (engine.advance qc).currentHeight.toNat = engine.currentHeight.toNat + 1 := by
    rw [ConsensusEngine.advance, UInt64.toNat_add, UInt64.toNat_one, Nat.mod_eq_of_lt hheight]
  have hnone : ∀ voteType hash, ¬ hasSigned log (engine.advance qc).currentHeight voteType hash := by
    rintro voteType hash ⟨v, hv, he, -⟩
    have hle := UInt64.le_iff_toNat_le.mp (h.past v hv)
    rw [he, hnext] at hle
    omega
  refine ⟨fun v hv => ?_, fun hash hs => absurd hs (hnone _ _), fun hash hs => absurd hs (hnone _ _),
    h.once⟩
  have hle := UInt64.le_iff_toNat_le.mp (h.past v hv)
  rw [UInt64.le_iff_toNat_le, hnext]
  omega

theorem VotesOnce.handlePrecommit (h : engine.VotesOnce c log)
    (hheight : engine.currentHeight.toNat + 1 < 2 ^ 64) {r : Reply (Option QuorumCertificate)}
    (hr : engine.handlePrecommit c env vote = .ok r) : r.engine.VotesOnce c (log ++ r.log) := by
  rcases handlePrecommit_cases hr with ⟨-, rfl⟩ | ⟨-, committed, hm, rfl⟩
  · have hq := h.quiet [.precommitGiven vote] (by simp)
    exact ⟨hq.past, hq.prevote, hq.precommit, hq.once⟩
  · have hq := h.quiet [.precommitGiven vote, .precommitQuorum
      (engine.certificate c vote (recordVote engine.precommits vote))
      (countedVotes (engine.getActiveValidators c) (recordVote engine.precommits vote))] (by simp)
    have hadv := hq.advance hheight (engine.certificate c vote (recordVote engine.precommits vote))
    rcases commitMatching_cases hm with ⟨_, _, _, _, _, _, rfl⟩ | ⟨_, rfl⟩
    · exact ⟨hadv.past, hadv.prevote, hadv.precommit, hadv.once⟩
    · exact ⟨hadv.past, hadv.prevote, hadv.precommit, hadv.once⟩

theorem VotesOnce.handlePrevote (h : engine.VotesOnce c log)
    (hheight : engine.currentHeight.toNat + 1 < 2 ^ 64) {r : Reply (Option Vote)}
    (hr : engine.handlePrevote c env vote = .ok r) : r.engine.VotesOnce c (log ++ r.log) := by
  rcases handlePrevote_cases hr with ⟨-, rfl⟩ | ⟨hq, inner, hi, rfl⟩
  · have hquiet := h.quiet [] (by simp)
    exact ⟨hquiet.past, hquiet.prevote, hquiet.precommit, hquiet.once⟩
  · have hstep := step_of_completesPrevote hq
    have hfirst : ∀ hash, ¬ hasSigned log engine.currentHeight .preCommit hash := by
      intro hash hs
      rw [h.precommit hash hs] at hstep
      cases hstep
    have hquiet := h.quiet [.prevoteQuorum engine.currentHeight engine.currentRound
      (countedVotes (engine.getActiveValidators c) (recordVote engine.prevotes vote))] (by simp)
    have hmid := hquiet.sign (engine.ownPrecommit c vote.blockHash) rfl
      (fun hash hs => ?_) { engine.recordPrevote vote with step := .preCommit } rfl
      (fun _ _ => .inl rfl) (fun _ _ => rfl)
    · have hlast := hmid.handlePrecommit hheight hi
      rw [List.append_assoc, List.append_assoc] at hlast
      exact hlast
    · have he := hquiet.precommit hash hs
      rw [hstep] at he
      cases he

theorem VotesOnce.handleProposal (h : engine.VotesOnce c log)
    (hheight : engine.currentHeight.toNat + 1 < 2 ^ 64) {block : Block}
    (hkeep : engine.keepsStep c (.handleProposal env block)) {r : Reply (Except ConsensusError Vote)}
    (hr : engine.handleProposal c env block = .ok r) : r.engine.VotesOnce c (log ++ r.log) := by
  rcases handleProposal_cases hr with ⟨-, rfl⟩ | ⟨ha, inner, hi, rfl⟩
  · exact h.quiet [] (by simp)
  · have hpre : ∀ hash, hasSigned log engine.currentHeight .preVote hash → block.hash c = hash := by
      intro hash hs
      rcases hkeep ha with hstep | ⟨hstep, hblock⟩
      · rcases h.prevote hash hs with he | ⟨he, -⟩ <;> rw [he] at hstep <;> simp at hstep
      · rcases h.prevote hash hs with he | ⟨-, he⟩
        · rw [he] at hstep
          cases hstep
        · rw [hblock, Option.some.injEq] at he
          exact he
    have hcom : ∀ hash, ¬ hasSigned log engine.currentHeight .preCommit hash := by
      intro hash hs
      have he := h.precommit hash hs
      rcases hkeep ha with hstep | ⟨hstep, -⟩ <;> rw [he] at hstep <;> simp at hstep
    have hmid := h.sign (engine.ownPrevote c (block.hash c)) rfl hpre
      { engine with proposedBlock := some block, step := .preVote } rfl
      (fun hash hs => ?_) (fun hash hs => ?_)
    · have hlast := hmid.handlePrevote hheight hi
      rw [List.append_assoc] at hlast
      exact hlast
    · rcases hasSigned_signed.mp hs with hs | ⟨-, -, hs⟩
      · exact .inr ⟨rfl, congrArg some (hpre hash hs)⟩
      · exact .inr ⟨rfl, congrArg some hs⟩
    · rcases hasSigned_signed.mp hs with hs | ⟨-, ht, -⟩
      · exact absurd hs (hcom hash)
      · cases ht

theorem VotesOnce.createProposal (h : engine.VotesOnce c log)
    (hkeep : engine.keepsStep c (.createProposal env)) {r : Reply (Except ConsensusError Block)}
    (hr : engine.createProposal c env = .ok r) : r.engine.VotesOnce c (log ++ r.log) := by
  rcases createProposal_cases hr with ⟨e, rfl⟩ | ⟨hp, block, -, -, rfl⟩
  · exact h.quiet [] (by simp)
  · have hstep := hkeep hp
    have hq := h.quiet [] (by simp)
    refine ⟨hq.past, fun hash hs => ?_, fun hash hs => ?_, hq.once⟩
    · rcases hq.prevote hash hs with he | ⟨he, -⟩ <;> rw [he] at hstep <;> simp at hstep
    · have he := hq.precommit hash hs
      rw [he] at hstep
      simp at hstep

theorem VotesOnce.call (h : engine.VotesOnce c log)
    (hheight : engine.currentHeight.toNat + 1 < 2 ^ 64) {call : Call} (hkeep : engine.keepsStep c call)
    (hn : engine.next c call = some (engine', out)) : engine'.VotesOnce c (log ++ out) := by
  cases next_returns hn with
  | createProposal hr => exact h.createProposal hkeep hr
  | handleProposal hr => exact h.handleProposal hheight hkeep hr
  | handlePrevote hr => exact h.handlePrevote hheight hr
  | handlePrecommit hr => exact h.handlePrecommit hheight hr
  | poolChanged mempool =>
    have hq := h.quiet [] (by simp)
    exact ⟨hq.past, hq.prevote, hq.precommit, hq.once⟩

end ConsensusEngine

open ConsensusEngine in
/-- An engine whose step is not reopened signs one block per height and phase,
and no two of its votes convict it. -/
theorem signed_votes_agree {c : Crates} {keypair : SecretKey} {stateDb : StateDB} {mempool : Mempool}
    {chainId : Bytes} {engine : ConsensusEngine} {log : List Event}
    (hrun : EngineRun c
      (fun engine call => engine.keepsStep c call ∧ engine.currentHeight.toNat + 1 < 2 ^ 64)
      (ConsensusEngine.new c keypair stateDb mempool chainId, []) (engine, log)) {v w : Vote}
    (hv : Event.signed v ∈ log) (hw : Event.signed w ∈ log) :
    (v.height = w.height → v.round = w.round → v.voteType = w.voteType → v.blockHash = w.blockHash) ∧
      ∀ a, DoubleSignEvidence.verify c ⟨v, w⟩ ≠ .ok a := by
  have hinv : engine.VotesOnce c log := by
    refine TracedRun.invariant hrun ⟨by simp, ?_, ?_, ?_⟩ ?_
    · simp [hasSigned]
    · simp [hasSigned]
    · simp [hasSigned]
    · rintro s l call t out hs ⟨hkeep, hheight⟩ hn
      exact hs.call hheight hkeep hn
  have hagree : v.height = w.height → v.voteType = w.voteType → v.blockHash = w.blockHash :=
    fun hh ht => hinv.once v.height v.voteType _ _ ⟨v, hv, rfl, rfl, rfl⟩
      ⟨w, hw, hh.symm, ht.symm, rfl⟩
  refine ⟨fun hh _ ht => hagree hh ht, fun a ha => ?_⟩
  obtain ⟨⟨-, hh, -, ht, hne⟩, -⟩ := DoubleSignEvidence.verify_ok_iff.mp ha
  exact hne (hagree hh ht)

namespace Equivocation

def crates : Crates := Reference.crates [Reference.genesisBlock [1, 4]]

def engine : ConsensusEngine := Reference.engine [1, 4] 1 [Reference.genesisBlock [1, 4]]

def proposal (timestamp : UInt64) : Block :=
  Reference.block 1 ((Reference.genesisBlock [1, 4]).hash crates) timestamp []

def prevote (timestamp : UInt64) : Vote := engine.ownPrevote crates ((proposal timestamp).hash crates)

theorem signed_votes_agree_repeated : (prevote 0).blockHash = (prevote 0).blockHash ∧
    ∀ a, DoubleSignEvidence.verify crates ⟨prevote 0, prevote 0⟩ ≠ .ok a := by
  have hlog : (runAll (ConsensusEngine.next crates)
      (fun engine call => engine.keepsStep crates call ∧ engine.currentHeight.toNat + 1 < 2 ^ 64)
      engine [.handleProposal Reference.env (proposal 0), .handleProposal Reference.env (proposal 0)]).map
        Prod.snd = some [.signed (prevote 0), .signed (prevote 0)] := by decide +kernel
  obtain ⟨t, hrun⟩ := TracedRun.of_log hlog
  have hmem : Event.signed (prevote 0) ∈ [.signed (prevote 0), .signed (prevote 0)] := by simp
  have hagree := signed_votes_agree hrun hmem hmem
  exact ⟨hagree.1 rfl rfl rfl, hagree.2⟩

/-- Two proposals of one round are both prevoted. -/
theorem second_proposal_prevoted : ¬ ∀ t log,
    EngineRun crates (fun _ _ => True) (engine, []) (t, log) →
    ∀ v w, Event.signed v ∈ log → Event.signed w ∈ log → v.height = w.height → v.round = w.round →
      v.voteType = w.voteType → v.blockHash = w.blockHash := by
  intro hall
  have hlog : (runAll (ConsensusEngine.next crates) (fun _ _ => True) engine
      [.handleProposal Reference.env (proposal 0), .handleProposal Reference.env (proposal 1)]).map
        Prod.snd = some [.signed (prevote 0), .signed (prevote 1)] := by decide +kernel
  obtain ⟨t, hrun⟩ := TracedRun.of_log hlog
  have hsame : (prevote 0).height = (prevote 1).height ∧ (prevote 0).round = (prevote 1).round ∧
      (prevote 0).voteType = (prevote 1).voteType := by decide +kernel
  have heq := hall t _ hrun (prevote 0) (prevote 1) (by simp) (by simp) hsame.1 hsame.2.1 hsame.2.2
  have hne : (prevote 0).blockHash ≠ (prevote 1).blockHash := by decide +kernel
  exact hne heq

end Equivocation

end AuraChain
