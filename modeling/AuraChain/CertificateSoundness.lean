import AuraChain.AccountableSafety

/-! What a certificate of the engine certifies. Others may change the store
between the calls; the tables of votes belong to the engine alone. -/

namespace AuraChain

/-- A call of the engine, or a change that others make to its shared store. -/
inductive OpenCall
  | call (call : Call)
  | storeChanged (stateDb : StateDB)

def ConsensusEngine.openStep (c : Crates) (engine : ConsensusEngine) :
    OpenCall → Option (ConsensusEngine × List Event)
  | .call call => engine.next c call
  | .storeChanged stateDb => some ({ engine with stateDb := stateDb }, [])

/-- A certificate with the validators that it is given out for. -/
structure QuorumCertificate.Sound (V : List ValidatorInfo) (qc : QuorumCertificate) : Prop where
  quorum : qc.isValidQuorum = true
  hash : ∀ vote ∈ qc.votes, vote.blockHash = qc.blockHash
  distinct : (qc.votes.map Vote.validator).Nodup
  total : qc.totalVotingPower.toNat = (V.map ValidatorInfo.power).sum
  signers : qc.signersVotingPower.toNat = WeightedQuorum.weight ValidatorInfo.power V
    (fun v => decide (v.address ∈ qc.votes.map Vote.validator))
  bounded : qc.signersVotingPower ≤ qc.totalVotingPower

def Certifies (V : List ValidatorInfo) (out : List Event) : Prop :=
  ∀ qc counted, Event.precommitQuorum qc counted ∈ out → qc.Sound V

def PowerFits (V : List ValidatorInfo) : Prop := (V.map ValidatorInfo.power).sum < 2 ^ 64

section Run

variable {c : Crates} {env : Env} {engine engine' : ConsensusEngine} {log out : List Event}
  {vote : Vote}

theorem certifies_nil {V : List ValidatorInfo} : Certifies V [] := by
  simp [Certifies]

theorem Certifies.cons {V : List ValidatorInfo} {e : Event} (h : Certifies V out)
    (he : ∀ qc counted, e ≠ .precommitQuorum qc counted) : Certifies V (e :: out) := by
  intro qc counted hm
  rcases List.mem_cons.mp hm with heq | hm
  · exact absurd heq.symm (he qc counted)
  · exact h qc counted hm

theorem Collected.empty (log : List Event) : Collected log ∅ where
  hash x v hv := by simp at hv
  given x v hv := by simp at hv
  distinct x := by simp

theorem Collected.certificate (h : Collected log engine.precommits)
    (hfits : PowerFits (engine.getActiveValidators c))
    (hq : engine.completesPrecommit c vote = true) :
    (engine.certificate c vote (recordVote engine.precommits vote)).Sound
      (engine.getActiveValidators c) := by
  have hdistinct : ((recordVote engine.precommits vote).map Vote.validator).Nodup :=
    recordVote_nodup (h.distinct vote.blockHash)
  have hsigners := toNat_votePower (ConsensusEngine.getActiveValidators_nodup c engine) hdistinct
    hfits
  have htotal := toNat_totalPower hfits
  refine ⟨ConsensusEngine.isValidQuorum_certificate hq, ?_, hdistinct, htotal, hsigners, ?_⟩
  · intro v hv
    rcases mem_recordVote hv with hv | ⟨rfl, -⟩
    · exact h.hash _ v hv
    · rfl
  · show votePower _ _ ≤ totalPower _
    rw [UInt64.le_iff_toNat_le, hsigners, htotal]
    exact WeightedQuorum.weight_le _ _ _

theorem Collected.handlePrecommit (h : Collected log engine.precommits)
    {r : Reply (Option QuorumCertificate)} (hr : engine.handlePrecommit c env vote = .ok r) :
    Collected (log ++ r.log) r.engine.precommits ∧
      (PowerFits (engine.getActiveValidators c) →
        Certifies (engine.getActiveValidators c) r.log) := by
  rcases ConsensusEngine.handlePrecommit_cases hr with ⟨-, rfl⟩ | ⟨hq, committed, -, rfl⟩
  · exact ⟨h.record vote, fun _ => certifies_nil.cons (by simp)⟩
  · refine ⟨Collected.empty _, fun hfits qc counted hm => ?_⟩
    simp only [List.mem_cons, reduceCtorEq, Event.precommitQuorum.injEq, List.not_mem_nil,
      or_false, false_or] at hm
    rw [hm.1]
    exact h.certificate hfits hq

theorem Collected.handlePrevote (h : Collected log engine.precommits)
    {r : Reply (Option Vote)} (hr : engine.handlePrevote c env vote = .ok r) :
    Collected (log ++ r.log) r.engine.precommits ∧
      (PowerFits (engine.getActiveValidators c) →
        Certifies (engine.getActiveValidators c) r.log) := by
  rcases ConsensusEngine.handlePrevote_cases hr with ⟨-, rfl⟩ | ⟨-, inner, hi, rfl⟩
  · exact ⟨h.append [], fun _ => certifies_nil⟩
  · have hmid := h.append [.prevoteQuorum engine.currentHeight engine.currentRound
      (countedVotes (engine.getActiveValidators c) (recordVote engine.prevotes vote)),
      .signed (engine.ownPrecommit c vote.blockHash)]
    have hrecorded : Collected _ { engine.recordPrevote vote with step := .preCommit }.precommits :=
      hmid
    have hinner := hrecorded.handlePrecommit hi
    rw [List.append_assoc] at hinner
    exact ⟨hinner.1, fun hfits => ((hinner.2 hfits).cons (by simp)).cons (by simp)⟩

theorem Collected.handleProposal (h : Collected log engine.precommits) {block : Block}
    {r : Reply (Except ConsensusError Vote)} (hr : engine.handleProposal c env block = .ok r) :
    Collected (log ++ r.log) r.engine.precommits ∧
      (PowerFits (engine.getActiveValidators c) →
        Certifies (engine.getActiveValidators c) r.log) := by
  rcases ConsensusEngine.handleProposal_cases hr with ⟨-, rfl⟩ | ⟨-, inner, hi, rfl⟩
  · exact ⟨h.append [], fun _ => certifies_nil⟩
  · have hmid := h.append [.signed (engine.ownPrevote c (block.hash c))]
    have hstored : Collected _
        { engine with proposedBlock := some block, step := .preVote }.precommits := hmid
    have hinner := hstored.handlePrevote hi
    rw [List.append_assoc] at hinner
    exact ⟨hinner.1, fun hfits => (hinner.2 hfits).cons (by simp)⟩

theorem Collected.next (h : Collected log engine.precommits) {call : Call}
    (hn : engine.next c call = some (engine', out)) :
    Collected (log ++ out) engine'.precommits ∧
      (PowerFits (engine.getActiveValidators c) →
        Certifies (engine.getActiveValidators c) out) := by
  cases ConsensusEngine.next_returns hn with
  | createProposal hr =>
    rcases ConsensusEngine.createProposal_cases hr with ⟨e, rfl⟩ | ⟨-, block, -, -, rfl⟩
    · exact ⟨h.append [], fun _ => certifies_nil⟩
    · exact ⟨h.append [], fun _ => certifies_nil⟩
  | handleProposal hr => exact h.handleProposal hr
  | handlePrevote hr => exact h.handlePrevote hr
  | handlePrecommit hr => exact h.handlePrecommit hr
  | poolChanged mempool => exact ⟨h.append [], fun _ => certifies_nil⟩

theorem collected_run {keypair : SecretKey} {stateDb : StateDB} {mempool : Mempool} {chainId : Bytes}
    (hrun : TracedRun (ConsensusEngine.openStep c) (fun _ _ => True)
      (ConsensusEngine.new c keypair stateDb mempool chainId, []) (engine, log)) :
    Collected log engine.precommits := by
  refine TracedRun.invariant (P := fun engine log => Collected log engine.precommits) hrun
    (Collected.empty []) ?_
  intro engine log call engine' out h _ hs
  cases call with
  | call call => exact (h.next hs).1
  | storeChanged stateDb =>
    cases hs
    exact h.append []

/-- Whatever came before, a certificate that a call gives out, by itself or by a
nested call of `handle_precommit`, is sound for the validators at its time. -/
theorem certificate_sound {keypair : SecretKey} {stateDb : StateDB} {mempool : Mempool}
    {chainId : Bytes} (hrun : TracedRun (ConsensusEngine.openStep c) (fun _ _ => True)
      (ConsensusEngine.new c keypair stateDb mempool chainId, []) (engine, log))
    (hfits : PowerFits (engine.getActiveValidators c)) :
    (∀ env vote r qc, engine.handlePrecommit c env vote = .ok r → r.value = some qc →
      qc.Sound (engine.getActiveValidators c)) ∧
    ∀ call engine' out, engine.next c call = some (engine', out) →
      Certifies (engine.getActiveValidators c) out := by
  have hcollected := collected_run hrun
  refine ⟨fun env vote r qc hr hvalue => ?_, fun call engine' out hn => ?_⟩
  · obtain ⟨counted, hm⟩ := (ConsensusEngine.handlePrecommit_returns hr).mp hvalue
    exact (hcollected.handlePrecommit hr).2 hfits qc counted hm
  · exact (hcollected.next hn).2 hfits

end Run

namespace CertificateSoundness

def crates : Crates := Reference.crates [Reference.genesisBlock [1, 2, 3, 4]]

def engine : ConsensusEngine :=
  Reference.engine [1, 2, 3, 4] 1 [Reference.genesisBlock [1, 2, 3, 4]]

def vote (key : UInt8) : Vote :=
  Vote.newSigned crates (FixedBytes.ofNat 32 7) 1 0 .preCommit (Reference.secretKey key)

def give (key : UInt8) : Call := .handlePrecommit Reference.env (vote key)

def summary (r : Reply (Option QuorumCertificate)) : Option (Nat × UInt64 × UInt64) :=
  r.value.map fun qc => (qc.votes.length, qc.signersVotingPower, qc.totalVotingPower)

/-- A stranger votes, one validator votes twice, and the third one completes
the quorum of four. -/
theorem certificate_sound_three : ∃ V qc, QuorumCertificate.Sound V qc ∧ qc.votes.length = 4 ∧
    qc.signersVotingPower = 3000000 ∧ qc.totalVotingPower = 4000000 := by
  have hcalls : (runAll (ConsensusEngine.openStep crates) (fun _ _ => True) engine
      [.call (give 9), .call (give 1), .call (give 1), .call (give 2)]).map
      (fun t => (((t.1.getActiveValidators crates).map ValidatorInfo.power).sum,
        ((t.1.handlePrecommit crates Reference.env (vote 3)).map summary).toOption)) =
      some (4000000, some (some (4, 3000000, 4000000))) := by decide +kernel
  obtain ⟨⟨engine', log⟩, hrun, ht⟩ := TracedRun.of_map hcalls
  obtain ⟨hpower, hlast⟩ := Prod.mk.inj ht
  obtain ⟨r, hr, hsummary⟩ := ConsensusEngine.of_toOption_map hlast
  obtain ⟨qc, hqc, hvalues⟩ := Option.map_eq_some_iff.mp hsummary
  simp only [Prod.mk.injEq] at hvalues
  have hfits : PowerFits (engine'.getActiveValidators crates) := by
    rw [PowerFits, hpower]
    omega
  obtain ⟨hreturned, -⟩ := certificate_sound hrun hfits
  exact ⟨_, qc, hreturned _ _ r qc hr hqc, hvalues⟩

end CertificateSoundness

end AuraChain
