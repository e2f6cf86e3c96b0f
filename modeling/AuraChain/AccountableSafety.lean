import AuraChain.EngineSpec
import AuraChain.Reference
import AuraChain.WeightedQuorum

/-! Two conflicting certificates of one height convict more than a third of the
power: their votes were all given to the engines, each validator is counted
once, and two quorums overlap. -/

namespace AuraChain

open WeightedQuorum

def ValidatorInfo.power (v : ValidatorInfo) : Nat := v.votingPower.toNat

def votedFor (log : List Event) (hash : Hash) (v : ValidatorInfo) : Bool :=
  log.any fun
    | .precommitGiven vote => decide (vote.blockHash = hash ∧ vote.validator = v.address)
    | _ => false

theorem toNat_totalPower {V : List ValidatorInfo} (h : (V.map ValidatorInfo.power).sum < 2 ^ 64) :
    (totalPower V).toNat = (V.map ValidatorInfo.power).sum := by
  have hmap : (V.map ValidatorInfo.votingPower).map UInt64.toNat = V.map ValidatorInfo.power := by
    simp [ValidatorInfo.power, Function.comp_def]
  rw [totalPower, UInt64.toNat_sum_of_lt (by rwa [hmap]), hmap]

theorem toNat_votePower {V : List ValidatorInfo} {list : List Vote}
    (hV : (V.map ValidatorInfo.address).Nodup) (hlist : (list.map Vote.validator).Nodup)
    (h : (V.map ValidatorInfo.power).sum < 2 ^ 64) : (votePower V list).toNat =
      weight ValidatorInfo.power V (fun v => decide (v.address ∈ list.map Vote.validator)) := by
  have hsum := sum_find?_eq_weight ValidatorInfo.address ValidatorInfo.power hV hlist
  have hmap : ((list.filterMap (findValidator V)).map ValidatorInfo.votingPower).map UInt64.toNat =
      ((list.map Vote.validator).filterMap fun a => V.find? fun x => x.address = a).map
        ValidatorInfo.power := by
    rw [List.filterMap_map, List.map_map]
    rfl
  have hle := weight_le ValidatorInfo.power V fun v => decide (v.address ∈ list.map Vote.validator)
  rw [votePower, UInt64.toNat_sum_of_lt (by rw [hmap, hsum]; omega), hmap, hsum]

structure Collected (log : List Event) (table : VoteTable) : Prop where
  hash : ∀ (x : Hash) (v : Vote), v ∈ table.getD x [] → v.blockHash = x
  given : ∀ (x : Hash) (v : Vote), v ∈ table.getD x [] → Event.precommitGiven v ∈ log
  distinct : ∀ x : Hash, ((table.getD x []).map Vote.validator).Nodup

structure CertifiedBy (V : List ValidatorInfo) (log : List Event) (hash : Hash) (list : List Vote) :
    Prop where
  hash : ∀ v ∈ list, v.blockHash = hash
  given : ∀ v ∈ list, Event.precommitGiven v ∈ log
  distinct : (list.map Vote.validator).Nodup
  quorum : isQuorum (totalPower V) (votePower V list) = true

theorem Collected.record {log : List Event} {table : VoteTable} (h : Collected log table)
    (vote : Vote) : Collected (log ++ [.precommitGiven vote])
      (table.insert vote.blockHash (recordVote table vote)) where
  hash x v hv := by
    rw [OrdMap.getD_insert_ite] at hv
    split_ifs at hv with hx
    · rcases mem_recordVote hv with hv | ⟨rfl, -⟩
      · exact (h.hash _ v hv).trans hx
      · exact hx
    · exact h.hash x v hv
  given x v hv := by
    rw [OrdMap.getD_insert_ite] at hv
    split_ifs at hv with hx
    · rcases mem_recordVote hv with hv | ⟨rfl, -⟩
      · exact List.mem_append_left _ (h.given _ v hv)
      · exact List.mem_append_right _ List.mem_cons_self
    · exact List.mem_append_left _ (h.given x v hv)
  distinct x := by
    rw [OrdMap.getD_insert_ite]
    split_ifs with hx
    · exact recordVote_nodup (h.distinct _)
    · exact h.distinct x

theorem Collected.append {log : List Event} {table : VoteTable} (h : Collected log table)
    (out : List Event) : Collected (log ++ out) table :=
  ⟨h.hash, fun x v hv => List.mem_append_left _ (h.given x v hv), h.distinct⟩

theorem CertifiedBy.append {V : List ValidatorInfo} {log : List Event} {hash : Hash}
    {list : List Vote} (h : CertifiedBy V log hash list) (out : List Event) :
    CertifiedBy V (log ++ out) hash list :=
  ⟨h.hash, fun v hv => List.mem_append_left _ (h.given v hv), h.distinct, h.quorum⟩

theorem CertifiedBy.weight {V : List ValidatorInfo} {log : List Event} {hash : Hash}
    {list : List Vote} (h : CertifiedBy V log hash list) (hV : (V.map ValidatorInfo.address).Nodup)
    (hfits : (V.map ValidatorInfo.power).sum < 2 ^ 64) :
    2 * (V.map ValidatorInfo.power).sum <
      3 * WeightedQuorum.weight ValidatorInfo.power V (votedFor log hash) := by
  have hq := (of_decide_eq_true h.quorum).2
  rw [toNat_totalPower hfits, toNat_votePower hV h.distinct hfits] at hq
  have hmono : WeightedQuorum.weight ValidatorInfo.power V
      (fun v => decide (v.address ∈ list.map Vote.validator)) ≤
      WeightedQuorum.weight ValidatorInfo.power V (votedFor log hash) := by
    apply weight_mono
    intro v _ hv
    obtain ⟨vote, hvote, haddr⟩ := List.mem_map.mp (of_decide_eq_true hv)
    refine List.any_eq_true.mpr ⟨.precommitGiven vote, h.given vote hvote, ?_⟩
    simp [h.hash vote hvote, haddr]
  omega

/-- While the engine is at the height, its table holds given votes; every
certificate in the log is made of them. -/
structure Tallied (c : Crates) (height : UInt64) (V : List ValidatorInfo) (engine : ConsensusEngine)
    (log : List Event) : Prop where
  current : engine.currentHeight = height →
    engine.getActiveValidators c = V ∧ Collected log engine.precommits
  certified : ∀ qc counted, Event.precommitQuorum qc counted ∈ log →
    ∃ list, CertifiedBy V log qc.blockHash list

section Run

variable {c : Crates} {env : Env} {height : UInt64} {V : List ValidatorInfo}
  {engine engine' : ConsensusEngine} {log out : List Event}

theorem Tallied.emit (h : Tallied c height V engine log) (engine' : ConsensusEngine)
    (out : List Event) (hheight : engine'.currentHeight = engine.currentHeight)
    (hdb : engine'.stateDb = engine.stateDb)
    (htable : engine'.precommits = engine.precommits)
    (hout : ∀ qc counted, Event.precommitQuorum qc counted ∉ out) :
    Tallied c height V engine' (log ++ out) where
  current hh := by
    obtain ⟨hv, hc⟩ := h.current (hheight.symm.trans hh)
    refine ⟨?_, htable ▸ hc.append out⟩
    rw [← hv, ConsensusEngine.getActiveValidators, ConsensusEngine.getActiveValidators, hdb]
  certified qc counted hm := by
    rcases List.mem_append.mp hm with hm | hm
    · obtain ⟨list, hl⟩ := h.certified qc counted hm
      exact ⟨list, hl.append out⟩
    · exact absurd hm (hout qc counted)

theorem Tallied.handlePrecommit (h : Tallied c height V engine log)
    (hh : engine.currentHeight = height) {vote : Vote} {r : Reply (Option QuorumCertificate)}
    (hr : engine.handlePrecommit c env vote = .ok r) :
    Tallied c height V r.engine (log ++ r.log) := by
  obtain ⟨hv, hc⟩ := h.current hh
  have hrec := hc.record vote
  rcases ConsensusEngine.handlePrecommit_cases hr with ⟨-, rfl⟩ | ⟨hq, committed, hm, rfl⟩
  · refine ⟨fun _ => ⟨hv, hrec⟩, fun qc counted hmem => ?_⟩
    rcases List.mem_append.mp hmem with hmem | hmem
    · obtain ⟨list, hl⟩ := h.certified qc counted hmem
      exact ⟨list, hl.append _⟩
    · simp at hmem
  · have hnext : committed.currentHeight = engine.currentHeight := by
      rcases ConsensusEngine.commitMatching_cases hm with ⟨_, _, _, _, _, _, rfl⟩ | ⟨_, rfl⟩ <;> rfl
    refine ⟨fun hlast => ?_, fun qc counted hmem => ?_⟩
    · simp only [ConsensusEngine.advance, hnext, hh] at hlast
      exact absurd hlast (by simp)
    · rcases List.mem_append.mp hmem with hmem | hmem
      · obtain ⟨list, hl⟩ := h.certified qc counted hmem
        exact ⟨list, hl.append _⟩
      · simp only [List.mem_cons, reduceCtorEq, Event.precommitQuorum.injEq, List.not_mem_nil,
          or_false, false_or] at hmem
        obtain ⟨rfl, -⟩ := hmem
        have hsees := ConsensusEngine.sees_of_completesPrecommit hq
        rw [ConsensusEngine.sees, hv] at hsees
        have htable : (engine.precommits.insert vote.blockHash
            (recordVote engine.precommits vote)).getD vote.blockHash [] =
            recordVote engine.precommits vote := by
          rw [OrdMap.getD_insert_ite, if_pos rfl]
        have hgiven := hrec.given vote.blockHash
        have hhash := hrec.hash vote.blockHash
        rw [htable] at hgiven hhash
        refine ⟨recordVote engine.precommits vote, hhash, fun v hm => ?_,
          recordVote_nodup (hc.distinct _), hsees⟩
        have hmem := hgiven v hm
        simp only [List.mem_append, List.mem_cons] at hmem ⊢
        tauto

theorem Tallied.handlePrevote (h : Tallied c height V engine log)
    (hh : engine.currentHeight = height) {vote : Vote} {r : Reply (Option Vote)}
    (hr : engine.handlePrevote c env vote = .ok r) :
    Tallied c height V r.engine (log ++ r.log) := by
  rcases ConsensusEngine.handlePrevote_cases hr with ⟨-, rfl⟩ | ⟨-, inner, hi, rfl⟩
  · exact h.emit _ [] rfl rfl rfl (by simp)
  · have hmid := h.emit { engine.recordPrevote vote with step := .preCommit }
      [.prevoteQuorum engine.currentHeight engine.currentRound
          (countedVotes (engine.getActiveValidators c) (recordVote engine.prevotes vote)),
        .signed (engine.ownPrecommit c vote.blockHash)] rfl rfl rfl (by simp)
    have hlast := hmid.handlePrecommit hh hi
    rw [List.append_assoc] at hlast
    exact hlast

theorem Tallied.call (h : Tallied c height V engine log) (hh : engine.currentHeight = height)
    {call : Call} (hn : engine.next c call = some (engine', out)) :
    Tallied c height V engine' (log ++ out) := by
  cases ConsensusEngine.next_returns hn with
  | createProposal hr =>
    rcases ConsensusEngine.createProposal_cases hr with ⟨e, rfl⟩ | ⟨-, block, -, -, rfl⟩
    · exact h.emit _ [] rfl rfl rfl (by simp)
    · exact h.emit _ [] rfl rfl rfl (by simp)
  | @handleProposal env block r hr =>
    rcases ConsensusEngine.handleProposal_cases hr with ⟨-, rfl⟩ | ⟨-, inner, hi, rfl⟩
    · exact h.emit _ [] rfl rfl rfl (by simp)
    · have hmid := h.emit { engine with proposedBlock := some block, step := .preVote }
        [.signed (engine.ownPrevote c (block.hash c))] rfl rfl rfl (by simp)
      have hlast := hmid.handlePrevote hh hi
      rw [List.append_assoc] at hlast
      exact hlast
  | handlePrevote hr => exact h.handlePrevote hh hr
  | handlePrecommit hr => exact h.handlePrecommit hh hr
  | poolChanged mempool => exact h.emit _ [] rfl rfl rfl (by simp)

theorem Tallied.run (hempty : engine.precommits = ∅)
    (h : EngineRun c (fun e _ => e.currentHeight = height) (engine, []) (engine', log)) :
    Tallied c height (engine.getActiveValidators c) engine' log := by
  refine TracedRun.invariant h ⟨fun _ => ⟨rfl, ?_, ?_, ?_⟩, by simp⟩ ?_
  · simp [hempty]
  · simp [hempty]
  · simp [hempty]
  · intro s log call t out hs hh hr
    exact hs.call hh hr

end Run

/-- If two engines with the same validators certify a block of the height each,
the validators that voted for both hold more than a third of the power. -/
theorem accountable_safety {c : Crates} {height : UInt64} {e₁ e₂ t₁ t₂ : ConsensusEngine}
    {log₁ log₂ : List Event} {qc₁ qc₂ : QuorumCertificate} {counted₁ counted₂ : List Vote}
    (hV : e₂.getActiveValidators c = e₁.getActiveValidators c)
    (hfits : ((e₁.getActiveValidators c).map ValidatorInfo.power).sum < 2 ^ 64)
    (hempty₁ : e₁.precommits = ∅) (hempty₂ : e₂.precommits = ∅)
    (hrun₁ : EngineRun c (fun e _ => e.currentHeight = height) (e₁, []) (t₁, log₁))
    (hrun₂ : EngineRun c (fun e _ => e.currentHeight = height) (e₂, []) (t₂, log₂))
    (hqc₁ : Event.precommitQuorum qc₁ counted₁ ∈ log₁)
    (hqc₂ : Event.precommitQuorum qc₂ counted₂ ∈ log₂) :
    ((e₁.getActiveValidators c).map ValidatorInfo.power).sum <
      3 * weight ValidatorInfo.power (e₁.getActiveValidators c)
        (fun v => votedFor log₁ qc₁.blockHash v && votedFor log₂ qc₂.blockHash v) := by
  have hnodup := ConsensusEngine.getActiveValidators_nodup c e₁
  obtain ⟨list₁, hl₁⟩ := (Tallied.run hempty₁ hrun₁).certified qc₁ counted₁ hqc₁
  obtain ⟨list₂, hl₂⟩ := (Tallied.run hempty₂ hrun₂).certified qc₂ counted₂ hqc₂
  rw [hV] at hl₂
  exact overlap ValidatorInfo.power (hl₁.weight hnodup hfits) (hl₂.weight hnodup hfits)

namespace AccountableSafety

def crates : Crates := Reference.crates [Reference.genesisBlock [1]]

def engine : ConsensusEngine := Reference.engine [1] 1 [Reference.genesisBlock [1]]

def vote (k : Nat) : Vote := engine.ownPrecommit crates (FixedBytes.ofNat 32 k)

def certificate (k : Nat) : QuorumCertificate := engine.certificate crates (vote k) [vote k]

def log (k : Nat) : List Event :=
  [.precommitGiven (vote k), .precommitQuorum (certificate k) [vote k]]

/-- The only validator votes for two blocks, for one in each engine. -/
theorem accountable_safety_double_vote :
    ((engine.getActiveValidators crates).map ValidatorInfo.power).sum <
      3 * weight ValidatorInfo.power (engine.getActiveValidators crates)
        (fun v => votedFor (log 1) (certificate 1).blockHash v &&
          votedFor (log 2) (certificate 2).blockHash v) := by
  have hfits : ((engine.getActiveValidators crates).map ValidatorInfo.power).sum < 2 ^ 64 := by
    decide +kernel
  have hlog₁ : (runAll (ConsensusEngine.next crates) (fun e _ => e.currentHeight = 1) engine
      [.handlePrecommit Reference.env (vote 1)]).map Prod.snd = some (log 1) := by decide +kernel
  have hlog₂ : (runAll (ConsensusEngine.next crates) (fun e _ => e.currentHeight = 1) engine
      [.handlePrecommit Reference.env (vote 2)]).map Prod.snd = some (log 2) := by decide +kernel
  obtain ⟨t₁, hrun₁⟩ := TracedRun.of_log hlog₁
  obtain ⟨t₂, hrun₂⟩ := TracedRun.of_log hlog₂
  have hqc : ∀ k, Event.precommitQuorum (certificate k) [vote k] ∈ log k := by
    intro k
    simp [log]
  exact accountable_safety rfl hfits rfl rfl hrun₁ hrun₂ (hqc 1) (hqc 2)

end AccountableSafety

end AuraChain
