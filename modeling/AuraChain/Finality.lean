import AuraChain.EngineSpec
import AuraChain.Reference

/-! The height of the engine against the height of its store. A quorum advances
the height; it commits only the stored proposal, if that is the block it names. -/

namespace AuraChain

namespace ConsensusEngine

def quorumHeld (c : Crates) (engine : ConsensusEngine) (vote : Vote) : Prop :=
  engine.completesPrecommit c vote = true →
    engine.proposedBlock.map (Block.hash c) = some vote.blockHash

def finalizesHeld (c : Crates) (engine : ConsensusEngine) : Call → Prop
  | .handlePrecommit _ vote => engine.quorumHeld c vote
  | .handlePrevote _ vote => engine.completesPrevote c vote = true →
      quorumHeld c { engine.recordPrevote vote with step := .preCommit }
        (engine.ownPrecommit c vote.blockHash)
  | _ => True

instance (c : Crates) (engine : ConsensusEngine) (vote : Vote) : Decidable (engine.quorumHeld c vote) :=
  inferInstanceAs (Decidable (_ → _))

instance (c : Crates) (engine : ConsensusEngine) (call : Call) :
    Decidable (engine.finalizesHeld c call) :=
  match call with
  | .createProposal _ => isTrue trivial
  | .handleProposal .. => isTrue trivial
  | .handlePrevote .. => inferInstanceAs (Decidable (_ → quorumHeld ..))
  | .handlePrecommit _ vote => inferInstanceAs (Decidable (engine.quorumHeld c vote))
  | .poolChanged _ => isTrue trivial

structure InStep (c : Crates) (engine : ConsensusEngine) : Prop where
  height : engine.currentHeight = engine.stateDb.getLatestHeight + 1
  stored : (engine.stateDb.getBlockByHeight c engine.stateDb.getLatestHeight).isSome = true
  proposal : ∀ block, engine.proposedBlock = some block → block.header.height = engine.currentHeight

/-- Every certificate among the events names the block stored at its height. -/
def Stores (c : Crates) (db : StateDB) (log : List Event) : Prop :=
  ∀ qc counted, Event.precommitQuorum qc counted ∈ log →
    ∃ block, db.getBlockByHeight c qc.height = some block ∧ block.hash c = qc.blockHash

variable {c : Crates} {env : Env} {engine : ConsensusEngine} {vote : Vote}

theorem InStep.handlePrecommit (hrt : c.BlockRoundTrip) (h : engine.InStep c)
    (hheld : engine.quorumHeld c vote) {r : Reply (Option QuorumCertificate)}
    (hr : engine.handlePrecommit c env vote = .ok r) :
    r.engine.InStep c ∧ Stores c r.engine.stateDb r.log := by
  rcases handlePrecommit_cases hr with ⟨-, rfl⟩ | ⟨hq, committed, hm, rfl⟩
  · refine ⟨⟨h.height, h.stored, h.proposal⟩, fun qc counted hmem => ?_⟩
    simp at hmem
  · have hproposal := hheld hq
    rcases commitMatching_cases hm with ⟨block, db, root, hb, hhash, hc, rfl⟩ | ⟨hno, rfl⟩
    · have hblock : block.header.height = engine.currentHeight := h.proposal block hb
      have hlatest := StateDB.writeBlock_latest hrt (congrArg Prod.snd hc)
      have hdb := congrArg Prod.fst hc
      simp only [StateDB.commitBlock] at hdb
      rw [hdb, hblock] at hlatest
      refine ⟨⟨?_, ?_, by simp [ConsensusEngine.advance]⟩, fun qc counted hmem => ?_⟩
      · simp only [ConsensusEngine.advance, recordPrecommit, hlatest.1]
      · simp only [ConsensusEngine.advance, hlatest.1, hlatest.2, Option.isSome_some]
      · simp only [List.mem_cons, reduceCtorEq, Event.precommitQuorum.injEq, List.not_mem_nil,
          or_false, false_or] at hmem
        obtain ⟨rfl, -⟩ := hmem
        exact ⟨block, hlatest.2, hhash⟩
    · obtain ⟨block, hb, hhash⟩ := Option.map_eq_some_iff.mp hproposal
      exact absurd hhash (hno block hb)

theorem InStep.handlePrevote (hrt : c.BlockRoundTrip) (h : engine.InStep c)
    (hheld : engine.completesPrevote c vote = true →
      quorumHeld c { engine.recordPrevote vote with step := .preCommit }
        (engine.ownPrecommit c vote.blockHash))
    {r : Reply (Option Vote)} (hr : engine.handlePrevote c env vote = .ok r) :
    r.engine.InStep c ∧ Stores c r.engine.stateDb r.log := by
  rcases handlePrevote_cases hr with ⟨-, rfl⟩ | ⟨hq, inner, hi, rfl⟩
  · refine ⟨⟨h.height, h.stored, h.proposal⟩, fun qc counted hmem => ?_⟩
    simp at hmem
  · have hmid : InStep c { engine.recordPrevote vote with step := .preCommit } :=
      ⟨h.height, h.stored, h.proposal⟩
    obtain ⟨hlast, hstores⟩ := hmid.handlePrecommit hrt (hheld hq) hi
    refine ⟨hlast, fun qc counted hmem => hstores qc counted ?_⟩
    simpa using hmem

theorem InStep.handleProposal (hrt : c.BlockRoundTrip) (h : engine.InStep c) {block : Block}
    {r : Reply (Except ConsensusError Vote)} (hr : engine.handleProposal c env block = .ok r) :
    r.engine.InStep c ∧ Stores c r.engine.stateDb r.log := by
  rcases handleProposal_cases hr with ⟨-, rfl⟩ | ⟨ha, inner, hi, rfl⟩
  · refine ⟨h, fun qc counted hmem => ?_⟩
    simp at hmem
  · have hblock : block.header.height = engine.currentHeight := (of_decide_eq_true ha).1
    have hmid : InStep c { engine with proposedBlock := some block, step := .preVote } := by
      refine ⟨h.height, h.stored, fun b hb => ?_⟩
      rw [← Option.some.inj hb]
      exact hblock
    obtain ⟨hlast, hstores⟩ := hmid.handlePrevote hrt (fun _ _ => rfl) hi
    refine ⟨hlast, fun qc counted hmem => hstores qc counted ?_⟩
    simpa using hmem

theorem InStep.createProposal (h : engine.InStep c) {r : Reply (Except ConsensusError Block)}
    (hr : engine.createProposal c env = .ok r) :
    r.engine.InStep c ∧ Stores c r.engine.stateDb r.log := by
  rcases createProposal_cases hr with ⟨e, rfl⟩ | ⟨-, block, hblock, -, rfl⟩
  · refine ⟨h, fun qc counted hmem => ?_⟩
    simp at hmem
  · refine ⟨⟨h.height, h.stored, fun b hb => ?_⟩, fun qc counted hmem => ?_⟩
    · rw [← Option.some.inj hb]
      exact hblock
    · simp at hmem

theorem InStep.call (hrt : c.BlockRoundTrip) (h : engine.InStep c) {call : Call}
    (hcall : engine.finalizesHeld c call) {engine' : ConsensusEngine} {out : List Event}
    (hn : engine.next c call = some (engine', out)) :
    engine'.InStep c ∧ Stores c engine'.stateDb out := by
  cases next_returns hn with
  | createProposal hr => exact h.createProposal hr
  | handleProposal hr => exact h.handleProposal hrt hr
  | handlePrevote hr => exact h.handlePrevote hrt hcall hr
  | handlePrecommit hr => exact h.handlePrecommit hrt hcall hr
  | poolChanged mempool =>
    refine ⟨⟨h.height, h.stored, h.proposal⟩, fun qc counted hmem => ?_⟩
    simp at hmem

theorem InStep.no_panic (h : engine.InStep c) (env : Env) :
    engine.createProposal c env ≠ .error .previousBlockMustExist := by
  have hprev : engine.currentHeight - 1 = engine.stateDb.getLatestHeight := by
    rw [h.height, UInt64.add_sub_cancel]
  obtain ⟨prev, hb⟩ := Option.isSome_iff_exists.mp h.stored
  unfold ConsensusEngine.createProposal
  dsimp only
  rw [hprev, hb]
  cases selectProposer c engine.currentHeight engine.currentRound (engine.getActiveValidators c) with
  | none => simp
  | some proposer =>
    simp only
    split_ifs
    · simp
    · cases (engine.proposalHeader c env prev (engine.mempool.harvest (1024 * 1024))).sign c
        engine.keypair <;> simp

end ConsensusEngine

open ConsensusEngine in
/-- As long as quorums are for the stored proposal, the engine is one height
ahead of its store, certificates name stored blocks, and the previous block of
a proposal exists. -/
theorem certificates_stored {c : Crates} (hrt : c.BlockRoundTrip) {ioError : Option StorageError}
    {db : StateDB} {genesis : GenesisConfig} {root : Hash}
    (hgenesis : (db.applyGenesis c ioError genesis).2 = .ok root) {keypair : SecretKey}
    {mempool : Mempool} {chainId : Bytes} {engine : ConsensusEngine} {log : List Event}
    (hrun : EngineRun c (finalizesHeld c)
      (ConsensusEngine.new c keypair (db.applyGenesis c ioError genesis).1 mempool chainId, [])
      (engine, log)) :
    engine.currentHeight = engine.stateDb.getLatestHeight + 1 ∧
      (∀ env, engine.createProposal c env ≠ .error .previousBlockMustExist) ∧
      ∀ call engine' out, engine.finalizesHeld c call → engine.next c call = some (engine', out) →
        Stores c engine'.stateDb out := by
  have hlatest := StateDB.writeBlock_latest hrt hgenesis
  have hinit : InStep c
      (ConsensusEngine.new c keypair (db.applyGenesis c ioError genesis).1 mempool chainId) := by
    refine ⟨rfl, ?_, by simp [new]⟩
    simp only [new, StateDB.applyGenesis, hlatest.1, hlatest.2, Option.isSome_some]
  have hinv : engine.InStep c := by
    refine TracedRun.invariant (P := fun engine _ => engine.InStep c) hrun hinit ?_
    intro s l call t out hs hcall hn
    exact (hs.call hrt hcall hn).1
  exact ⟨hinv.height, hinv.no_panic, fun call engine' out hcall hn => (hinv.call hrt hcall hn).2⟩

namespace Finality

def proposal : Block :=
  Reference.block 1 ((Reference.genesisBlock [1]).hash (Reference.crates [])) 0 []

def crates : Crates := Reference.crates [Reference.genesisBlock [1], proposal]

def engine : ConsensusEngine := Reference.engine [1] 1 [Reference.genesisBlock [1], proposal]

theorem certificates_stored_commit : ∃ t : ConsensusEngine,
    t.currentHeight = t.stateDb.getLatestHeight + 1 ∧ t.stateDb.getLatestHeight = 1 ∧
      ∀ env, t.createProposal crates env ≠ .error .previousBlockMustExist := by
  have hheight : (runAll (ConsensusEngine.next crates) (ConsensusEngine.finalizesHeld crates) engine
      [.handleProposal Reference.env proposal]).map (fun r => r.1.stateDb.getLatestHeight) =
      some 1 := by decide +kernel
  have hgenesis : (((StateDB.openInMemory crates).applyGenesis crates none
      (Reference.genesis [1])).2).toOption.isSome = true := by decide +kernel
  obtain ⟨⟨t, log⟩, hrun, ht⟩ := TracedRun.of_map hheight
  cases hg : ((StateDB.openInMemory crates).applyGenesis crates none (Reference.genesis [1])).2 with
  | error e => simp [hg, Except.toOption] at hgenesis
  | ok root =>
    have hstored := certificates_stored (Reference.blockRoundTrip _) hg hrun
    exact ⟨t, hstored.1, ht, hstored.2.1⟩

/-- A precommit of the only validator that comes before the proposal advances
the height over a store that has no block there. -/
theorem quorum_without_block : ¬ ∀ t log, EngineRun crates (fun _ _ => True) (engine, []) (t, log) →
    t.currentHeight = t.stateDb.getLatestHeight + 1 := by
  intro hall
  have hheights : (runAll (ConsensusEngine.next crates) (fun _ _ => True) engine
      [.handlePrecommit Reference.env (engine.ownPrecommit crates Hash.zero)]).map
      (fun r => (r.1.currentHeight, r.1.stateDb.getLatestHeight)) = some (2, 0) := by decide +kernel
  obtain ⟨⟨t, log⟩, hrun, ht⟩ := TracedRun.of_map hheights
  obtain ⟨hcurrent, hlatest⟩ := Prod.mk.injEq .. ▸ ht
  have heq := hall t log hrun
  simp only at hcurrent hlatest
  rw [hcurrent, hlatest] at heq
  exact absurd heq (by decide)

end Finality

end AuraChain
