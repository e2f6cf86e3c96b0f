import AuraChain.SyncSpec

/-! The commit of the engine against that of the syncer, on a block that extends
the chain. -/

namespace AuraChain

/-- Where an engine commits a block that extends the chain, a syncer is left
with the same store, whatever the order in which either writes the accounts. -/
theorem engine_commit_eq_sync {c : Crates} (hinj : Function.Injective (addressKeyHash c)) {env : Env}
    (env' : Block → Env) {engine : ConsensusEngine} {block prev : Block} {vote : Vote}
    {qc : QuorumCertificate} {r : Reply (Option QuorumCertificate)}
    (hheight : block.header.height = engine.stateDb.getLatestHeight + 1)
    (hvalid : block.validateBasic c = .ok ())
    (hprev : engine.stateDb.getBlockByHeight c engine.stateDb.getLatestHeight = some prev)
    (hlink : block.header.prevHash = prev.hash c) (hblock : engine.proposedBlock = some block)
    (hvote : vote.blockHash = block.hash c) (hr : engine.handlePrecommit c env vote = .ok r)
    (hqc : r.value = some qc) :
    ∃ result, ChainSyncer.applyBlockBatch c env' engine.stateDb [block] =
        .ok (r.engine.stateDb, result) ∧
      ((env' block).ioError = none → result = .ok block.header.height) := by
  rcases ConsensusEngine.handlePrecommit_cases hr with ⟨-, rfl⟩ | ⟨-, committed, hm, rfl⟩
  · cases hqc
  · rcases ConsensusEngine.commitMatching_cases hm with ⟨b, db, root, hb, -, hc, rfl⟩ | ⟨hno, rfl⟩
    · have he : b = block := Option.some.inj (hb.symm.trans hblock)
      subst he
      obtain ⟨result, hsync, hresult⟩ := ChainSyncer.applyBlockBatch_singleton env'
        ⟨hheight, hvalid, prev, hprev, hlink⟩
      rw [ChainSyncer.transition, ChainSyncer.foldl_applyTransaction] at hsync
      obtain ⟨blockBytes, hser, -⟩ := StateDB.writeBlock_ok (congrArg Prod.snd hc)
      refine ⟨result, ?_, fun hio => hresult (by simp [StateDB.commitFails, hser, hio])⟩
      have hsame := StateDB.commitBlock_env_irrelevant hinj (env' b) env engine.stateDb b
        (executeTransactionsSpeculative c engine.stateDb b.transactions StateOverlay.new)
      have hdb := congrArg Prod.fst hc
      simp only [ConsensusEngine.recordPrecommit] at hdb
      rw [hsync, hsame, hdb]
      rfl
    · exact absurd hvote.symm (hno block hblock)

namespace Sync

def transfer : Transaction :=
  Reference.transaction .transfer 2 (Reference.address 3) 1000 200 1

def proposal : Block :=
  Reference.block 1 ((Reference.genesisBlock [1]).hash (Reference.crates [])) 0 [transfer]

def crates : Crates := Reference.crates [Reference.genesisBlock [1], proposal]

def engine : ConsensusEngine :=
  { Reference.engine [1] 1 [Reference.genesisBlock [1], proposal] with proposedBlock := some proposal }

/-- The syncer writes the two accounts of the block in the opposite order. -/
def reversed : Env :=
  ⟨0, none, fun overlay => overlay.accounts.toList.reverse, fun _ => List.reverse_perm _⟩

theorem engine_commit_eq_sync_reversed : ∃ r, engine.handlePrecommit crates Reference.env
      (engine.ownPrecommit crates (proposal.hash crates)) = .ok r ∧
    ChainSyncer.applyBlockBatch crates (fun _ => reversed) engine.stateDb [proposal] =
      .ok (r.engine.stateDb, .ok 1) := by
  have hqc : ((engine.handlePrecommit crates Reference.env
      (engine.ownPrecommit crates (proposal.hash crates))).toOption.map
        fun r => r.value.isSome) = some true := by decide +kernel
  have hlatest : proposal.header.height = engine.stateDb.getLatestHeight + 1 := by decide +kernel
  have hvalid : proposal.validateBasic crates = .ok () := by decide +kernel
  have hprev : engine.stateDb.getBlockByHeight crates engine.stateDb.getLatestHeight =
      some (Reference.genesisBlock [1]) := by decide +kernel
  cases hr : engine.handlePrecommit crates Reference.env
      (engine.ownPrecommit crates (proposal.hash crates)) with
  | error p => simp [hr, Except.toOption] at hqc
  | ok r =>
    cases hv : r.value with
    | none => simp [hr, hv, Except.toOption] at hqc
    | some qc =>
      obtain ⟨result, hsync, hresult⟩ := engine_commit_eq_sync
        (Reference.addressKeyHash_injective _) (fun _ => reversed) hlatest hvalid hprev rfl rfl rfl hr hv
      rw [hresult rfl] at hsync
      exact ⟨r, rfl, hsync⟩

end Sync

end AuraChain
