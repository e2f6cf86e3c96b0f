import AuraChain.SyncChain

/-! What a syncer asks of the blocks that it commits. It reads neither the
signature of a header nor the certificate of a block, so that it commits
finalized blocks only as far as the peer offers no others. -/

namespace AuraChain

namespace StateDB

def totalStake (c : Crates) (db : StateDB) : Nat :=
  ((db.getValidators c).map fun v => v.2.stakedAmount.toNat).sum

def stakeOf (c : Crates) (db : StateDB) (addresses : List Address) : Nat :=
  (((db.getValidators c).filter fun v => v.1 ∈ addresses).map fun v => v.2.stakedAmount.toNat).sum

structure Certifies (c : Crates) (parent : StateDB) (header : BlockHeader) (qc : QuorumCertificate) :
    Prop where
  blockHash : qc.blockHash = header.prevHash
  height : qc.height = header.height - 1
  quorum : ∃ votes : List Vote, votes.Sublist qc.votes ∧ (votes.map Vote.validator).Nodup ∧
    (∀ v ∈ votes, v.verify c = .ok () ∧ ∃ acc, (v.validator, acc) ∈ parent.getValidators c) ∧
    2 * parent.totalStake c < 3 * parent.stakeOf c (votes.map Vote.validator)

/-- The block is signed by its proposer and, from height two on, carries a
certificate for its parent. -/
structure Finalizes (c : Crates) (parent : StateDB) (block : Block) : Prop where
  signed : ∃ acc key, (block.header.proposer, acc) ∈ parent.getValidators c ∧
    acc.validatorPubkey = some key ∧ block.header.verifySignature c key = .ok ()
  certified : 2 ≤ block.header.height →
    ∃ qc, block.lastCommitQc = some qc ∧ parent.Certifies c block.header qc

end StateDB

namespace ChainSyncer

/-- After the blocks `pre` of a batch the next one moves the store on from the
state `parent`. -/
def Commits (c : Crates) (env : Block → Env) (db : StateDB) (pre : List Block) (block : Block)
    (parent : StateDB) : Prop :=
  ∃ height db' result, applyBlockBatch c env db pre = .ok (parent, .ok height) ∧
    applyBlockBatch c env db (pre ++ [block]) = .ok (db', result) ∧
    db'.getLatestHeight ≠ parent.getLatestHeight

variable {c : Crates} {env : Block → Env} {db parent : StateDB} {pre post : List Block} {block : Block}
  {latestHeight height : UInt64}

theorem applyBlocks_append (post : List Block)
    (h : applyBlocks c env pre latestHeight db = .ok (parent, .ok height)) :
    applyBlocks c env (pre ++ post) latestHeight db = applyBlocks c env post height parent := by
  induction pre generalizing latestHeight db with
  | nil =>
    cases h
    rfl
  | cons b pre ih =>
    rw [applyBlocks] at h
    rw [List.cons_append, applyBlocks]
    split_ifs at h ⊢ with hheight
    · exact ih h
    · cases hvalid : b.validateBasic c with
      | error e => simp [hvalid] at h
      | ok _ =>
        cases hprev : db.getBlockByHeight c latestHeight with
        | none => simp [hvalid, hprev] at h
        | some prev =>
          simp only [hvalid, hprev] at h ⊢
          split_ifs at h ⊢ with hlink
          · simp at h
          · cases hcommit : db.commitBlock c (env b) b
                (b.transactions.foldl (applyTransaction c db) StateOverlay.new) with
            | mk db' outcome =>
              cases outcome with
              | error e => simp [hcommit] at h
              | ok root =>
                simp only [hcommit] at h ⊢
                exact ih h

theorem applyBlockBatch_append (post : List Block)
    (h : applyBlockBatch c env db pre = .ok (parent, .ok height)) :
    applyBlockBatch c env db (pre ++ post) = applyBlockBatch c env parent post := by
  have hheight := (applyBlockBatch_invariant (P := fun _ => True) trivial
    (fun _ _ _ _ _ => trivial) h).2 height rfl
  rw [applyBlockBatch, applyBlocks_append post h, hheight]
  rfl

theorem transition_moves_iff (e : Env) (h : db.Extends c block) :
    (transition c e db block).1.getLatestHeight ≠ db.getLatestHeight ↔
      (c.serializeBlock block).isSome = true := by
  have hne : db.getLatestHeight + 1 ≠ db.getLatestHeight := by simp
  rw [transition, StateDB.commitBlock, StateDB.writeBlock_getLatestHeight, h.height]
  split_ifs with hs <;> simp [hs, hne]

theorem applyBlockBatch_refused (h : ¬ db.Extends c block) {db' : StateDB}
    {result : Except SyncError UInt64} (hr : applyBlockBatch c env db [block] = .ok (db', result)) :
    db' = db := by
  have hturn := applyBlockBatch_turn c env db block []
  rw [hr] at hturn
  generalize he : (Except.ok (db', result) : Except Panic _) = r at hturn
  cases hturn with
  | skipped _ =>
    cases he
    rfl
  | rejected e _ =>
    cases he
    rfl
  | orphaned _ => cases he
  | failed hextends _ => exact absurd hextends h
  | committed hextends _ => exact absurd hextends h

/-- A block is committed when its turn comes and it extends the chain, whoever
has signed it and whatever it carries. -/
theorem commits_iff : Commits c env db pre block parent ↔
    (∃ height, applyBlockBatch c env db pre = .ok (parent, .ok height)) ∧ parent.Extends c block ∧
      (c.serializeBlock block).isSome = true := by
  constructor
  · rintro ⟨height, db', result, hpre, hnext, hmoved⟩
    rw [applyBlockBatch_append [block] hpre] at hnext
    by_cases hextends : parent.Extends c block
    · obtain ⟨outcome, hsingle, -⟩ := applyBlockBatch_singleton env hextends
      rw [hsingle] at hnext
      cases hnext
      exact ⟨⟨height, hpre⟩, hextends, (transition_moves_iff _ hextends).mp hmoved⟩
    · rw [applyBlockBatch_refused hextends hnext] at hmoved
      exact absurd rfl hmoved
  · rintro ⟨⟨height, hpre⟩, hextends, hs⟩
    obtain ⟨outcome, hsingle, -⟩ := applyBlockBatch_singleton env hextends
    rw [← applyBlockBatch_append [block] hpre] at hsingle
    exact ⟨height, _, outcome, hpre, hsingle, (transition_moves_iff _ hextends).mpr hs⟩

theorem extends_withoutCertificate (h : parent.Extends c block) :
    parent.Extends c { block with lastCommitQc := none } where
  height := h.height
  valid := h.valid
  linked := h.linked

/-- From height two on, a block with its certificate taken away is committed in
the place of the block. -/
theorem commits_withoutCertificate (h : Commits c env db pre block parent)
    (hheight : 2 ≤ block.header.height)
    (hs : (c.serializeBlock { block with lastCommitQc := none }).isSome = true) :
    Commits c env db pre { block with lastCommitQc := none } parent ∧
      ¬ parent.Finalizes c { block with lastCommitQc := none } := by
  obtain ⟨hpre, hextends, -⟩ := commits_iff.mp h
  refine ⟨commits_iff.mpr ⟨hpre, extends_withoutCertificate hextends, hs⟩, fun hfinal => ?_⟩
  obtain ⟨qc, hqc, -⟩ := hfinal.certified hheight
  cases hqc

/-- Every block that a batch commits is finalized exactly where every block of
it is that, when its turn comes, extends the chain and can be serialized. -/
theorem commits_finalized_iff (c : Crates) (env : Block → Env) (db : StateDB) (blocks : List Block) :
    (∀ pre block post parent, blocks = pre ++ block :: post → Commits c env db pre block parent →
        parent.Finalizes c block) ↔
      ∀ pre block post parent height, blocks = pre ++ block :: post →
        applyBlockBatch c env db pre = .ok (parent, .ok height) → parent.Extends c block →
        (c.serializeBlock block).isSome = true → parent.Finalizes c block := by
  constructor
  · intro h pre block post parent height hblocks hpre hextends hs
    exact h pre block post parent hblocks (commits_iff.mpr ⟨⟨height, hpre⟩, hextends, hs⟩)
  · intro h pre block post parent hblocks hcommits
    obtain ⟨⟨height, hpre⟩, hextends, hs⟩ := commits_iff.mp hcommits
    exact h pre block post parent height hblocks hpre hextends hs

end ChainSyncer

namespace SyncChecks

def genesisDb : StateDB := Reference.stateDb [1] SyncChain.blocks

def env (_ : Block) : Env := Reference.env

def nextDb : StateDB :=
  (ChainSyncer.transition SyncChain.crates Reference.env genesisDb SyncChain.first).1

theorem first_extends : genesisDb.Extends SyncChain.crates SyncChain.first where
  height := by decide +kernel
  valid := by decide +kernel
  linked := ⟨Reference.genesisBlock [1], by decide +kernel, by decide +kernel⟩

theorem second_extends : nextDb.Extends SyncChain.crates SyncChain.second where
  height := by decide +kernel
  valid := by decide +kernel
  linked := ⟨SyncChain.first, by decide +kernel, by decide +kernel⟩

/-- The signature of block 1 is zero, and block 2 has no certificate. -/
theorem commits_unfinalized :
    ChainSyncer.Commits SyncChain.crates env genesisDb [] SyncChain.first genesisDb ∧
    ¬ genesisDb.Finalizes SyncChain.crates SyncChain.first ∧
    ChainSyncer.Commits SyncChain.crates env genesisDb [SyncChain.first] SyncChain.second nextDb ∧
    ¬ nextDb.Finalizes SyncChain.crates SyncChain.second := by
  have hstore : genesisDb.commitFails SyncChain.crates Reference.env SyncChain.first = false := by
    decide +kernel
  have hvalidators : genesisDb.getValidators SyncChain.crates =
      [(Reference.address 1, ⟨0, 0, 1000000, true, some (Reference.secretKey 1)⟩)] := by
    decide +kernel
  have hsignature : SyncChain.first.header.verifySignature SyncChain.crates (Reference.secretKey 1) =
      .error .invalidSignature := by decide +kernel
  have hserializes : (SyncChain.crates.serializeBlock SyncChain.second).isSome = true := by
    decide +kernel
  obtain ⟨result, hfirst, hresult⟩ := ChainSyncer.applyBlockBatch_singleton env first_extends
  rw [hresult hstore] at hfirst
  refine ⟨ChainSyncer.commits_iff.mpr ⟨⟨_, rfl⟩, first_extends, by decide +kernel⟩, ?_,
    ChainSyncer.commits_iff.mpr ⟨⟨_, hfirst⟩, second_extends, hserializes⟩, ?_⟩
  · intro hfinal
    obtain ⟨acc, key, hmem, hkey, hverify⟩ := hfinal.signed
    rw [hvalidators, List.mem_singleton, Prod.mk.injEq] at hmem
    rw [hmem.2, Option.some.injEq] at hkey
    rw [← hkey, hsignature] at hverify
    cases hverify
  · intro hfinal
    obtain ⟨qc, hqc, -⟩ := hfinal.certified (by decide)
    cases hqc

end SyncChecks

end AuraChain
