import AuraChain.EngineSpec
import AuraChain.Reference

/-! The chain syncer, which executes blocks by a second copy of the executor.
Every block of a batch meets its own `Env`. -/

namespace AuraChain

inductive SyncError
  | primitive (e : PrimitiveError)
  | storage (e : StorageError)
  | invalidBlockLink (height : UInt64)
  deriving DecidableEq

namespace ChainSyncer

def applyTransaction (c : Crates) (stateDb : StateDB) (overlay : StateOverlay) (tx : Transaction) :
    StateOverlay :=
  let senderAcc := overlay.getAccount c tx.sender stateDb
  let totalDeduct := tx.amount + tx.fee
  let senderAcc := { senderAcc with
    balance := senderAcc.balance.saturatingSub totalDeduct, nonce := senderAcc.nonce + 1 }
  let (senderAcc, overlay) := match tx.txType with
    | .transfer =>
      let recipientAcc := overlay.getAccount c tx.recipient stateDb
      (senderAcc, overlay.setAccount tx.recipient
        { recipientAcc with balance := recipientAcc.balance.saturatingAdd tx.amount })
    | .registerValidator =>
      ({ senderAcc with
        isValidator := true
        validatorPubkey := some tx.pubkey
        stakedAmount := senderAcc.stakedAmount.saturatingAdd tx.amount }, overlay)
    | .stake =>
      ({ senderAcc with stakedAmount := senderAcc.stakedAmount.saturatingAdd tx.amount }, overlay)
    | .unstake =>
      ({ senderAcc with
        stakedAmount := senderAcc.stakedAmount.saturatingSub tx.amount
        balance := senderAcc.balance.saturatingAdd tx.amount }, overlay)
  overlay.setAccount tx.sender senderAcc

def applyBlocks (c : Crates) (env : Block → Env) :
    List Block → UInt64 → StateDB → Except Panic (StateDB × Except SyncError UInt64)
  | [], latestHeight, stateDb => .ok (stateDb, .ok latestHeight)
  | block :: rest, latestHeight, stateDb =>
    if block.header.height ≠ latestHeight + 1 then applyBlocks c env rest latestHeight stateDb
    else match block.validateBasic c with
      | .error e => .ok (stateDb, .error (.primitive e))
      | .ok () =>
        match stateDb.getBlockByHeight c latestHeight with
        | none => .error .previousBlockMustExist
        | some prevBlock =>
          if block.header.prevHash ≠ prevBlock.hash c then
            .ok (stateDb, .error (.invalidBlockLink block.header.height))
          else match stateDb.commitBlock c (env block) block
              (block.transactions.foldl (applyTransaction c stateDb) StateOverlay.new) with
            | (stateDb', .error e) => .ok (stateDb', .error (.storage e))
            | (stateDb', .ok _) => applyBlocks c env rest block.header.height stateDb'

def applyBlockBatch (c : Crates) (env : Block → Env) (stateDb : StateDB) (blocks : List Block) :
    Except Panic (StateDB × Except SyncError UInt64) :=
  applyBlocks c env blocks stateDb.getLatestHeight stateDb

def verifyLightClientProof (c : Crates) (blockHeaderMerkleRoot : Hash) (tx : Transaction)
    (proof : MerkleProof) : Bool :=
  proof.verify c blockHeaderMerkleRoot (tx.txHash c).bytes

theorem applyTransaction_eq (c : Crates) (stateDb : StateDB) (overlay : StateOverlay)
    (tx : Transaction) :
    applyTransaction c stateDb overlay tx = executeTransaction c stateDb overlay tx := by
  cases ht : tx.txType <;> simp [applyTransaction, executeTransaction, ht, Account.debit]

theorem foldl_applyTransaction (c : Crates) (stateDb : StateDB) (txs : List Transaction)
    (overlay : StateOverlay) : txs.foldl (applyTransaction c stateDb) overlay =
      executeTransactionsSpeculative c stateDb txs overlay := by
  induction txs generalizing overlay with
  | nil => rfl
  | cons tx txs ih =>
    rw [List.foldl_cons, ih, applyTransaction_eq]
    rfl

end ChainSyncer

end AuraChain
