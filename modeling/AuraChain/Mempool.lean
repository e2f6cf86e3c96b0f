import AuraChain.Validation

/-! The fee-prioritized pool. Its hash maps are never iterated, so that ordered
maps stand for them, and `usize` is unbounded. The eviction loop of
`add_transaction` has fuel: without an answer it runs forever. -/

namespace AuraChain

inductive MempoolError
  | validation (e : MempoolValidationError)
  | duplicate (hash : Hash)
  | poolFull
  | insufficientRbfBump (minPercent : UInt32)
  deriving DecidableEq

structure MempoolConfig where
  maxTransactions : Nat
  maxBytes : Nat
  minRbfBumpPercent : UInt32

def MempoolConfig.default : MempoolConfig := ⟨10000, 10 * 1024 * 1024, 10⟩

structure PriorityKey where
  feePerByte : UInt64
  nonce : UInt64
  txHash : Hash
  deriving DecidableEq

namespace PriorityKey

instance : Ord PriorityKey :=
  ⟨compareLex (compareOn feePerByte) (compareLex (compareOn nonce) (compareOn txHash))⟩

instance : Std.TransOrd PriorityKey :=
  inferInstanceAs (Std.TransCmp (compareLex (compareOn feePerByte)
    (compareLex (compareOn nonce) (compareOn txHash))))

theorem compare_eq_then (a b : PriorityKey) : compare a b = (compare a.feePerByte b.feePerByte).then
    ((compare a.nonce b.nonce).then (compare a.txHash b.txHash)) := rfl

instance : Std.LawfulEqOrd PriorityKey where
  compare_self {a} := by simp
  eq_of_compare {a b} h := by
    rw [compare_eq_then, Ordering.then_eq_eq, Ordering.then_eq_eq] at h
    obtain ⟨hf, hn, ht⟩ := h
    cases a
    cases b
    simp only [Std.compare_eq_iff_eq] at hf hn ht
    rw [hf, hn, ht]

end PriorityKey

structure Mempool where
  config : MempoolConfig
  byHash : OrdMap Hash Transaction
  bySender : OrdMap Address (OrdMap UInt64 Transaction)
  priorityIndex : OrdSet PriorityKey
  totalBytes : Nat

def Transaction.priorityKey (c : Crates) (tx : Transaction) : PriorityKey :=
  ⟨tx.feePerByte, tx.nonce, tx.txHash c⟩

namespace Mempool

def new (config : MempoolConfig) : Mempool := ⟨config, ∅, ∅, ∅, 0⟩

def evictTransaction (pool : Mempool) (txHash : Hash) : Mempool × Option Transaction :=
  match pool.byHash[txHash]? with
  | none => (pool, none)
  | some tx =>
    ({ pool with
        byHash := pool.byHash.erase txHash
        priorityIndex := pool.priorityIndex.erase ⟨tx.feePerByte, tx.nonce, txHash⟩
        bySender := match pool.bySender[tx.sender]? with
          | some senderMap => pool.bySender.insert tx.sender (senderMap.erase tx.nonce)
          | none => pool.bySender
        totalBytes := pool.totalBytes - tx.sizeBytes }, some tx)

def removeCommitted (c : Crates) (pool : Mempool) (txs : List Transaction) : Mempool :=
  txs.foldl (fun pool tx => (pool.evictTransaction (tx.txHash c)).1) pool

def minRequiredFee (config : MempoolConfig) (existing : Transaction) : UInt64 :=
  existing.fee + existing.fee * config.minRbfBumpPercent.toUInt64 / 100

/-- The map of the sender is created before the fee is compared. -/
def replaceByFee (c : Crates) (pool : Mempool) (tx : Transaction) :
    Mempool × Except MempoolError Unit :=
  let senderTxs := pool.bySender.getD tx.sender ∅
  match senderTxs[tx.nonce]? with
  | none => ({ pool with bySender := pool.bySender.insert tx.sender senderTxs }, .ok ())
  | some existing =>
    if tx.fee < minRequiredFee pool.config existing then
      ({ pool with bySender := pool.bySender.insert tx.sender senderTxs },
        .error (.insufficientRbfBump pool.config.minRbfBumpPercent))
    else
      ({ pool with
          byHash := pool.byHash.erase (existing.txHash c)
          priorityIndex := pool.priorityIndex.erase (existing.priorityKey c)
          totalBytes := pool.totalBytes - existing.sizeBytes
          bySender := pool.bySender.insert tx.sender (senderTxs.erase tx.nonce) }, .ok ())

def isFull (pool : Mempool) (tx : Transaction) : Bool :=
  decide (pool.config.maxTransactions ≤ pool.byHash.size ∨
    pool.config.maxBytes < pool.totalBytes + tx.sizeBytes)

def makeRoom (tx : Transaction) : Nat → Mempool → Option (Mempool × Except MempoolError Unit)
  | 0, _ => none
  | fuel + 1, pool =>
    if pool.isFull tx then
      match pool.priorityIndex.min? with
      | none => some (pool, .error .poolFull)
      | some key =>
        if tx.feePerByte ≤ key.feePerByte then some (pool, .error .poolFull)
        else makeRoom tx fuel (pool.evictTransaction key.txHash).1
    else some (pool, .ok ())

def insertTransaction (c : Crates) (pool : Mempool) (tx : Transaction) : Mempool :=
  { pool with
    byHash := pool.byHash.insert (tx.txHash c) tx
    bySender := pool.bySender.insert tx.sender
      ((pool.bySender.getD tx.sender ∅).insert tx.nonce tx)
    priorityIndex := pool.priorityIndex.insert (tx.priorityKey c)
    totalBytes := pool.totalBytes + tx.sizeBytes }

def admitTransaction (c : Crates) (pool : Mempool) (tx : Transaction) :
    Option (Mempool × Except MempoolError Hash) :=
  match pool.replaceByFee c tx with
  | (pool, .error e) => some (pool, .error e)
  | (pool, .ok ()) =>
    match makeRoom tx (pool.byHash.size + 1) pool with
    | none => none
    | some (pool, .error e) => some (pool, .error e)
    | some (pool, .ok ()) => some (pool.insertTransaction c tx, .ok (tx.txHash c))

def addTransaction (c : Crates) (pool : Mempool) (tx : Transaction) (stateDb : StateDB) :
    Option (Mempool × Except MempoolError Hash) :=
  match validateStateless c tx with
  | .error e => some (pool, .error (.validation e))
  | .ok () =>
    if (tx.txHash c) ∈ pool.byHash then some (pool, .error (.duplicate (tx.txHash c)))
    else match validateStateful tx (stateDb.getAccount c tx.sender) with
      | .error e => some (pool, .error (.validation e))
      | .ok () => pool.admitTransaction c tx

def harvestKeys (byHash : OrdMap Hash Transaction) (maxBytes : Nat) :
    List PriorityKey → Nat → List Transaction
  | [], _ => []
  | key :: keys, currentBytes =>
    match byHash[key.txHash]? with
    | none => harvestKeys byHash maxBytes keys currentBytes
    | some tx =>
      if currentBytes + tx.sizeBytes ≤ maxBytes then
        tx :: harvestKeys byHash maxBytes keys (currentBytes + tx.sizeBytes)
      else harvestKeys byHash maxBytes keys currentBytes

def harvest (pool : Mempool) (maxBytes : Nat) : List Transaction :=
  harvestKeys pool.byHash maxBytes pool.priorityIndex.toList.reverse 0

end Mempool

end AuraChain
