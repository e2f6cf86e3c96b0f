import AuraChain.EngineLocks
import AuraChain.MempoolRejection

/-! The guards that the calls of the pool take. The counter is written while the
guard of its own reading lives to the end of the statement, once where a
transaction is replaced and once where one is evicted. -/

namespace AuraChain

open LockScope

namespace Mempool

def replaceByFeeLocks (pool : Mempool) (tx : Transaction) : LockScript :=
  .hold .bySender .write <| match pool.slot tx.sender tx.nonce with
    | none => .skip
    | some existing =>
      if tx.fee < minRequiredFee pool.config existing then .skip
      else .block [.touch .byHash .write, .touch .priorityIndex .write,
        .hold .totalBytes .read (.touch .totalBytes .write)]

def makeRoomLocks (tx : Transaction) : Nat → Mempool → LockScript
  | 0, _ => .skip
  | fuel + 1, pool =>
    .block [.touch .byHash .read,
      if pool.config.maxTransactions ≤ pool.byHash.size then .skip else .touch .totalBytes .read,
      if pool.isFull tx then
        .block [.touch .priorityIndex .read,
          match pool.priorityIndex.min? with
          | none => .skip
          | some key =>
            if tx.feePerByte ≤ key.feePerByte then .skip
            else .block [pool.evictTransactionLocks key.txHash,
              makeRoomLocks tx fuel (pool.evictTransaction key.txHash).1]]
      else .skip]

def insertTransactionLocks : LockScript :=
  .block [.touch .byHash .write, .touch .bySender .write, .touch .priorityIndex .write,
    .touch .totalBytes .write]

def admitTransactionLocks (c : Crates) (pool : Mempool) (tx : Transaction) : LockScript :=
  .block [pool.replaceByFeeLocks tx,
    match pool.replaceByFee c tx with
    | (_, .error _) => .skip
    | (pool, .ok ()) =>
      .block [makeRoomLocks tx (pool.byHash.size + 1) pool,
        match makeRoom tx (pool.byHash.size + 1) pool with
        | some (_, .ok ()) => insertTransactionLocks
        | _ => .skip]]

def addTransactionLocks (c : Crates) (pool : Mempool) (tx : Transaction) (stateDb : StateDB) :
    LockScript :=
  match validateStateless c tx with
  | .error _ => .skip
  | .ok () =>
    .block [.touch .byHash .read,
      if (tx.txHash c) ∈ pool.byHash then .skip
      else .block [readStore,
        match validateStateful tx (stateDb.getAccount c tx.sender) with
        | .error _ => .skip
        | .ok () => pool.admitTransactionLocks c tx]]

end Mempool

namespace PoolCall

open Mempool

def locks (c : Crates) (pool : Mempool) : PoolCall → LockScript
  | .addTransaction tx stateDb => pool.addTransactionLocks c tx stateDb
  | .harvest _ => harvestLocks
  | .removeCommitted txs => pool.removeCommittedLocks c txs
  | .evictTransaction txHash => pool.evictTransactionLocks txHash

/-- The call removes a pooled transaction, be it to replace it or to make room. -/
def removes (c : Crates) (pool : Mempool) : PoolCall → Prop
  | .addTransaction tx stateDb => PassesChecks c pool tx stateDb ∧
      ((∃ existing, pool.slot tx.sender tx.nonce = some existing ∧
          ¬ tx.fee < minRequiredFee pool.config existing) ∨
        pool.slot tx.sender tx.nonce = none ∧ pool.isFull tx = true ∧
          ∃ t ∈ pool.pooled, t.feePerByte < tx.feePerByte)
  | .harvest _ => False
  | .removeCommitted txs => ∃ tx ∈ txs, tx.txHash c ∈ pool.byHash
  | .evictTransaction txHash => txHash ∈ pool.byHash

end PoolCall

namespace Mempool

variable {c : Crates} {config : MempoolConfig} {pool : Mempool} {tx : Transaction}
  {stateDb : StateDB}

theorem evictTransactionLocks_blocked {txHash : Hash} (h : txHash ∈ pool.byHash) :
    (pool.evictTransactionLocks txHash).run [] = .blocked := by
  rw [evictTransactionLocks, if_pos h, Script.run_block_cons rfl, Script.run_block_singleton,
    Script.run_block_cons rfl, Script.run_block_cons rfl, Script.run_block_singleton]
  rfl

theorem evictTransactionLocks_done {txHash : Hash} (h : txHash ∉ pool.byHash) :
    (pool.evictTransactionLocks txHash).run [] = .done := by
  rw [evictTransactionLocks, if_neg h]
  rfl

theorem evictTransaction_absent {txHash : Hash} (h : txHash ∉ pool.byHash) :
    (pool.evictTransaction txHash).1 = pool := by
  rw [evictTransaction, Std.ExtTreeMap.getElem?_eq_none h]

theorem removeCommittedLocks_blocked_iff (pool : Mempool) (txs : List Transaction) :
    (pool.removeCommittedLocks c txs).run [] = .blocked ↔ ∃ tx ∈ txs, tx.txHash c ∈ pool.byHash := by
  induction txs with
  | nil => simp [removeCommittedLocks]
  | cons t txs ih =>
    rw [removeCommittedLocks, List.exists_mem_cons_iff]
    by_cases ht : t.txHash c ∈ pool.byHash
    · rw [Script.run_block_stuck (evictTransactionLocks_blocked ht)]
      simp [ht]
    · rw [Script.run_block_cons (evictTransactionLocks_done ht), Script.run_block_singleton,
        evictTransaction_absent ht, ih]
      simp [ht]

theorem replaceByFeeLocks_done (h : ∀ existing, pool.slot tx.sender tx.nonce = some existing →
    tx.fee < minRequiredFee pool.config existing) : (pool.replaceByFeeLocks tx).run [] = .done := by
  rw [replaceByFeeLocks, Script.run_hold rfl]
  cases hslot : pool.slot tx.sender tx.nonce with
  | none => rfl
  | some existing => simp only [if_pos (h existing hslot), Script.run_skip]

theorem replaceByFeeLocks_blocked {existing : Transaction}
    (hslot : pool.slot tx.sender tx.nonce = some existing)
    (hbump : ¬ tx.fee < minRequiredFee pool.config existing) :
    (pool.replaceByFeeLocks tx).run [] = .blocked := by
  rw [replaceByFeeLocks, Script.run_hold rfl]
  simp only [hslot, if_neg hbump]
  rw [Script.run_block_cons rfl, Script.run_block_cons rfl, Script.run_block_singleton]
  rfl

theorem makeRoomLocks_turn (fuel : Nat) (pool : Mempool) (tx : Transaction) :
    (makeRoomLocks tx (fuel + 1) pool).run [] =
      (if pool.isFull tx then
        match pool.priorityIndex.min? with
        | none => .skip
        | some key =>
          if tx.feePerByte ≤ key.feePerByte then .skip
          else .block [pool.evictTransactionLocks key.txHash,
            makeRoomLocks tx fuel (pool.evictTransaction key.txHash).1]
      else Script.skip).run [] := by
  have hcount : (if pool.config.maxTransactions ≤ pool.byHash.size then Script.skip
      else .touch LockId.totalBytes .read).run [] = .done := by
    split_ifs <;> rfl
  rw [makeRoomLocks, Script.run_block_cons rfl, Script.run_block_cons hcount,
    Script.run_block_singleton]
  by_cases hfull : pool.isFull tx = true
  · rw [if_pos hfull, if_pos hfull, Script.run_block_cons rfl, Script.run_block_singleton]
  · rw [if_neg hfull, if_neg hfull]

/-- The first eviction already blocks, so that the loop never takes a second turn. -/
theorem makeRoomLocks_blocked (h : pool.Exact c config) (fuel : Nat) (hfull : pool.isFull tx = true)
    {t : Transaction} (ht : t ∈ pool.pooled) (hcheap : t.feePerByte < tx.feePerByte) :
    (makeRoomLocks tx (fuel + 1) pool).run [] = .blocked := by
  rw [makeRoomLocks_turn, if_pos hfull]
  cases hmin : pool.priorityIndex.min? with
  | none =>
    rw [h.empty hmin] at ht
    cases ht
  | some key =>
    obtain ⟨⟨u, hu, hkey⟩, hlowest⟩ := h.lowest hmin
    have hfee : ¬ tx.feePerByte ≤ key.feePerByte :=
      UInt64.not_le.mpr (UInt64.lt_of_le_of_lt (hlowest t ht) hcheap)
    have hpooled : key.txHash ∈ pool.byHash := by
      rw [← hkey, Std.ExtTreeMap.mem_iff_isSome_getElem?]
      exact Option.isSome_of_eq_some ((mem_pooled h.consistent).mp hu)
    simp only [if_neg hfee]
    exact Script.run_block_stuck (evictTransactionLocks_blocked hpooled)

theorem makeRoomLocks_done (h : pool.Exact c config) (fuel : Nat)
    (hstay : pool.isFull tx = true → ∀ t ∈ pool.pooled, tx.feePerByte ≤ t.feePerByte) :
    (makeRoomLocks tx (fuel + 1) pool).run [] = .done := by
  rw [makeRoomLocks_turn]
  split_ifs with hfull
  · cases hmin : pool.priorityIndex.min? with
    | none => rfl
    | some key =>
      obtain ⟨⟨u, hu, hkey⟩, -⟩ := h.lowest hmin
      have hfee : tx.feePerByte ≤ key.feePerByte := hkey ▸ hstay hfull u hu
      simp only [if_pos hfee, Script.run_skip]
  · rfl

theorem admitTransactionLocks_blocked_iff (h : pool.Exact c config) (tx : Transaction) :
    (pool.admitTransactionLocks c tx).run [] = .blocked ↔
      (∃ existing, pool.slot tx.sender tx.nonce = some existing ∧
          ¬ tx.fee < minRequiredFee pool.config existing) ∨
        pool.slot tx.sender tx.nonce = none ∧ pool.isFull tx = true ∧
          ∃ t ∈ pool.pooled, t.feePerByte < tx.feePerByte := by
  rw [admitTransactionLocks]
  rcases replaceByFee_cases h.consistent tx with
    ⟨hslot, he⟩ | ⟨existing, hslot, ⟨hlow, he⟩ | ⟨hbump, -⟩⟩
  · have hreplace : (pool.replaceByFeeLocks tx).run [] = .done :=
      replaceByFeeLocks_done (by simp [hslot])
    have hw := h.withSender tx.sender
    rw [Script.run_block_cons hreplace, Script.run_block_singleton, he]
    simp only [hslot, reduceCtorEq, false_and, exists_false, false_or, true_and]
    constructor
    · intro hblocked
      by_contra hnone
      have hstay : (pool.withSender tx.sender).isFull tx = true →
          ∀ t ∈ (pool.withSender tx.sender).pooled, tx.feePerByte ≤ t.feePerByte :=
        fun hfull t ht => UInt64.not_lt.mp fun hlt => hnone ⟨hfull, t, ht, hlt⟩
      rw [Script.run_block_cons (makeRoomLocks_done hw _ hstay), Script.run_block_singleton] at hblocked
      split at hblocked <;> cases hblocked
    · rintro ⟨hfull, t, ht, hcheap⟩
      exact Script.run_block_stuck (makeRoomLocks_blocked hw _ hfull ht hcheap)
  · have hreplace : (pool.replaceByFeeLocks tx).run [] = .done := by
      refine replaceByFeeLocks_done fun existing' hslot' => ?_
      rw [hslot] at hslot'
      cases hslot'
      exact hlow
    rw [Script.run_block_cons hreplace, Script.run_block_singleton, he]
    simp [hslot, hlow]
  · rw [Script.run_block_stuck (replaceByFeeLocks_blocked hslot hbump)]
    exact iff_of_true rfl (.inl ⟨existing, hslot, hbump⟩)

theorem addTransactionLocks_blocked_iff (h : pool.Exact c config) (tx : Transaction)
    (stateDb : StateDB) : (pool.addTransactionLocks c tx stateDb).run [] = .blocked ↔
      (PoolCall.addTransaction tx stateDb).removes c pool := by
  rw [addTransactionLocks, PoolCall.removes]
  cases hstateless : validateStateless c tx with
  | error e =>
    have hp : ¬ PassesChecks c pool tx stateDb := fun hp => by simp [hp.stateless] at hstateless
    simp [hp]
  | ok _ =>
    simp only
    rw [Script.run_block_cons rfl, Script.run_block_singleton]
    by_cases hd : tx.txHash c ∈ pool.byHash
    · have hp : ¬ PassesChecks c pool tx stateDb := fun hp => hp.fresh hd
      simp [hd, hp]
    · rw [if_neg hd, Script.run_block_cons (readStore_done rfl), Script.run_block_singleton]
      cases hstateful : validateStateful tx (stateDb.getAccount c tx.sender) with
      | error e =>
        have hp : ¬ PassesChecks c pool tx stateDb := fun hp => by simp [hp.stateful] at hstateful
        simp [hp]
      | ok _ =>
        have hp : PassesChecks c pool tx stateDb := ⟨hstateless, hd, hstateful⟩
        rw [admitTransactionLocks_blocked_iff h]
        simp only [hp, true_and]

/-- A call of the pool requests a lock that it still holds exactly when it
removes a transaction: no replacement, eviction or clean-up ever returns. -/
theorem locks_blocked_iff (h : Reachable c config pool) (call : PoolCall) :
    (call.locks c pool).run [] ≠ .blocked ↔ ¬ call.removes c pool := by
  refine not_congr ?_
  cases call with
  | addTransaction tx stateDb => exact addTransactionLocks_blocked_iff h.exact tx stateDb
  | harvest maxBytes =>
    have hdone : harvestLocks.run [] = .done := rfl
    show harvestLocks.run [] = .blocked ↔ False
    simp [hdone]
  | removeCommitted txs => exact removeCommittedLocks_blocked_iff pool txs
  | evictTransaction txHash =>
    constructor
    · intro hblocked
      by_contra hn
      rw [PoolCall.locks, evictTransactionLocks_done hn] at hblocked
      cases hblocked
    · exact evictTransactionLocks_blocked

end Mempool

namespace MempoolLocks

open MempoolRun

theorem locks_blocked_iff_bump : ∃ pool : Mempool, Mempool.Reachable crates (.mk 10 10000 10) pool ∧
    ((add (transfer 2 210 1)).locks crates pool).run [] ≠ .blocked := by
  have hcalls : (runAll (Mempool.step crates) (fun _ _ => True) (Mempool.new ⟨10, 10000, 10⟩)
      [add (transfer 2 200 1)]).map (fun t => t.1.slot (transfer 2 210 1).sender 1) =
      some (some (transfer 2 200 1)) := by decide +kernel
  obtain ⟨pool, hreach, hslot⟩ := Mempool.Reachable.of_calls
    (f := fun pool => pool.slot (transfer 2 210 1).sender 1) hcalls
  refine ⟨pool, hreach, (Mempool.locks_blocked_iff hreach _).mpr ?_⟩
  rintro ⟨-, ⟨existing, he, hbump⟩ | ⟨hnone, -⟩⟩
  · have hexisting : some existing = some (transfer 2 200 1) := he.symm.trans hslot
    rw [Option.some.inj hexisting, hreach.exact.config] at hbump
    exact hbump (by decide +kernel)
  · have hnone' : (none : Option Transaction) = some (transfer 2 200 1) := hnone.symm.trans hslot
    cases hnone'

/-- A bump of the fee that is large enough blocks on the counter. -/
theorem replacement_blocks : ¬ ∀ (c : Crates) (config : MempoolConfig) (pool : Mempool)
    (call : PoolCall), Mempool.Reachable c config pool → (call.locks c pool).run [] ≠ .blocked := by
  intro hclaim
  have hcalls : (runAll (Mempool.step crates) (fun _ _ => True) (Mempool.new ⟨10, 10000, 10⟩)
      [add (transfer 2 200 1)]).map
      (fun t => ((add (transfer 2 400 1)).locks crates t.1).run []) = some .blocked := by
    decide +kernel
  obtain ⟨pool, hreach, hblocked⟩ := Mempool.Reachable.of_calls
    (f := fun pool => ((add (transfer 2 400 1)).locks crates pool).run []) hcalls
  exact hclaim crates _ pool _ hreach hblocked

end MempoolLocks

end AuraChain
