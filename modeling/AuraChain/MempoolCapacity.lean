import AuraChain.MempoolRun

/-! The limits of the pool hold after every call, and the eviction loop ends:
each turn drops the transaction with the lowest key, which pays less. -/

namespace AuraChain

namespace Mempool

structure Within (config : MempoolConfig) (pool : Mempool) : Prop where
  transactions : pool.byHash.size ≤ config.maxTransactions
  bytes : pool.totalBytes ≤ config.maxBytes

/-- The keys that the eviction loop takes, in its order. -/
def evictedKeys (tx : Transaction) : Nat → Mempool → List PriorityKey
  | 0, _ => []
  | fuel + 1, pool =>
    if pool.isFull tx then
      match pool.priorityIndex.min? with
      | none => []
      | some key =>
        if tx.feePerByte ≤ key.feePerByte then []
        else key :: evictedKeys tx fuel (pool.evictTransaction key.txHash).1
    else []

def evictAll (pool : Mempool) (keys : List PriorityKey) : Mempool :=
  keys.foldl (fun pool key => (pool.evictTransaction key.txHash).1) pool

structure TakesLowest (c : Crates) (tx : Transaction) (pool : Mempool) (key : PriorityKey) :
    Prop where
  pooled : ∃ t ∈ pool.pooled, t.priorityKey c = key ∧
    (pool.evictTransaction key.txHash).2 = some t
  least : ∀ t ∈ pool.pooled, (compare key (t.priorityKey c)).isLE = true
  cheaper : key.feePerByte < tx.feePerByte

variable {c : Crates} {config : MempoolConfig} {pool pool' : Mempool} {tx : Transaction}
  {stateDb : StateDB}

theorem Within.new (config : MempoolConfig) : (new config).Within config where
  transactions := Nat.zero_le _
  bytes := Nat.zero_le _

theorem Within.erased (h : pool.Within config) {txHash : Hash} {size : Nat}
    (hb : pool'.byHash = pool.byHash.erase txHash) (ht : pool'.totalBytes = pool.totalBytes - size) :
    pool'.Within config where
  transactions := by
    have hle : (pool.byHash.erase txHash).size ≤ pool.byHash.size := Std.ExtTreeMap.size_erase_le
    rw [hb]
    exact hle.trans h.transactions
  bytes := by
    rw [ht]
    exact (Nat.sub_le _ _).trans h.bytes

theorem Within.evictTransaction (h : pool.Within config) (txHash : Hash) :
    (pool.evictTransaction txHash).1.Within config := by
  rw [Mempool.evictTransaction]
  cases pool.byHash[txHash]? with
  | none => exact h
  | some t => exact h.erased rfl rfl

theorem Within.removeCommitted (h : pool.Within config) (txs : List Transaction) :
    (pool.removeCommitted c txs).Within config := by
  induction txs generalizing pool with
  | nil => exact h
  | cons t txs ih => exact ih (h.evictTransaction (t.txHash c))

theorem Within.replaceByFee (h : pool.Within config) (hc : pool.Consistent c) (tx : Transaction) :
    (pool.replaceByFee c tx).1.Within config := by
  rcases replaceByFee_cases hc tx with ⟨-, he⟩ | ⟨existing, -, ⟨-, he⟩ | ⟨-, he⟩⟩
  · rw [he]
    exact ⟨h.transactions, h.bytes⟩
  · rw [he]
    exact ⟨h.transactions, h.bytes⟩
  · rw [he]
    exact h.erased rfl rfl

theorem Within.makeRoom (h : pool.Within config) {fuel : Nat} {r : Mempool × Except MempoolError Unit}
    (hr : makeRoom tx fuel pool = some r) : r.1.Within config :=
  makeRoom_keeps h (fun _ txHash hq => hq.evictTransaction txHash) hr

theorem makeRoom_notFull {fuel : Nat} {room : Mempool}
    (hr : makeRoom tx fuel pool = some (room, .ok ())) : room.isFull tx = false := by
  induction fuel generalizing pool with
  | zero => cases hr
  | succ fuel ih =>
    rw [makeRoom] at hr
    by_cases hfull : pool.isFull tx = true
    · rw [if_pos hfull] at hr
      cases hmin : pool.priorityIndex.min? with
      | none => simp [hmin] at hr
      | some key =>
        simp only [hmin] at hr
        split_ifs at hr with hfee
        · simp at hr
        · exact ih hr
    · rw [if_neg hfull] at hr
      obtain ⟨rfl, -⟩ := Prod.mk.inj (Option.some.inj hr)
      exact Bool.eq_false_iff.mpr hfull

theorem Within.insertTransaction (hroom : pool.isFull tx = false) (hconfig : pool.config = config) :
    (pool.insertTransaction c tx).Within config := by
  have hfree := of_decide_eq_false hroom
  rw [hconfig] at hfree
  have hsize : (pool.byHash.insert (tx.txHash c) tx).size ≤ pool.byHash.size + 1 :=
    Std.ExtTreeMap.size_insert_le
  refine ⟨?_, ?_⟩
  · show (pool.byHash.insert (tx.txHash c) tx).size ≤ config.maxTransactions
    omega
  · show pool.totalBytes + tx.sizeBytes ≤ config.maxBytes
    omega

theorem Within.addTransaction (h : pool.Within config) (he : pool.Exact c config)
    {r : Mempool × Except MempoolError Hash} (hr : pool.addTransaction c tx stateDb = some r) :
    r.1.Within config := by
  rcases addTransaction_cases hr with ⟨-, e, rfl⟩ | ⟨-, hplaced⟩
  · exact h
  · have hreplaced := h.replaceByFee he.consistent tx
    rcases admitTransaction_cases hplaced with
      ⟨e, -, rfl⟩ | ⟨-, room, outcome, hm, ⟨e, -, rfl⟩ | ⟨rfl, rfl⟩⟩
    · exact hreplaced
    · exact hreplaced.makeRoom hm
    · have hroom := (he.replaceByFee tx).makeRoom hm
      exact Within.insertTransaction (makeRoom_notFull hm) hroom.config

theorem Within.step (h : pool.Within config) (he : pool.Exact c config) {call : PoolCall}
    {out : List (Except MempoolError Hash)} (hs : pool.step c call = some (pool', out)) :
    pool'.Within config := by
  cases call with
  | addTransaction tx stateDb =>
    obtain ⟨r, hr, heq⟩ := Option.map_eq_some_iff.mp hs
    cases heq
    exact h.addTransaction he hr
  | harvest maxBytes =>
    cases hs
    exact h
  | removeCommitted txs =>
    cases hs
    exact h.removeCommitted txs
  | evictTransaction txHash =>
    cases hs
    exact h.evictTransaction txHash

theorem Reachable.within (h : Reachable c config pool) : pool.Within config := by
  obtain ⟨log, hrun⟩ := h
  refine (TracedRun.invariant (P := fun pool _ => pool.Exact c config ∧ pool.Within config) hrun
    ⟨.new c config, .new config⟩ ?_).2
  intro pool log call pool' out ⟨he, hw⟩ _ hs
  exact ⟨he.step hs, hw.step he hs⟩

theorem makeRoom_evictAll {fuel : Nat} {r : Mempool × Except MempoolError Unit}
    (hr : makeRoom tx fuel pool = some r) : r.1 = pool.evictAll (evictedKeys tx fuel pool) := by
  induction fuel generalizing pool with
  | zero => cases hr
  | succ fuel ih =>
    rw [makeRoom] at hr
    rw [evictedKeys]
    by_cases hfull : pool.isFull tx = true
    · rw [if_pos hfull] at hr ⊢
      cases hmin : pool.priorityIndex.min? with
      | none =>
        simp only [hmin, Option.some.injEq] at hr
        rw [← hr]
        rfl
      | some key =>
        simp only [hmin] at hr ⊢
        split_ifs at hr ⊢ with hfee
        · rw [← Option.some.inj hr]
          rfl
        · exact ih hr
    · rw [if_neg hfull] at hr ⊢
      rw [← Option.some.inj hr]
      rfl

theorem takesLowest (h : pool.Exact c config) {key : PriorityKey}
    (hmin : pool.priorityIndex.min? = some key) (hfee : ¬ tx.feePerByte ≤ key.feePerByte) :
    pool.TakesLowest c tx key := by
  obtain ⟨hmem, hle⟩ := Std.ExtTreeSet.min?_eq_some_iff_mem_and_forall.mp hmin
  obtain ⟨t, ht, rfl⟩ := (mem_priorityIndex h.consistent).mp hmem
  refine ⟨⟨t, ht, rfl, ?_⟩, fun u hu => ?_, UInt64.not_le.mp hfee⟩
  · have hl : pool.byHash[(t.priorityKey c).txHash]? = some t := (mem_pooled h.consistent).mp ht
    rw [evictTransaction, hl]
  · exact hle _ ((mem_priorityIndex h.consistent).mpr ⟨u, hu, rfl⟩)

/-- The pool at the moment of a turn is what the earlier turns have left. -/
theorem evictedKeys_lowest (h : pool.Exact c config) {fuel : Nat} {before after : List PriorityKey}
    {key : PriorityKey} (hkeys : evictedKeys tx fuel pool = before ++ key :: after) :
    (pool.evictAll before).TakesLowest c tx key := by
  induction fuel generalizing pool before with
  | zero => simp [evictedKeys] at hkeys
  | succ fuel ih =>
    rw [evictedKeys] at hkeys
    split_ifs at hkeys with hfull
    · cases hmin : pool.priorityIndex.min? with
      | none => simp [hmin] at hkeys
      | some lowest =>
        simp only [hmin] at hkeys
        split_ifs at hkeys with hfee
        · simp at hkeys
        · cases before with
          | nil =>
            obtain ⟨rfl, -⟩ := List.cons.inj hkeys
            exact takesLowest h hmin hfee
          | cons first before =>
            obtain ⟨rfl, hrest⟩ := List.cons.inj hkeys
            exact ih (h.evictTransaction lowest.txHash) hrest
    · simp at hkeys

/-- Every call returns and leaves the pool within its limits, and the loop of
`add_transaction` ends with what its turns leave, each of which took the lowest. -/
theorem capacity_limits (h : Reachable c config pool) :
    pool.Within config ∧
    (∀ call, ∃ pool' out, pool.step c call = some (pool', out) ∧ pool'.Within config) ∧
    ∀ tx : Transaction, let replaced := (pool.replaceByFee c tx).1
      let keys := evictedKeys tx (replaced.byHash.size + 1) replaced
      (∃ outcome, makeRoom tx (replaced.byHash.size + 1) replaced =
        some (replaced.evictAll keys, outcome)) ∧
      ∀ before key after, keys = before ++ key :: after →
        (replaced.evictAll before).TakesLowest c tx key := by
  have he := h.exact
  refine ⟨h.within, fun call => ?_, fun tx => ?_⟩
  · obtain ⟨⟨pool', out⟩, hs⟩ := Option.isSome_iff_exists.mp (he.returns call)
    exact ⟨pool', out, hs, h.within.step he hs⟩
  · intro replaced keys
    have hreplaced := he.replaceByFee tx
    obtain ⟨r, hr, -, -⟩ := makeRoom_spec hreplaced.consistent tx (Nat.lt_succ_self _)
    refine ⟨⟨r.2, ?_⟩, fun before key after hkeys => evictedKeys_lowest hreplaced hkeys⟩
    rw [← makeRoom_evictAll hr]
    exact hr

end Mempool

namespace MempoolCapacity

open MempoolRun

def tx : Transaction := transfer 3 900 2

/-- A pool that both limits stop from growing. -/
theorem capacity_limits_full : ∃ pool : Mempool, pool.byHash.size = 2 ∧ pool.isFull tx = true ∧
    pool.Within ⟨2, 400, 10⟩ ∧
    (∃ pool' out, pool.step crates (add tx) = some (pool', out) ∧ pool'.Within ⟨2, 400, 10⟩) ∧
    ∃ room outcome, Mempool.makeRoom tx ((pool.replaceByFee crates tx).1.byHash.size + 1)
      (pool.replaceByFee crates tx).1 = some (room, outcome) := by
  have hcalls : (runAll (Mempool.step crates) (fun _ _ => True) (Mempool.new ⟨2, 400, 10⟩)
      [add (transfer 2 200 1), add (transfer 3 600 1)]).map
      (fun t => (t.1.byHash.size, t.1.isFull tx)) = some (2, true) := by decide +kernel
  obtain ⟨pool, hreach, hpool⟩ :=
    Mempool.Reachable.of_calls (f := fun pool => (pool.byHash.size, pool.isFull tx)) hcalls
  obtain ⟨hsize, hfull⟩ := Prod.mk.inj hpool
  obtain ⟨hwithin, hcall, hloop⟩ := Mempool.capacity_limits hreach
  obtain ⟨⟨outcome, hroom⟩, -⟩ := hloop tx
  exact ⟨pool, hsize, hfull, hwithin, hcall (add tx), _, outcome, hroom⟩

end MempoolCapacity

end AuraChain
