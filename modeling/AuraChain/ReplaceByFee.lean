import AuraChain.MempoolCapacity
import AuraChain.MempoolLocks

/-! The bump that replace-by-fee demands. Its threshold is a product and a sum
of 64 bits with a division that rounds down: it is the full percentage only
where nothing wraps and nothing is rounded. A call that gets past the threshold
waits for the counter that it reads itself, and never replaces anything. -/

namespace AuraChain

namespace Mempool

def FullBump (config : MempoolConfig) (existing tx : Transaction) : Prop :=
  (100 + config.minRbfBumpPercent.toNat) * existing.fee.toNat ≤ 100 * tx.fee.toNat

structure ExactBump (config : MempoolConfig) (existing : Transaction) : Prop where
  product : existing.fee.toNat * config.minRbfBumpPercent.toNat < 2 ^ 64
  sum : existing.fee.toNat +
    existing.fee.toNat * config.minRbfBumpPercent.toNat / 100 < 2 ^ 64
  rounding : 100 ∣ existing.fee.toNat * config.minRbfBumpPercent.toNat

variable {c : Crates} {config : MempoolConfig} {pool pool' : Mempool} {tx existing : Transaction}
  {stateDb : StateDB}

theorem toNat_minRequiredFee (config : MempoolConfig) (existing : Transaction) :
    (minRequiredFee config existing).toNat = (existing.fee.toNat +
      existing.fee.toNat * config.minRbfBumpPercent.toNat % 2 ^ 64 / 100) % 2 ^ 64 := by
  simp [minRequiredFee]

theorem threshold_exact {fee product : Nat}
    (h : 100 * fee + product ≤ 100 * ((fee + product % 2 ^ 64 / 100) % 2 ^ 64)) :
    product < 2 ^ 64 ∧ fee + product / 100 < 2 ^ 64 ∧ 100 ∣ product := by
  have hproduct : product % 2 ^ 64 = product := by omega
  rw [hproduct] at h
  have hsum : (fee + product / 100) % 2 ^ 64 = fee + product / 100 := by omega
  exact ⟨by omega, by omega, by omega⟩

/-- A fee at the threshold is the least that passes, and decides for all. -/
theorem fullBump_iff : (∀ fee : UInt64, minRequiredFee config existing ≤ fee →
      FullBump config existing { existing with fee := fee }) ↔ ExactBump config existing := by
  have hmin := toNat_minRequiredFee config existing
  have hexpand : (100 + config.minRbfBumpPercent.toNat) * existing.fee.toNat =
      100 * existing.fee.toNat + existing.fee.toNat * config.minRbfBumpPercent.toNat := by ring
  constructor
  · intro hall
    have hleast := hall _ (UInt64.le_refl _)
    simp only [FullBump, hexpand, hmin] at hleast
    obtain ⟨hproduct, hsum, hrounding⟩ := threshold_exact hleast
    exact ⟨hproduct, hsum, hrounding⟩
  · rintro ⟨hproduct, hsum, hrounding⟩ fee hle
    rw [UInt64.le_iff_toNat_le, hmin, Nat.mod_eq_of_lt hproduct, Nat.mod_eq_of_lt hsum] at hle
    simp only [FullBump, hexpand]
    omega

theorem replaceByFee_existing (h : pool.Exact c config) (hold : existing ∈ pool.pooled)
    (hsender : tx.sender = existing.sender) (hnonce : tx.nonce = existing.nonce) :
    tx.fee < minRequiredFee config existing ∧ pool.replaceByFee c tx =
        (pool.withSender tx.sender, .error (.insufficientRbfBump pool.config.minRbfBumpPercent)) ∨
      ¬ tx.fee < minRequiredFee config existing ∧
        pool.replaceByFee c tx = (pool.withoutExisting c existing, .ok ()) := by
  have hslot : pool.slot tx.sender tx.nonce = some existing :=
    (h.consistent.slot _ _ existing).mpr
      ⟨hsender.symm, hnonce.symm, (mem_pooled h.consistent).mp hold⟩
  rcases replaceByFee_cases h.consistent tx with ⟨hnone, -⟩ | ⟨old, hsome, hcases⟩
  · rw [hslot] at hnone
    cases hnone
  · rw [hslot, Option.some.injEq] at hsome
    rw [hsome, ← h.config]
    exact hcases

theorem admitTransaction_bump (h : pool.Exact c config) (hold : existing ∈ pool.pooled)
    (hsender : tx.sender = existing.sender) (hnonce : tx.nonce = existing.nonce) {txHash : Hash}
    (hplaced : pool.admitTransaction c tx = some (pool', .ok txHash)) :
    minRequiredFee config existing ≤ tx.fee := by
  rcases replaceByFee_existing h hold hsender hnonce with ⟨-, he⟩ | ⟨hfee, -⟩
  · rw [admitTransaction, he] at hplaced
    simp at hplaced
  · exact UInt64.not_lt.mp hfee

/-- The place that the replaced transaction leaves is room for one no larger. -/
theorem withoutExisting_notFull (h : Reachable c config pool) (hold : existing ∈ pool.pooled)
    (hsize : tx.sizeBytes ≤ existing.sizeBytes)
    (hexact : (pool.withoutExisting c existing).Exact c config) :
    (pool.withoutExisting c existing).isFull tx = false := by
  have hperm : pool.pooled.Perm (existing :: (pool.withoutExisting c existing).pooled) :=
    OrdMap.contents_erase ((mem_pooled h.exact.consistent).mp hold)
  have hlength : pool.pooled.length = pool.byHash.size := OrdMap.length_contents _
  have hcount := hperm.length_eq
  have hbytes := bytes_perm hperm
  have htotal := h.exact.bytes
  obtain ⟨htransactions, hmax⟩ := h.within
  rw [List.length_cons] at hcount
  rw [bytes, bytes, List.map_cons, List.sum_cons] at hbytes
  rw [bytes] at htotal
  rw [Bool.eq_false_iff, ne_eq, hexact.isFull_iff, not_not, HasRoom, bytes]
  omega

theorem admitTransaction_replaces (h : Reachable c config pool) (hold : existing ∈ pool.pooled)
    (hsender : tx.sender = existing.sender) (hnonce : tx.nonce = existing.nonce)
    (hsize : tx.sizeBytes ≤ existing.sizeBytes) (hfee : minRequiredFee config existing ≤ tx.fee) :
    ∃ pool', pool.admitTransaction c tx = some (pool', .ok (tx.txHash c)) := by
  rcases replaceByFee_existing h.exact hold hsender hnonce with ⟨hlow, -⟩ | ⟨-, he⟩
  · exact absurd hfee (UInt64.not_le.mpr hlow)
  · have hreplaced := h.exact.replaceByFee tx
    rw [he] at hreplaced
    have hroom := withoutExisting_notFull h hold hsize hreplaced
    refine ⟨(pool.withoutExisting c existing).insertTransaction c tx, ?_⟩
    simp only [admitTransaction, he, makeRoom, hroom, Bool.false_eq_true, if_false]

/-- Whatever replaces the pooled transaction pays the full bump, exactly if its
threshold neither wraps nor rounds. -/
theorem replacement_bump_iff (h : Reachable c config pool) (hold : existing ∈ pool.pooled) :
    ((∀ tx pool' txHash, tx.sender = existing.sender → tx.nonce = existing.nonce →
        pool.admitTransaction c tx = some (pool', .ok txHash) → FullBump config existing tx) ↔
      ExactBump config existing) ∧
    (ExactBump config existing → ∀ tx stateDb pool' txHash, tx.sender = existing.sender →
      tx.nonce = existing.nonce → pool.addTransaction c tx stateDb = some (pool', .ok txHash) →
        FullBump config existing tx) := by
  have hpays : ExactBump config existing → ∀ tx pool' txHash, tx.sender = existing.sender →
      tx.nonce = existing.nonce → pool.admitTransaction c tx = some (pool', .ok txHash) →
        FullBump config existing tx := by
    intro hexact tx pool' txHash hsender hnonce hplaced
    exact fullBump_iff.mpr hexact tx.fee (admitTransaction_bump h.exact hold hsender hnonce hplaced)
  refine ⟨⟨fun hall => fullBump_iff.mp fun fee hfee => ?_, hpays⟩, ?_⟩
  · have hplaced : ∃ pool', pool.admitTransaction c { existing with fee := fee } =
        some (pool', .ok (Transaction.txHash c { existing with fee := fee })) :=
      admitTransaction_replaces h hold rfl rfl (Nat.le_refl _) hfee
    obtain ⟨pool', hplaced⟩ := hplaced
    exact hall _ pool' _ rfl rfl hplaced
  · intro hexact tx stateDb pool' txHash hsender hnonce hadd
    rcases addTransaction_cases hadd with ⟨-, e, he⟩ | ⟨-, hplaced⟩
    · cases he
    · exact hpays hexact tx pool' txHash hsender hnonce hplaced

end Mempool

namespace ReplaceByFee

open MempoolRun

def config : MempoolConfig := ⟨3, 10000, 10⟩

theorem replaced_once (fee fee' : UInt64)
    (hcalls : (runAll (Mempool.step crates) (fun _ _ => True) (Mempool.new config)
      [add (transfer 2 fee 1)]).map (fun t => (t.1.pooled,
        (t.1.addTransaction crates (transfer 2 fee' 1) stateDb).map Prod.snd)) =
      some ([transfer 2 fee 1], some (.ok ((transfer 2 fee' 1).txHash crates)))) :
    ∃ pool pool', Mempool.Reachable crates config pool ∧ transfer 2 fee 1 ∈ pool.pooled ∧
      pool.addTransaction crates (transfer 2 fee' 1) stateDb =
        some (pool', .ok ((transfer 2 fee' 1).txHash crates)) := by
  obtain ⟨pool, hreach, hpool⟩ := Mempool.Reachable.of_calls (f := fun pool => (pool.pooled,
    (pool.addTransaction crates (transfer 2 fee' 1) stateDb).map Prod.snd)) hcalls
  obtain ⟨hpooled, hadd⟩ := Prod.mk.inj hpool
  obtain ⟨⟨pool', outcome⟩, hr, rfl⟩ := Option.map_eq_some_iff.mp hadd
  exact ⟨pool, pool', hreach, by simp [hpooled], hr⟩

theorem replacement_bump_exact : ∃ pool : Mempool, transfer 2 200 1 ∈ pool.pooled ∧
    Mempool.FullBump config (transfer 2 200 1) (transfer 2 220 1) ∧
    ∀ tx pool' txHash, tx.sender = (transfer 2 200 1).sender → tx.nonce = 1 →
      pool.admitTransaction crates tx = some (pool', .ok txHash) →
        Mempool.FullBump config (transfer 2 200 1) tx := by
  obtain ⟨pool, pool', hreach, hold, hadd⟩ := replaced_once 200 220 (by decide +kernel)
  have hexact : Mempool.ExactBump config (transfer 2 200 1) :=
    ⟨by decide +kernel, by decide +kernel, by decide +kernel⟩
  obtain ⟨hiff, hadded⟩ := Mempool.replacement_bump_iff hreach hold
  exact ⟨pool, hold, hadded hexact _ _ _ _ rfl rfl hadd, hiff.mpr hexact⟩

end ReplaceByFee

end AuraChain
