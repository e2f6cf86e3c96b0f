import AuraChain.MempoolRun

/-! What a refused transaction leaves behind. The loop of `add_transaction`
evicts all that pay less before it gives up, and a transaction in the same place
is gone even before the loop. -/

namespace AuraChain

namespace Mempool

structure Untouched (pool pool' : Mempool) : Prop where
  byHash : pool'.byHash = pool.byHash
  bySender : ∀ a nonce, pool'.slot a nonce = pool.slot a nonce
  priorityIndex : pool'.priorityIndex = pool.priorityIndex
  totalBytes : pool'.totalBytes = pool.totalBytes
  harvest : ∀ maxBytes, pool'.harvest maxBytes = pool.harvest maxBytes

def HasRoom (config : MempoolConfig) (txs : List Transaction) (tx : Transaction) : Prop :=
  txs.length < config.maxTransactions ∧ bytes txs + tx.sizeBytes ≤ config.maxBytes

instance (config : MempoolConfig) (txs : List Transaction) (tx : Transaction) :
    Decidable (HasRoom config txs tx) :=
  inferInstanceAs (Decidable (_ ∧ _))

def payers (tx : Transaction) (txs : List Transaction) : List Transaction :=
  txs.filter fun t => decide (tx.feePerByte ≤ t.feePerByte)

/-- The pooled transactions that no insertion of `tx` removes. -/
def keepers (pool : Mempool) (tx : Transaction) : List Transaction :=
  payers tx (pool.pooled.filter fun t => decide ¬ (t.sender = tx.sender ∧ t.nonce = tx.nonce))

variable {c : Crates} {config : MempoolConfig} {pool pool' : Mempool} {tx : Transaction}
  {stateDb : StateDB} {txs txs' : List Transaction}

theorem HasRoom.perm (h : txs.Perm txs') : HasRoom config txs tx ↔ HasRoom config txs' tx := by
  rw [HasRoom, HasRoom, h.length_eq, bytes_perm h]

theorem bytes_sublist (h : txs.Sublist txs') : bytes txs ≤ bytes txs' :=
  (h.map Transaction.sizeBytes).sum_le_sum fun _ _ => Nat.zero_le _

theorem HasRoom.sublist (h : txs.Sublist txs') (hroom : HasRoom config txs' tx) :
    HasRoom config txs tx := by
  have hlen := h.length_le
  have hbytes := bytes_sublist h
  obtain ⟨hcount, hsize⟩ := hroom
  exact ⟨by omega, by omega⟩

theorem payers_sublist (tx : Transaction) (txs : List Transaction) : (payers tx txs).Sublist txs :=
  List.filter_sublist

theorem Exact.isFull_iff (h : pool.Exact c config) (tx : Transaction) :
    pool.isFull tx = true ↔ ¬ HasRoom config pool.pooled tx := by
  have hlen : pool.pooled.length = pool.byHash.size := OrdMap.length_contents _
  rw [isFull, decide_eq_true_eq, HasRoom, hlen, h.config, h.bytes]
  omega

theorem Exact.lowest (h : pool.Exact c config) {key : PriorityKey}
    (hmin : pool.priorityIndex.min? = some key) :
    (∃ t ∈ pool.pooled, t.priorityKey c = key) ∧
      ∀ t ∈ pool.pooled, key.feePerByte ≤ t.feePerByte := by
  obtain ⟨hmem, hle⟩ := Std.ExtTreeSet.min?_eq_some_iff_mem_and_forall.mp hmin
  refine ⟨(mem_priorityIndex h.consistent).mp hmem, fun t ht => ?_⟩
  have hin : t.priorityKey c ∈ pool.priorityIndex := (mem_priorityIndex h.consistent).mpr ⟨t, ht, rfl⟩
  exact PriorityKey.feePerByte_le (hle _ hin)

theorem Exact.empty (h : pool.Exact c config) (hmin : pool.priorityIndex.min? = none) :
    pool.pooled = [] := by
  refine List.eq_nil_iff_forall_not_mem.mpr fun t ht => ?_
  have hin : t.priorityKey c ∈ pool.priorityIndex := (mem_priorityIndex h.consistent).mpr ⟨t, ht, rfl⟩
  rw [Std.ExtTreeSet.min?_eq_none_iff.mp hmin] at hin
  exact Std.ExtTreeSet.not_mem_empty hin

theorem evictTransaction_pooled (h : pool.Exact c config) (ht : tx ∈ pool.pooled) :
    pool.pooled.Perm (tx :: (pool.evictTransaction (tx.txHash c)).1.pooled) := by
  rw [pooled, pooled, evictTransaction_byHash]
  exact OrdMap.contents_erase ((mem_pooled h.consistent).mp ht)

/-- The loop gives up if and only if those that pay enough leave no room, and
then only they are left. -/
theorem makeRoom_outcome (h : pool.Exact c config) {fuel : Nat} {room : Mempool}
    {outcome : Except MempoolError Unit} (hr : makeRoom tx fuel pool = some (room, outcome)) :
    outcome = .ok () ∧ HasRoom config (payers tx pool.pooled) tx ∨
      outcome = .error .poolFull ∧ ¬ HasRoom config (payers tx pool.pooled) tx ∧
        room.pooled.Perm (payers tx pool.pooled) := by
  induction fuel generalizing pool with
  | zero => cases hr
  | succ fuel ih =>
    rw [makeRoom] at hr
    by_cases hfull : pool.isFull tx = true
    · rw [if_pos hfull] at hr
      have hnone := (h.isFull_iff tx).mp hfull
      cases hmin : pool.priorityIndex.min? with
      | none =>
        simp only [hmin, Option.some.injEq, Prod.mk.injEq] at hr
        obtain ⟨rfl, rfl⟩ := hr
        rw [h.empty hmin] at hnone ⊢
        exact .inr ⟨rfl, hnone, .refl _⟩
      | some key =>
        obtain ⟨⟨t, ht, rfl⟩, hlowest⟩ := h.lowest hmin
        simp only [hmin] at hr
        split_ifs at hr with hfee
        · simp only [Option.some.injEq, Prod.mk.injEq] at hr
          obtain ⟨rfl, rfl⟩ := hr
          have hall : payers tx pool.pooled = pool.pooled :=
            List.filter_eq_self.mpr fun u hu =>
              decide_eq_true (UInt64.le_trans hfee (hlowest u hu))
          rw [hall]
          exact .inr ⟨rfl, hnone, .refl _⟩
        · have hperm := evictTransaction_pooled h ht
          have hpayers : (payers tx pool.pooled).Perm
              (payers tx (pool.evictTransaction (t.txHash c)).1.pooled) := by
            have hp := hperm.filter fun u => decide (tx.feePerByte ≤ u.feePerByte)
            have hcheap : ¬ tx.feePerByte ≤ t.feePerByte := hfee
            rwa [List.filter_cons_of_neg (by simpa using hcheap)] at hp
          rcases ih (h.evictTransaction (t.txHash c)) hr with ⟨hok, hroom⟩ | ⟨herr, hroom, hleft⟩
          · exact .inl ⟨hok, (HasRoom.perm hpayers).mpr hroom⟩
          · exact .inr ⟨herr, fun hp => hroom ((HasRoom.perm hpayers).mp hp),
              hleft.trans hpayers.symm⟩
    · rw [if_neg hfull] at hr
      simp only [Option.some.injEq, Prod.mk.injEq] at hr
      obtain ⟨rfl, rfl⟩ := hr
      have hroom : HasRoom config pool.pooled tx :=
        not_not.mp fun hn => hfull ((h.isFull_iff tx).mpr hn)
      exact .inl ⟨rfl, hroom.sublist (payers_sublist tx _)⟩

theorem keepers_sublist (pool : Mempool) (tx : Transaction) : (pool.keepers tx).Sublist pool.pooled :=
  (payers_sublist tx _).trans List.filter_sublist

theorem replaceByFee_payers (h : pool.Exact c config) (hok : (pool.replaceByFee c tx).2 = .ok ()) :
    (payers tx (pool.replaceByFee c tx).1.pooled).Perm (pool.keepers tx) := by
  refine List.Perm.filter _ ?_
  rcases replaceByFee_cases h.consistent tx with ⟨hslot, he⟩ | ⟨existing, hslot, ⟨-, he⟩ | ⟨-, he⟩⟩
  · have hall : (pool.pooled.filter fun t => decide ¬ (t.sender = tx.sender ∧ t.nonce = tx.nonce)) =
        pool.pooled := by
      refine List.filter_eq_self.mpr fun t ht => decide_eq_true ?_
      rintro ⟨hsender, hnonce⟩
      have ht' := (h.consistent.slot _ _ t).mpr ⟨hsender, hnonce, (mem_pooled h.consistent).mp ht⟩
      rw [hslot] at ht'
      cases ht'
    rw [he, hall]
    exact .refl _
  · rw [he] at hok
    cases hok
  · obtain ⟨hsender, hnonce, hl⟩ := (h.consistent.slot _ _ existing).mp hslot
    have hperm : pool.pooled.Perm (existing :: (pool.replaceByFee c tx).1.pooled) := by
      rw [he]
      exact OrdMap.contents_erase hl
    obtain ⟨hnot, -⟩ := List.nodup_cons.mp (hperm.nodup_iff.mp (pooled_nodup h.consistent))
    have hall : ((pool.replaceByFee c tx).1.pooled.filter fun t =>
        decide ¬ (t.sender = tx.sender ∧ t.nonce = tx.nonce)) =
        (pool.replaceByFee c tx).1.pooled := by
      refine List.filter_eq_self.mpr fun t ht => decide_eq_true ?_
      rintro ⟨ht1, ht2⟩
      have hin := hperm.mem_iff.mpr (List.mem_cons_of_mem existing ht)
      have hexisting := hperm.mem_iff.mpr List.mem_cons_self
      have he := h.distinct hin hexisting (ht1.trans hsender.symm) (ht2.trans hnonce.symm)
      exact hnot (he ▸ ht)
    have hfilter := hperm.filter fun t => decide ¬ (t.sender = tx.sender ∧ t.nonce = tx.nonce)
    rw [List.filter_cons_of_neg (by simp [hsender, hnonce]), hall] at hfilter
    exact hfilter.symm

/-- Behind the checks and the replacement, the outcome is decided by the room
beside those that stay. -/
theorem addTransaction_outcome (h : pool.Exact c config) (hp : PassesChecks c pool tx stateDb)
    (hbump : ∀ existing, pool.slot tx.sender tx.nonce = some existing →
      ¬ tx.fee < minRequiredFee config existing)
    {r : Mempool × Except MempoolError Hash} (hr : pool.addTransaction c tx stateDb = some r) :
    HasRoom config (pool.keepers tx) tx ∧ r.2 = .ok (tx.txHash c) ∨
      ¬ HasRoom config (pool.keepers tx) tx ∧ r.2 = .error .poolFull ∧
        r.1.pooled.Perm (pool.keepers tx) := by
  have hok : (pool.replaceByFee c tx).2 = .ok () := by
    rcases replaceByFee_cases h.consistent tx with ⟨-, he⟩ | ⟨existing, hslot, ⟨hlow, -⟩ | ⟨-, he⟩⟩
    · rw [he]
    · exact absurd (h.config ▸ hlow) (hbump existing hslot)
    · rw [he]
  have hkeepers := replaceByFee_payers h hok
  rcases addTransaction_cases hr with ⟨hn, -⟩ | ⟨-, hplaced⟩
  · exact absurd hp hn
  · rcases admitTransaction_cases hplaced with ⟨e, he, -⟩ | ⟨-, room, outcome, hm, hcases⟩
    · rw [hok] at he
      cases he
    · rcases makeRoom_outcome (h.replaceByFee tx) hm with ⟨rfl, hroom⟩ | ⟨rfl, hroom, hleft⟩
      · rcases hcases with ⟨e, he, -⟩ | ⟨-, rfl⟩
        · cases he
        · exact .inl ⟨(HasRoom.perm hkeepers).mp hroom, rfl⟩
      · rcases hcases with ⟨e, he, rfl⟩ | ⟨he, -⟩
        · cases he
          exact .inr ⟨fun hk => hroom ((HasRoom.perm hkeepers).mpr hk), rfl, hleft.trans hkeepers⟩
        · cases he

theorem Exact.untouched_iff (h : pool.Exact c config) (h' : pool'.Exact c config) :
    Untouched pool pool' ↔ pool'.pooled.Perm pool.pooled := by
  constructor
  · intro hu
    rw [pooled, pooled, hu.byHash]
  · intro hperm
    have hlookup : ∀ (txHash : Hash) (t : Transaction),
        pool'.byHash[txHash]? = some t ↔ pool.byHash[txHash]? = some t := by
      intro txHash t
      rw [lookup_iff h.consistent, lookup_iff h'.consistent, hperm.mem_iff]
    have hbyHash : pool'.byHash = pool.byHash :=
      Std.ExtTreeMap.ext_getElem? fun txHash => Option.ext (hlookup txHash)
    have hindex : pool'.priorityIndex = pool.priorityIndex := by
      refine Std.ExtTreeSet.ext_mem fun key => ?_
      rw [h.consistent.index, h'.consistent.index, hbyHash]
    refine ⟨hbyHash, fun a nonce => Option.ext fun t => ?_, hindex, ?_, fun maxBytes => ?_⟩
    · rw [h.consistent.slot, h'.consistent.slot, hbyHash]
    · rw [h.bytes, h'.bytes, bytes_perm hperm]
    · rw [harvest, harvest, hbyHash, hindex]

theorem replaceByFee_low (hc : pool.Consistent c) {existing : Transaction}
    (hslot : pool.slot tx.sender tx.nonce = some existing)
    (hlow : tx.fee < minRequiredFee pool.config existing) : pool.replaceByFee c tx =
      (pool.withSender tx.sender, .error (.insufficientRbfBump pool.config.minRbfBumpPercent)) := by
  rcases replaceByFee_cases hc tx with ⟨hslot', -⟩ | ⟨existing', hslot', ⟨-, he⟩ | ⟨hn, -⟩⟩
  · rw [hslot] at hslot'
    cases hslot'
  · exact he
  · rw [hslot] at hslot'
    cases hslot'
    exact absurd hlow hn

/-- A refusal leaves the pool as it was exactly when it comes from a check or
from a fee that is too low for a replacement, or when all pooled transactions
stay; otherwise there must be room, so that nothing is refused. -/
theorem refused_untouched_iff (h : Reachable c config pool) (tx : Transaction) (stateDb : StateDB) :
    (∀ pool' e, pool.addTransaction c tx stateDb = some (pool', .error e) → Untouched pool pool') ↔
      ¬ PassesChecks c pool tx stateDb ∨
      (∃ existing, pool.slot tx.sender tx.nonce = some existing ∧
        tx.fee < minRequiredFee config existing) ∨
      HasRoom config (pool.keepers tx) tx ∨ pool.keepers tx = pool.pooled := by
  have he := h.exact
  constructor
  · intro hkeeps
    by_contra hnone
    simp only [not_or, not_not, not_exists, not_and] at hnone
    obtain ⟨hp, hbump, hroom, hstay⟩ := hnone
    obtain ⟨⟨pool', outcome⟩, hr, -⟩ := addTransaction_spec he.consistent tx stateDb
    rcases addTransaction_outcome he hp hbump hr with ⟨hroom', -⟩ | ⟨-, rfl, hleft⟩
    · exact hroom hroom'
    · have huntouched := hkeeps pool' _ hr
      have hperm := (he.untouched_iff (he.addTransaction hr)).mp huntouched
      have hlen := (hleft.symm.trans hperm).length_eq
      exact hstay ((keepers_sublist pool tx).eq_of_length hlen)
  · intro hcond pool' e hr
    have he' := he.addTransaction hr
    refine (he.untouched_iff he').mpr ?_
    rcases addTransaction_cases hr with ⟨-, e', he''⟩ | ⟨hp, hplaced⟩
    · cases he''
      exact .refl _
    · by_cases hbump : ∀ existing, pool.slot tx.sender tx.nonce = some existing →
        ¬ tx.fee < minRequiredFee config existing
      · rcases addTransaction_outcome he hp hbump hr with ⟨-, hok⟩ | ⟨hroom, -, hleft⟩
        · cases hok
        · rcases hcond with hn | ⟨existing, hslot, hlow⟩ | hroom' | hstay
          · exact absurd hp hn
          · exact absurd hlow (hbump existing hslot)
          · exact absurd hroom' hroom
          · rwa [hstay] at hleft
      · push Not at hbump
        obtain ⟨existing, hslot, hlow⟩ := hbump
        have hrefused := replaceByFee_low he.consistent hslot (he.config ▸ hlow)
        rcases admitTransaction_cases hplaced with ⟨e', -, hr'⟩ | ⟨hok, -⟩
        · rw [hrefused] at hr'
          cases hr'
          exact .refl _
        · rw [hrefused] at hok
          cases hok

end Mempool

namespace MempoolRejection

open MempoolRun

def config : MempoolConfig := ⟨10, 200, 10⟩

/-- It pays six times the fee, and does not fit even into the empty pool. -/
def replacement : Transaction :=
  let tx := { transfer 2 1200 1 with payload := List.replicate 40 0 }
  { tx with signature := Reference.sign (Reference.secretKey 2) tx.signingBytes }

theorem pooled_first (tx : Transaction) (hfresh : tx.txHash crates ≠ (transfer 2 200 1).txHash crates) :
    ∃ pool, Mempool.Reachable crates config pool ∧ pool.pooled = [transfer 2 200 1] ∧
      tx.txHash crates ∉ pool.byHash := by
  have hcalls : (runAll (Mempool.step crates) (fun _ _ => True) (Mempool.new config)
      [add (transfer 2 200 1)]).map (fun t => t.1.pooled) = some [transfer 2 200 1] := by
    decide +kernel
  obtain ⟨pool, hreach, hpooled⟩ := Mempool.Reachable.of_calls (f := Mempool.pooled) hcalls
  refine ⟨pool, hreach, hpooled, fun hmem => hfresh ?_⟩
  obtain ⟨t, ht⟩ := Option.isSome_iff_exists.mp (Std.ExtTreeMap.mem_iff_isSome_getElem?.mp hmem)
  have hhash := hreach.exact.consistent.hash _ t ht
  rw [← hhash] at ht
  have hin := (Mempool.mem_pooled hreach.exact.consistent).mpr ht
  rw [hpooled, List.mem_singleton] at hin
  rw [← hhash, hin]

theorem refused_untouched_equal : ∃ pool : Mempool, pool.pooled = [transfer 2 200 1] ∧
    ∀ pool' e, pool.addTransaction crates (transfer 3 200 1) stateDb = some (pool', .error e) →
      Mempool.Untouched pool pool' := by
  obtain ⟨pool, hreach, hpooled, -⟩ := pooled_first (transfer 3 200 1) (by decide +kernel)
  refine ⟨pool, hpooled, (Mempool.refused_untouched_iff hreach _ _).mpr (.inr (.inr (.inr ?_)))⟩
  rw [Mempool.keepers, hpooled]
  decide +kernel

/-- A replacement that is too large removes what it was to replace. -/
theorem refused_replacement_lost : ¬ ∀ (c : Crates) (config : MempoolConfig) (pool : Mempool)
    (tx : Transaction) (stateDb : StateDB), Mempool.Reachable c config pool →
      ∀ pool' e, pool.addTransaction c tx stateDb = some (pool', .error e) →
        Mempool.Untouched pool pool' := by
  intro hclaim
  obtain ⟨pool, hreach, hpooled, hfresh⟩ := pooled_first replacement (by decide +kernel)
  have he := hreach.exact
  have hkeepers : pool.keepers replacement = [] := by
    rw [Mempool.keepers, hpooled]
    decide +kernel
  have hchecks : Mempool.PassesChecks crates pool replacement stateDb :=
    ⟨by decide +kernel, hfresh, by decide +kernel⟩
  have hbump : ∀ existing, pool.slot replacement.sender replacement.nonce = some existing →
      ¬ replacement.fee < Mempool.minRequiredFee config existing := by
    intro existing hslot
    obtain ⟨-, -, hl⟩ := (he.consistent.slot _ _ existing).mp hslot
    have hin := (Mempool.mem_pooled he.consistent).mpr hl
    rw [hpooled, List.mem_singleton] at hin
    subst hin
    decide +kernel
  obtain ⟨⟨pool', outcome⟩, hr, -⟩ := Mempool.addTransaction_spec he.consistent replacement stateDb
  rcases Mempool.addTransaction_outcome he hchecks hbump hr with ⟨hroom, -⟩ | ⟨-, rfl, hleft⟩
  · rw [hkeepers] at hroom
    exact absurd hroom (by decide +kernel)
  · have huntouched := hclaim crates config pool replacement stateDb hreach pool' _ hr
    have hperm := (he.untouched_iff (he.addTransaction hr)).mp huntouched
    have hlen := (hleft.symm.trans hperm).length_eq
    rw [hkeepers, hpooled] at hlen
    cases hlen

end MempoolRejection

end AuraChain
