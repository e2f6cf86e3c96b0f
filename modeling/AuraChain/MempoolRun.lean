import AuraChain.MempoolInvariant
import AuraChain.Reference
import AuraChain.TracedRun

/-! Runs of calls on one pool, each lock read as a plain cell. The state
databases that transactions are checked against may differ from call to call. -/

namespace AuraChain

theorem PriorityKey.feePerByte_le {a b : PriorityKey} (h : (compare a b).isLE) :
    a.feePerByte ≤ b.feePerByte := by
  rw [compare_eq_then] at h
  exact Std.isLE_compare.mp (Ordering.isLE_left_of_isLE_then h)

inductive PoolCall
  | addTransaction (tx : Transaction) (stateDb : StateDB)
  | harvest (maxBytes : Nat)
  | removeCommitted (txs : List Transaction)
  | evictTransaction (txHash : Hash)

namespace Mempool

def bytes (txs : List Transaction) : Nat := (txs.map Transaction.sizeBytes).sum

def pooled (pool : Mempool) : List Transaction := OrdMap.contents pool.byHash

/-- A call of `add_transaction` emits its result. -/
def step (c : Crates) (pool : Mempool) :
    PoolCall → Option (Mempool × List (Except MempoolError Hash))
  | .addTransaction tx stateDb => (pool.addTransaction c tx stateDb).map fun r => (r.1, [r.2])
  | .harvest _ => some (pool, [])
  | .removeCommitted txs => some (pool.removeCommitted c txs, [])
  | .evictTransaction txHash => some ((pool.evictTransaction txHash).1, [])

def Reachable (c : Crates) (config : MempoolConfig) (pool : Mempool) : Prop :=
  ∃ log, TracedRun (step c) (fun _ _ => True) (new config, []) (pool, log)

/-- The indexes agree, and the counter is the exact size of what they hold. -/
structure Exact (c : Crates) (config : MempoolConfig) (pool : Mempool) : Prop where
  consistent : pool.Consistent c
  bytes : pool.totalBytes = bytes pool.pooled
  config : pool.config = config

variable {c : Crates} {config : MempoolConfig} {pool pool' : Mempool} {tx : Transaction}
  {stateDb : StateDB}

theorem bytes_perm {l l' : List Transaction} (h : l.Perm l') : bytes l = bytes l' :=
  (h.map Transaction.sizeBytes).sum_nat

theorem mem_pooled (hc : pool.Consistent c) :
    tx ∈ pool.pooled ↔ pool.byHash[tx.txHash c]? = some tx := by
  rw [pooled, OrdMap.mem_contents]
  constructor
  · rintro ⟨h, hl⟩
    rw [hc.hash h tx hl]
    exact hl
  · exact fun hl => ⟨_, hl⟩

theorem lookup_iff (hc : pool.Consistent c) {txHash : Hash} :
    pool.byHash[txHash]? = some tx ↔ tx ∈ pool.pooled ∧ tx.txHash c = txHash := by
  rw [mem_pooled hc]
  constructor
  · intro hl
    have hh := hc.hash txHash tx hl
    exact ⟨hh ▸ hl, hh⟩
  · rintro ⟨hl, rfl⟩
    exact hl

theorem mem_priorityIndex (hc : pool.Consistent c) {key : PriorityKey} :
    key ∈ pool.priorityIndex ↔ ∃ tx ∈ pool.pooled, tx.priorityKey c = key := by
  rw [hc.index]
  constructor
  · rintro ⟨tx, hl, hkey⟩
    exact ⟨tx, ((lookup_iff hc).mp hl).1, hkey⟩
  · rintro ⟨tx, hm, rfl⟩
    exact ⟨tx, (mem_pooled hc).mp hm, rfl⟩

theorem pooled_nodup (hc : pool.Consistent c) : pool.pooled.Nodup := by
  refine (OrdMap.nodup_toList pool.byHash).map_on ?_
  rintro ⟨h, t⟩ ht ⟨h', t'⟩ ht' rfl
  rw [OrdMap.mem_toList_iff] at ht ht'
  rw [← hc.hash h t ht, ← hc.hash h' t ht']

theorem slot_eq_some_iff (a : Address) (nonce : UInt64) : pool.slot a nonce = some tx ↔
    ∃ txs : OrdMap UInt64 Transaction, pool.bySender[a]? = some txs ∧ txs[nonce]? = some tx := by
  rw [Mempool.slot, Std.ExtTreeMap.getD_eq_getD_getElem?]
  cases pool.bySender[a]? with
  | none => simp
  | some txs => simp

def withSender (pool : Mempool) (a : Address) : Mempool :=
  { pool with bySender := pool.bySender.insert a (pool.bySender.getD a ∅) }

theorem slot_withSender (pool : Mempool) (a b : Address) (nonce : UInt64) :
    (pool.withSender b).slot a nonce = pool.slot a nonce := by
  rw [slot_insert pool a b _ nonce rfl]
  by_cases ha : b = a <;> simp [ha, Mempool.slot]

theorem Consistent.withSender (h : pool.Consistent c) (a : Address) :
    (pool.withSender a).Consistent c :=
  h.congr rfl rfl fun b nonce => slot_withSender pool b a nonce

def withoutExisting (c : Crates) (pool : Mempool) (existing : Transaction) : Mempool :=
  { pool with
    byHash := pool.byHash.erase (existing.txHash c)
    priorityIndex := pool.priorityIndex.erase (existing.priorityKey c)
    totalBytes := pool.totalBytes - existing.sizeBytes
    bySender := pool.bySender.insert existing.sender
      ((pool.bySender.getD existing.sender ∅).erase existing.nonce) }

theorem replaceByFee_cases (hc : pool.Consistent c) (tx : Transaction) :
    pool.slot tx.sender tx.nonce = none ∧
      pool.replaceByFee c tx = (pool.withSender tx.sender, .ok ()) ∨
    ∃ existing, pool.slot tx.sender tx.nonce = some existing ∧
      (tx.fee < minRequiredFee pool.config existing ∧ pool.replaceByFee c tx =
          (pool.withSender tx.sender, .error (.insufficientRbfBump pool.config.minRbfBumpPercent)) ∨
        ¬ tx.fee < minRequiredFee pool.config existing ∧
          pool.replaceByFee c tx = (pool.withoutExisting c existing, .ok ())) := by
  rw [replaceByFee]
  cases hl : (pool.bySender.getD tx.sender ∅)[tx.nonce]? with
  | none => exact .inl ⟨hl, rfl⟩
  | some existing =>
    refine .inr ⟨existing, hl, ?_⟩
    obtain ⟨hsender, hnonce, -⟩ := (hc.slot _ _ existing).mp hl
    by_cases hf : tx.fee < minRequiredFee pool.config existing
    · exact .inl ⟨hf, if_pos hf⟩
    · refine .inr ⟨hf, ?_⟩
      simp only [if_neg hf, withoutExisting, hsender, hnonce]

theorem admitTransaction_cases {r : Mempool × Except MempoolError Hash}
    (h : pool.admitTransaction c tx = some r) :
    (∃ e, (pool.replaceByFee c tx).2 = .error e ∧ r = ((pool.replaceByFee c tx).1, .error e)) ∨
    (pool.replaceByFee c tx).2 = .ok () ∧ ∃ room outcome,
      makeRoom tx ((pool.replaceByFee c tx).1.byHash.size + 1) (pool.replaceByFee c tx).1 =
        some (room, outcome) ∧
      ((∃ e, outcome = .error e ∧ r = (room, .error e)) ∨
        outcome = .ok () ∧ r = (room.insertTransaction c tx, .ok (tx.txHash c))) := by
  rw [admitTransaction] at h
  cases hr : pool.replaceByFee c tx with
  | mk q outcome =>
    rw [hr] at h
    cases outcome with
    | error e =>
      simp only [Option.some.injEq] at h
      exact .inl ⟨e, rfl, h.symm⟩
    | ok u =>
      refine .inr ⟨rfl, ?_⟩
      simp only at h ⊢
      cases hm : makeRoom tx (q.byHash.size + 1) q with
      | none => simp [hm] at h
      | some r' =>
        obtain ⟨room, outcome⟩ := r'
        refine ⟨room, outcome, rfl, ?_⟩
        cases outcome with
        | error e =>
          simp only [hm, Option.some.injEq] at h
          exact .inl ⟨e, rfl, h.symm⟩
        | ok u' =>
          simp only [hm, Option.some.injEq] at h
          exact .inr ⟨rfl, h.symm⟩

/-- The checks that come before the pool is changed. -/
structure PassesChecks (c : Crates) (pool : Mempool) (tx : Transaction) (stateDb : StateDB) :
    Prop where
  stateless : validateStateless c tx = .ok ()
  fresh : tx.txHash c ∉ pool.byHash
  stateful : validateStateful tx (stateDb.getAccount c tx.sender) = .ok ()

theorem addTransaction_cases {r : Mempool × Except MempoolError Hash}
    (h : pool.addTransaction c tx stateDb = some r) :
    (¬ PassesChecks c pool tx stateDb ∧ ∃ e, r = (pool, .error e)) ∨
      PassesChecks c pool tx stateDb ∧ pool.admitTransaction c tx = some r := by
  rw [addTransaction] at h
  cases hstateless : validateStateless c tx with
  | error e =>
    simp only [hstateless, Option.some.injEq] at h
    exact .inl ⟨fun hp => by simp [hp.stateless] at hstateless, _, h.symm⟩
  | ok _ =>
    simp only [hstateless] at h
    split_ifs at h with hd
    · exact .inl ⟨fun hp => hp.fresh hd, _, (Option.some.inj h).symm⟩
    · cases hstateful : validateStateful tx (stateDb.getAccount c tx.sender) with
      | error e =>
        simp only [hstateful, Option.some.injEq] at h
        exact .inl ⟨fun hp => by simp [hp.stateful] at hstateful, _, h.symm⟩
      | ok _ =>
        simp only [hstateful] at h
        exact .inr ⟨⟨hstateless, hd, hstateful⟩, h⟩

theorem Shrinks.pooled (h : pool.Shrinks pool') {t : Transaction} (ht : t ∈ pool'.pooled) :
    t ∈ pool.pooled := by
  rw [Mempool.pooled, OrdMap.mem_contents] at ht ⊢
  obtain ⟨k, hl⟩ := ht
  exact ⟨k, h k t hl⟩

theorem addTransaction_pooled (hc : pool.Consistent c) {r : Mempool × Except MempoolError Hash}
    (hr : pool.addTransaction c tx stateDb = some r) : r.1.Consistent c ∧
      ∀ t ∈ r.1.pooled, t ∈ pool.pooled ∨ t = tx ∧ PassesChecks c pool tx stateDb := by
  obtain ⟨r', hr', hcr, hnew⟩ := addTransaction_spec hc tx stateDb
  rw [hr, Option.some.injEq] at hr'
  subst hr'
  refine ⟨hcr, fun t ht => ?_⟩
  rcases addTransaction_cases hr with ⟨-, e, rfl⟩ | ⟨hchecks, -⟩
  · exact .inl ht
  · rcases hnew _ t ((mem_pooled hcr).mp ht) with hl | ⟨he, -⟩
    · exact .inl ((mem_pooled hc).mpr hl)
    · exact .inr ⟨he, hchecks⟩

theorem makeRoom_keeps {P : Mempool → Prop} (hP : P pool)
    (hstep : ∀ q h, P q → P (q.evictTransaction h).1) {fuel : Nat}
    {r : Mempool × Except MempoolError Unit} (h : makeRoom tx fuel pool = some r) : P r.1 := by
  induction fuel generalizing pool with
  | zero => cases h
  | succ fuel ih =>
    rw [makeRoom] at h
    split_ifs at h with hfull
    · cases hmin : pool.priorityIndex.min? with
      | none =>
        simp only [hmin, Option.some.injEq] at h
        exact h ▸ hP
      | some key =>
        simp only [hmin] at h
        split_ifs at h with hfee
        · exact Option.some.inj h ▸ hP
        · exact ih (hstep pool key.txHash hP) h
    · exact Option.some.inj h ▸ hP

namespace Exact

theorem new (c : Crates) (config : MempoolConfig) : (new config).Exact c config where
  consistent := .new c config
  bytes := rfl
  config := rfl

theorem erased (h : pool.Exact c config) (hm : pool.byHash[tx.txHash c]? = some tx)
    (hc : pool'.Consistent c) (hb : pool'.byHash = pool.byHash.erase (tx.txHash c))
    (ht : pool'.totalBytes = pool.totalBytes - tx.sizeBytes) (hconfig : pool'.config = pool.config) :
    pool'.Exact c config := by
  refine ⟨hc, ?_, hconfig.trans h.config⟩
  have hperm : pool.pooled.Perm (tx :: pool'.pooled) := by
    rw [pooled, pooled, hb]
    exact OrdMap.contents_erase hm
  have hsum := bytes_perm hperm
  rw [ht, h.bytes, hsum, Mempool.bytes, List.map_cons, List.sum_cons, Nat.add_sub_cancel_left]
  rfl

theorem evictTransaction (h : pool.Exact c config) (txHash : Hash) :
    (pool.evictTransaction txHash).1.Exact c config := by
  have hc := h.consistent.evictTransaction txHash
  have hb := evictTransaction_byHash pool txHash
  rw [Mempool.evictTransaction] at hc hb ⊢
  cases hl : pool.byHash[txHash]? with
  | none => exact h
  | some t =>
    rw [hl] at hc hb
    have hhash := h.consistent.hash txHash t hl
    subst hhash
    exact h.erased hl hc hb rfl rfl

theorem removeCommitted (h : pool.Exact c config) (txs : List Transaction) :
    (pool.removeCommitted c txs).Exact c config := by
  induction txs generalizing pool with
  | nil => exact h
  | cons t txs ih => exact ih (h.evictTransaction (t.txHash c))

theorem withSender (h : pool.Exact c config) (a : Address) : (pool.withSender a).Exact c config where
  consistent := h.consistent.withSender a
  bytes := h.bytes
  config := h.config

theorem replaceByFee (h : pool.Exact c config) (tx : Transaction) :
    (pool.replaceByFee c tx).1.Exact c config := by
  have hc := (replaceByFee_spec h.consistent tx).1
  rcases replaceByFee_cases h.consistent tx with ⟨-, he⟩ | ⟨existing, hslot, ⟨-, he⟩ | ⟨-, he⟩⟩
  · rw [he]
    exact h.withSender tx.sender
  · rw [he]
    exact h.withSender tx.sender
  · rw [he] at hc ⊢
    obtain ⟨-, -, hm⟩ := (h.consistent.slot _ _ existing).mp hslot
    exact h.erased hm hc rfl rfl rfl

theorem insertTransaction (h : pool.Exact c config) (hf : pool.byHash[tx.txHash c]? = none)
    (hs : pool.slot tx.sender tx.nonce = none) : (pool.insertTransaction c tx).Exact c config := by
  refine ⟨h.consistent.insertTransaction hf hs, ?_, h.config⟩
  have hperm : (pool.insertTransaction c tx).pooled.Perm (tx :: pool.pooled) :=
    OrdMap.contents_insert hf tx
  have hsum := bytes_perm hperm
  have htotal : (pool.insertTransaction c tx).totalBytes = pool.totalBytes + tx.sizeBytes := rfl
  rw [htotal, h.bytes, hsum, Mempool.bytes, Mempool.bytes, List.map_cons, List.sum_cons, Nat.add_comm]

theorem makeRoom (h : pool.Exact c config) {fuel : Nat} {r : Mempool × Except MempoolError Unit}
    (hr : makeRoom tx fuel pool = some r) : r.1.Exact c config :=
  makeRoom_keeps h (fun _ txHash hq => hq.evictTransaction txHash) hr

end Exact

theorem makeRoom_shrinks {fuel : Nat} {r : Mempool × Except MempoolError Unit}
    (hr : makeRoom tx fuel pool = some r) : pool.Shrinks r.1 := by
  refine makeRoom_keeps (P := pool.Shrinks) (fun _ _ hl => hl) ?_ hr
  intro q txHash hq k t hl
  exact hq k t (Shrinks.erase (evictTransaction_byHash q txHash) k t hl)

theorem room_free (hc : pool.Consistent c) (hf : pool.byHash[tx.txHash c]? = none)
    (hok : (pool.replaceByFee c tx).2 = .ok ()) {fuel : Nat} {room : Mempool}
    {outcome : Except MempoolError Unit}
    (hr : makeRoom tx fuel (pool.replaceByFee c tx).1 = some (room, outcome))
    (hroom : room.Consistent c) :
    room.byHash[tx.txHash c]? = none ∧ room.slot tx.sender tx.nonce = none := by
  obtain ⟨hreplaced, hshrinks, hslot⟩ := replaceByFee_spec hc tx
  have hshrinks' := makeRoom_shrinks hr
  exact ⟨hshrinks'.absent (hshrinks.absent hf), hshrinks'.slot_none hreplaced hroom (hslot hok)⟩

theorem Exact.addTransaction (h : pool.Exact c config) {r : Mempool × Except MempoolError Hash}
    (hr : pool.addTransaction c tx stateDb = some r) : r.1.Exact c config := by
  rcases addTransaction_cases hr with ⟨-, e, rfl⟩ | ⟨hp, hplaced⟩
  · exact h
  · have hf : pool.byHash[tx.txHash c]? = none := Std.ExtTreeMap.getElem?_eq_none hp.fresh
    rcases admitTransaction_cases hplaced with
      ⟨e, -, rfl⟩ | ⟨hok, room, outcome, hm, ⟨e, -, rfl⟩ | ⟨-, rfl⟩⟩
    · exact h.replaceByFee tx
    · exact (h.replaceByFee tx).makeRoom hm
    · have hroom := (h.replaceByFee tx).makeRoom hm
      obtain ⟨hfree, hslot⟩ := room_free h.consistent hf hok hm hroom.consistent
      exact hroom.insertTransaction hfree hslot

theorem Exact.step (h : pool.Exact c config) {call : PoolCall}
    {out : List (Except MempoolError Hash)} (hs : pool.step c call = some (pool', out)) :
    pool'.Exact c config := by
  cases call with
  | addTransaction tx stateDb =>
    obtain ⟨r, hr, he⟩ := Option.map_eq_some_iff.mp hs
    cases he
    exact h.addTransaction hr
  | harvest maxBytes =>
    cases hs
    exact h
  | removeCommitted txs =>
    cases hs
    exact h.removeCommitted txs
  | evictTransaction txHash =>
    cases hs
    exact h.evictTransaction txHash

theorem Reachable.exact (h : Reachable c config pool) : pool.Exact c config := by
  obtain ⟨log, hrun⟩ := h
  refine TracedRun.invariant (P := fun pool _ => pool.Exact c config) hrun (.new c config) ?_
  intro pool log call pool' out hP _ hs
  exact hP.step hs

/-- Whatever the checks ensure holds of all that is pooled. -/
theorem Reachable.pooled_forall {P : Transaction → Prop} (h : Reachable c config pool)
    (hP : ∀ pool tx stateDb, PassesChecks c pool tx stateDb → P tx) : ∀ t ∈ pool.pooled, P t := by
  obtain ⟨log, hrun⟩ := h
  refine (TracedRun.invariant (P := fun pool _ => pool.Exact c config ∧ ∀ t ∈ pool.pooled, P t) hrun
    ⟨.new c config, fun t ht => by simp [pooled, Mempool.new, OrdMap.mem_contents] at ht⟩ ?_).2
  rintro pool log call pool' out ⟨he, hall⟩ - hs
  refine ⟨he.step hs, fun t ht => ?_⟩
  cases call with
  | addTransaction tx stateDb =>
    obtain ⟨r, hr, heq⟩ := Option.map_eq_some_iff.mp hs
    cases heq
    rcases (addTransaction_pooled he.consistent hr).2 t ht with hold | ⟨rfl, hchecks⟩
    · exact hall t hold
    · exact hP pool t stateDb hchecks
  | harvest maxBytes =>
    cases hs
    exact hall t ht
  | removeCommitted txs =>
    cases hs
    exact hall t ((removeCommitted_shrinks c pool txs).pooled ht)
  | evictTransaction txHash =>
    cases hs
    exact hall t (Shrinks.pooled (Shrinks.erase (evictTransaction_byHash pool txHash)) ht)

theorem Exact.returns (h : pool.Exact c config) (call : PoolCall) :
    (pool.step c call).isSome = true := by
  cases call with
  | addTransaction tx stateDb =>
    obtain ⟨r, hr, -⟩ := addTransaction_spec h.consistent tx stateDb
    simp [Mempool.step, hr]
  | harvest maxBytes => rfl
  | removeCommitted txs => rfl
  | evictTransaction txHash => rfl

theorem Exact.distinct (h : pool.Exact c config) {t u : Transaction} (ht : t ∈ pool.pooled)
    (hu : u ∈ pool.pooled) (hsender : t.sender = u.sender) (hnonce : t.nonce = u.nonce) : t = u := by
  have hslot := (h.consistent.slot t.sender t.nonce t).mpr
    ⟨rfl, rfl, (mem_pooled h.consistent).mp ht⟩
  have hslot' := (h.consistent.slot t.sender t.nonce u).mpr
    ⟨hsender.symm, hnonce.symm, (mem_pooled h.consistent).mp hu⟩
  rw [hslot] at hslot'
  exact Option.some.inj hslot'

/-- After every run the three indexes hold one set of transactions, no two of
them in one place, and the counter is the exact sum of their sizes. -/
theorem indexes_agree (h : Reachable c config pool) :
    (∀ (txHash : Hash) (tx : Transaction), pool.byHash[txHash]? = some tx ↔
      tx ∈ pool.pooled ∧ tx.txHash c = txHash) ∧
    (∀ (a : Address) (nonce : UInt64) (tx : Transaction),
      (∃ txs : OrdMap UInt64 Transaction, pool.bySender[a]? = some txs ∧ txs[nonce]? = some tx) ↔
        tx ∈ pool.pooled ∧ tx.sender = a ∧ tx.nonce = nonce) ∧
    (∀ key, key ∈ pool.priorityIndex ↔ ∃ tx ∈ pool.pooled, tx.priorityKey c = key) ∧
    (∀ t ∈ pool.pooled, ∀ u ∈ pool.pooled, t.sender = u.sender → t.nonce = u.nonce → t = u) ∧
    pool.pooled.Nodup ∧ pool.totalBytes = bytes pool.pooled ∧
    ∀ call, (pool.step c call).isSome = true := by
  have he := h.exact
  have hc := he.consistent
  refine ⟨fun _ _ => lookup_iff hc, ?_, fun _ => mem_priorityIndex hc,
    fun t ht u hu => he.distinct ht hu, pooled_nodup hc, he.bytes, he.returns⟩
  intro a nonce tx
  rw [← slot_eq_some_iff, hc.slot, mem_pooled hc]
  tauto

theorem Reachable.of_calls {β : Type} {calls : List PoolCall} {f : Mempool → β} {y : β}
    (h : (runAll (step c) (fun _ _ => True) (new config) calls).map (fun t => f t.1) = some y) :
    ∃ pool, Reachable c config pool ∧ f pool = y := by
  obtain ⟨⟨pool, log⟩, hrun, hf⟩ := TracedRun.of_map h
  exact ⟨pool, ⟨log, hrun⟩, hf⟩

end Mempool

namespace MempoolRun

def crates : Crates := Reference.crates [Reference.genesisBlock [1]]

def stateDb : StateDB := Reference.stateDb [1] [Reference.genesisBlock [1]]

def transfer (key : UInt8) (fee nonce : UInt64) : Transaction :=
  Reference.transaction .transfer key (Reference.address (5 - key)) 1000 fee nonce

def add (tx : Transaction) : PoolCall := .addTransaction tx stateDb

theorem stateDb_getAccount :
    stateDb.getAccount crates (Reference.address 2) = Account.new 10000000 0 ∧
      stateDb.getAccount crates (Reference.address 3) = Account.new 5000000 0 := by
  constructor <;> decide +kernel

theorem indexes_agree_replaced : ∃ pool : Mempool, pool.byHash.size = 2 ∧ pool.totalBytes = 330 ∧
    Mempool.bytes pool.pooled = 330 := by
  have hcalls : (runAll (Mempool.step crates) (fun _ _ => True) (Mempool.new ⟨3, 10000, 10⟩)
      [add (transfer 2 200 1), add (transfer 2 400 1), add (transfer 3 300 1),
        add (transfer 3 900 2), .evictTransaction ((transfer 3 300 1).txHash crates)]).map
      (fun t => (t.1.byHash.size, t.1.totalBytes)) = some (2, 330) := by decide +kernel
  obtain ⟨pool, hreach, hpool⟩ :=
    Mempool.Reachable.of_calls (f := fun pool => (pool.byHash.size, pool.totalBytes)) hcalls
  obtain ⟨hsize, htotal⟩ := Prod.mk.inj hpool
  obtain ⟨-, -, -, -, -, hbytes, -⟩ := Mempool.indexes_agree hreach
  exact ⟨pool, hsize, htotal, hbytes ▸ htotal⟩

end MempoolRun

end AuraChain
