import AuraChain.MempoolRun

/-! A call of `add_transaction` as the sequence of its accesses, each under one
guard. The guard of `by_sender` is kept from the nonce check to the end of a
replacement, and the counter is written in a step that returns. A call that no
other interrupts does what the function on the pool does. -/

namespace AuraChain

/-- The access of `add_transaction` that comes next. -/
inductive AddPhase
  | duplicateCheck
  | statefulCheck
  | nonceCheck
  | dropHash (existing : Transaction)
  | dropKey (existing : Transaction)
  | dropBytes (existing : Transaction)
  | dropNonce
  | countCheck
  | bytesCheck
  | lowestKey
  | evictHash (txHash : Hash)
  | evictKey (txHash : Hash) (evicted : Transaction)
  | evictNonce (evicted : Transaction)
  | evictBytes (evicted : Transaction)
  | insertHash
  | insertNonce
  | insertKey
  | insertBytes
  | returned (result : Except MempoolError Hash)

structure SharedPool where
  pool : Mempool
  senderGuard : Bool

namespace Mempool

def eraseHash (pool : Mempool) (txHash : Hash) : Mempool :=
  { pool with byHash := pool.byHash.erase txHash }

def eraseKey (pool : Mempool) (key : PriorityKey) : Mempool :=
  { pool with priorityIndex := pool.priorityIndex.erase key }

def eraseNonce (pool : Mempool) (tx : Transaction) : Mempool :=
  { pool with
    bySender := match pool.bySender[tx.sender]? with
      | some senderMap => pool.bySender.insert tx.sender (senderMap.erase tx.nonce)
      | none => pool.bySender }

def subBytes (pool : Mempool) (tx : Transaction) : Mempool :=
  { pool with totalBytes := pool.totalBytes - tx.sizeBytes }

def addHash (c : Crates) (pool : Mempool) (tx : Transaction) : Mempool :=
  { pool with byHash := pool.byHash.insert (tx.txHash c) tx }

def addNonce (pool : Mempool) (tx : Transaction) : Mempool :=
  { pool with
    bySender := pool.bySender.insert tx.sender
      ((pool.bySender.getD tx.sender ∅).insert tx.nonce tx) }

def addKey (c : Crates) (pool : Mempool) (tx : Transaction) : Mempool :=
  { pool with priorityIndex := pool.priorityIndex.insert (tx.priorityKey c) }

def addBytes (pool : Mempool) (tx : Transaction) : Mempool :=
  { pool with totalBytes := pool.totalBytes + tx.sizeBytes }

variable {pool : Mempool} {existing : Transaction}

theorem withSender_of_slot {a : Address} {nonce : UInt64} (h : pool.slot a nonce = some existing) :
    pool.withSender a = pool := by
  obtain ⟨txs, htxs, -⟩ := (slot_eq_some_iff a nonce).mp h
  rw [withSender, OrdMap.getD_of_lookup htxs, OrdMap.insert_present htxs]

theorem slot_eraseNonce (pool : Mempool) (t : Transaction) (a : Address) (nonce : UInt64) :
    (pool.eraseNonce t).slot a nonce =
      if t.sender = a ∧ t.nonce = nonce then none else pool.slot a nonce :=
  slot_erase pool a t.sender t.nonce nonce rfl

end Mempool

namespace SharedPool

def on (s : SharedPool) (f : Mempool → Mempool) : SharedPool := { s with pool := f s.pool }

end SharedPool

namespace AddPhase

/-- One access. Without an answer the client waits for the guard of `by_sender`. -/
def advance (c : Crates) (tx : Transaction) (stateDb : StateDB) (s : SharedPool) :
    AddPhase → Option (AddPhase × SharedPool)
  | duplicateCheck =>
    match validateStateless c tx with
    | .error e => some (returned (.error (.validation e)), s)
    | .ok () =>
      if (tx.txHash c) ∈ s.pool.byHash then
        some (returned (.error (.duplicate (tx.txHash c))), s)
      else some (statefulCheck, s)
  | statefulCheck =>
    match validateStateful tx (stateDb.getAccount c tx.sender) with
    | .error e => some (returned (.error (.validation e)), s)
    | .ok () => some (nonceCheck, s)
  | nonceCheck =>
    if s.senderGuard then none
    else match s.pool.slot tx.sender tx.nonce with
      | none => some (countCheck, s.on (·.withSender tx.sender))
      | some existing =>
        if tx.fee < Mempool.minRequiredFee s.pool.config existing then
          some (returned (.error (.insufficientRbfBump s.pool.config.minRbfBumpPercent)),
            s.on (·.withSender tx.sender))
        else some (dropHash existing, ⟨s.pool.withSender tx.sender, true⟩)
  | dropHash existing => some (dropKey existing, s.on (·.eraseHash (existing.txHash c)))
  | dropKey existing => some (dropBytes existing, s.on (·.eraseKey (existing.priorityKey c)))
  | dropBytes existing => some (dropNonce, s.on (·.subBytes existing))
  | dropNonce => some (countCheck, ⟨s.pool.eraseNonce tx, false⟩)
  | countCheck =>
    if s.pool.config.maxTransactions ≤ s.pool.byHash.size then some (lowestKey, s)
    else some (bytesCheck, s)
  | bytesCheck =>
    if s.pool.config.maxBytes < s.pool.totalBytes + tx.sizeBytes then some (lowestKey, s)
    else some (insertHash, s)
  | lowestKey =>
    match s.pool.priorityIndex.min? with
    | none => some (returned (.error .poolFull), s)
    | some key =>
      if tx.feePerByte ≤ key.feePerByte then some (returned (.error .poolFull), s)
      else some (evictHash key.txHash, s)
  | evictHash txHash =>
    match s.pool.byHash[txHash]? with
    | none => some (countCheck, s)
    | some evicted => some (evictKey txHash evicted, s.on (·.eraseHash txHash))
  | evictKey txHash evicted =>
    some (evictNonce evicted, s.on (·.eraseKey ⟨evicted.feePerByte, evicted.nonce, txHash⟩))
  | evictNonce evicted =>
    if s.senderGuard then none else some (evictBytes evicted, s.on (·.eraseNonce evicted))
  | evictBytes evicted => some (countCheck, s.on (·.subBytes evicted))
  | insertHash => some (insertNonce, s.on (·.addHash c tx))
  | insertNonce => if s.senderGuard then none else some (insertKey, s.on (·.addNonce tx))
  | insertKey => some (insertBytes, s.on (·.addKey c tx))
  | insertBytes => some (returned (.ok (tx.txHash c)), s.on (·.addBytes tx))
  | returned _ => none

variable {c : Crates} {tx : Transaction} {stateDb : StateDB} {s : SharedPool} {p : AddPhase}
  {r : AddPhase × SharedPool}

theorem duplicateCheck_cases (h : advance c tx stateDb s duplicateCheck = some r) : r.2 = s ∧
    (s.pool.byHash[tx.txHash c]? = none ∧ r.1 = statefulCheck ∨ ∃ e, r.1 = returned (.error e)) := by
  rw [advance] at h
  split at h
  · cases h
    exact ⟨rfl, .inr ⟨_, rfl⟩⟩
  · split_ifs at h with hd
    · cases h
      exact ⟨rfl, .inr ⟨_, rfl⟩⟩
    · cases h
      exact ⟨rfl, .inl ⟨Std.ExtTreeMap.getElem?_eq_none hd, rfl⟩⟩

theorem statefulCheck_cases (h : advance c tx stateDb s statefulCheck = some r) :
    r.2 = s ∧ (r.1 = nonceCheck ∨ ∃ e, r.1 = returned (.error e)) := by
  rw [advance] at h
  split at h
  · cases h
    exact ⟨rfl, .inr ⟨_, rfl⟩⟩
  · cases h
    exact ⟨rfl, .inl rfl⟩

theorem nonceCheck_cases (h : advance c tx stateDb s nonceCheck = some r) :
    r.2.pool = s.pool.withSender tx.sender ∧
      (s.pool.slot tx.sender tx.nonce = none ∧ r.1 = countCheck ∨
        ∃ existing, s.pool.slot tx.sender tx.nonce = some existing ∧
          (¬ tx.fee < Mempool.minRequiredFee s.pool.config existing ∧ r.1 = dropHash existing ∨
            ∃ e, r.1 = returned (.error e))) := by
  rw [advance] at h
  split_ifs at h with hguard
  cases hslot : s.pool.slot tx.sender tx.nonce with
  | none =>
    simp only [hslot, Option.some.injEq] at h
    subst h
    exact ⟨rfl, .inl ⟨rfl, rfl⟩⟩
  | some existing =>
    simp only [hslot] at h
    split_ifs at h with hfee
    · cases h
      exact ⟨rfl, .inr ⟨existing, rfl, .inr ⟨_, rfl⟩⟩⟩
    · cases h
      exact ⟨rfl, .inr ⟨existing, rfl, .inl ⟨hfee, rfl⟩⟩⟩

theorem roomCheck_cases (hp : p = countCheck ∨ p = bytesCheck ∨ p = lowestKey)
    (h : advance c tx stateDb s p = some r) : r.2 = s ∧ (r.1 = bytesCheck ∨ r.1 = lowestKey ∨
      r.1 = insertHash ∨ (∃ txHash, r.1 = evictHash txHash) ∨ ∃ e, r.1 = returned (.error e)) := by
  rcases hp with rfl | rfl | rfl
  · rw [advance] at h
    split_ifs at h <;> cases h <;> simp
  · rw [advance] at h
    split_ifs at h <;> cases h <;> simp
  · rw [advance] at h
    split at h
    · cases h
      simp
    · split_ifs at h <;> cases h <;> simp

theorem evictHash_cases {txHash : Hash} (h : advance c tx stateDb s (evictHash txHash) = some r) :
    r.2 = s ∧ r.1 = countCheck ∨ ∃ evicted, s.pool.byHash[txHash]? = some evicted ∧
      r.2.pool = s.pool.eraseHash txHash ∧ r.1 = evictKey txHash evicted := by
  rw [advance] at h
  split at h
  · cases h
    exact .inl ⟨rfl, rfl⟩
  · rename_i evicted hl
    cases h
    exact .inr ⟨evicted, hl, rfl, rfl⟩

theorem evictNonce_cases {evicted : Transaction}
    (h : advance c tx stateDb s (evictNonce evicted) = some r) :
    r.2.pool = s.pool.eraseNonce evicted ∧ r.1 = evictBytes evicted := by
  rw [advance] at h
  split_ifs at h
  cases h
  exact ⟨rfl, rfl⟩

theorem insertNonce_cases (h : advance c tx stateDb s insertNonce = some r) :
    r.2.pool = s.pool.addNonce tx ∧ r.1 = insertKey := by
  rw [advance] at h
  split_ifs at h
  cases h
  exact ⟨rfl, rfl⟩

/-- No access puts anything but the transaction of the call in the pool. -/
theorem advance_byHash (h : advance c tx stateDb s p = some r) {k : Hash} {t : Transaction}
    (ht : r.2.pool.byHash[k]? = some t) : s.pool.byHash[k]? = some t ∨ t = tx := by
  cases p with
  | duplicateCheck => exact .inl ((duplicateCheck_cases h).1 ▸ ht)
  | statefulCheck => exact .inl ((statefulCheck_cases h).1 ▸ ht)
  | nonceCheck =>
    rw [(nonceCheck_cases h).1] at ht
    exact .inl ht
  | countCheck | bytesCheck | lowestKey => exact .inl ((roomCheck_cases (by simp) h).1 ▸ ht)
  | evictHash txHash =>
    rcases evictHash_cases h with ⟨hs, -⟩ | ⟨evicted, -, hs, -⟩
    · exact .inl (hs ▸ ht)
    · rw [hs] at ht
      exact .inl (Mempool.Shrinks.erase rfl k t ht)
  | evictNonce evicted =>
    rw [(evictNonce_cases h).1] at ht
    exact .inl ht
  | insertNonce =>
    rw [(insertNonce_cases h).1] at ht
    exact .inl ht
  | dropHash existing =>
    cases h
    exact .inl (Mempool.Shrinks.erase rfl k t ht)
  | insertHash =>
    cases h
    simp only [SharedPool.on, Mempool.addHash, OrdMap.lookup_insert] at ht
    split_ifs at ht with hk
    · exact .inr (Option.some.inj ht).symm
    · exact .inl ht
  | dropKey _ | dropBytes _ | dropNonce | evictKey _ _ | evictBytes _ | insertKey | insertBytes =>
    cases h
    exact .inl ht
  | returned _ => cases h

/-- A call takes its next access while no other call takes one. -/
def Access (c : Crates) (tx : Transaction) (stateDb : StateDB) (x y : AddPhase × SharedPool) : Prop :=
  x.1.advance c tx stateDb x.2 = some y

abbrev Accesses (c : Crates) (tx : Transaction) (stateDb : StateDB) :=
  Relation.ReflTransGen (Access c tx stateDb)

section Alone

variable {c : Crates} {tx existing : Transaction} {stateDb : StateDB} {pool pool' : Mempool}

def resume (next : AddPhase) : Except MempoolError Unit → AddPhase
  | .error e => .returned (.error e)
  | .ok () => next

theorem replaceByFee_alone (pool : Mempool) : Accesses c tx stateDb (.nonceCheck, ⟨pool, false⟩)
    (resume .countCheck (pool.replaceByFee c tx).2, ⟨(pool.replaceByFee c tx).1, false⟩) := by
  rw [Mempool.replaceByFee]
  cases hslot : pool.slot tx.sender tx.nonce with
  | none =>
    have hn : (pool.bySender.getD tx.sender ∅)[tx.nonce]? = none := hslot
    refine .single ?_
    simp [Access, advance, hslot, hn, resume, SharedPool.on, Mempool.withSender]
  | some existing =>
    obtain ⟨txs, htxs, hn⟩ := (Mempool.slot_eq_some_iff _ _).mp hslot
    have hget : pool.bySender.getD tx.sender ∅ = txs := OrdMap.getD_of_lookup htxs ∅
    by_cases hfee : tx.fee < Mempool.minRequiredFee pool.config existing
    · refine .single ?_
      simp [Access, advance, hslot, hget, hn, hfee, resume, SharedPool.on, Mempool.withSender]
    · have hcheck : Access c tx stateDb (.nonceCheck, ⟨pool, false⟩)
          (.dropHash existing, ⟨pool, true⟩) := by
        simp [Access, advance, hslot, hfee, Mempool.withSender_of_slot hslot]
      have hdropped : Accesses c tx stateDb (.nonceCheck, ⟨pool, false⟩)
          (.countCheck, ⟨(((pool.eraseHash (existing.txHash c)).eraseKey
            (existing.priorityKey c)).subBytes existing).eraseNonce tx, false⟩) :=
        ((((Relation.ReflTransGen.single hcheck).tail rfl).tail rfl).tail rfl).tail rfl
      simpa [hget, hn, hfee, resume, Mempool.eraseNonce, Mempool.subBytes,
        Mempool.eraseKey, Mempool.eraseHash, htxs] using hdropped

theorem evictTransaction_alone (txHash : Hash) :
    Accesses c tx stateDb (.evictHash txHash, ⟨pool, false⟩)
      (.countCheck, ⟨(pool.evictTransaction txHash).1, false⟩) := by
  rw [Mempool.evictTransaction]
  cases hl : pool.byHash[txHash]? with
  | none => exact .single (by simp [Access, advance, hl])
  | some evicted =>
    have hhash : Access c tx stateDb (.evictHash txHash, ⟨pool, false⟩)
        (.evictKey txHash evicted, ⟨pool.eraseHash txHash, false⟩) := by
      simp [Access, advance, hl, SharedPool.on]
    exact (((Relation.ReflTransGen.single hhash).tail rfl).tail rfl).tail rfl

theorem isFull_alone (pool : Mempool) : Accesses c tx stateDb (.countCheck, ⟨pool, false⟩)
    (if pool.isFull tx then .lowestKey else .insertHash, ⟨pool, false⟩) := by
  by_cases hcount : pool.config.maxTransactions ≤ pool.byHash.size
  · exact .single (by simp [Access, advance, Mempool.isFull, hcount])
  · have hfirst : Access c tx stateDb (.countCheck, ⟨pool, false⟩) (.bytesCheck, ⟨pool, false⟩) := by
      simp [Access, advance, hcount]
    refine .head hfirst (.single ?_)
    by_cases hbytes : pool.config.maxBytes < pool.totalBytes + tx.sizeBytes <;>
      simp [Access, advance, Mempool.isFull, hcount, hbytes]

theorem makeRoom_alone {fuel : Nat} {outcome : Except MempoolError Unit}
    (h : Mempool.makeRoom tx fuel pool = some (pool', outcome)) :
    Accesses c tx stateDb (.countCheck, ⟨pool, false⟩) (resume .insertHash outcome, ⟨pool', false⟩) := by
  induction fuel generalizing pool with
  | zero => cases h
  | succ fuel ih =>
    have hchecked : Accesses c tx stateDb (.countCheck, ⟨pool, false⟩)
        (if pool.isFull tx then .lowestKey else .insertHash, ⟨pool, false⟩) := isFull_alone pool
    rw [Mempool.makeRoom] at h
    split_ifs at h hchecked with hfull
    · cases hmin : pool.priorityIndex.min? with
      | none =>
        simp only [hmin, Option.some.injEq, Prod.mk.injEq] at h
        obtain ⟨rfl, rfl⟩ := h
        exact hchecked.tail (by simp [Access, advance, hmin, resume])
      | some key =>
        simp only [hmin] at h
        split_ifs at h with hfee
        · cases h
          exact hchecked.tail (by simp [Access, advance, hmin, hfee, resume])
        · have hlowest : Access c tx stateDb (.lowestKey, ⟨pool, false⟩)
              (.evictHash key.txHash, ⟨pool, false⟩) := by
            simp [Access, advance, hmin, hfee]
          exact ((hchecked.tail hlowest).trans (evictTransaction_alone key.txHash)).trans (ih h)
    · cases h
      exact hchecked

theorem insertTransaction_alone (pool : Mempool) :
    Accesses c tx stateDb (.insertHash, ⟨pool, false⟩)
      (.returned (.ok (tx.txHash c)), ⟨pool.insertTransaction c tx, false⟩) := by
  have hhash : Access c tx stateDb (.insertHash, ⟨pool, false⟩)
      (.insertNonce, ⟨pool.addHash c tx, false⟩) := rfl
  exact (((Relation.ReflTransGen.single hhash).tail rfl).tail rfl).tail rfl

theorem admitTransaction_alone {result : Except MempoolError Hash}
    (h : pool.admitTransaction c tx = some (pool', result)) :
    Accesses c tx stateDb (.nonceCheck, ⟨pool, false⟩) (.returned result, ⟨pool', false⟩) := by
  have hreplaced : Accesses c tx stateDb (.nonceCheck, ⟨pool, false⟩)
      (resume .countCheck (pool.replaceByFee c tx).2, ⟨(pool.replaceByFee c tx).1, false⟩) :=
    replaceByFee_alone pool
  rcases Mempool.admitTransaction_cases h with
    ⟨e, he, hr⟩ | ⟨hok, room, outcome, hroom, ⟨e, rfl, hr⟩ | ⟨rfl, hr⟩⟩
  · cases hr
    rwa [he] at hreplaced
  · cases hr
    rw [hok] at hreplaced
    exact hreplaced.trans (makeRoom_alone hroom)
  · cases hr
    rw [hok] at hreplaced
    exact (hreplaced.trans (makeRoom_alone hroom)).trans (insertTransaction_alone room)

/-- A call that no other interrupts does what `addTransaction` says. -/
theorem addTransaction_alone {result : Except MempoolError Hash}
    (h : pool.addTransaction c tx stateDb = some (pool', result)) :
    Accesses c tx stateDb (.duplicateCheck, ⟨pool, false⟩) (.returned result, ⟨pool', false⟩) := by
  rw [Mempool.addTransaction] at h
  cases hstateless : validateStateless c tx with
  | error e =>
    simp only [hstateless, Option.some.injEq, Prod.mk.injEq] at h
    obtain ⟨rfl, rfl⟩ := h
    exact .single (by simp [Access, advance, hstateless])
  | ok _ =>
    simp only [hstateless] at h
    split_ifs at h with hd
    · cases h
      exact .single (by simp [Access, advance, hstateless, hd])
    · have hfresh : Access c tx stateDb (.duplicateCheck, ⟨pool, false⟩)
          (.statefulCheck, ⟨pool, false⟩) := by
        simp [Access, advance, hstateless, hd]
      cases hstateful : validateStateful tx (stateDb.getAccount c tx.sender) with
      | error e =>
        simp only [hstateful, Option.some.injEq, Prod.mk.injEq] at h
        obtain ⟨rfl, rfl⟩ := h
        exact .head hfresh (.single (by simp [Access, advance, hstateful]))
      | ok _ =>
        simp only [hstateful] at h
        have hvalid : Access c tx stateDb (.statefulCheck, ⟨pool, false⟩)
            (.nonceCheck, ⟨pool, false⟩) := by
          simp [Access, advance, hstateful]
        exact .head hfresh (.head hvalid (admitTransaction_alone h))

end Alone

end AddPhase

end AuraChain
