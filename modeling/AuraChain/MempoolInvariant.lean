import AuraChain.Mempool

/-! The three indexes of the pool describe the same transactions. Removals and
insertions keep that, hence every operation does, and the eviction loop ends. -/

namespace AuraChain

namespace Mempool

def slot (pool : Mempool) (a : Address) (nonce : UInt64) : Option Transaction :=
  (pool.bySender.getD a ∅)[nonce]?

structure Consistent (c : Crates) (pool : Mempool) : Prop where
  hash : ∀ (h : Hash) (tx : Transaction), pool.byHash[h]? = some tx → tx.txHash c = h
  index : ∀ key : PriorityKey, key ∈ pool.priorityIndex ↔
    ∃ tx : Transaction, pool.byHash[key.txHash]? = some tx ∧ tx.priorityKey c = key
  slot : ∀ (a : Address) (nonce : UInt64) (tx : Transaction), pool.slot a nonce = some tx ↔
    tx.sender = a ∧ tx.nonce = nonce ∧ pool.byHash[tx.txHash c]? = some tx

variable {c : Crates} {pool pool' : Mempool} {tx : Transaction}

theorem Consistent.new (c : Crates) (config : MempoolConfig) : (new config).Consistent c where
  hash h tx hl := by simp [Mempool.new] at hl
  index key := by simp [Mempool.new]
  slot a nonce tx := by simp [Mempool.slot, Mempool.new]

theorem slot_insert (pool : Mempool) (a b : Address) (m : OrdMap UInt64 Transaction) (nonce : UInt64)
    (hp : pool'.bySender = pool.bySender.insert b m) :
    pool'.slot a nonce = if b = a then m[nonce]? else pool.slot a nonce := by
  unfold Mempool.slot
  rw [hp, OrdMap.getD_insert_ite]
  by_cases h : b = a <;> simp [h]

/-- The map of a sender that is not there has no place to give up. -/
theorem slot_erase (pool : Mempool) (a b : Address) (n nonce : UInt64)
    (hp : pool'.bySender = match pool.bySender[b]? with
      | some txs => pool.bySender.insert b (txs.erase n)
      | none => pool.bySender) :
    pool'.slot a nonce = if b = a ∧ n = nonce then none else pool.slot a nonce := by
  cases hm : pool.bySender[b]? with
  | none =>
    have hb : ∀ m : UInt64, pool.slot b m = none := by
      intro m
      simp [Mempool.slot, Std.ExtTreeMap.getD_eq_getD_getElem?, hm]
    simp only [hm] at hp
    have hsame : pool'.slot a nonce = pool.slot a nonce := by rw [Mempool.slot, hp, Mempool.slot]
    rw [hsame]
    split_ifs with ha
    · exact ha.1 ▸ hb nonce
    · rfl
  | some txs =>
    have hget : pool.bySender.getD b ∅ = txs := OrdMap.getD_of_lookup hm ∅
    simp only [hm] at hp
    rw [slot_insert pool a b _ nonce hp, OrdMap.lookup_erase]
    by_cases ha : b = a
    · by_cases hn : n = nonce <;> simp [hn, ← ha, Mempool.slot, hget]
    · simp [ha]

/-- The counter and empty maps of senders play no part. -/
theorem Consistent.congr (h : pool.Consistent c) (hb : pool'.byHash = pool.byHash)
    (hi : pool'.priorityIndex = pool.priorityIndex)
    (hs : ∀ a nonce, pool'.slot a nonce = pool.slot a nonce) : pool'.Consistent c where
  hash k t hl := h.hash k t (hb ▸ hl)
  index key := by rw [hi, hb, h.index]
  slot a nonce t := by rw [hs, hb, h.slot]

/-- Dropping a pooled transaction from all three indexes keeps them in agreement. -/
theorem Consistent.erase (h : pool.Consistent c) (hm : pool.byHash[tx.txHash c]? = some tx)
    (hb : pool'.byHash = pool.byHash.erase (tx.txHash c))
    (hi : pool'.priorityIndex = pool.priorityIndex.erase (tx.priorityKey c))
    (hs : ∀ a nonce, pool'.slot a nonce =
      if tx.sender = a ∧ tx.nonce = nonce then none else pool.slot a nonce) :
    pool'.Consistent c where
  hash k t hl := by
    rw [hb, OrdMap.lookup_erase] at hl
    split_ifs at hl
    exact h.hash k t hl
  index key := by
    rw [hi, Std.ExtTreeSet.mem_erase, h.index, hb, OrdMap.lookup_erase]
    by_cases hk : tx.txHash c = key.txHash
    · rw [if_pos hk, ← hk, hm]
      simp
    · have hne : tx.priorityKey c ≠ key := fun he => hk (congrArg PriorityKey.txHash he)
      simp [hk, hne]
  slot a nonce t := by
    rw [hs, hb, OrdMap.lookup_erase]
    by_cases hk : tx.txHash c = t.txHash c
    · rw [if_pos hk]
      split_ifs with ha
      · simp
      · simp only [and_false, iff_false]
        intro hsl
        obtain ⟨hsender, hnonce, hl⟩ := (h.slot a nonce t).mp hsl
        rw [← hk, hm, Option.some.injEq] at hl
        exact ha ⟨hl ▸ hsender, hl ▸ hnonce⟩
    · rw [if_neg hk]
      split_ifs with ha
      · simp only [false_iff, not_and]
        intro hsender hnonce hl
        have ht : pool.slot a nonce = some t := (h.slot a nonce t).mpr ⟨hsender, hnonce, hl⟩
        have htx : pool.slot a nonce = some tx := (h.slot a nonce tx).mpr ⟨ha.1, ha.2, hm⟩
        rw [htx, Option.some.injEq] at ht
        exact hk (congrArg (Transaction.txHash c) ht)
      · exact h.slot a nonce t

theorem Consistent.insertTransaction (h : pool.Consistent c) (hf : pool.byHash[tx.txHash c]? = none)
    (hs : pool.slot tx.sender tx.nonce = none) : (pool.insertTransaction c tx).Consistent c where
  hash k t hl := by
    simp only [Mempool.insertTransaction, OrdMap.lookup_insert] at hl
    split_ifs at hl with hk
    · rw [← Option.some.inj hl, hk]
    · exact h.hash k t hl
  index key := by
    simp only [Mempool.insertTransaction, Std.ExtTreeSet.mem_insert, Std.compare_eq_iff_eq,
      OrdMap.lookup_insert, h.index]
    by_cases hk : tx.txHash c = key.txHash
    · rw [← hk, hf]
      simp
    · have hne : tx.priorityKey c ≠ key := fun he => hk (congrArg PriorityKey.txHash he)
      simp [hk, hne]
  slot a nonce t := by
    have hlookup : (pool.insertTransaction c tx).slot a nonce =
        if tx.sender = a ∧ tx.nonce = nonce then some tx else pool.slot a nonce := by
      rw [slot_insert pool a tx.sender _ nonce rfl, OrdMap.lookup_insert]
      by_cases ha : tx.sender = a <;> by_cases hn : tx.nonce = nonce <;> simp [ha, hn, Mempool.slot]
    rw [hlookup]
    simp only [Mempool.insertTransaction, OrdMap.lookup_insert]
    by_cases hk : tx.txHash c = t.txHash c
    · rw [if_pos hk]
      split_ifs with ha
      · constructor
        · intro he
          rw [← Option.some.inj he]
          exact ⟨ha.1, ha.2, rfl⟩
        · exact fun he => he.2.2
      · rw [h.slot, ← hk, hf]
        simp only [reduceCtorEq, and_false, Option.some.injEq, false_iff, not_and]
        intro hsender hnonce he
        exact ha ⟨he ▸ hsender, he ▸ hnonce⟩
    · rw [if_neg hk]
      split_ifs with ha
      · obtain ⟨rfl, rfl⟩ := ha
        rw [← h.slot, hs, Option.some.injEq]
        simp only [reduceCtorEq, iff_false]
        exact fun he => hk (congrArg (Transaction.txHash c) he)
      · exact h.slot a nonce t

/-- Nothing in `pool'` is new. -/
def Shrinks (pool pool' : Mempool) : Prop :=
  ∀ (h : Hash) (tx : Transaction), pool'.byHash[h]? = some tx → pool.byHash[h]? = some tx

theorem Shrinks.erase {k : Hash} (hb : pool'.byHash = pool.byHash.erase k) : pool.Shrinks pool' := by
  intro h t hl
  rw [hb, OrdMap.lookup_erase] at hl
  split_ifs at hl
  exact hl

theorem Shrinks.absent (h : pool.Shrinks pool') {k : Hash} (hn : pool.byHash[k]? = none) :
    pool'.byHash[k]? = none := by
  cases hl : pool'.byHash[k]? with
  | none => rfl
  | some t => exact (h k t hl).symm.trans hn

theorem Shrinks.slot_none (h : pool.Shrinks pool') (hc : pool.Consistent c) (hc' : pool'.Consistent c)
    {a : Address} {nonce : UInt64} (hs : pool.slot a nonce = none) : pool'.slot a nonce = none := by
  cases hs' : pool'.slot a nonce with
  | none => rfl
  | some t =>
    obtain ⟨ha, hn, hl⟩ := (hc'.slot a nonce t).mp hs'
    have ht := (hc.slot a nonce t).mpr ⟨ha, hn, h _ t hl⟩
    rw [hs] at ht
    exact ht.symm

theorem evictTransaction_byHash (pool : Mempool) (h : Hash) :
    (pool.evictTransaction h).1.byHash = pool.byHash.erase h := by
  rw [evictTransaction]
  cases hl : pool.byHash[h]? with
  | none => exact (OrdMap.erase_absent hl).symm
  | some t => rfl

theorem Consistent.evictTransaction (hc : pool.Consistent c) (h : Hash) :
    (pool.evictTransaction h).1.Consistent c := by
  rw [Mempool.evictTransaction]
  cases hl : pool.byHash[h]? with
  | none => exact hc
  | some t =>
    have hh := hc.hash h t hl
    subst hh
    exact hc.erase hl rfl rfl fun a nonce => slot_erase pool a t.sender t.nonce nonce rfl

theorem Consistent.removeCommitted (hc : pool.Consistent c) (txs : List Transaction) :
    (pool.removeCommitted c txs).Consistent c := by
  induction txs generalizing pool with
  | nil => exact hc
  | cons t txs ih => exact ih (hc.evictTransaction (t.txHash c))

theorem removeCommitted_shrinks (c : Crates) (pool : Mempool) (txs : List Transaction) :
    pool.Shrinks (pool.removeCommitted c txs) := by
  induction txs generalizing pool with
  | nil => exact fun _ _ hl => hl
  | cons t txs ih =>
    intro h u hl
    exact Shrinks.erase (evictTransaction_byHash pool (t.txHash c)) h u (ih _ h u hl)

theorem replaceByFee_spec (hc : pool.Consistent c) (tx : Transaction) :
    (pool.replaceByFee c tx).1.Consistent c ∧ pool.Shrinks (pool.replaceByFee c tx).1 ∧
      ((pool.replaceByFee c tx).2 = .ok () →
        (pool.replaceByFee c tx).1.slot tx.sender tx.nonce = none) := by
  have hkeep : ∀ {q : Mempool}, q.byHash = pool.byHash → q.priorityIndex = pool.priorityIndex →
      q.bySender = pool.bySender.insert tx.sender (pool.bySender.getD tx.sender ∅) →
      q.Consistent c ∧ pool.Shrinks q ∧ ∀ a nonce, q.slot a nonce = pool.slot a nonce := by
    intro q hb hi hs
    have hslot : ∀ a nonce, q.slot a nonce = pool.slot a nonce := by
      intro a nonce
      rw [slot_insert pool a tx.sender _ nonce hs]
      by_cases ha : tx.sender = a <;> simp [ha, Mempool.slot]
    exact ⟨hc.congr hb hi hslot, fun _ _ hl => hb ▸ hl, hslot⟩
  unfold replaceByFee
  dsimp only
  cases hl : (pool.bySender.getD tx.sender ∅)[tx.nonce]? with
  | none =>
    obtain ⟨hcq, hsq, hslot⟩ := hkeep (q := { pool with
      bySender := pool.bySender.insert tx.sender (pool.bySender.getD tx.sender ∅) }) rfl rfl rfl
    exact ⟨hcq, hsq, fun _ => (hslot tx.sender tx.nonce).trans hl⟩
  | some existing =>
    by_cases hf : tx.fee < minRequiredFee pool.config existing
    · simp only [if_pos hf]
      obtain ⟨hcq, hsq, -⟩ := hkeep (q := { pool with
        bySender := pool.bySender.insert tx.sender (pool.bySender.getD tx.sender ∅) }) rfl rfl rfl
      exact ⟨hcq, hsq, by simp⟩
    · simp only [if_neg hf]
      obtain ⟨hsender, hnonce, hm⟩ := (hc.slot _ _ existing).mp hl
      refine ⟨hc.erase hm rfl rfl fun a nonce => ?_, Shrinks.erase rfl, fun _ => ?_⟩
      · rw [slot_insert pool a tx.sender _ nonce rfl, OrdMap.lookup_erase, hsender, hnonce]
        by_cases ha : tx.sender = a
        · by_cases hn : tx.nonce = nonce <;> simp [hn, ← ha, Mempool.slot]
        · simp [ha]
      · rw [slot_insert pool tx.sender tx.sender _ tx.nonce rfl, OrdMap.lookup_erase]
        simp

/-- The eviction loop ends: in a consistent pool the lowest key names a pooled
transaction, so that every turn makes the pool smaller. -/
theorem makeRoom_spec (hc : pool.Consistent c) (tx : Transaction) {fuel : Nat}
    (hfuel : pool.byHash.size < fuel) :
    ∃ r, makeRoom tx fuel pool = some r ∧ r.1.Consistent c ∧ pool.Shrinks r.1 := by
  induction fuel generalizing pool with
  | zero => omega
  | succ fuel ih =>
    rw [makeRoom]
    by_cases hfull : pool.isFull tx = true
    · rw [if_pos hfull]
      cases hmin : pool.priorityIndex.min? with
      | none => exact ⟨_, rfl, hc, fun _ _ hl => hl⟩
      | some key =>
        by_cases hfee : tx.feePerByte ≤ key.feePerByte
        · exact ⟨_, if_pos hfee, hc, fun _ _ hl => hl⟩
        · simp only [if_neg hfee]
          obtain ⟨t, hl, -⟩ := (hc.index key).mp (Std.ExtTreeSet.min?_mem hmin)
          have hmem : key.txHash ∈ pool.byHash := by
            rw [Std.ExtTreeMap.mem_iff_isSome_getElem?, hl]
            rfl
          have hb := evictTransaction_byHash pool key.txHash
          have hpos : 0 < pool.byHash.size := by
            rw [Nat.pos_iff_ne_zero]
            intro h0
            have he := Std.ExtTreeMap.eq_empty_iff_size_eq_zero.mpr h0
            rw [he] at hmem
            exact Std.ExtTreeMap.not_mem_empty hmem
          have hsize : (pool.evictTransaction key.txHash).1.byHash.size < fuel := by
            rw [hb, Std.ExtTreeMap.size_erase, if_pos (Std.ExtTreeMap.mem_iff_contains.mp hmem)]
            omega
          obtain ⟨r, hr, hcr, hsr⟩ := ih (hc.evictTransaction key.txHash) hsize
          exact ⟨r, hr, hcr, fun h u hu => Shrinks.erase hb h u (hsr h u hu)⟩
    · rw [if_neg hfull]
      exact ⟨_, rfl, hc, fun _ _ hl => hl⟩

theorem admitTransaction_spec (hc : pool.Consistent c) (hf : pool.byHash[tx.txHash c]? = none) :
    ∃ r, pool.admitTransaction c tx = some r ∧ r.1.Consistent c ∧
      ∀ (h : Hash) (t : Transaction), r.1.byHash[h]? = some t → pool.byHash[h]? = some t ∨ t = tx := by
  obtain ⟨hcr, hsr, hslot⟩ := replaceByFee_spec hc tx
  rw [admitTransaction]
  cases hr : pool.replaceByFee c tx with
  | mk q res =>
    rw [hr] at hcr hsr hslot
    cases res with
    | error e => exact ⟨_, rfl, hcr, fun h t hl => .inl (hsr h t hl)⟩
    | ok u =>
      obtain ⟨⟨q', res⟩, hm, hcm, hsm⟩ := makeRoom_spec hcr tx (Nat.lt_succ_self _)
      simp only at hcr hsr hslot hcm hsm hm ⊢
      rw [hm]
      cases res with
      | error e => exact ⟨_, rfl, hcm, fun h t hl => .inl (hsr h t (hsm h t hl))⟩
      | ok u' =>
        have hfree : q'.byHash[tx.txHash c]? = none := hsm.absent (hsr.absent hf)
        have hs' := hsm.slot_none hcr hcm (hslot trivial)
        refine ⟨_, rfl, hcm.insertTransaction hfree hs', fun h t hl => ?_⟩
        simp only [insertTransaction, OrdMap.lookup_insert] at hl
        split_ifs at hl with hk
        · exact .inr (Option.some.inj hl).symm
        · exact .inl (hsr h t (hsm h t hl))

/-- A call of `add_transaction` returns, keeps the pool consistent, and adds
nothing but a transaction that the account of its sender admits. -/
theorem addTransaction_spec (hc : pool.Consistent c) (tx : Transaction) (stateDb : StateDB) :
    ∃ r, pool.addTransaction c tx stateDb = some r ∧ r.1.Consistent c ∧
      ∀ (h : Hash) (t : Transaction), r.1.byHash[h]? = some t → pool.byHash[h]? = some t ∨
        t = tx ∧ validateStateful tx (stateDb.getAccount c tx.sender) = .ok () := by
  rw [addTransaction]
  cases validateStateless c tx with
  | error e => exact ⟨_, rfl, hc, fun _ _ hl => .inl hl⟩
  | ok _ =>
    by_cases hd : (tx.txHash c) ∈ pool.byHash
    · exact ⟨_, if_pos hd, hc, fun _ _ hl => .inl hl⟩
    · have hf : pool.byHash[tx.txHash c]? = none := Std.ExtTreeMap.getElem?_eq_none hd
      simp only [if_neg hd]
      cases validateStateful tx (stateDb.getAccount c tx.sender) with
      | error e => exact ⟨_, rfl, hc, fun _ _ hl => .inl hl⟩
      | ok u =>
        obtain ⟨r, hr, hcr, hnew⟩ := admitTransaction_spec hc hf
        exact ⟨r, hr, hcr, fun h t hl => (hnew h t hl).imp_right fun ht => ⟨ht, rfl⟩⟩

theorem harvestKeys_mem {byHash : OrdMap Hash Transaction} {maxBytes currentBytes : Nat}
    {keys : List PriorityKey} (h : tx ∈ harvestKeys byHash maxBytes keys currentBytes) :
    ∃ key ∈ keys, byHash[key.txHash]? = some tx := by
  induction keys generalizing currentBytes with
  | nil => simp [harvestKeys] at h
  | cons key keys ih =>
    have hrest : ∀ {n}, tx ∈ harvestKeys byHash maxBytes keys n →
        ∃ k ∈ key :: keys, byHash[k.txHash]? = some tx := by
      intro n hn
      obtain ⟨k, hk, hl⟩ := ih hn
      exact ⟨k, List.mem_cons_of_mem _ hk, hl⟩
    rw [harvestKeys] at h
    cases hl : byHash[key.txHash]? with
    | none =>
      rw [hl] at h
      exact hrest h
    | some t =>
      simp only [hl] at h
      split_ifs at h with hs
      · rcases List.mem_cons.mp h with rfl | h
        · exact ⟨key, List.mem_cons_self, hl⟩
        · exact hrest h
      · exact hrest h

theorem harvestKeys_size (byHash : OrdMap Hash Transaction) {maxBytes currentBytes : Nat}
    (keys : List PriorityKey) (h : currentBytes ≤ maxBytes) :
    currentBytes + 165 * (harvestKeys byHash maxBytes keys currentBytes).length ≤ maxBytes := by
  induction keys generalizing currentBytes with
  | nil => simpa [harvestKeys] using h
  | cons key keys ih =>
    rw [harvestKeys]
    cases hl : byHash[key.txHash]? with
    | none => exact ih h
    | some tx =>
      simp only
      split_ifs with hfits
      · have htail := ih hfits
        have hsize : 165 ≤ tx.sizeBytes := Nat.le_add_right _ _
        rw [List.length_cons]
        omega
      · exact ih h

theorem harvest_length (pool : Mempool) (maxBytes : Nat) :
    165 * (pool.harvest maxBytes).length ≤ maxBytes := by
  have h := harvestKeys_size pool.byHash pool.priorityIndex.toList.reverse (Nat.zero_le maxBytes)
  rw [harvest]
  omega

theorem harvest_mem (hc : pool.Consistent c) {maxBytes : Nat} (h : tx ∈ pool.harvest maxBytes) :
    pool.byHash[tx.txHash c]? = some tx := by
  obtain ⟨key, -, hl⟩ := harvestKeys_mem h
  rw [hc.hash _ _ hl]
  exact hl

/-- The index names a transaction by its own priority. -/
theorem priorityKey_of_indexed (hc : pool.Consistent c) {key : PriorityKey}
    (hk : key ∈ pool.priorityIndex.toList.reverse) (hl : pool.byHash[key.txHash]? = some tx) :
    tx.priorityKey c = key := by
  rw [List.mem_reverse, Std.ExtTreeSet.mem_toList, hc.index] at hk
  obtain ⟨u, hu, hkey⟩ := hk
  rw [hl, Option.some.injEq] at hu
  rw [hu, hkey]

theorem harvest_nodup_of_keys (hkeys : ∀ key ∈ pool.priorityIndex.toList.reverse,
    ∀ t : Transaction, pool.byHash[key.txHash]? = some t → t.priorityKey c = key) (maxBytes : Nat) :
    (pool.harvest maxBytes).Nodup := by
  have hnodup : pool.priorityIndex.toList.reverse.Nodup := by
    rw [List.nodup_reverse]
    refine Std.ExtTreeSet.distinct_toList.imp ?_
    intro a b hab he
    exact hab (Std.compare_eq_iff_eq.mpr he)
  rw [harvest]
  generalize pool.priorityIndex.toList.reverse = keys at hkeys hnodup
  generalize (0 : Nat) = currentBytes
  induction keys generalizing currentBytes with
  | nil => exact List.nodup_nil
  | cons key keys ih =>
    obtain ⟨hnot, hnodup⟩ := List.nodup_cons.mp hnodup
    have htail := fun n => ih (fun k hk => hkeys k (List.mem_cons_of_mem _ hk)) hnodup n
    rw [harvestKeys]
    cases hl : pool.byHash[key.txHash]? with
    | none => exact htail _
    | some t =>
      simp only
      split_ifs with hs
      · refine List.nodup_cons.mpr ⟨fun hm => ?_, htail _⟩
        obtain ⟨k, hk, hlk⟩ := harvestKeys_mem hm
        have ht := hkeys key List.mem_cons_self t hl
        rw [hkeys k (List.mem_cons_of_mem _ hk) t hlk] at ht
        exact hnot (ht ▸ hk)
      · exact htail _

theorem harvest_nodup (hc : pool.Consistent c) (maxBytes : Nat) : (pool.harvest maxBytes).Nodup :=
  harvest_nodup_of_keys (fun _ hk _ hl => priorityKey_of_indexed hc hk hl) maxBytes

end Mempool

end AuraChain
