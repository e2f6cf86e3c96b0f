import AuraChain.CommitEffect

/-! What a scan of the store finds. Below the prefix of the accounts nothing else
is ever written, so that the scan finds the accounts that were written last, by
address. -/

namespace OrdMap

variable {α β : Type} [Ord α] [Std.TransOrd α]

/-- Lists that are sorted by their keys are equal once they have the same entries. -/
theorem eq_of_sorted {l r : List (α × β)} (hl : l.Pairwise fun p q => compare p.1 q.1 = .lt)
    (hr : r.Pairwise fun p q => compare p.1 q.1 = .lt) (h : ∀ p, p ∈ l ↔ p ∈ r) : l = r := by
  have hirrefl : Std.Irrefl fun p q : α × β => compare p.1 q.1 = .lt := by
    constructor
    intro p hp
    rw [Std.ReflOrd.compare_self] at hp
    cases hp
  have hantisymm : Std.Antisymm fun p q : α × β => compare p.1 q.1 = .lt := by
    constructor
    intro p q hpq hqp
    rw [Std.OrientedOrd.eq_swap (a := p.1), hqp] at hpq
    cases hpq
  exact hl.eq_of_mem_iff hr h

end OrdMap

namespace AuraChain

theorem compare_accountKey (a b : Address) : compare (accountKey a) (accountKey b) = compare a b :=
  PrefixScan.compare_append cfAccounts a.bytes b.bytes

namespace KeyValueStore

/-- The scan finds the entries below the prefix, each once, in the order of the
bytes of their keys. -/
structure ScansExactly (kv : KeyValueStore) (pre : Bytes) : Prop where
  finds : ∀ key value, (key, value) ∈ kv.scanPrefix pre ↔ pre <+: key ∧ kv.get key = some value
  once : ((kv.scanPrefix pre).map Prod.fst).Nodup
  ascending : (kv.scanPrefix pre).Pairwise fun p q => compare p.1 q.1 = .lt

end KeyValueStore

namespace StateDB

variable {c : Crates} {db : StateDB} {data : OrdMap Bytes Bytes}

theorem mem_scanPrefix {kv : KeyValueStore} {pre key value : Bytes} :
    (key, value) ∈ kv.scanPrefix pre ↔ pre <+: key ∧ kv.data[key]? = some value := by
  rw [KeyValueStore.scanPrefix, OrdMap.scan_eq_filter, List.mem_filter, OrdMap.mem_toList_iff,
    List.isPrefixOf_iff_prefix, and_comm]

theorem scanPrefix_sorted (kv : KeyValueStore) (pre : Bytes) :
    (kv.scanPrefix pre).Pairwise fun p q => compare p.1 q.1 = .lt :=
  (Std.ExtTreeMap.ordered_keys_toList (t := kv.data)).sublist
    ((List.takeWhile_sublist _).trans (List.dropWhile_sublist _))

theorem scansExactly (kv : KeyValueStore) (pre : Bytes) : kv.ScansExactly pre :=
  ⟨fun _ _ => mem_scanPrefix, scanPrefix_nodup kv pre, scanPrefix_sorted kv pre⟩

inductive StoreOperation
  | call (call : StoreCall)
  | reopen

/-- The accounts that a call writes, in this order. A block that does not
serialize stops the call before. -/
def accountWrites (c : Crates) (db : StateDB) : StoreCall → List (Address × Account)
  | .applyGenesis _ genesis =>
    if (c.serializeBlock (genesis.toGenesisBlock c)).isSome then genesisWrites c db genesis else []
  | .commitBlock env block overlay =>
    if (c.serializeBlock block).isSome then env.order overlay else []

/-- A call that fails does not end the run. -/
def writingStep (c : Crates) (db : StateDB) :
    StoreOperation → Option (StateDB × List (Address × Account))
  | .call call => some ((db.call c call).1, db.accountWrites c call)
  | .reopen => some (new c db.kv, [])

def storedAccounts (accounts : OrdMap Address Account) (writes : List (Address × Account)) :
    OrdMap Address Account :=
  writes.foldl (fun accounts p => accounts.insert p.1 p.2) accounts

def accountEntry (c : Crates) (p : Address × Account) : Bytes × Bytes :=
  (accountKey p.1, c.serializeAccount p.2)

/-- The entries below the prefix of the accounts are those of the map. -/
def HoldsAccounts (c : Crates) (data : OrdMap Bytes Bytes) (accounts : OrdMap Address Account) :
    Prop :=
  ∀ key value, cfAccounts <+: key →
    (data[key]? = some value ↔ (key, value) ∈ accounts.toList.map (accountEntry c))

variable {accounts : OrdMap Address Account}

theorem mem_accountEntries {key value : Bytes} :
    (key, value) ∈ accounts.toList.map (accountEntry c) ↔
      ∃ address account, accounts[address]? = some account ∧ key = accountKey address ∧
        value = c.serializeAccount account := by
  rw [List.mem_map]
  constructor
  · rintro ⟨⟨address, account⟩, hmem, hentry⟩
    obtain ⟨rfl, rfl⟩ := Prod.mk.inj hentry
    exact ⟨address, account, (OrdMap.mem_toList_iff accounts address account).mp hmem, rfl, rfl⟩
  · rintro ⟨address, account, hlookup, rfl, rfl⟩
    exact ⟨(address, account), (OrdMap.mem_toList_iff accounts address account).mpr hlookup, rfl⟩

theorem HoldsAccounts.empty : HoldsAccounts c ∅ ∅ := by
  intro key value _
  simp

theorem HoldsAccounts.write (h : HoldsAccounts c data accounts) (p : Address × Account) :
    HoldsAccounts c (KeyValueStore.applyOp data (putAccount c p)) (accounts.insert p.1 p.2) := by
  intro key value hpre
  rw [putAccount, KeyValueStore.applyOp, OrdMap.lookup_insert, mem_accountEntries]
  by_cases hkey : accountKey p.1 = key
  · rw [if_pos hkey]
    constructor
    · intro hvalue
      exact ⟨p.1, p.2, by rw [OrdMap.lookup_insert, if_pos rfl], hkey.symm,
        (Option.some.inj hvalue).symm⟩
    · rintro ⟨address, account, hlookup, rfl, rfl⟩
      rw [OrdMap.lookup_insert, if_pos (accountKey_injective hkey)] at hlookup
      rw [Option.some.inj hlookup]
  · rw [if_neg hkey, h key value hpre, mem_accountEntries]
    have hsame : ∀ address, key = accountKey address →
        (accounts.insert p.1 p.2)[address]? = accounts[address]? := by
      rintro address rfl
      rw [OrdMap.lookup_insert, if_neg fun he => hkey (congrArg accountKey he)]
    constructor
    · rintro ⟨address, account, hlookup, hk, hv⟩
      exact ⟨address, account, (hsame address hk).trans hlookup, hk, hv⟩
    · rintro ⟨address, account, hlookup, hk, hv⟩
      exact ⟨address, account, (hsame address hk).symm.trans hlookup, hk, hv⟩

theorem HoldsAccounts.writes (h : HoldsAccounts c data accounts) (writes : List (Address × Account)) :
    HoldsAccounts c (applyWrites c data writes) (storedAccounts accounts writes) := by
  induction writes generalizing data accounts with
  | nil => exact h
  | cons p writes ih => exact ih (h.write p)

theorem HoldsAccounts.other (h : HoldsAccounts c data accounts) {key : Bytes}
    (hkey : key.head? ≠ some 97) (value : Bytes) : HoldsAccounts c (data.insert key value) accounts := by
  intro key' value' hpre
  have hne : key ≠ key' := by
    rintro rfl
    obtain ⟨rest, rfl⟩ := hpre
    exact hkey rfl
  rw [OrdMap.lookup_insert, if_neg hne]
  exact h key' value' hpre

/-- The block, the index of heights and the latest height have keys of their own. -/
theorem HoldsAccounts.written (h : HoldsAccounts c data accounts) (writes : List (Address × Account))
    (hash : Hash) (height : UInt64) (blockBytes : Bytes) :
    HoldsAccounts c (writtenData c data writes hash height blockBytes)
      (storedAccounts accounts writes) := by
  have hblock : (blockKey hash.bytes).head? ≠ some 97 := by
    rw [head_blockKey]
    decide
  have hheight : (heightKey height).head? ≠ some 97 := by
    rw [head_heightKey]
    decide
  have hlatest : latestHeightKey.head? ≠ some 97 := by decide
  exact (((h.writes writes).other hblock blockBytes).other hheight hash.bytes).other hlatest
    height.toBeBytes

theorem HoldsAccounts.writeBlock (h : HoldsAccounts c db.kv.data accounts)
    (ioError : Option StorageError) (writes : List (Address × Account)) (block : Block)
    (height : UInt64) :
    HoldsAccounts c (db.writeBlock c ioError writes block height).1.kv.data
      (storedAccounts accounts (if (c.serializeBlock block).isSome then writes else [])) := by
  rw [writeBlock_fst]
  cases c.serializeBlock block with
  | none => exact h
  | some blockBytes => exact h.written writes _ height blockBytes

theorem HoldsAccounts.call (h : HoldsAccounts c db.kv.data accounts) (call : StoreCall) :
    HoldsAccounts c (db.call c call).1.kv.data
      (storedAccounts accounts (db.accountWrites c call)) := by
  cases call with
  | applyGenesis ioError genesis => exact h.writeBlock ioError _ (genesis.toGenesisBlock c) 0
  | commitBlock env block overlay =>
    exact h.writeBlock env.ioError _ block block.header.height

theorem HoldsAccounts.run {kv : KeyValueStore} (hempty : kv.data = ∅)
    {log : List (Address × Account)}
    (hrun : TracedRun (writingStep c) (fun _ _ => True) (new c kv, []) (db, log)) :
    HoldsAccounts c db.kv.data (storedAccounts ∅ log) := by
  refine TracedRun.invariant
    (P := fun db log => HoldsAccounts c db.kv.data (storedAccounts ∅ log)) hrun ?_ ?_
  · show HoldsAccounts c kv.data ∅
    rw [hempty]
    exact .empty
  · intro db log operation db' out h _ hstep
    rw [storedAccounts, List.foldl_append]
    cases operation with
    | call call =>
      obtain ⟨rfl, rfl⟩ := Prod.mk.inj (Option.some.inj hstep)
      exact h.call call
    | reopen =>
      obtain ⟨rfl, rfl⟩ := Prod.mk.inj (Option.some.inj hstep)
      exact h

theorem HoldsAccounts.scanPrefix (h : HoldsAccounts c db.kv.data accounts) :
    db.kv.scanPrefix cfAccounts = accounts.toList.map (accountEntry c) := by
  refine OrdMap.eq_of_sorted (scanPrefix_sorted db.kv cfAccounts) ?_ ?_
  · rw [List.pairwise_map]
    refine (Std.ExtTreeMap.ordered_keys_toList (t := accounts)).imp ?_
    intro p q hlt
    rwa [accountEntry, accountEntry, compare_accountKey]
  · rintro ⟨key, value⟩
    rw [mem_scanPrefix]
    constructor
    · rintro ⟨hpre, hlookup⟩
      exact (h key value hpre).mp hlookup
    · intro hmem
      obtain ⟨address, account, -, rfl, -⟩ := mem_accountEntries.mp hmem
      have hpre : cfAccounts <+: accountKey address := List.prefix_append _ _
      exact ⟨hpre, (h _ value hpre).mpr hmem⟩

theorem ofSlice?_drop_accountKey (address : Address) :
    FixedBytes.ofSlice? 20 ((accountKey address).drop cfAccounts.length) = some address := by
  rw [accountKey, List.drop_left, FixedBytes.ofSlice?, dif_pos address.size]

theorem HoldsAccounts.getValidators (h : HoldsAccounts c db.kv.data accounts)
    (hrt : c.AccountRoundTrip) : db.getValidators c =
      accounts.toList.filter fun p => p.2.isValidator && decide (0 < p.2.stakedAmount) := by
  have hentry : ∀ p, validatorEntry c (accountEntry c p) =
      if p.2.isValidator = true ∧ 0 < p.2.stakedAmount then some p else none := by
    intro p
    rw [validatorEntry, accountEntry, ofSlice?_drop_accountKey, hrt]
  rw [StateDB.getValidators, h.scanPrefix, List.filterMap_map, ← List.filterMap_eq_filter]
  congr 1
  funext p
  rw [Function.comp_apply, hentry]
  by_cases hactive : p.2.isValidator = true ∧ 0 < p.2.stakedAmount
  · simp [hactive, Option.guard]
  · simp only [if_neg hactive, Option.guard]
    simp only [not_and] at hactive
    simpa using hactive

/-- A tree that is rebuilt from the store takes in every account once. -/
theorem HoldsAccounts.new (h : HoldsAccounts c db.kv.data accounts) :
    (new c db.kv).smt = accounts.toList.foldl (updateLeaf c) SparseMerkleTree.new := by
  rw [StateDB.new, h.scanPrefix, List.foldl_map]
  simp only [accountEntry, ofSlice?_drop_accountKey]
  rfl

/-- Every scan is exact, and after any run one of the accounts finds the accounts
as they were last written, by address. -/
theorem scans_are_exact {kv : KeyValueStore} (hempty : kv.data = ∅)
    {log : List (Address × Account)}
    (hrun : TracedRun (writingStep c) (fun _ _ => True) (new c kv, []) (db, log)) :
    (∀ (kv : KeyValueStore) (pre : Bytes), kv.ScansExactly pre) ∧
      db.kv.scanPrefix cfAccounts = (storedAccounts ∅ log).toList.map (accountEntry c) :=
  ⟨scansExactly, (HoldsAccounts.run hempty hrun).scanPrefix⟩

end StateDB

namespace AccountScan

/-- The genesis names one address twice, and the block writes it once more. -/
def operations : List StateDB.StoreOperation :=
  StateRestart.calls.map .call ++ [.reopen]

theorem scans_are_exact_reopened : ∃ (db : StateDB) (log : List (Address × Account)),
    log.length = 5 ∧
      (∀ (kv : KeyValueStore) (pre : Bytes), kv.ScansExactly pre) ∧
      db.kv.scanPrefix cfAccounts = (StateDB.storedAccounts ∅ log).toList.map
        (StateDB.accountEntry StateRestart.crates) := by
  have hlength : ((runAll (StateDB.writingStep StateRestart.crates) (fun _ _ => True)
      (StateDB.new StateRestart.crates KeyValueStore.openInMemory) operations).map
        fun t => t.2.length) = some 5 := by
    decide +kernel
  obtain ⟨⟨db, log⟩, hrun, hlog⟩ := TracedRun.of_map hlength
  exact ⟨db, log, hlog, StateDB.scans_are_exact rfl hrun⟩

end AccountScan

end AuraChain
