import AuraChain.PrefixScan
import AuraChain.SmtReference
import AuraChain.StoreSpec

/-! The state tree mirrors the accounts of the store: its leaves are those of
the stored account bytes, under the hashed addresses. Every write keeps this,
and a tree rebuilt from the store has it. -/

namespace AuraChain

/-- The map that the tree is to hold: the bytes of every stored account. -/
noncomputable def stateMap (c : Crates) (data : OrdMap Bytes Bytes) : Hash → Bytes :=
  Function.extend (addressKeyHash c) (fun address => data.getD (accountKey address) []) fun _ => []

def StateDB.Mirrors (c : Crates) (db : StateDB) : Prop :=
  db.smt.Represents c (stateMap c db.kv.data)

section

variable {c : Crates} (hinj : Function.Injective (addressKeyHash c))
include hinj

theorem stateMap_address (data : OrdMap Bytes Bytes) (address : Address) :
    stateMap c data (addressKeyHash c address) = data.getD (accountKey address) [] :=
  hinj.extend_apply _ _ address

theorem stateMap_insert (data : OrdMap Bytes Bytes) (address : Address) (value : Bytes) :
    stateMap c (data.insert (accountKey address) value) =
      Function.update (stateMap c data) (addressKeyHash c address) value := by
  funext key
  by_cases hkey : ∃ a, addressKeyHash c a = key
  · obtain ⟨a, rfl⟩ := hkey
    rw [stateMap_address hinj, OrdMap.getD_insert_ite, Function.update_apply,
      stateMap_address hinj]
    by_cases ha : address = a
    · simp [ha]
    · have hk : accountKey address ≠ accountKey a := fun h => ha (accountKey_injective h)
      have hh : addressKeyHash c a ≠ addressKeyHash c address := fun h => ha (hinj h).symm
      rw [if_neg hk, if_neg hh]
  · have hne : key ≠ addressKeyHash c address := fun h => hkey ⟨address, h.symm⟩
    rw [Function.update_of_ne hne, stateMap, stateMap, Function.extend_apply' _ _ _ hkey,
      Function.extend_apply' _ _ _ hkey]

theorem stateMap_empty : stateMap c ∅ = fun _ => [] := by
  funext key
  by_cases hkey : ∃ a, addressKeyHash c a = key
  · obtain ⟨a, rfl⟩ := hkey
    rw [stateMap_address hinj]
    simp
  · rw [stateMap, Function.extend_apply' _ _ _ hkey]

omit hinj in
theorem stateMap_congr {data data' : OrdMap Bytes Bytes}
    (h : ∀ address, data[accountKey address]? = data'[accountKey address]?) :
    stateMap c data = stateMap c data' := by
  have he : (fun address => data.getD (accountKey address) []) =
      fun address => data'.getD (accountKey address) [] := by
    funext address
    rw [Std.ExtTreeMap.getD_eq_getD_getElem?, Std.ExtTreeMap.getD_eq_getD_getElem?, h]
  rw [stateMap, stateMap, he]

namespace StateDB

theorem updateLeaf_represents {smt : SparseMerkleTree} {data : OrdMap Bytes Bytes}
    (h : smt.Represents c (stateMap c data)) (address : Address) (value : Bytes) :
    (smt.update c (addressKeyHash c address) value).Represents c
      (stateMap c (data.insert (accountKey address) value)) := by
  rw [stateMap_insert hinj]
  exact h.apply (.update (addressKeyHash c address) value)

theorem foldl_updateLeaf_represents {smt : SparseMerkleTree} {data : OrdMap Bytes Bytes}
    (h : smt.Represents c (stateMap c data)) (writes : List (Address × Account)) :
    (writes.foldl (updateLeaf c) smt).Represents c (stateMap c (applyWrites c data writes)) := by
  induction writes generalizing smt data with
  | nil => exact h
  | cons p writes ih => exact ih (updateLeaf_represents hinj h p.1 (c.serializeAccount p.2))

omit hinj in
theorem stateMap_writeBlock (ioError : Option StorageError) (db : StateDB)
    (writes : List (Address × Account)) {block : Block} (height : UInt64) {blockBytes : Bytes}
    (hs : c.serializeBlock block = some blockBytes) :
    stateMap c (db.writeBlock c ioError writes block height).1.kv.data =
      stateMap c (applyWrites c db.kv.data writes) := by
  rw [writeBlock_fst, hs]
  exact stateMap_congr fun address => writtenData_account c _ writes _ height blockBytes address

theorem Mirrors.writeBlock {ioError : Option StorageError} {db : StateDB} (h : db.Mirrors c)
    {writes : List (Address × Account)} {block : Block} {height : UInt64} {blockBytes : Bytes}
    (hs : c.serializeBlock block = some blockBytes) :
    (db.writeBlock c ioError writes block height).1.Mirrors c := by
  rw [Mirrors, stateMap_writeBlock ioError db writes height hs, writeBlock_fst]
  exact foldl_updateLeaf_represents hinj h writes

/-- Only a block that does not serialize leaves the tree ahead of the store. -/
theorem Mirrors.of_not_bincode {ioError : Option StorageError} {db : StateDB} (h : db.Mirrors c)
    {writes : List (Address × Account)} {block : Block} {height : UInt64}
    (hr : (db.writeBlock c ioError writes block height).2 ≠ .error .bincode) :
    (db.writeBlock c ioError writes block height).1.Mirrors c := by
  cases hs : c.serializeBlock block with
  | none =>
    rw [StateDB.writeBlock, hs] at hr
    exact absurd rfl hr
  | some blockBytes => exact h.writeBlock hinj hs

omit hinj in
theorem ofSlice?_accountKey {key : Bytes} (hkey : cfAccounts ++ key.drop cfAccounts.length = key) :
    (∃ address, FixedBytes.ofSlice? 20 (key.drop cfAccounts.length) = some address ∧
        key = accountKey address) ∨
      FixedBytes.ofSlice? 20 (key.drop cfAccounts.length) = none ∧
        ∀ address, key ≠ accountKey address := by
  by_cases hlen : (key.drop cfAccounts.length).length = 20
  · refine Or.inl ⟨⟨_, hlen⟩, by rw [FixedBytes.ofSlice?, dif_pos hlen], ?_⟩
    exact hkey.symm
  · refine Or.inr ⟨by rw [FixedBytes.ofSlice?, dif_neg hlen], ?_⟩
    rintro address rfl
    rw [accountKey, List.drop_left] at hlen
    exact hlen address.size

theorem foldl_rebuild_represents {l : List (Bytes × Bytes)}
    (hl : ∀ p ∈ l, cfAccounts ++ p.1.drop cfAccounts.length = p.1) {smt : SparseMerkleTree}
    {data : OrdMap Bytes Bytes} (h : smt.Represents c (stateMap c data)) :
    (l.foldl (fun smt p => match FixedBytes.ofSlice? 20 (p.1.drop cfAccounts.length) with
      | some address => smt.update c (addressKeyHash c address) p.2
      | none => smt) smt).Represents c
        (stateMap c (l.foldl (fun m p => m.insert p.1 p.2) data)) := by
  induction l generalizing smt data with
  | nil => exact h
  | cons p l ih =>
    rw [List.forall_mem_cons] at hl
    rw [List.foldl_cons, List.foldl_cons]
    apply ih hl.2
    rcases ofSlice?_accountKey hl.1 with ⟨address, ha, hkey⟩ | ⟨hnone, hno⟩
    · simp only [ha]
      rw [hkey]
      exact updateLeaf_represents hinj h address p.2
    · have hsame : stateMap c (data.insert p.1 p.2) = stateMap c data := by
        apply stateMap_congr
        intro address
        rw [OrdMap.lookup_insert, if_neg (hno address)]
      simp only [hnone]
      rw [hsame]
      exact h

omit hinj in
theorem scanPrefix_eq (kv : KeyValueStore) (pre : Bytes) :
    kv.scanPrefix pre = (kv.data.filter fun key _ => pre.isPrefixOf key).toList := by
  rw [KeyValueStore.scanPrefix, OrdMap.scan_eq_filter, Std.ExtTreeMap.toList_filter]

theorem mirrors_new (kv : KeyValueStore) : (new c kv).Mirrors c := by
  have hempty : SparseMerkleTree.new.Represents c (stateMap c ∅) := by
    intro key
    simp [SparseMerkleTree.new, stateMap_empty hinj]
  have hkeys : ∀ p ∈ kv.scanPrefix cfAccounts, cfAccounts ++ p.1.drop cfAccounts.length = p.1 :=
    fun p hp => scanPrefix_key hp
  have hfold := foldl_rebuild_represents hinj hkeys hempty
  have hperm : (kv.scanPrefix cfAccounts).foldl (fun m p => m.insert p.1 p.2) ∅ =
      kv.data.filter fun key _ => cfAccounts.isPrefixOf key := by
    apply OrdMap.foldl_insert_perm
    rw [scanPrefix_eq]
  have hsame : stateMap c (kv.data.filter fun key _ => cfAccounts.isPrefixOf key) =
      stateMap c kv.data := by
    apply stateMap_congr
    intro address
    have hpre : cfAccounts.isPrefixOf (accountKey address) = true :=
      List.isPrefixOf_iff_prefix.mpr (List.prefix_append _ _)
    rw [Std.ExtTreeMap.getElem?_filter', hpre]
    cases kv.data[accountKey address]? <;> rfl
  rw [hperm, hsame] at hfold
  exact hfold

omit hinj in
theorem Mirrors.getStateRoot {db : StateDB} (h : db.Mirrors c) :
    db.getStateRoot c = referenceRoot c (stateMap c db.kv.data) :=
  SparseMerkleTree.Represents.root h

theorem Mirrors.restart {db : StateDB} (h : db.Mirrors c) :
    db.getStateRoot c = (new c db.kv).getStateRoot c := by
  rw [h.getStateRoot, (mirrors_new hinj db.kv).getStateRoot]
  rfl

end StateDB

end

end AuraChain
