import AuraChain.Store

/-! What a written block leaves in the store. The keys of the column families
never meet, and the accounts may be written in any order. -/

namespace AuraChain

theorem accountKey_injective : Function.Injective accountKey :=
  fun _ _ h => FixedBytes.ext (List.append_cancel_left h)

theorem head_accountKey (address : Address) : (accountKey address).head? = some 97 := rfl
theorem head_blockKey (hash : Bytes) : (blockKey hash).head? = some 98 := rfl
theorem head_heightKey (height : UInt64) : (heightKey height).head? = some 104 := rfl
theorem head_latestHeightKey : latestHeightKey.head? = some 109 := rfl

theorem ne_of_head_ne {k l : Bytes} {a b : UInt8} (hk : k.head? = some a) (hl : l.head? = some b)
    (hab : a ≠ b) : k ≠ l := by
  intro h
  rw [h, hl] at hk
  exact hab (Option.some.inj hk).symm

theorem latestHeightKey_ne_heightKey (height : UInt64) : latestHeightKey ≠ heightKey height :=
  ne_of_head_ne head_latestHeightKey (head_heightKey height) (by decide)

theorem latestHeightKey_ne_blockKey (hash : Bytes) : latestHeightKey ≠ blockKey hash :=
  ne_of_head_ne head_latestHeightKey (head_blockKey hash) (by decide)

theorem latestHeightKey_ne_accountKey (address : Address) : latestHeightKey ≠ accountKey address :=
  ne_of_head_ne head_latestHeightKey (head_accountKey address) (by decide)

theorem heightKey_ne_blockKey (height : UInt64) (hash : Bytes) : heightKey height ≠ blockKey hash :=
  ne_of_head_ne (head_heightKey height) (head_blockKey hash) (by decide)

theorem heightKey_ne_accountKey (height : UInt64) (address : Address) :
    heightKey height ≠ accountKey address :=
  ne_of_head_ne (head_heightKey height) (head_accountKey address) (by decide)

theorem blockKey_ne_accountKey (hash : Bytes) (address : Address) :
    blockKey hash ≠ accountKey address :=
  ne_of_head_ne (head_blockKey hash) (head_accountKey address) (by decide)

/-- In a list of writes with distinct keys, any two writes commute as soon as
writes to different keys do. -/
theorem foldl_perm_of_keys {α β γ : Type} {f : γ → α × β → γ} {l l' : List (α × β)}
    (hp : l.Perm l') (hk : (l.map Prod.fst).Nodup)
    (hf : ∀ x y z, x.1 ≠ y.1 → f (f z x) y = f (f z y) x) (z : γ) : l.foldl f z = l'.foldl f z := by
  apply hp.foldl_eq'
  intro x hx y hy z
  by_cases h : x.1 = y.1
  · have he : x = y := List.inj_on_of_nodup_map hk hx hy h
    rw [he]
  · exact hf x y z h

namespace StateDB

def applyWrites (c : Crates) (data : OrdMap Bytes Bytes) (writes : List (Address × Account)) :
    OrdMap Bytes Bytes :=
  writes.foldl (fun data p => KeyValueStore.applyOp data (putAccount c p)) data

def writtenData (c : Crates) (data : OrdMap Bytes Bytes) (writes : List (Address × Account))
    (hash : Hash) (height : UInt64) (blockBytes : Bytes) : OrdMap Bytes Bytes :=
  (((applyWrites c data writes).insert (blockKey hash.bytes) blockBytes).insert
    (heightKey height) hash.bytes).insert latestHeightKey height.toBeBytes

theorem foldl_batch (c : Crates) (data : OrdMap Bytes Bytes) (writes : List (Address × Account))
    (hash : Hash) (height : UInt64) (blockBytes : Bytes) :
    (writes.map (putAccount c) ++ putBlock hash height blockBytes).foldl
      KeyValueStore.applyOp data = writtenData c data writes hash height blockBytes := by
  simp [List.foldl_append, List.foldl_map, putBlock, KeyValueStore.applyOp, writtenData, applyWrites]

/-- Where serialization succeeds, the state left behind does not depend on
whether `persist` fails. -/
theorem writeBlock_fst (c : Crates) (ioError : Option StorageError) (db : StateDB)
    (writes : List (Address × Account)) (block : Block) (height : UInt64) :
    (writeBlock c ioError db writes block height).1 =
      { kv := match c.serializeBlock block with
          | none => db.kv
          | some blockBytes =>
            { db.kv with data := writtenData c db.kv.data writes (block.hash c) height blockBytes }
        smt := writes.foldl (updateLeaf c) db.smt } := by
  rw [writeBlock]
  cases hs : c.serializeBlock block with
  | none => rfl
  | some blockBytes =>
    simp only [KeyValueStore.applyBatch, foldl_batch]
    cases KeyValueStore.persist _ ioError <;> rfl

theorem writeBlock_ok {c : Crates} {ioError : Option StorageError} {db : StateDB}
    {writes : List (Address × Account)} {block : Block} {height : UInt64} {root : Hash}
    (h : (writeBlock c ioError db writes block height).2 = .ok root) :
    ∃ blockBytes, c.serializeBlock block = some blockBytes ∧
      (writeBlock c ioError db writes block height).1 =
        { kv := { db.kv with data := writtenData c db.kv.data writes (block.hash c) height blockBytes }
          smt := writes.foldl (updateLeaf c) db.smt } := by
  cases hs : c.serializeBlock block with
  | none => simp [writeBlock, hs] at h
  | some blockBytes =>
    refine ⟨blockBytes, rfl, ?_⟩
    rw [writeBlock_fst, hs]

theorem writtenData_latestHeight (c : Crates) (data : OrdMap Bytes Bytes)
    (writes : List (Address × Account)) (hash : Hash) (height : UInt64) (blockBytes : Bytes) :
    (writtenData c data writes hash height blockBytes)[latestHeightKey]? = some height.toBeBytes := by
  rw [writtenData, OrdMap.lookup_insert, if_pos rfl]

theorem writtenData_height (c : Crates) (data : OrdMap Bytes Bytes)
    (writes : List (Address × Account)) (hash : Hash) (height : UInt64) (blockBytes : Bytes) :
    (writtenData c data writes hash height blockBytes)[heightKey height]? = some hash.bytes := by
  rw [writtenData, OrdMap.lookup_insert, if_neg (latestHeightKey_ne_heightKey height),
    OrdMap.lookup_insert, if_pos rfl]

theorem writtenData_block (c : Crates) (data : OrdMap Bytes Bytes)
    (writes : List (Address × Account)) (hash : Hash) (height : UInt64) (blockBytes : Bytes) :
    (writtenData c data writes hash height blockBytes)[blockKey hash.bytes]? = some blockBytes := by
  rw [writtenData, OrdMap.lookup_insert, if_neg (latestHeightKey_ne_blockKey _),
    OrdMap.lookup_insert, if_neg (heightKey_ne_blockKey height _), OrdMap.lookup_insert, if_pos rfl]

theorem writeBlock_getLatestHeight (c : Crates) (ioError : Option StorageError) (db : StateDB)
    (writes : List (Address × Account)) (block : Block) (height : UInt64) :
    (writeBlock c ioError db writes block height).1.getLatestHeight =
      if (c.serializeBlock block).isSome then height else db.getLatestHeight := by
  rw [writeBlock_fst]
  cases c.serializeBlock block with
  | none => rfl
  | some blockBytes => simp [getLatestHeight, KeyValueStore.get, writtenData_latestHeight]

theorem writeBlock_latest {c : Crates} (hrt : c.BlockRoundTrip) {ioError : Option StorageError}
    {db : StateDB} {writes : List (Address × Account)} {block : Block} {height : UInt64} {root : Hash}
    (h : (writeBlock c ioError db writes block height).2 = .ok root) :
    (writeBlock c ioError db writes block height).1.getLatestHeight = height ∧
      (writeBlock c ioError db writes block height).1.getBlockByHeight c height = some block := by
  obtain ⟨blockBytes, hs, he⟩ := writeBlock_ok h
  rw [he]
  constructor
  · simp [getLatestHeight, KeyValueStore.get, writtenData_latestHeight]
  · simp [getBlockByHeight, KeyValueStore.get, writtenData_height, writtenData_block,
      hrt block blockBytes hs]

theorem applyWrites_perm (c : Crates) {writes writes' : List (Address × Account)}
    (hp : writes.Perm writes') (hk : (writes.map Prod.fst).Nodup) (data : OrdMap Bytes Bytes) :
    applyWrites c data writes = applyWrites c data writes' := by
  apply foldl_perm_of_keys hp hk
  intro x y z hne
  exact OrdMap.insert_comm z (fun h => hne (accountKey_injective h)) _ _

theorem updateLeaf_perm {c : Crates} (hinj : Function.Injective (addressKeyHash c))
    {writes writes' : List (Address × Account)} (hp : writes.Perm writes')
    (hk : (writes.map Prod.fst).Nodup) (smt : SparseMerkleTree) :
    writes.foldl (updateLeaf c) smt = writes'.foldl (updateLeaf c) smt := by
  apply foldl_perm_of_keys hp hk
  intro x y z hne
  exact SparseMerkleTree.update_comm c z (fun h => hne (hinj h)) _ _

theorem order_perm_order (env env' : Env) (overlay : StateOverlay) :
    (env.order overlay).Perm (env'.order overlay) :=
  (env.order_perm overlay).trans (env'.order_perm overlay).symm

theorem order_nodup (env : Env) (overlay : StateOverlay) :
    ((env.order overlay).map Prod.fst).Nodup :=
  ((env.order_perm overlay).map Prod.fst).nodup_iff.mpr (OrdMap.nodup_keys_toList overlay.accounts)

/-- The state that a commit leaves does not depend on the iteration order of
the overlay, nor on the outcome of `persist`. -/
theorem commitBlock_env_irrelevant {c : Crates} (hinj : Function.Injective (addressKeyHash c))
    (env env' : Env) (db : StateDB) (block : Block) (overlay : StateOverlay) :
    (commitBlock c env db block overlay).1 = (commitBlock c env' db block overlay).1 := by
  have hp := order_perm_order env env' overlay
  have hk := order_nodup env overlay
  simp only [commitBlock, writeBlock_fst, updateLeaf_perm hinj hp hk, writtenData,
    applyWrites_perm c hp hk]

theorem applyWrites_other (c : Crates) (data : OrdMap Bytes Bytes)
    {writes : List (Address × Account)} {key : Bytes}
    (h : ∀ address ∈ writes.map Prod.fst, accountKey address ≠ key) :
    (applyWrites c data writes)[key]? = data[key]? := by
  induction writes generalizing data with
  | nil => rfl
  | cons p writes ih =>
    simp only [List.map_cons, List.forall_mem_cons] at h
    have htail := ih (data.insert (accountKey p.1) (c.serializeAccount p.2)) h.2
    rw [OrdMap.lookup_insert, if_neg h.1] at htail
    exact htail

theorem applyWrites_absent (c : Crates) (data : OrdMap Bytes Bytes) {writes : List (Address × Account)}
    {a : Address} (h : a ∉ writes.map Prod.fst) :
    (applyWrites c data writes)[accountKey a]? = data[accountKey a]? := by
  apply applyWrites_other
  intro address hmem he
  exact h (accountKey_injective he ▸ hmem)

theorem applyWrites_mem (c : Crates) (data : OrdMap Bytes Bytes) {writes : List (Address × Account)}
    {a : Address} {acc : Account} (hk : (writes.map Prod.fst).Nodup) (h : (a, acc) ∈ writes) :
    (applyWrites c data writes)[accountKey a]? = some (c.serializeAccount acc) := by
  induction writes generalizing data with
  | nil => simp at h
  | cons p writes ih =>
    obtain ⟨hnot, hk⟩ := List.nodup_cons.mp hk
    rcases List.mem_cons.mp h with rfl | h
    · have htail := applyWrites_absent c
        (data.insert (accountKey a) (c.serializeAccount acc)) hnot
      rw [OrdMap.lookup_insert, if_pos rfl] at htail
      exact htail
    · exact ih (data.insert (accountKey p.1) (c.serializeAccount p.2)) hk h

theorem writtenData_account (c : Crates) (data : OrdMap Bytes Bytes)
    (writes : List (Address × Account)) (hash : Hash) (height : UInt64) (blockBytes : Bytes)
    (a : Address) : (writtenData c data writes hash height blockBytes)[accountKey a]? =
      (applyWrites c data writes)[accountKey a]? := by
  rw [writtenData, OrdMap.lookup_insert, if_neg (latestHeightKey_ne_accountKey a),
    OrdMap.lookup_insert, if_neg (heightKey_ne_accountKey height a), OrdMap.lookup_insert,
    if_neg (blockKey_ne_accountKey _ a)]

theorem commitBlock_lookup {c : Crates} {env : Env} {db : StateDB} {block : Block}
    {overlay : StateOverlay} {root : Hash} (h : (commitBlock c env db block overlay).2 = .ok root)
    (a : Address) : (commitBlock c env db block overlay).1.kv.data[accountKey a]? =
      match overlay.accounts[a]? with
      | some acc => some (c.serializeAccount acc)
      | none => db.kv.data[accountKey a]? := by
  obtain ⟨blockBytes, -, he⟩ := writeBlock_ok h
  have hmem : ∀ acc, (a, acc) ∈ env.order overlay ↔ overlay.accounts[a]? = some acc := by
    intro acc
    rw [(env.order_perm overlay).mem_iff, Std.ExtTreeMap.mem_toList_iff_getElem?_eq_some]
  rw [commitBlock, he]
  simp only [writtenData_account]
  cases ho : overlay.accounts[a]? with
  | some acc => exact applyWrites_mem c _ (order_nodup env overlay) ((hmem acc).mpr ho)
  | none =>
    apply applyWrites_absent
    intro hm
    obtain ⟨p, hp, rfl⟩ := List.mem_map.mp hm
    rw [(hmem p.2).mp hp] at ho
    cases ho

theorem commitBlock_getAccount {c : Crates} (hrt : c.AccountRoundTrip) {env : Env} {db : StateDB}
    {block : Block} {overlay : StateOverlay} {root : Hash}
    (h : (commitBlock c env db block overlay).2 = .ok root) (a : Address) :
    (commitBlock c env db block overlay).1.getAccount c a = overlay.getAccount c a db := by
  have hlookup := commitBlock_lookup h a
  unfold getAccount StateOverlay.getAccount KeyValueStore.get
  cases ho : overlay.accounts[a]? with
  | some acc =>
    rw [ho] at hlookup
    simp [hlookup, hrt acc]
  | none =>
    rw [ho] at hlookup
    rw [hlookup]
    rfl

/-- A commit fails where the block does not serialize or a store on disk meets
an error. -/
def commitFails (c : Crates) (env : Env) (db : StateDB) (block : Block) : Bool :=
  (c.serializeBlock block).isNone || db.kv.dbPath.isSome && env.ioError.isSome

theorem commitBlock_succeeds {c : Crates} {env : Env} {db : StateDB} {block : Block}
    (h : commitFails c env db block = false) (overlay : StateOverlay) :
    ∃ db' root, commitBlock c env db block overlay = (db', .ok root) := by
  simp only [commitFails, Bool.or_eq_false_iff] at h
  obtain ⟨hser, hdisk⟩ := h
  obtain ⟨blockBytes, hs⟩ := Option.isSome_iff_exists.mp (Option.isNone_eq_false_iff.mp hser)
  cases hp : db.kv.dbPath with
  | none => simp [commitBlock, writeBlock, hs, KeyValueStore.applyBatch, KeyValueStore.persist, hp]
  | some path =>
    have hio : env.ioError = none := by simpa [hp] using hdisk
    simp [commitBlock, writeBlock, hs, KeyValueStore.applyBatch, KeyValueStore.persist, hp, hio]

theorem commitBlock_fails {c : Crates} {env : Env} {db : StateDB} {block : Block}
    (h : commitFails c env db block = true) (overlay : StateOverlay) :
    ∃ db' e, commitBlock c env db block overlay = (db', .error e) := by
  cases hs : c.serializeBlock block with
  | none => simp [commitBlock, writeBlock, hs]
  | some blockBytes =>
    simp only [commitFails, hs, Option.isNone_some, Bool.false_or, Bool.and_eq_true,
      Option.isSome_iff_exists] at h
    obtain ⟨⟨path, hp⟩, e, hio⟩ := h
    simp [commitBlock, writeBlock, hs, KeyValueStore.applyBatch, KeyValueStore.persist, hp, hio]

theorem scanPrefix_key {kv : KeyValueStore} {pre : Bytes} {p : Bytes × Bytes}
    (hp : p ∈ kv.scanPrefix pre) : pre ++ p.1.drop pre.length = p.1 := by
  rw [KeyValueStore.scanPrefix] at hp
  have hb := List.mem_takeWhile_imp hp
  obtain ⟨rest, hr⟩ := List.isPrefixOf_iff_prefix.mp hb
  rw [← hr, List.drop_left]

theorem scanPrefix_nodup (kv : KeyValueStore) (pre : Bytes) :
    ((kv.scanPrefix pre).map Prod.fst).Nodup :=
  (OrdMap.nodup_keys_toList kv.data).sublist
    (((List.takeWhile_sublist _).trans (List.dropWhile_sublist _)).map Prod.fst)

theorem validatorEntry_bytes {c : Crates} {p : Bytes × Bytes} {z : Address × Account}
    (h : validatorEntry c p = some z) : p.1.drop cfAccounts.length = z.1.bytes := by
  unfold validatorEntry FixedBytes.ofSlice? at h
  by_cases hl : (p.1.drop cfAccounts.length).length = 20
  · cases ha : c.deserializeAccount p.2 with
    | none => simp [hl, ha] at h
    | some acc =>
      simp only [hl, dif_pos, ha, Option.ite_none_right_eq_some, Option.some.injEq] at h
      rw [← h.2]
  · rw [dif_neg hl] at h
    simp at h

theorem validatorEntry_key {c : Crates} {kv : KeyValueStore} {p : Bytes × Bytes}
    {z : Address × Account} (hp : p ∈ kv.scanPrefix cfAccounts) (h : validatorEntry c p = some z) :
    p.1 = accountKey z.1 := by
  rw [← scanPrefix_key hp, accountKey, validatorEntry_bytes h]

/-- The addresses of the active validators are pairwise distinct, as they are
keys of the store. -/
theorem getValidators_nodup (c : Crates) (db : StateDB) :
    ((db.getValidators c).map Prod.fst).Nodup := by
  have hk := scanPrefix_nodup db.kv cfAccounts
  rw [List.Nodup, List.pairwise_map] at hk
  rw [List.Nodup, List.pairwise_map, getValidators, List.pairwise_filterMap]
  refine hk.imp_of_mem ?_
  intro p q hp hq hne x hx y hy hxy
  have hsame : accountKey x.1 = accountKey y.1 := congrArg accountKey hxy
  exact hne ((validatorEntry_key hp hx).trans (hsame.trans (validatorEntry_key hq hy).symm))

end StateDB

end AuraChain
