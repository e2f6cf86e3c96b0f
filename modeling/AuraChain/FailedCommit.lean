import AuraChain.StateRoot
import AuraChain.StoredChain

/-! What a failed commit leaves behind. The tree is changed before the block is
serialized, and the map in memory before it is persisted, so that a failed
commit is invisible only where everything it writes is there already. -/

namespace AuraChain

def leafOf (c : Crates) (key : Hash) (value : Bytes) : Option Hash :=
  if value = [] then none else some (hashSmtLeaf c key value)

/-- What is hashed for the inner nodes of a state tree. -/
def treeInputs (c : Crates) (smt : SparseMerkleTree) : Set (Bytes × Bytes) :=
  smtNodeInput '' FullTree.pairs (hashSmtNode c) (SparseMerkleTree.leafAt smt.leaves) smtDepth

namespace SparseMerkleTree

variable {c : Crates} {smt smt' : SparseMerkleTree}

theorem update_leaves (c : Crates) (smt : SparseMerkleTree) (key : Hash) (value : Bytes) (k : Hash) :
    (smt.update c key value).leaves[k]? = if key = k then leafOf c k value else smt.leaves[k]? :=
  apply_leaves c smt (.update key value) k

theorem root_eq_value (c : Crates) (smt : SparseMerkleTree) :
    smt.root c = FullTree.value (hashSmtNode c) (leafAt smt.leaves) smtDepth 0 := by
  have hbelow : Below smt.leaves smtDepth 0 := fun key _ _ => Nat.div_eq_of_lt key.path_lt
  rw [← computeSubtreeRootBy_eq_value c sortedOrder le_rfl hbelow, root_eq_rootBy, rootBy]
  split_ifs with hempty
  · rw [Std.ExtTreeMap.isEmpty_iff.mp hempty, computeSubtreeRootBy_empty]
  · rfl

theorem leafAt_eq_of_root_eq (hinj : c.InjectiveOn (treeInputs c smt ∪ treeInputs c smt'))
    (h : smt.root c = smt'.root c) (key : Hash) :
    smt.leaves.getD key Hash.zero = smt'.leaves.getD key Hash.zero := by
  have hnode : Set.InjOn (fun p => hashSmtNode c p.1 p.2)
      (FullTree.pairs (hashSmtNode c) (leafAt smt.leaves) smtDepth ∪
        FullTree.pairs (hashSmtNode c) (leafAt smt'.leaves) smtDepth) := by
    intro p hp q hq he
    have hmem : ∀ p ∈ FullTree.pairs (hashSmtNode c) (leafAt smt.leaves) smtDepth ∪
        FullTree.pairs (hashSmtNode c) (leafAt smt'.leaves) smtDepth,
        smtNodeInput p ∈ treeInputs c smt ∪ treeInputs c smt' := by
      rintro p (hp | hp)
      · exact Or.inl ⟨p, hp, rfl⟩
      · exact Or.inr ⟨p, hp, rfl⟩
    exact smtNodeInput_injective (hinj (hmem p hp) (hmem q hq) he)
  rw [root_eq_value, root_eq_value] at h
  have hleaf := FullTree.leaves_eq hnode h key.path_lt
  rwa [leafAt, leafAt, Hash.ofNat_path] at hleaf

end SparseMerkleTree

namespace StateDB

variable {c : Crates} {env : Env} {db db' : StateDB} {block : Block} {overlay : StateOverlay}

/-- The two answer every reader alike. -/
structure SameAnswers (c : Crates) (db db' : StateDB) : Prop where
  stateRoot : db'.getStateRoot c = db.getStateRoot c
  latestHeight : db'.getLatestHeight = db.getLatestHeight
  account : ∀ address, db'.getAccount c address = db.getAccount c address
  blockByHeight : ∀ height, db'.getBlockByHeight c height = db.getBlockByHeight c height
  blockByHash : ∀ hash, db'.getBlockByHash c hash = db.getBlockByHash c hash

def HasLeaves (c : Crates) (db : StateDB) (overlay : StateOverlay) : Prop :=
  ∀ address account, overlay.accounts[address]? = some account →
    db.smt.leaves[addressKeyHash c address]? =
      leafOf c (addressKeyHash c address) (c.serializeAccount account)

/-- The store shows the block as its latest one, and the overlay's accounts. -/
structure AlreadyStored (c : Crates) (db : StateDB) (block : Block) (overlay : StateOverlay) :
    Prop where
  latestHeight : db.getLatestHeight = block.header.height
  blockByHeight : db.getBlockByHeight c block.header.height = some block
  blockByHash : db.getBlockByHash c (block.hash c) = some block
  account : ∀ address account, overlay.accounts[address]? = some account →
    db.getAccount c address = account

section tree

variable {smt : SparseMerkleTree} {writes : List (Address × Account)}

theorem foldl_updateLeaf_absent {key : Hash} (h : ∀ p ∈ writes, addressKeyHash c p.1 ≠ key) :
    (writes.foldl (updateLeaf c) smt).leaves[key]? = smt.leaves[key]? := by
  induction writes generalizing smt with
  | nil => rfl
  | cons p writes ih =>
    obtain ⟨hp, hrest⟩ := List.forall_mem_cons.mp h
    rw [List.foldl_cons, ih hrest, updateLeaf, SparseMerkleTree.update_leaves, if_neg hp]

theorem foldl_updateLeaf_mem (hinj : Function.Injective (addressKeyHash c))
    (hk : (writes.map Prod.fst).Nodup) {p : Address × Account} (hp : p ∈ writes) :
    (writes.foldl (updateLeaf c) smt).leaves[addressKeyHash c p.1]? =
      leafOf c (addressKeyHash c p.1) (c.serializeAccount p.2) := by
  induction writes generalizing smt with
  | nil => cases hp
  | cons q writes ih =>
    obtain ⟨hnot, hk⟩ := List.nodup_cons.mp hk
    rw [List.foldl_cons]
    rcases List.mem_cons.mp hp with rfl | hp
    · have habsent : ∀ q ∈ writes, addressKeyHash c q.1 ≠ addressKeyHash c p.1 := by
        intro q hq he
        exact hnot (hinj he ▸ List.mem_map_of_mem hq)
      rw [foldl_updateLeaf_absent habsent, updateLeaf, SparseMerkleTree.update_leaves, if_pos rfl]
    · exact ih hk hp

end tree

theorem mem_order (env : Env) (overlay : StateOverlay) (address : Address) (account : Account) :
    (address, account) ∈ env.order overlay ↔ overlay.accounts[address]? = some account := by
  rw [(env.order_perm overlay).mem_iff, Std.ExtTreeMap.mem_toList_iff_getElem?_eq_some]

theorem commitBlock_smt (c : Crates) (env : Env) (db : StateDB) (block : Block)
    (overlay : StateOverlay) : (db.commitBlock c env block overlay).1.smt =
      (env.order overlay).foldl (updateLeaf c) db.smt := by
  rw [commitBlock, writeBlock_fst]

theorem commitBlock_smt_eq (hinj : Function.Injective (addressKeyHash c))
    (h : db.HasLeaves c overlay) : (db.commitBlock c env block overlay).1.smt = db.smt := by
  rw [commitBlock_smt]
  have hleaves : ((env.order overlay).foldl (updateLeaf c) db.smt).leaves = db.smt.leaves := by
    apply Std.ExtTreeMap.ext_getElem?
    intro key
    by_cases hkey : ∃ p ∈ env.order overlay, addressKeyHash c p.1 = key
    · obtain ⟨p, hp, rfl⟩ := hkey
      rw [foldl_updateLeaf_mem hinj (order_nodup env overlay) hp]
      exact (h p.1 p.2 ((mem_order env overlay p.1 p.2).mp hp)).symm
    · exact foldl_updateLeaf_absent fun p hp he => hkey ⟨p, hp, he⟩
  exact congrArg SparseMerkleTree.mk hleaves

theorem hasLeaves_of_root (hinj : Function.Injective (addressKeyHash c))
    (hnodes : c.InjectiveOn
      (treeInputs c (db.commitBlock c env block overlay).1.smt ∪ treeInputs c db.smt))
    (hzero : ∀ address account, overlay.accounts[address]? = some account →
      hashSmtLeaf c (addressKeyHash c address) (c.serializeAccount account) ≠ Hash.zero)
    (hne : ∀ account, c.serializeAccount account ≠ [])
    (h : (db.commitBlock c env block overlay).1.getStateRoot c = db.getStateRoot c) :
    db.HasLeaves c overlay := by
  intro address account ho
  have hleaf := SparseMerkleTree.leafAt_eq_of_root_eq hnodes h (addressKeyHash c address)
  have hnew : ((env.order overlay).foldl (updateLeaf c) db.smt).leaves[addressKeyHash c address]? =
      leafOf c (addressKeyHash c address) (c.serializeAccount account) :=
    foldl_updateLeaf_mem hinj (order_nodup env overlay)
      ((mem_order env overlay address account).mpr ho)
  rw [commitBlock_smt, Std.ExtTreeMap.getD_eq_getD_getElem?, hnew, leafOf, if_neg (hne account),
    Option.getD_some, Std.ExtTreeMap.getD_eq_getD_getElem?] at hleaf
  rw [leafOf, if_neg (hne account), hleaf]
  cases hold : db.smt.leaves[addressKeyHash c address]? with
  | none =>
    rw [hold] at hleaf
    exact absurd hleaf (hzero address account ho)
  | some leaf => rfl

section store

variable {blockBytes : Bytes}

theorem commitBlock_data (hs : c.serializeBlock block = some blockBytes) :
    (db.commitBlock c env block overlay).1.kv.data =
      writtenData c db.kv.data (env.order overlay) (block.hash c) block.header.height blockBytes := by
  rw [commitBlock, writeBlock_fst, hs]

theorem commitBlock_getLatestHeight (hs : c.serializeBlock block = some blockBytes) :
    (db.commitBlock c env block overlay).1.getLatestHeight = block.header.height := by
  simp [getLatestHeight, KeyValueStore.get, commitBlock_data hs, writtenData_latestHeight]

theorem commitBlock_getBlockByHash (hrt : c.BlockRoundTrip)
    (hs : c.serializeBlock block = some blockBytes) (hash : Hash) :
    (db.commitBlock c env block overlay).1.getBlockByHash c hash =
      if hash = block.hash c then some block else db.getBlockByHash c hash := by
  rw [getBlockByHash, getBlockByHash, KeyValueStore.get, KeyValueStore.get, commitBlock_data hs]
  split_ifs with h
  · rw [h, writtenData_block, Option.bind_some, hrt block blockBytes hs]
  · have hne : (block.hash c).bytes ≠ hash.bytes := fun he => h (FixedBytes.ext he.symm)
    rw [writtenData_block_ne hne]

theorem commitBlock_getBlockByHeight_self (hrt : c.BlockRoundTrip)
    (hs : c.serializeBlock block = some blockBytes) :
    (db.commitBlock c env block overlay).1.getBlockByHeight c block.header.height = some block := by
  rw [getBlockByHeight, KeyValueStore.get, commitBlock_data hs, writtenData_height, Option.bind_some,
    KeyValueStore.get, commitBlock_data hs, writtenData_block, Option.bind_some,
    hrt block blockBytes hs]

/-- The index of another height is untouched, but the block under its hash may be
the one that is written. -/
theorem commitBlock_getBlockByHeight_of_ne (hrt : c.BlockRoundTrip)
    (hs : c.serializeBlock block = some blockBytes) {height : UInt64}
    (hne : block.header.height ≠ height) :
    (db.commitBlock c env block overlay).1.getBlockByHeight c height =
      (db.kv.get (heightKey height)).bind fun hash =>
        if (block.hash c).bytes = hash then some block
        else (db.kv.get (blockKey hash)).bind c.deserializeBlock := by
  rw [getBlockByHeight, KeyValueStore.get, commitBlock_data hs, writtenData_height_ne hne,
    KeyValueStore.get]
  cases db.kv.data[heightKey height]? with
  | none => rfl
  | some hash =>
    rw [Option.bind_some, Option.bind_some, KeyValueStore.get, commitBlock_data hs]
    split_ifs with hhash
    · rw [← hhash, writtenData_block, Option.bind_some, hrt block blockBytes hs]
    · rw [writtenData_block_ne hhash, KeyValueStore.get]

theorem commitBlock_getBlockByHeight_ne (hrt : c.BlockRoundTrip)
    (hs : c.serializeBlock block = some blockBytes)
    (hblock : db.getBlockByHash c (block.hash c) = some block) {height : UInt64}
    (hne : block.header.height ≠ height) :
    (db.commitBlock c env block overlay).1.getBlockByHeight c height =
      db.getBlockByHeight c height := by
  rw [commitBlock_getBlockByHeight_of_ne hrt hs hne, getBlockByHeight]
  refine congrArg _ (funext fun hash => ?_)
  split_ifs with hhash
  · rw [← hhash]
    exact hblock.symm
  · rfl

theorem commitBlock_getAccount_written (hrt : c.AccountRoundTrip)
    (hs : c.serializeBlock block = some blockBytes) (address : Address) :
    (db.commitBlock c env block overlay).1.getAccount c address =
      overlay.getAccount c address db := by
  have hlookup : (db.commitBlock c env block overlay).1.kv.data[accountKey address]? =
      (applyWrites c db.kv.data (env.order overlay))[accountKey address]? := by
    rw [commitBlock_data hs, writtenData_account]
  rw [getAccount, StateOverlay.getAccount, KeyValueStore.get, hlookup]
  cases ho : overlay.accounts[address]? with
  | some account =>
    rw [applyWrites_mem c _ (order_nodup env overlay)
      ((mem_order env overlay address account).mpr ho)]
    simp [hrt account]
  | none =>
    rw [applyWrites_absent c db.kv.data]
    · rfl
    · intro hm
      obtain ⟨p, hp, rfl⟩ := List.mem_map.mp hm
      rw [(mem_order env overlay p.1 p.2).mp hp] at ho
      cases ho

theorem sameAnswers_of_stored (hacc : c.AccountRoundTrip) (hblock : c.BlockRoundTrip)
    (hs : c.serializeBlock block = some blockBytes) (h : db.AlreadyStored c block overlay)
    (hroot : (db.commitBlock c env block overlay).1.getStateRoot c = db.getStateRoot c) :
    db.SameAnswers c (db.commitBlock c env block overlay).1 where
  stateRoot := hroot
  latestHeight := (commitBlock_getLatestHeight hs).trans h.latestHeight.symm
  account address := by
    rw [commitBlock_getAccount_written hacc hs, StateOverlay.getAccount]
    cases ho : overlay.accounts[address]? with
    | some account => exact (h.account address account ho).symm
    | none => rfl
  blockByHeight height := by
    by_cases hheight : block.header.height = height
    · subst hheight
      rw [commitBlock_getBlockByHeight_self hblock hs, h.blockByHeight]
    · exact commitBlock_getBlockByHeight_ne hblock hs h.blockByHash hheight
  blockByHash hash := by
    rw [commitBlock_getBlockByHash hblock hs]
    split_ifs with hhash
    · rw [hhash, h.blockByHash]
    · rfl

theorem stored_of_sameAnswers (hacc : c.AccountRoundTrip) (hblock : c.BlockRoundTrip)
    (hs : c.serializeBlock block = some blockBytes)
    (h : db.SameAnswers c (db.commitBlock c env block overlay).1) :
    db.AlreadyStored c block overlay where
  latestHeight := h.latestHeight.symm.trans (commitBlock_getLatestHeight hs)
  blockByHeight := by
    rw [← h.blockByHeight]
    exact commitBlock_getBlockByHeight_self hblock hs
  blockByHash := by
    rw [← h.blockByHash, commitBlock_getBlockByHash hblock hs, if_pos rfl]
  account address account ho := by
    rw [← h.account, commitBlock_getAccount_written hacc hs, StateOverlay.getAccount, ho]

end store

theorem sameAnswers_of_root (hs : c.serializeBlock block = none)
    (hroot : (db.commitBlock c env block overlay).1.getStateRoot c = db.getStateRoot c) :
    db.SameAnswers c (db.commitBlock c env block overlay).1 := by
  have hkv : (db.commitBlock c env block overlay).1.kv = db.kv := by
    rw [commitBlock, writeBlock_fst, hs]
  exact ⟨hroot, by rw [getLatestHeight, getLatestHeight, hkv],
    fun address => by rw [getAccount, getAccount, hkv],
    fun height => by rw [getBlockByHeight, getBlockByHeight, hkv],
    fun hash => by rw [getBlockByHash, getBlockByHash, hkv]⟩

/-- A failed commit changes no answer exactly if everything that it writes is
there already. -/
theorem failed_commit_keeps_answers_iff (hinj : Function.Injective (addressKeyHash c))
    (hacc : c.AccountRoundTrip) (hblock : c.BlockRoundTrip)
    (hne : ∀ account, c.serializeAccount account ≠ []) (env : Env) (db : StateDB) (block : Block)
    (overlay : StateOverlay)
    (hnodes : c.InjectiveOn
      (treeInputs c (db.commitBlock c env block overlay).1.smt ∪ treeInputs c db.smt))
    (hzero : ∀ address account, overlay.accounts[address]? = some account →
      hashSmtLeaf c (addressKeyHash c address) (c.serializeAccount account) ≠ Hash.zero) :
    (∀ e, (db.commitBlock c env block overlay).2 = .error e →
      db.SameAnswers c (db.commitBlock c env block overlay).1) ↔
    (commitFails c env db block = true → db.HasLeaves c overlay ∧
      ((c.serializeBlock block).isSome = true → db.AlreadyStored c block overlay)) := by
  constructor
  · intro hsame hfails
    obtain ⟨db', e, hcommit⟩ := commitBlock_fails hfails overlay
    have hanswers := hsame e (congrArg Prod.snd hcommit)
    refine ⟨hasLeaves_of_root hinj hnodes hzero hne hanswers.stateRoot, fun hser => ?_⟩
    obtain ⟨blockBytes, hs⟩ := Option.isSome_iff_exists.mp hser
    exact stored_of_sameAnswers hacc hblock hs hanswers
  · intro hthere e he
    have hfails : commitFails c env db block = true := by
      by_contra hok
      obtain ⟨db', root, hcommit⟩ := commitBlock_succeeds (Bool.not_eq_true _ ▸ hok) overlay
      rw [hcommit] at he
      cases he
    obtain ⟨hleaves, hstored⟩ := hthere hfails
    have hroot : (db.commitBlock c env block overlay).1.getStateRoot c = db.getStateRoot c := by
      rw [getStateRoot, getStateRoot, commitBlock_smt_eq hinj hleaves]
    cases hs : c.serializeBlock block with
    | none => exact sameAnswers_of_root hs hroot
    | some blockBytes =>
      exact sameAnswers_of_stored hacc hblock hs (hstored (by rw [hs]; rfl)) hroot

end StateDB

namespace FailedCommit

/-- A disk that takes the genesis block and no more. -/
def env : Env := { Reference.env with ioError := some .io }

def diskStore : KeyValueStore := ⟨∅, some (ascii "aura.db")⟩

def calls : List StoreCall := [.applyGenesis none StateRestart.genesis]

def errorOf {α : Type} : Except StorageError α → Option StorageError
  | .error e => some e
  | .ok _ => none

theorem of_errorOf {α : Type} {r : Except StorageError α} {e : StorageError}
    (h : errorOf r = some e) : r = .error e := by
  cases r with
  | ok a => cases h
  | error e' => exact congrArg Except.error (Option.some.inj h)

theorem failed_commit_is_seen : ∃ (db : StateDB) (log : List Hash),
    TracedRun (StateDB.step StateRestart.crates) (fun _ _ => True)
      (StateDB.new StateRestart.crates diskStore, []) (db, log) ∧
    (db.commitBlock StateRestart.crates env StateRestart.block StateOverlay.new).2 = .error .io ∧
    ¬ db.SameAnswers StateRestart.crates
      (db.commitBlock StateRestart.crates env StateRestart.block StateOverlay.new).1 := by
  have hrun : ((runAll (StateDB.step StateRestart.crates) (fun _ _ => True)
      (StateDB.new StateRestart.crates diskStore) calls).map fun t =>
        (errorOf (t.1.commitBlock StateRestart.crates env StateRestart.block StateOverlay.new).2,
          t.1.getLatestHeight,
          (t.1.commitBlock StateRestart.crates env StateRestart.block
            StateOverlay.new).1.getLatestHeight)) = some (some .io, 0, 1) := by
    decide +kernel
  obtain ⟨⟨db, log⟩, hrun, hanswer⟩ := TracedRun.of_map hrun
  simp only [Prod.mk.injEq] at hanswer
  obtain ⟨herror, hbefore, hafter⟩ := hanswer
  refine ⟨db, log, hrun, of_errorOf herror, fun hsame => ?_⟩
  have hlatest := hsame.latestHeight
  rw [hbefore, hafter] at hlatest
  cases hlatest

def address : Address := StateRoot.address

def blocks : List Block :=
  [StateRoot.genesis.toGenesisBlock (Reference.levelCrates []), StateRoot.registration]

def crates : Crates := Reference.levelCrates blocks

def db : StateDB :=
  ((StateDB.new crates diskStore).applyGenesis crates none StateRoot.genesis).1

def overlay : StateOverlay := StateOverlay.new.setAccount address StateRoot.before

theorem addressKeyHash_injective : Function.Injective (addressKeyHash crates) :=
  Reference.addressKeyHash_level_injective rfl

theorem serializeAccount_ne_nil (account : Account) : crates.serializeAccount account ≠ [] :=
  StateRoot.serializeAccount_ne_nil account

theorem accountRoundTrip : crates.AccountRoundTrip := fun acc => Reference.accountRoundTrip blocks acc

theorem blockRoundTrip : crates.BlockRoundTrip := fun block bytes hbytes =>
  Reference.blockRoundTrip blocks block bytes hbytes

theorem treeInputs_of_represents {c : Crates} {smt : SparseMerkleTree} {kv : Hash → Bytes}
    (h : smt.Represents c kv) : treeInputs c smt ⊆ smtInputs c kv := by
  rw [treeInputs, funext h.leafAt]
  exact Set.subset_union_right

theorem leaf_ne_zero {c : Crates} {key : Hash} {value : Bytes} (hvalue : value ≠ [])
    (hzero : c.NonzeroOn (smtInputs c (Reference.single key value))) :
    hashSmtLeaf c key value ≠ Hash.zero := by
  have hself : Reference.single key value key = value := Function.update_self _ _ _
  refine hzero (smtLeafInput key value) (Or.inl ⟨key, ?_, ?_⟩)
  · rwa [hself]
  · rw [hself]

theorem represents_db : db.smt.Represents crates (Reference.single (addressKeyHash crates address)
    (crates.serializeAccount (Account.new 1000 0))) := by
  have hempty : (StateDB.new crates diskStore).smt.Represents crates fun _ => [] := by
    rw [← stateMap_empty addressKeyHash_injective]
    exact StateDB.mirrors_new addressKeyHash_injective diskStore
  have hupdate := hempty.apply (.update (addressKeyHash crates address)
    (crates.serializeAccount (Account.new 1000 0)))
  rw [db, StateDB.applyGenesis, StateDB.writeBlock_fst]
  exact hupdate

theorem represents_commit :
    (db.commitBlock crates env StateRoot.registration overlay).1.smt.Represents crates
      (Reference.single (addressKeyHash crates address)
        (crates.serializeAccount StateRoot.before)) := by
  have horder : env.order overlay = [(address, StateRoot.before)] := rfl
  have hupdate := represents_db.apply (.update (addressKeyHash crates address)
    (crates.serializeAccount StateRoot.before))
  rw [SmtOp.write, Reference.single, SmtOp.key_update, Function.update_idem] at hupdate
  rw [StateDB.commitBlock_smt, horder]
  exact hupdate

theorem failed_commit_keeps_answers_iff_change :
    (∀ e, (db.commitBlock crates env StateRoot.registration overlay).2 = .error e →
      db.SameAnswers crates (db.commitBlock crates env StateRoot.registration overlay).1) ↔
    (StateDB.commitFails crates env db StateRoot.registration = true →
      db.HasLeaves crates overlay ∧
        ((crates.serializeBlock StateRoot.registration).isSome = true →
          db.AlreadyStored crates StateRoot.registration overlay)) := by
  have hne : Reference.leafNumber (addressKeyHash crates address)
        (crates.serializeAccount StateRoot.before) ≠
      Reference.leafNumber (addressKeyHash crates address)
        (crates.serializeAccount (Account.new 1000 0)) := by decide +kernel
  have hbefore : Reference.leafNumber (addressKeyHash crates address)
      (crates.serializeAccount StateRoot.before) ≠ 0 := by decide +kernel
  have hnew : Reference.leafNumber (addressKeyHash crates address)
      (crates.serializeAccount (Account.new 1000 0)) ≠ 0 := by decide +kernel
  obtain ⟨hnodes, hzero⟩ := Reference.collisionFree_single (c := crates) rfl
    (serializeAccount_ne_nil StateRoot.before) (serializeAccount_ne_nil (Account.new 1000 0))
    hne hbefore hnew
  have hleaf := leaf_ne_zero (serializeAccount_ne_nil StateRoot.before)
    (fun p hp => hzero p (Or.inl hp))
  refine StateDB.failed_commit_keeps_answers_iff addressKeyHash_injective
    accountRoundTrip blockRoundTrip serializeAccount_ne_nil env db StateRoot.registration overlay ?_ ?_
  · exact hnodes.mono (Set.union_subset_union (treeInputs_of_represents represents_commit)
      (treeInputs_of_represents represents_db))
  · intro a account ho
    have hmem := (StateDB.mem_order env overlay a account).mpr ho
    have horder : env.order overlay = [(address, StateRoot.before)] := rfl
    rw [horder, List.mem_singleton] at hmem
    obtain ⟨rfl, rfl⟩ := Prod.mk.inj hmem
    exact hleaf

end FailedCommit

end AuraChain
