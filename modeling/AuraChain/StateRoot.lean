import AuraChain.EngineSpec
import AuraChain.LevelHash
import AuraChain.MempoolInvariant
import AuraChain.StateRestart

/-! The state root in the header of a proposal against the root that its commit
returns. The engine shares its database with others, who write to it too. -/

namespace AuraChain

inductive SharedCall
  | engine (call : Call)
  | store (call : StoreCall)

namespace StateDB

variable {c : Crates} {env : Env} {db db' : StateDB} {block : Block} {root : Hash}

theorem commitBlock_new_root
    (h : db.commitBlock c env block StateOverlay.new = (db', .ok root)) :
    db.getStateRoot c = root := by
  have hperm := env.order_perm StateOverlay.new
  have htoList : StateOverlay.new.accounts.toList = [] := Std.ExtTreeMap.toList_eq_nil_iff.mpr rfl
  rw [htoList, List.perm_nil] at hperm
  have hroot := writeBlock_root (congrArg Prod.snd h)
  rw [commitBlock, hperm] at h
  have hdb := congrArg Prod.fst h
  rw [writeBlock_fst] at hdb
  rw [← hroot, getStateRoot, getStateRoot, writeBlock_fst, hperm]
  rfl

theorem execute_getAccount_ne (c : Crates) (db : StateDB) {tx : Transaction} {txs : List Transaction}
    (htx : tx ∈ txs) (hlen : txs.length < 2 ^ 64) :
    (executeTransactionsSpeculative c db txs StateOverlay.new).getAccount c tx.sender db ≠
      db.getAccount c tx.sender := by
  intro he
  have hview := congrFun (view_execute c db txs StateOverlay.new) tx.sender
  rw [view_new, StateOverlay.view, he] at hview
  have hnonce := nonce_execute txs (db.getAccount c) tx.sender
  rw [← hview] at hnonce
  have hcount : 0 < txs.countP fun t => t.sender = tx.sender :=
    List.countP_pos_iff.mpr ⟨tx, htx, by simp⟩
  have hle : (txs.countP fun t => t.sender = tx.sender) ≤ txs.length := List.countP_le_length
  have hword := congrArg UInt64.toNat hnonce
  have hlt := (db.getAccount c tx.sender).nonce.toNat_lt
  rw [UInt64.toNat_add, UInt64.toNat_ofNat', Nat.mod_eq_of_lt (by omega)] at hword
  omega

/-- A commit of transactions does not leave the stored accounts as they are, as
it raises nonces. -/
theorem commitBlock_stateMap_ne (hinj : Function.Injective (addressKeyHash c))
    (hrt : c.AccountRoundTrip) (hne : ∀ acc, c.serializeAccount acc ≠ []) {tx : Transaction}
    {txs : List Transaction} (htx : tx ∈ txs) (hlen : txs.length < 2 ^ 64)
    (h : db.commitBlock c env block (executeTransactionsSpeculative c db txs StateOverlay.new) =
      (db', .ok root)) : stateMap c db.kv.data ≠ stateMap c db'.kv.data := by
  intro hsame
  have hchanged := execute_getAccount_ne c db htx hlen
  have hlookup := commitBlock_lookup (congrArg Prod.snd h) tx.sender
  rw [h] at hlookup
  cases ho : (executeTransactionsSpeculative c db txs StateOverlay.new).accounts[tx.sender]? with
  | none => exact hchanged (by rw [StateOverlay.getAccount, ho])
  | some acc =>
    rw [ho] at hlookup
    have hbytes := congrFun hsame (addressKeyHash c tx.sender)
    rw [stateMap_address hinj, stateMap_address hinj, Std.ExtTreeMap.getD_eq_getD_getElem?,
      Std.ExtTreeMap.getD_eq_getD_getElem?, hlookup, Option.getD_some] at hbytes
    cases hold : db.kv.data[accountKey tx.sender]? with
    | none =>
      rw [hold] at hbytes
      exact hne acc hbytes.symm
    | some bytes =>
      rw [hold, Option.getD_some] at hbytes
      apply hchanged
      rw [StateOverlay.getAccount, ho, getAccount, KeyValueStore.get, hold, hbytes]
      simp [hrt acc]

end StateDB

namespace ConsensusEngine

/-- The write of a block that does not serialize ends the run, as it leaves the
tree ahead of the store. -/
def sharedStep (c : Crates) (engine : ConsensusEngine) :
    SharedCall → Option (ConsensusEngine × List Event)
  | .engine call => engine.next c call
  | .store call =>
    match engine.stateDb.call c call with
    | (_, .error .bincode) => none
    | (db, _) => some ({ engine with stateDb := db }, [])

variable {c : Crates}

theorem mirrors_sharedStep (hinj : Function.Injective (addressKeyHash c)) {engine : ConsensusEngine}
    (h : engine.stateDb.Mirrors c) {call : SharedCall} {engine' : ConsensusEngine} {out : List Event}
    (hstep : engine.sharedStep c call = some (engine', out)) : engine'.stateDb.Mirrors c := by
  cases call with
  | engine call =>
    rcases next_stateDb hstep with he | ⟨env, block, overlay, root, hcommit⟩
    · rw [he]
      exact h
    · have hmirrors := h.call hinj (.commitBlock env block overlay) (by
        rw [StateDB.call, hcommit]
        simp)
      rw [StateDB.call, hcommit] at hmirrors
      exact hmirrors
  | store call =>
    have hmirrors := h.call hinj call
    cases hcall : engine.stateDb.call c call with
    | mk db result =>
      rw [hcall] at hmirrors
      simp only [sharedStep, hcall] at hstep
      match result with
      | .ok root =>
        simp only [Option.some.injEq, Prod.mk.injEq] at hstep
        rw [← hstep.1]
        exact hmirrors (by simp)
      | .error .io =>
        simp only [Option.some.injEq, Prod.mk.injEq] at hstep
        rw [← hstep.1]
        exact hmirrors (by simp)
      | .error .bincode => cases hstep

theorem mirrors_run (hinj : Function.Injective (addressKeyHash c)) {keypair : SecretKey}
    {kv : KeyValueStore} {mempool : Mempool} {chainId : Bytes} {engine : ConsensusEngine}
    {log : List Event} (hrun : TracedRun (sharedStep c) (fun _ _ => True)
      (ConsensusEngine.new c keypair (StateDB.new c kv) mempool chainId, []) (engine, log)) :
    engine.stateDb.Mirrors c := by
  refine TracedRun.invariant (P := fun engine _ => engine.stateDb.Mirrors c) hrun
    (StateDB.mirrors_new hinj kv) ?_
  intro engine _ call engine' out h _ hstep
  exact mirrors_sharedStep hinj h hstep

variable {engine : ConsensusEngine} {env env' : Env} {r : Reply (Except ConsensusError Block)}
  {block : Block} {db : StateDB} {root : Hash}

theorem createProposal_stateRoot (h : engine.createProposal c env = .ok r)
    (hb : r.value = .ok block) : block.header.stateRoot = engine.stateDb.getStateRoot c ∧
      block.transactions = engine.mempool.harvest (1024 * 1024) := by
  obtain ⟨prevBlock, rfl⟩ := createProposal_block h hb
  exact ⟨rfl, rfl⟩

theorem stateRoot_ne_of_harvest {inputs : Set (Bytes × Bytes)} (hinj : c.InjectiveOn inputs)
    (hzero : c.NonzeroOn inputs) (haddr : Function.Injective (addressKeyHash c))
    (hrt : c.AccountRoundTrip) (hne : ∀ acc, c.serializeAccount acc ≠ [])
    (hmirrors : engine.stateDb.Mirrors c) (h : engine.createProposal c env = .ok r)
    (hb : r.value = .ok block) (hharvest : engine.mempool.harvest (1024 * 1024) ≠ [])
    (hcommit : engine.stateDb.commitBlock c env' block (executeTransactionsSpeculative c
      engine.stateDb block.transactions StateOverlay.new) = (db, .ok root))
    (hbefore : smtInputs c (stateMap c engine.stateDb.kv.data) ⊆ inputs)
    (hafter : smtInputs c (stateMap c db.kv.data) ⊆ inputs) : block.header.stateRoot ≠ root := by
  obtain ⟨hroot, htxs⟩ := createProposal_stateRoot h hb
  obtain ⟨tx, htx⟩ := List.exists_mem_of_ne_nil _ hharvest
  have hlength := Mempool.harvest_length engine.mempool (1024 * 1024)
  have hdb : (engine.stateDb.call c (.commitBlock env' block (executeTransactionsSpeculative c
      engine.stateDb block.transactions StateOverlay.new))) = (db, .ok root) := hcommit
  have hmirrors' := hmirrors.call haddr _ (by rw [hdb]; simp)
  have hroot' := StateDB.call_root (congrArg Prod.snd hdb)
  rw [hdb] at hmirrors' hroot'
  intro he
  have hsame : referenceRoot c (stateMap c engine.stateDb.kv.data) =
      referenceRoot c (stateMap c db.kv.data) := by
    rw [← hmirrors.getStateRoot, ← hmirrors'.getStateRoot, ← hroot, he]
    exact hroot'.symm
  have hunion : smtInputs c (stateMap c engine.stateDb.kv.data) ∪
      smtInputs c (stateMap c db.kv.data) ⊆ inputs := Set.union_subset hbefore hafter
  have hmap := eq_of_referenceRoot_eq (hinj.mono hunion) (fun p hp => hzero p (hunion hp)) hsame
  rw [← htxs] at htx hlength
  exact StateDB.commitBlock_stateMap_ne haddr hrt hne htx (by omega) hcommit hmap

/-- The header of a proposal carries the root that its commit returns exactly
where nothing was harvested for it: the speculative execution is dropped, and
the root of the state before it is taken. -/
theorem proposal_stateRoot_iff {inputs : Set (Bytes × Bytes)} (hinj : c.InjectiveOn inputs)
    (hzero : c.NonzeroOn inputs) (haddr : Function.Injective (addressKeyHash c))
    (hrt : c.AccountRoundTrip) (hne : ∀ acc, c.serializeAccount acc ≠ []) {keypair : SecretKey}
    {kv : KeyValueStore} {mempool : Mempool} {chainId : Bytes} {log : List Event}
    (hrun : TracedRun (sharedStep c) (fun _ _ => True)
      (ConsensusEngine.new c keypair (StateDB.new c kv) mempool chainId, []) (engine, log))
    (h : engine.createProposal c env = .ok r) (hb : r.value = .ok block)
    (hcommit : engine.stateDb.commitBlock c env' block (executeTransactionsSpeculative c
      engine.stateDb block.transactions StateOverlay.new) = (db, .ok root))
    (hbefore : smtInputs c (stateMap c engine.stateDb.kv.data) ⊆ inputs)
    (hafter : smtInputs c (stateMap c db.kv.data) ⊆ inputs) :
    block.header.stateRoot = root ↔ engine.mempool.harvest (1024 * 1024) = [] := by
  constructor
  · intro he
    by_contra hharvest
    exact stateRoot_ne_of_harvest hinj hzero haddr hrt hne (mirrors_run haddr hrun) h hb hharvest
      hcommit hbefore hafter he
  · intro hharvest
    obtain ⟨hroot, htxs⟩ := createProposal_stateRoot h hb
    rw [htxs, hharvest] at hcommit
    rw [hroot]
    exact StateDB.commitBlock_new_root hcommit

end ConsensusEngine

theorem executeTransaction_own {c : Crates} {db : StateDB} {overlay : StateOverlay}
    {tx : Transaction} (h : tx.txType ≠ .transfer) : executeTransaction c db overlay tx =
      overlay.setAccount tx.sender ((overlay.getAccount c tx.sender db).afterSending tx) := by
  cases ht : tx.txType with
  | transfer => exact absurd ht h
  | registerValidator | stake | unstake =>
    simp [executeTransaction, Account.afterSending, ht, Account.debit]

namespace StateRoot

def address : Address := Address.fromPubkey (Reference.levelCrates []) (Reference.secretKey 1)

def genesis : GenesisConfig :=
  { Reference.genesis [] with accounts := [⟨address, 1000⟩] }

def signed (txType : TransactionType) (nonce : UInt64) : Transaction :=
  let tx : Transaction :=
    ⟨address, address, 200, 100, nonce, txType, [], Reference.secretKey 1, FixedBytes.zero 64⟩
  { tx with signature := Reference.sign (Reference.secretKey 1) tx.signingBytes }

/-- The only account of the genesis block becomes a validator in block 1. -/
def registration : Block := Reference.block 1 Hash.zero 0 [signed .registerValidator 1]

def crates : Crates :=
  { Reference.levelCrates [] with
    serializeBlock := fun b => some b.header.height.toBeBytes
    deserializeBlock := fun bytes =>
      if bytes = registration.header.height.toBeBytes then some registration else none }

def genesisDb : StateDB := ((StateDB.openInMemory crates).applyGenesis crates none genesis).1

def stateDb : StateDB :=
  (genesisDb.commitBlock crates Reference.env registration (executeTransactionsSpeculative crates
    genesisDb registration.transactions StateOverlay.new)).1

def pool : Mempool :=
  ((Mempool.new MempoolConfig.default).addTransaction crates (signed .stake 2)
    (StateDB.new crates stateDb.kv)).elim (Mempool.new MempoolConfig.default) Prod.fst

def engine : ConsensusEngine :=
  ConsensusEngine.new crates (Reference.secretKey 1) (StateDB.new crates stateDb.kv) pool
    (ascii "aura-testnet")

def before : Account := ⟨700, 1, 200, true, some (Reference.secretKey 1)⟩
def after : Account := ⟨400, 2, 400, true, some (Reference.secretKey 1)⟩

theorem addressKeyHash_injective : Function.Injective (addressKeyHash crates) :=
  Reference.addressKeyHash_level_injective rfl

theorem accountRoundTrip : crates.AccountRoundTrip := by
  intro acc
  change Reference.decodeAccount (Reference.encodeAccount acc) = some acc
  exact Reference.accountRoundTrip [] acc

theorem serializeAccount_ne_nil (acc : Account) : crates.serializeAccount acc ≠ [] := by
  intro h
  have hlength := congrArg List.length h
  simp [crates, Reference.levelCrates, Reference.crates, Reference.encodeAccount,
    Reference.littleEndian_length] at hlength

theorem stateMap_write {data : OrdMap Bytes Bytes} {acc acc' : Account}
    (h : stateMap crates data =
      Reference.single (addressKeyHash crates address) (crates.serializeAccount acc)) :
    stateMap crates (StateDB.applyWrites crates data [(address, acc')]) =
      Reference.single (addressKeyHash crates address) (crates.serializeAccount acc') := by
  have hinsert := stateMap_insert addressKeyHash_injective data address
    (crates.serializeAccount acc')
  rw [h, Reference.single, Function.update_idem] at hinsert
  exact hinsert

theorem stateMap_genesisDb : stateMap crates genesisDb.kv.data = Reference.single
    (addressKeyHash crates address) (crates.serializeAccount (Account.new 1000 0)) := by
  have hwrite : stateMap crates genesisDb.kv.data = stateMap crates (StateDB.applyWrites crates ∅
      [(address, Account.new 1000 0)]) :=
    StateDB.stateMap_writeBlock none (StateDB.openInMemory crates)
      [(address, Account.new 1000 0)] 0 rfl
  have hinsert := stateMap_insert addressKeyHash_injective ∅ address
    (crates.serializeAccount (Account.new 1000 0))
  rw [stateMap_empty addressKeyHash_injective] at hinsert
  exact hwrite.trans hinsert

theorem order_setAccount (acc : Account) :
    Reference.env.order (StateOverlay.new.setAccount address acc) = [(address, acc)] := rfl

theorem new_getAccount (db : StateDB) (a : Address) :
    (StateDB.new crates db.kv).getAccount crates a = db.getAccount crates a := rfl

theorem execute_signed (db : StateDB) {txType : TransactionType} (h : txType ≠ .transfer)
    (nonce : UInt64) : executeTransactionsSpeculative crates db [signed txType nonce]
      StateOverlay.new = StateOverlay.new.setAccount address
        ((db.getAccount crates address).afterSending (signed txType nonce)) :=
  executeTransaction_own h

theorem genesisDb_account : genesisDb.getAccount crates address = Account.new 1000 0 := by
  decide +kernel

theorem execute_registration : executeTransactionsSpeculative crates genesisDb
    registration.transactions StateOverlay.new = StateOverlay.new.setAccount address before := by
  have hexecute := @execute_signed genesisDb .registerValidator nofun 1
  rw [genesisDb_account] at hexecute
  exact hexecute

theorem stateDb_account : (StateDB.new crates stateDb.kv).getAccount crates address = before := by
  obtain ⟨db, root, hcommit⟩ := StateDB.commitBlock_succeeds
    (show StateDB.commitFails crates Reference.env genesisDb registration = false from rfl)
    (executeTransactionsSpeculative crates genesisDb registration.transactions StateOverlay.new)
  rw [new_getAccount, stateDb,
    StateDB.commitBlock_getAccount accountRoundTrip (congrArg Prod.snd hcommit),
    execute_registration, StateOverlay.getAccount_setAccount_self]

theorem execute_stake : executeTransactionsSpeculative crates engine.stateDb [signed .stake 2]
    StateOverlay.new = StateOverlay.new.setAccount address after := by
  have hexecute := @execute_signed (StateDB.new crates stateDb.kv) .stake nofun 2
  rw [stateDb_account] at hexecute
  exact hexecute

theorem stateMap_stateDb : stateMap crates stateDb.kv.data = Reference.single
    (addressKeyHash crates address) (crates.serializeAccount before) := by
  rw [stateDb, StateDB.commitBlock, StateDB.stateMap_writeBlock _ _ _ _ rfl, execute_registration,
    order_setAccount]
  exact stateMap_write stateMap_genesisDb

theorem harvest_stake : engine.mempool.harvest (1024 * 1024) = [signed .stake 2] := by
  decide +kernel

theorem proposal_committed : ∃ (inputs : Set (Bytes × Bytes)) (r : Reply (Except ConsensusError Block))
    (block : Block) (db : StateDB) (root : Hash), crates.InjectiveOn inputs ∧
    crates.NonzeroOn inputs ∧ engine.createProposal crates Reference.env = .ok r ∧
    r.value = .ok block ∧ engine.stateDb.commitBlock crates Reference.env block
      (executeTransactionsSpeculative crates engine.stateDb block.transactions StateOverlay.new) =
        (db, .ok root) ∧
    smtInputs crates (stateMap crates engine.stateDb.kv.data) ⊆ inputs ∧
    smtInputs crates (stateMap crates db.kv.data) ⊆ inputs := by
  have hproposed : ((engine.createProposal crates Reference.env).toOption.map
      fun r => r.value.toOption.isSome) = some true := by decide +kernel
  have hne : Reference.leafNumber (addressKeyHash crates address) (crates.serializeAccount before) ≠
      Reference.leafNumber (addressKeyHash crates address) (crates.serializeAccount after) := by
    decide +kernel
  have hbefore : Reference.leafNumber (addressKeyHash crates address)
      (crates.serializeAccount before) ≠ 0 := by decide +kernel
  have hafter : Reference.leafNumber (addressKeyHash crates address)
      (crates.serializeAccount after) ≠ 0 := by decide +kernel
  obtain ⟨hinj, hzero⟩ := Reference.collisionFree_single (c := crates) rfl
    (serializeAccount_ne_nil before) (serializeAccount_ne_nil after) hne hbefore hafter
  cases hr : engine.createProposal crates Reference.env with
  | error p => simp [hr, Except.toOption] at hproposed
  | ok r =>
    cases hv : r.value with
    | error e => simp [hr, hv, Except.toOption] at hproposed
    | ok block =>
      obtain ⟨-, htxs⟩ := ConsensusEngine.createProposal_stateRoot hr hv
      obtain ⟨db, root, hcommit⟩ := StateDB.commitBlock_succeeds
        (show StateDB.commitFails crates Reference.env engine.stateDb block = false from rfl)
        (executeTransactionsSpeculative crates engine.stateDb block.transactions StateOverlay.new)
      have hmap : stateMap crates engine.stateDb.kv.data = _ := stateMap_stateDb
      refine ⟨_, r, block, db, root, hinj, hzero, rfl, hv, hcommit, ?_, ?_⟩
      · rw [hmap]
        exact Set.subset_union_left
      · have hdb : _ = db := congrArg Prod.fst hcommit
        rw [StateDB.commitBlock, htxs, harvest_stake, execute_stake, order_setAccount] at hdb
        rw [← hdb, StateDB.stateMap_writeBlock _ _ _ _ rfl, stateMap_write hmap]
        exact Set.subset_union_right

theorem proposal_stateRoot_stale : ∃ (r : Reply (Except ConsensusError Block)) (block : Block)
    (db : StateDB) (root : Hash), engine.createProposal crates Reference.env = .ok r ∧
    r.value = .ok block ∧ engine.stateDb.commitBlock crates Reference.env block
      (executeTransactionsSpeculative crates engine.stateDb block.transactions StateOverlay.new) =
        (db, .ok root) ∧ block.header.stateRoot ≠ root := by
  obtain ⟨inputs, r, block, db, root, hinj, hzero, hr, hv, hcommit, hbefore, hafter⟩ :=
    proposal_committed
  have hmirrors : engine.stateDb.Mirrors crates :=
    StateDB.mirrors_new addressKeyHash_injective stateDb.kv
  have hharvest : engine.mempool.harvest (1024 * 1024) ≠ [] := by
    rw [harvest_stake]
    exact List.cons_ne_nil _ _
  refine ⟨r, block, db, root, hr, hv, hcommit, ?_⟩
  exact ConsensusEngine.stateRoot_ne_of_harvest hinj hzero addressKeyHash_injective accountRoundTrip
    serializeAccount_ne_nil hmirrors hr hv hharvest hcommit hbefore hafter

theorem proposal_stateRoot_iff_stake : ∃ (r : Reply (Except ConsensusError Block)) (block : Block)
    (db : StateDB) (root : Hash), engine.createProposal crates Reference.env = .ok r ∧
    r.value = .ok block ∧ engine.stateDb.commitBlock crates Reference.env block
      (executeTransactionsSpeculative crates engine.stateDb block.transactions StateOverlay.new) =
        (db, .ok root) ∧
    (block.header.stateRoot = root ↔ engine.mempool.harvest (1024 * 1024) = []) := by
  obtain ⟨inputs, r, block, db, root, hinj, hzero, hr, hv, hcommit, hbefore, hafter⟩ :=
    proposal_committed
  refine ⟨r, block, db, root, hr, hv, hcommit, ?_⟩
  exact ConsensusEngine.proposal_stateRoot_iff hinj hzero addressKeyHash_injective accountRoundTrip
    serializeAccount_ne_nil .refl hr hv hcommit hbefore hafter

end StateRoot

end AuraChain
