import AuraChain.StoreSpec
import AuraChain.Supply

/-! The accounts after the genesis block. A validator's account is read from the
store before the balances of the configuration are there, and written over the
balance that comes in the same batch. -/

namespace AuraChain

namespace GenesisConfig

variable (genesis : GenesisConfig) (address : Address)

def account? : Option GenesisAccount := genesis.accounts.find? fun acc => acc.address = address

def validator? : Option GenesisValidator := genesis.validators.find? fun val => val.address = address

def balanceOf : UInt64 := ((genesis.account? address).map GenesisAccount.balance).getD 0

/-- The account that the configuration gives to an address. -/
def accountOf : Account :=
  match genesis.validator? address with
  | some val => ⟨genesis.balanceOf address, 0, val.stake, true, some val.pubkey⟩
  | none => Account.new (genesis.balanceOf address) 0

/-- The account that the genesis block gives to an address. -/
def genesisAccount : Account :=
  match genesis.validator? address with
  | some val => ⟨0, 0, val.stake, true, some val.pubkey⟩
  | none => Account.new (genesis.balanceOf address) 0

def total : Nat :=
  (genesis.accounts.map fun acc => acc.balance.toNat).sum +
    (genesis.validators.map fun val => val.stake.toNat).sum

variable {genesis address}

theorem validator?_some {val : GenesisValidator} (h : genesis.validator? address = some val) :
    val ∈ genesis.validators ∧ val.address = address :=
  ⟨List.mem_of_find?_eq_some h, of_decide_eq_true (List.find?_some (p := fun v : GenesisValidator =>
    decide (v.address = address)) h)⟩

theorem account?_some {acc : GenesisAccount} (h : genesis.account? address = some acc) :
    acc ∈ genesis.accounts ∧ acc.address = address :=
  ⟨List.mem_of_find?_eq_some h, of_decide_eq_true (List.find?_some (p := fun a : GenesisAccount =>
    decide (a.address = address)) h)⟩

theorem validator?_none (h : genesis.validator? address = none) :
    address ∉ genesis.validators.map GenesisValidator.address := by
  intro hm
  obtain ⟨val, hval, he⟩ := List.mem_map.mp hm
  exact absurd he (by simpa using List.find?_eq_none.mp h val hval)

theorem account?_none (h : genesis.account? address = none) :
    address ∉ genesis.accounts.map GenesisAccount.address := by
  intro hm
  obtain ⟨acc, hacc, he⟩ := List.mem_map.mp hm
  exact absurd he (by simpa using List.find?_eq_none.mp h acc hacc)

theorem account?_mem (hk : (genesis.accounts.map GenesisAccount.address).Nodup)
    {acc : GenesisAccount} (h : acc ∈ genesis.accounts) :
    genesis.account? acc.address = some acc := by
  cases hf : genesis.account? acc.address with
  | none => exact absurd (List.mem_map_of_mem h) (account?_none hf)
  | some other =>
    obtain ⟨hmem, he⟩ := account?_some hf
    rw [List.inj_on_of_nodup_map hk hmem h he]

theorem genesisAccount_eq_iff : genesis.genesisAccount address = genesis.accountOf address ↔
    (genesis.validator? address ≠ none → genesis.balanceOf address = 0) := by
  rw [genesisAccount, accountOf]
  cases genesis.validator? address with
  | none => simp
  | some val => simp [eq_comm]

theorem worth_accountOf (address : Address) : (genesis.accountOf address).worth =
    ((genesis.account? address).map fun acc => acc.balance.toNat).getD 0 +
      ((genesis.validator? address).map fun val => val.stake.toNat).getD 0 := by
  have hbalance : (genesis.balanceOf address).toNat =
      ((genesis.account? address).map fun acc => acc.balance.toNat).getD 0 := by
    rw [balanceOf]
    cases genesis.account? address <;> rfl
  rw [accountOf, ← hbalance]
  cases genesis.validator? address <;> rfl

theorem supply_accountOf (haccounts : (genesis.accounts.map GenesisAccount.address).Nodup)
    (hvalidators : (genesis.validators.map GenesisValidator.address).Nodup) :
    Ledger.supply genesis.accountOf = genesis.total := by
  rw [Ledger.supply, Holdings.total, Finset.sum_congr rfl fun a _ => worth_accountOf a,
    Finset.sum_add_distrib]
  exact congrArg₂ (· + ·) (Holdings.sum_find _ haccounts) (Holdings.sum_find _ hvalidators)

end GenesisConfig

namespace StateDB

variable {c : Crates} {ioError : Option StorageError} {db : StateDB} {genesis : GenesisConfig}
  {root : Hash}

theorem genesisWrites_empty (hempty : db.kv.data = ∅) : genesisWrites c db genesis =
    genesis.accounts.map (fun acc => (acc.address, Account.new acc.balance 0)) ++
      genesis.validators.map fun val => (val.address, ⟨0, 0, val.stake, true, some val.pubkey⟩) := by
  have hdefault : ∀ address, db.getAccount c address = Account.default := by
    intro address
    simp [getAccount, KeyValueStore.get, hempty]
  simp only [genesisWrites, hdefault]
  rfl

theorem nodup_validatorWrites
    (hvalidators : (genesis.validators.map GenesisValidator.address).Nodup) :
    ((genesis.validators.map fun val : GenesisValidator =>
      (val.address, (⟨0, 0, val.stake, true, some val.pubkey⟩ : Account))).map Prod.fst).Nodup := by
  rw [List.map_map]
  exact hvalidators

/-- The stored bytes of an account: the validators are written last. -/
theorem applyGenesis_lookup (hempty : db.kv.data = ∅)
    (h : (db.applyGenesis c ioError genesis).2 = .ok root) (address : Address) :
    (db.applyGenesis c ioError genesis).1.kv.data[accountKey address]? =
      (applyWrites c (applyWrites c ∅ (genesis.accounts.map fun acc =>
        (acc.address, Account.new acc.balance 0))) (genesis.validators.map fun val =>
          (val.address, ⟨0, 0, val.stake, true, some val.pubkey⟩)))[accountKey address]? := by
  obtain ⟨blockBytes, -, he⟩ := writeBlock_ok h
  rw [applyGenesis, he]
  simp only [writtenData_account, genesisWrites_empty hempty, hempty, applyWrites,
    List.foldl_append]

theorem applyGenesis_getAccount (hrt : c.AccountRoundTrip) (hempty : db.kv.data = ∅)
    (haccounts : (genesis.accounts.map GenesisAccount.address).Nodup)
    (hvalidators : (genesis.validators.map GenesisValidator.address).Nodup)
    (h : (db.applyGenesis c ioError genesis).2 = .ok root) (address : Address) :
    (db.applyGenesis c ioError genesis).1.getAccount c address = genesis.genesisAccount address := by
  have hk : ((genesis.accounts.map fun acc => (acc.address, Account.new acc.balance 0)).map
      Prod.fst).Nodup := by
    rw [List.map_map]
    exact haccounts
  rw [getAccount, KeyValueStore.get, applyGenesis_lookup hempty h, GenesisConfig.genesisAccount]
  cases hv : genesis.validator? address with
  | some val =>
    obtain ⟨hmem, rfl⟩ := GenesisConfig.validator?_some hv
    rw [applyWrites_mem c _ (nodup_validatorWrites hvalidators) (List.mem_map_of_mem hmem)]
    simp [hrt _]
  | none =>
    have habsent := GenesisConfig.validator?_none hv
    rw [applyWrites_absent c _ (by rw [List.map_map]; exact habsent), GenesisConfig.balanceOf]
    cases ha : genesis.account? address with
    | some acc =>
      obtain ⟨hmem, rfl⟩ := GenesisConfig.account?_some ha
      rw [applyWrites_mem c _ hk (List.mem_map_of_mem hmem)]
      simp [hrt _]
    | none =>
      have habsent := GenesisConfig.account?_none ha
      rw [applyWrites_absent c _ (by rw [List.map_map]; exact habsent)]
      simp [Account.default, Account.new]

/-- Genesis gives what the configuration says exactly if no validator has a
balance in it. -/
theorem genesis_as_configured_iff (hrt : c.AccountRoundTrip) (hempty : db.kv.data = ∅)
    (haccounts : (genesis.accounts.map GenesisAccount.address).Nodup)
    (hvalidators : (genesis.validators.map GenesisValidator.address).Nodup)
    (h : (db.applyGenesis c ioError genesis).2 = .ok root) :
    ((∀ address, (db.applyGenesis c ioError genesis).1.getAccount c address =
        genesis.accountOf address) ∧
      Ledger.supply ((db.applyGenesis c ioError genesis).1.getAccount c) = genesis.total) ↔
    ∀ acc ∈ genesis.accounts, ∀ val ∈ genesis.validators, acc.address = val.address →
      acc.balance = 0 := by
  have hread := applyGenesis_getAccount hrt hempty haccounts hvalidators h
  constructor
  · rintro ⟨hall, -⟩ acc hacc val hval he
    have heq := hall acc.address
    rw [hread, GenesisConfig.genesisAccount_eq_iff] at heq
    have hbalance := heq fun hnone =>
      GenesisConfig.validator?_none hnone (he ▸ List.mem_map_of_mem hval)
    rwa [GenesisConfig.balanceOf, GenesisConfig.account?_mem haccounts hacc] at hbalance
  · intro hzero
    have hall : ∀ address, (db.applyGenesis c ioError genesis).1.getAccount c address =
        genesis.accountOf address := by
      intro address
      rw [hread, GenesisConfig.genesisAccount_eq_iff]
      intro hv
      obtain ⟨val, hval⟩ := Option.ne_none_iff_exists'.mp hv
      obtain ⟨hmem, rfl⟩ := GenesisConfig.validator?_some hval
      rw [GenesisConfig.balanceOf]
      cases ha : genesis.account? val.address with
      | none => rfl
      | some acc =>
        obtain ⟨hacc, he⟩ := GenesisConfig.account?_some ha
        exact hzero acc hacc val hmem he
    exact ⟨hall, by rw [funext hall, GenesisConfig.supply_accountOf haccounts hvalidators]⟩

end StateDB

namespace GenesisBalances

def genesis (aliceBalance : UInt64) : GenesisConfig where
  chainId := ascii "aura-testnet"
  timestamp := 1700000000
  accounts := [⟨Reference.address 1, aliceBalance⟩, ⟨Reference.address 2, 500000000⟩]
  validators := [⟨Reference.address 1, Reference.secretKey 1, 500000000⟩]
  initialStateRoot := Hash.zero

def crates : Crates :=
  Reference.crates [(genesis 0).toGenesisBlock (Reference.crates []),
    (genesis 1000000000).toGenesisBlock (Reference.crates [])]

theorem genesis_as_configured_zero :
    ((∀ address, ((StateDB.openInMemory crates).applyGenesis crates none (genesis 0)).1.getAccount
        crates address = (genesis 0).accountOf address) ∧
      Ledger.supply (((StateDB.openInMemory crates).applyGenesis crates none
        (genesis 0)).1.getAccount crates) = (genesis 0).total) ↔
    ∀ acc ∈ (genesis 0).accounts, ∀ val ∈ (genesis 0).validators, acc.address = val.address →
      acc.balance = 0 := by
  have hok : ((StateDB.openInMemory crates).applyGenesis crates none
      (genesis 0)).2.toOption.isSome = true := by decide +kernel
  cases h : ((StateDB.openInMemory crates).applyGenesis crates none (genesis 0)).2 with
  | error e => simp [h, Except.toOption] at hok
  | ok root =>
    exact StateDB.genesis_as_configured_iff (Reference.accountRoundTrip _) rfl (by decide +kernel)
      (by decide +kernel) h

/-- Alice's stake is written over her balance. -/
theorem genesis_drops_balance : ¬ ∀ genesis root,
    (genesis.accounts.map GenesisAccount.address).Nodup →
    (genesis.validators.map GenesisValidator.address).Nodup →
    ((StateDB.openInMemory crates).applyGenesis crates none genesis).2 = .ok root →
    ∀ address, ((StateDB.openInMemory crates).applyGenesis crates none genesis).1.getAccount
      crates address = genesis.accountOf address := by
  intro hall
  have hok : ((StateDB.openInMemory crates).applyGenesis crates none
      (genesis 1000000000)).2.toOption.isSome = true := by decide +kernel
  have hread : (((StateDB.openInMemory crates).applyGenesis crates none
      (genesis 1000000000)).1.getAccount crates (Reference.address 1)).balance = 0 := by
    decide +kernel
  cases h : ((StateDB.openInMemory crates).applyGenesis crates none (genesis 1000000000)).2 with
  | error e => simp [h, Except.toOption] at hok
  | ok root =>
    rw [hall (genesis 1000000000) root (by decide +kernel) (by decide +kernel) h
      (Reference.address 1)] at hread
    exact absurd hread (by decide +kernel)

end GenesisBalances

end AuraChain
