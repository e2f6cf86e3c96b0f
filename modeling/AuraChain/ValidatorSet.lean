import AuraChain.AccountScan
import AuraChain.GenesisBalances
import AuraChain.ProposalChecks

/-! The validator set under a hash. The genesis header hashes it as the
configuration lists it, a proposal as the store is scanned, that is by
address. -/

/-- Blocks of one length can be told apart in their concatenation. -/
theorem List.eq_of_flatMap_eq {α β : Type} {f : α → List β} {n : Nat}
    (hlen : ∀ x, (f x).length = n) (hf : Function.Injective f) {l r : List α}
    (hlr : l.length = r.length) (h : l.flatMap f = r.flatMap f) : l = r := by
  induction l generalizing r with
  | nil => exact (List.length_eq_zero_iff.mp hlr.symm).symm
  | cons x l ih =>
    cases r with
    | nil => cases hlr
    | cons y r =>
      rw [List.flatMap_cons, List.flatMap_cons] at h
      obtain ⟨hxy, htail⟩ := List.append_inj h ((hlen x).trans (hlen y).symm)
      rw [hf hxy, ih (Nat.succ.inj hlr) htail]

namespace AuraChain

namespace StateDB

variable {c : Crates} {db : StateDB}

theorem validatorEntry_eq_some {p : Bytes × Bytes} {address : Address} {acc : Account} :
    validatorEntry c p = some (address, acc) ↔ p.1.drop cfAccounts.length = address.bytes ∧
      c.deserializeAccount p.2 = some acc ∧ acc.isValidator = true ∧ 0 < acc.stakedAmount := by
  rw [validatorEntry, FixedBytes.ofSlice?]
  by_cases hsize : (p.1.drop cfAccounts.length).length = 20
  · rw [dif_pos hsize]
    cases hd : c.deserializeAccount p.2 with
    | none => simp
    | some stored =>
      by_cases hactive : stored.isValidator = true ∧ 0 < stored.stakedAmount
      · simp only [if_pos hactive, Option.some.injEq, Prod.mk.injEq]
        constructor
        · rintro ⟨rfl, rfl⟩
          exact ⟨rfl, rfl, hactive⟩
        · rintro ⟨hbytes, rfl, -⟩
          exact ⟨FixedBytes.ext hbytes, rfl⟩
      · simp only [if_neg hactive, Option.some.injEq]
        constructor
        · exact fun h => by cases h
        · rintro ⟨-, rfl, h⟩
          exact absurd h hactive
  · rw [dif_neg hsize]
    constructor
    · exact fun h => by cases h
    · rintro ⟨hbytes, -⟩
      exact absurd (hbytes ▸ address.size) hsize

/-- The validators are the stored accounts with the flag and a stake. -/
theorem mem_getValidators {address : Address} {acc : Account} :
    (address, acc) ∈ db.getValidators c ↔
      db.kv.data[accountKey address]?.bind c.deserializeAccount = some acc ∧
        acc.isValidator = true ∧ 0 < acc.stakedAmount := by
  rw [getValidators, List.mem_filterMap]
  constructor
  · rintro ⟨⟨key, value⟩, hp, hentry⟩
    obtain ⟨-, hread, hactive⟩ := validatorEntry_eq_some.mp hentry
    have hkey : key = accountKey address := validatorEntry_key hp hentry
    obtain ⟨-, hlookup⟩ := mem_scanPrefix.mp hp
    rw [← hkey, hlookup]
    exact ⟨hread, hactive⟩
  · rintro ⟨hread, hactive⟩
    obtain ⟨value, hlookup, hvalue⟩ := Option.bind_eq_some_iff.mp hread
    refine ⟨(accountKey address, value), mem_scanPrefix.mpr ⟨List.prefix_append _ _, hlookup⟩, ?_⟩
    exact validatorEntry_eq_some.mpr ⟨List.drop_left, hvalue, hactive⟩

theorem getValidators_sorted (c : Crates) (db : StateDB) :
    (db.getValidators c).Pairwise fun p q => compare p.1 q.1 = .lt := by
  rw [getValidators, List.pairwise_filterMap]
  refine (scanPrefix_sorted db.kv cfAccounts).imp_of_mem ?_
  intro p q hp hq hlt x hx y hy
  rwa [validatorEntry_key hp hx, validatorEntry_key hq hy, compare_accountKey] at hlt

theorem applyWrites_cases {data : OrdMap Bytes Bytes} {writes : List (Address × Account)}
    {a : Address} {bytes : Bytes}
    (h : (applyWrites c data writes)[accountKey a]? = some bytes) :
    (∃ acc, (a, acc) ∈ writes ∧ bytes = c.serializeAccount acc) ∨
      data[accountKey a]? = some bytes := by
  induction writes generalizing data with
  | nil => exact .inr h
  | cons p writes ih =>
    rcases ih h with ⟨acc, hacc, hbytes⟩ | hdata
    · exact .inl ⟨acc, List.mem_cons_of_mem _ hacc, hbytes⟩
    · simp only [putAccount, KeyValueStore.applyOp, OrdMap.lookup_insert] at hdata
      split_ifs at hdata with hkey
      · obtain rfl := accountKey_injective hkey
        exact .inl ⟨p.2, List.mem_cons_self, (Option.some.inj hdata).symm⟩
      · exact .inr hdata

end StateDB

namespace ConsensusEngine

variable {c : Crates} {engine : ConsensusEngine}

theorem mem_getActiveValidators {v : ValidatorInfo} : v ∈ engine.getActiveValidators c ↔
    ∃ acc, (v.address, acc) ∈ engine.stateDb.getValidators c ∧
      acc.validatorPubkey = some v.pubkey ∧ acc.stakedAmount = v.votingPower := by
  rw [getActiveValidators, List.mem_filterMap]
  constructor
  · rintro ⟨⟨address, acc⟩, hmem, hinfo⟩
    obtain ⟨pubkey, hpubkey, rfl⟩ := Option.map_eq_some_iff.mp hinfo
    exact ⟨acc, hmem, hpubkey, rfl⟩
  · rintro ⟨acc, hmem, hpubkey, hpower⟩
    refine ⟨_, hmem, ?_⟩
    rw [validatorInfo, hpubkey, hpower]
    rfl

theorem getActiveValidators_sorted (c : Crates) (engine : ConsensusEngine) :
    (engine.getActiveValidators c).Pairwise fun v w => compare v.address w.address = .lt := by
  rw [getActiveValidators, List.pairwise_filterMap]
  refine (StateDB.getValidators_sorted c engine.stateDb).imp ?_
  intro p q hlt v hv w hw
  obtain ⟨_, -, rfl⟩ := Option.map_eq_some_iff.mp hv
  obtain ⟨_, -, rfl⟩ := Option.map_eq_some_iff.mp hw
  exact hlt

end ConsensusEngine

def GenesisValidator.info (v : GenesisValidator) : ValidatorInfo := ⟨v.address, v.pubkey, v.stake⟩

/-- What both hash of one validator. -/
def ValidatorInfo.entry (v : ValidatorInfo) : Bytes :=
  v.address.bytes ++ v.pubkey.bytes ++ v.votingPower.toBeBytes

def validatorSetBytes (validators : List ValidatorInfo) : Bytes :=
  validators.flatMap ValidatorInfo.entry

theorem ValidatorInfo.entry_length (v : ValidatorInfo) : v.entry.length = 60 := by
  have hpower : v.votingPower.toBeBytes.length = 8 := UInt64.toBeBytes_length v.votingPower
  rw [entry, List.length_append, List.length_append, v.address.size, v.pubkey.size, hpower]

theorem ValidatorInfo.entry_injective : Function.Injective ValidatorInfo.entry := by
  intro v w h
  have hfront : (v.address.bytes ++ v.pubkey.bytes).length =
      (w.address.bytes ++ w.pubkey.bytes).length := by
    rw [List.length_append, List.length_append, v.address.size, v.pubkey.size, w.address.size,
      w.pubkey.size]
  obtain ⟨hkeys, hpower⟩ := List.append_inj h hfront
  obtain ⟨haddress, hpubkey⟩ := List.append_inj hkeys (v.address.size.trans w.address.size.symm)
  have hinfo : ∀ u : ValidatorInfo, u = ⟨u.address, u.pubkey, u.votingPower⟩ := fun u => rfl
  rw [hinfo v, hinfo w, FixedBytes.ext haddress, FixedBytes.ext hpubkey,
    UInt64.toBeBytes_injective hpower]

theorem validatorSetBytes_eq_iff {l r : List ValidatorInfo} (h : l.length = r.length) :
    validatorSetBytes l = validatorSetBytes r ↔ l = r :=
  ⟨List.eq_of_flatMap_eq ValidatorInfo.entry_length ValidatorInfo.entry_injective h,
    congrArg validatorSetBytes⟩

namespace GenesisConfig

variable {genesis : GenesisConfig}

def validatorInfos (genesis : GenesisConfig) : List ValidatorInfo :=
  genesis.validators.map GenesisValidator.info

theorem validatorSetHash_eq (c : Crates) (genesis : GenesisConfig) :
    genesis.validatorSetHash c = c.hashBytes (validatorSetBytes genesis.validatorInfos) := by
  rw [validatorSetHash, validatorSetBytes, validatorInfos, List.flatMap_map]
  rfl

def SortedByAddress (genesis : GenesisConfig) : Prop :=
  genesis.validators.Pairwise fun v w => compare v.address w.address = .lt

theorem sortedByAddress_iff : genesis.SortedByAddress ↔
    genesis.validatorInfos.Pairwise fun v w => compare v.address w.address = .lt := by
  rw [SortedByAddress, validatorInfos, List.pairwise_map]
  rfl

end GenesisConfig

section

variable {c : Crates} {ioError : Option StorageError} {db : StateDB} {genesis : GenesisConfig}
  {root : Hash}

/-- After genesis an account is the one of its validator, or no validator. -/
theorem StateDB.applyGenesis_lookup_cases (hempty : db.kv.data = ∅)
    (haddresses : (genesis.validators.map GenesisValidator.address).Nodup)
    (h : (db.applyGenesis c ioError genesis).2 = .ok root) (address : Address) :
    (∃ v ∈ genesis.validators, v.address = address ∧
      (db.applyGenesis c ioError genesis).1.kv.data[accountKey address]? =
        some (c.serializeAccount ⟨0, 0, v.stake, true, some v.pubkey⟩)) ∨
    ((∀ v ∈ genesis.validators, v.address ≠ address) ∧ ∀ bytes,
      (db.applyGenesis c ioError genesis).1.kv.data[accountKey address]? = some bytes →
        ∃ balance, bytes = c.serializeAccount (Account.new balance 0)) := by
  rw [applyGenesis_lookup hempty h]
  by_cases hmem : ∃ v ∈ genesis.validators, v.address = address
  · obtain ⟨v, hv, rfl⟩ := hmem
    exact .inl ⟨v, hv, rfl,
      applyWrites_mem c _ (nodup_validatorWrites haddresses) (List.mem_map_of_mem hv)⟩
  · simp only [not_exists, not_and] at hmem
    refine .inr ⟨hmem, fun bytes hbytes => ?_⟩
    rw [applyWrites_absent c] at hbytes
    · rcases applyWrites_cases hbytes with ⟨acc, hacc, rfl⟩ | hdata
      · obtain ⟨account, -, hpair⟩ := List.mem_map.mp hacc
        exact ⟨account.balance, by rw [← (Prod.mk.inj hpair).2]⟩
      · simp at hdata
    · rw [List.map_map]
      intro hm
      obtain ⟨v, hv, he⟩ := List.mem_map.mp hm
      exact hmem v hv he

namespace ConsensusEngine

variable {engine : ConsensusEngine} {env : Env} {r : Reply (Except ConsensusError Block)}
  {block : Block}

theorem mem_validators_after_genesis (hrt : c.AccountRoundTrip) (hempty : db.kv.data = ∅)
    (haddresses : (genesis.validators.map GenesisValidator.address).Nodup)
    (hstakes : ∀ v ∈ genesis.validators, 0 < v.stake)
    (hgenesis : (db.applyGenesis c ioError genesis).2 = .ok root)
    (hdb : engine.stateDb = (db.applyGenesis c ioError genesis).1) (v : ValidatorInfo) :
    v ∈ engine.getActiveValidators c ↔ v ∈ genesis.validatorInfos := by
  rw [mem_getActiveValidators, hdb, GenesisConfig.validatorInfos, List.mem_map]
  simp only [StateDB.mem_getValidators]
  rcases StateDB.applyGenesis_lookup_cases hempty haddresses hgenesis v.address with
    ⟨val, hval, haddress, hlookup⟩ | ⟨hnone, hother⟩
  · rw [hlookup, Option.bind_some, hrt]
    constructor
    · rintro ⟨acc, ⟨hacc, -⟩, hpubkey, hpower⟩
      rw [← Option.some.inj hacc] at hpubkey hpower
      refine ⟨val, hval, ?_⟩
      have hinfo : v = ⟨v.address, v.pubkey, v.votingPower⟩ := rfl
      rw [hinfo, ← haddress, ← Option.some.inj hpubkey, ← hpower]
      rfl
    · rintro ⟨other, hother, rfl⟩
      obtain rfl := List.inj_on_of_nodup_map haddresses hval hother haddress
      exact ⟨_, ⟨rfl, rfl, hstakes val hval⟩, rfl, rfl⟩
  · constructor
    · rintro ⟨acc, ⟨hread, hvalidator, -⟩, -⟩
      obtain ⟨bytes, hlookup, hbytes⟩ := Option.bind_eq_some_iff.mp hread
      obtain ⟨balance, rfl⟩ := hother bytes hlookup
      rw [hrt, Option.some.injEq] at hbytes
      rw [← hbytes] at hvalidator
      cases hvalidator
    · rintro ⟨val, hval, rfl⟩
      exact absurd rfl (hnone val hval)

theorem validators_perm_genesis (hrt : c.AccountRoundTrip) (hempty : db.kv.data = ∅)
    (haddresses : (genesis.validators.map GenesisValidator.address).Nodup)
    (hstakes : ∀ v ∈ genesis.validators, 0 < v.stake)
    (hgenesis : (db.applyGenesis c ioError genesis).2 = .ok root)
    (hdb : engine.stateDb = (db.applyGenesis c ioError genesis).1) :
    (engine.getActiveValidators c).Perm genesis.validatorInfos := by
  have hsorted := getActiveValidators_sorted c engine
  have hactive : (engine.getActiveValidators c).Nodup := by
    refine hsorted.imp ?_
    rintro v w hlt rfl
    rw [Std.ReflOrd.compare_self] at hlt
    cases hlt
  have hinfos : genesis.validatorInfos.Nodup := by
    apply List.Nodup.of_map ValidatorInfo.address
    rw [GenesisConfig.validatorInfos, List.map_map]
    exact haddresses
  rw [List.perm_ext_iff_of_nodup hactive hinfos]
  exact mem_validators_after_genesis hrt hempty haddresses hstakes hgenesis hdb

theorem createProposal_validatorSetHash (h : engine.createProposal c env = .ok r)
    (hb : r.value = .ok block) : block.header.validatorSetHash =
      c.hashBytes (validatorSetBytes (engine.getActiveValidators c)) := by
  obtain ⟨prevBlock, rfl⟩ := createProposal_block h hb
  rfl

/-- A proposal on the genesis store carries the validator set hash of the
genesis header exactly if the configuration lists the validators by address,
unless BLAKE3 collides on the two lists. -/
theorem validator_set_hash_eq_iff (hrt : c.AccountRoundTrip) (hempty : db.kv.data = ∅)
    (haddresses : (genesis.validators.map GenesisValidator.address).Nodup)
    (hstakes : ∀ v ∈ genesis.validators, 0 < v.stake)
    (hgenesis : (db.applyGenesis c ioError genesis).2 = .ok root)
    (hdb : engine.stateDb = (db.applyGenesis c ioError genesis).1)
    (h : engine.createProposal c env = .ok r) (hb : r.value = .ok block)
    (hinj : Set.InjOn c.hashBytes {validatorSetBytes (engine.getActiveValidators c),
      validatorSetBytes genesis.validatorInfos}) :
    block.header.validatorSetHash = genesis.validatorSetHash c ↔ genesis.SortedByAddress := by
  have hperm := validators_perm_genesis hrt hempty haddresses hstakes hgenesis hdb
  have hsorted := getActiveValidators_sorted c engine
  rw [createProposal_validatorSetHash h hb, GenesisConfig.validatorSetHash_eq,
    hinj.eq_iff (.inl rfl) (.inr rfl), validatorSetBytes_eq_iff hperm.length_eq,
    GenesisConfig.sortedByAddress_iff]
  constructor
  · intro he
    rwa [he] at hsorted
  · intro hconfig
    refine hperm.eq_of_pairwise ?_ hsorted hconfig
    intro v w _ _ hvw hwv
    rw [Std.OrientedOrd.eq_swap (a := v.address), hwv] at hvw
    cases hvw

end ConsensusEngine

end

namespace ValidatorSet

def blocks (keys : List UInt8) : List Block := [Reference.genesisBlock keys]

def crates (keys : List UInt8) : Crates := Reference.crates (blocks keys)

def engine (keys : List UInt8) (key : UInt8) : ConsensusEngine :=
  Reference.engine keys key (blocks keys)

theorem applyGenesis_ok (keys : List UInt8) : ∃ root, ((StateDB.openInMemory (crates keys)).applyGenesis
    (crates keys) none (Reference.genesis keys)).2 = .ok root := by
  have hs : (crates keys).serializeBlock ((Reference.genesis keys).toGenesisBlock (crates keys)) =
      some [] := by
    have hmem : (Reference.genesis keys).toGenesisBlock (crates keys) = Reference.genesisBlock keys := rfl
    rw [hmem]
    simp [crates, blocks, Reference.crates]
  exact ⟨_, by rw [StateDB.applyGenesis, StateDB.writeBlock, hs]; rfl⟩

theorem stateDb_engine (keys : List UInt8) (key : UInt8) : (engine keys key).stateDb =
    ((StateDB.openInMemory (crates keys)).applyGenesis (crates keys) none (Reference.genesis keys)).1 := by
  rw [engine, Reference.engine, ConsensusEngine.new, Reference.stateDb, crates]

theorem proposes (keys : List UInt8) (key : UInt8)
    (h : (((engine keys key).createProposal (crates keys) Reference.env).map fun r =>
      r.value.toOption.isSome).toOption = some true) :
    ∃ r block, (engine keys key).createProposal (crates keys) Reference.env = .ok r ∧
      r.value = .ok block := by
  obtain ⟨r, hr, hvalue⟩ := ConsensusEngine.of_toOption_map h
  cases hb : r.value with
  | error e => simp [hb, Except.toOption] at hvalue
  | ok block => exact ⟨r, block, hr, hb⟩

/-- The elected validator of a sorted configuration proposes its validator set hash. -/
theorem validator_set_hash_two : (Reference.genesis [1, 2]).SortedByAddress ∧
    ∃ r block, (engine [1, 2] 2).createProposal (crates [1, 2]) Reference.env = .ok r ∧
      r.value = .ok block ∧
      block.header.validatorSetHash = (Reference.genesis [1, 2]).validatorSetHash (crates [1, 2]) := by
  obtain ⟨root, hroot⟩ := applyGenesis_ok [1, 2]
  have hproposed : (((engine [1, 2] 2).createProposal (crates [1, 2]) Reference.env).map fun r =>
      r.value.toOption.isSome).toOption = some true := by decide +kernel
  obtain ⟨r, block, hr, hb⟩ := proposes [1, 2] 2 hproposed
  have hsame : validatorSetBytes ((engine [1, 2] 2).getActiveValidators (crates [1, 2])) =
      validatorSetBytes (Reference.genesis [1, 2]).validatorInfos := by decide +kernel
  have hinj : Set.InjOn (crates [1, 2]).hashBytes
      {validatorSetBytes ((engine [1, 2] 2).getActiveValidators (crates [1, 2])),
        validatorSetBytes (Reference.genesis [1, 2]).validatorInfos} := by
    rw [hsame, Set.pair_eq_singleton]
    exact Set.injOn_singleton _ _
  have haddresses : ((Reference.genesis [1, 2]).validators.map GenesisValidator.address).Nodup := by
    decide +kernel
  have hstakes : ∀ v ∈ (Reference.genesis [1, 2]).validators, 0 < v.stake := by decide +kernel
  have hsorted : (Reference.genesis [1, 2]).SortedByAddress := by
    unfold GenesisConfig.SortedByAddress
    decide +kernel
  exact ⟨hsorted, r, block, hr, hb, (ConsensusEngine.validator_set_hash_eq_iff
    (Reference.accountRoundTrip _) rfl haddresses hstakes hroot (stateDb_engine [1, 2] 2) hr hb
    hinj).mpr hsorted⟩

/-- The second validator of this configuration has the smaller address. -/
theorem validator_set_hash_differs : ¬ ∀ (c : Crates) (genesis : GenesisConfig) (root : Hash)
    (engine : ConsensusEngine) (env : Env) (r : Reply (Except ConsensusError Block)) (block : Block),
      c.AccountRoundTrip → (genesis.validators.map GenesisValidator.address).Nodup →
      (∀ v ∈ genesis.validators, 0 < v.stake) →
      ((StateDB.openInMemory c).applyGenesis c none genesis).2 = .ok root →
      engine.stateDb = ((StateDB.openInMemory c).applyGenesis c none genesis).1 →
      engine.createProposal c env = .ok r → r.value = .ok block →
        block.header.validatorSetHash = genesis.validatorSetHash c := by
  intro hclaim
  obtain ⟨root, hroot⟩ := applyGenesis_ok [2, 1]
  have hproposed : (((engine [2, 1] 2).createProposal (crates [2, 1]) Reference.env).map fun r =>
      r.value.toOption.isSome).toOption = some true := by decide +kernel
  obtain ⟨r, block, hr, hb⟩ := proposes [2, 1] 2 hproposed
  have haddresses : ((Reference.genesis [2, 1]).validators.map GenesisValidator.address).Nodup := by
    decide +kernel
  have hstakes : ∀ v ∈ (Reference.genesis [2, 1]).validators, 0 < v.stake := by decide +kernel
  have hsame := hclaim (crates [2, 1]) (Reference.genesis [2, 1]) root (engine [2, 1] 2)
    Reference.env r block (Reference.accountRoundTrip _) haddresses hstakes hroot
    (stateDb_engine [2, 1] 2) hr hb
  have hdiffer : (crates [2, 1]).hashBytes
        (validatorSetBytes ((engine [2, 1] 2).getActiveValidators (crates [2, 1]))) ≠
      (crates [2, 1]).hashBytes (validatorSetBytes (Reference.genesis [2, 1]).validatorInfos) := by
    decide +kernel
  rw [ConsensusEngine.createProposal_validatorSetHash hr hb, GenesisConfig.validatorSetHash_eq] at hsame
  exact hdiffer hsame

end ValidatorSet

end AuraChain
