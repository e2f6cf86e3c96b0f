import AuraChain.Smt

/-! The key-value store, the overlay of a block under execution and the state
database. The path of a disk store is only asked for being there. What the
outside answers during one call is an `Env`: the clock, the error that
`persist` meets, if any, and the iteration order of the overlay's HashMap. -/

namespace AuraChain

inductive StorageError
  | io
  | bincode
  deriving DecidableEq

inductive BatchOp
  | put (key value : Bytes)
  | delete (key : Bytes)

def cfAccounts : Bytes := ascii "a:"
def cfBlocks : Bytes := ascii "b:"
def cfHeights : Bytes := ascii "h:"
def cfMeta : Bytes := ascii "m:"

structure KeyValueStore where
  data : OrdMap Bytes Bytes
  dbPath : Option Bytes

namespace KeyValueStore

def openInMemory : KeyValueStore := ⟨∅, none⟩

def get (kv : KeyValueStore) (key : Bytes) : Option Bytes := kv.data[key]?

def applyOp (data : OrdMap Bytes Bytes) : BatchOp → OrdMap Bytes Bytes
  | .put key value => data.insert key value
  | .delete key => data.erase key

def persist (kv : KeyValueStore) (ioError : Option StorageError) : Except StorageError Unit :=
  match kv.dbPath, ioError with
  | some _, some e => .error e
  | _, _ => .ok ()

/-- The map in memory is changed before `persist` can fail. -/
def applyBatch (kv : KeyValueStore) (ioError : Option StorageError) (ops : List BatchOp) :
    KeyValueStore × Except StorageError Unit :=
  let kv' := { kv with data := ops.foldl applyOp kv.data }
  (kv', kv'.persist ioError)

def scanPrefix (kv : KeyValueStore) (pre : Bytes) : List (Bytes × Bytes) :=
  (kv.data.toList.dropWhile fun p => compare p.1 pre == .lt).takeWhile fun p => pre.isPrefixOf p.1

end KeyValueStore

structure StateDB where
  kv : KeyValueStore
  smt : SparseMerkleTree

structure StateOverlay where
  accounts : OrdMap Address Account

structure Env where
  now : UInt64
  ioError : Option StorageError
  order : StateOverlay → List (Address × Account)
  order_perm : ∀ o, (order o).Perm o.accounts.toList

def accountKey (address : Address) : Bytes := cfAccounts ++ address.bytes
def blockKey (hash : Bytes) : Bytes := cfBlocks ++ hash
def heightKey (height : UInt64) : Bytes := cfHeights ++ height.toBeBytes
def latestHeightKey : Bytes := cfMeta ++ ascii "latest_height"

def addressKeyHash (c : Crates) (address : Address) : Hash :=
  c.hashWithDomain domainSmtLeaf address.bytes

namespace StateDB

def new (c : Crates) (kv : KeyValueStore) : StateDB where
  kv := kv
  smt := (kv.scanPrefix cfAccounts).foldl (fun smt p =>
    match FixedBytes.ofSlice? 20 (p.1.drop cfAccounts.length) with
    | some address => smt.update c (addressKeyHash c address) p.2
    | none => smt) SparseMerkleTree.new

def openInMemory (c : Crates) : StateDB := new c KeyValueStore.openInMemory

def getAccount (c : Crates) (db : StateDB) (address : Address) : Account :=
  match db.kv.get (accountKey address) with
  | some bytes => (c.deserializeAccount bytes).getD Account.default
  | none => Account.default

def getStateRoot (c : Crates) (db : StateDB) : Hash := db.smt.root c

def getLatestHeight (db : StateDB) : UInt64 :=
  match db.kv.get latestHeightKey with
  | some bytes => if bytes.length = 8 then UInt64.fromBeBytes bytes else 0
  | none => 0

def getBlockByHeight (c : Crates) (db : StateDB) (height : UInt64) : Option Block :=
  (db.kv.get (heightKey height)).bind fun hashBytes =>
    (db.kv.get (blockKey hashBytes)).bind c.deserializeBlock

def getBlockByHash (c : Crates) (db : StateDB) (hash : Hash) : Option Block :=
  (db.kv.get (blockKey hash.bytes)).bind c.deserializeBlock

def validatorEntry (c : Crates) (p : Bytes × Bytes) : Option (Address × Account) :=
  match FixedBytes.ofSlice? 20 (p.1.drop cfAccounts.length), c.deserializeAccount p.2 with
  | some address, some acc =>
    if acc.isValidator = true ∧ 0 < acc.stakedAmount then some (address, acc) else none
  | _, _ => none

def getValidators (c : Crates) (db : StateDB) : List (Address × Account) :=
  (db.kv.scanPrefix cfAccounts).filterMap (validatorEntry c)

end StateDB

namespace StateOverlay

def new : StateOverlay := ⟨∅⟩

def getAccount (c : Crates) (overlay : StateOverlay) (address : Address) (baseDb : StateDB) : Account :=
  match overlay.accounts[address]? with
  | some acc => acc
  | none => baseDb.getAccount c address

def setAccount (overlay : StateOverlay) (address : Address) (account : Account) : StateOverlay :=
  ⟨overlay.accounts.insert address account⟩

theorem getAccount_setAccount (c : Crates) (overlay : StateOverlay) (address a : Address)
    (account : Account) (db : StateDB) :
    (overlay.setAccount address account).getAccount c a db =
      if address = a then account else overlay.getAccount c a db := by
  unfold getAccount setAccount
  rw [OrdMap.lookup_insert]
  by_cases h : address = a <;> simp [h]

theorem getAccount_setAccount_self {c : Crates} {overlay : StateOverlay} {db : StateDB}
    {address : Address} (account : Account) :
    (overlay.setAccount address account).getAccount c address db = account := by
  rw [getAccount_setAccount, if_pos rfl]

end StateOverlay

namespace StateDB

def putAccount (c : Crates) (p : Address × Account) : BatchOp :=
  .put (accountKey p.1) (c.serializeAccount p.2)

def updateLeaf (c : Crates) (smt : SparseMerkleTree) (p : Address × Account) : SparseMerkleTree :=
  smt.update c (addressKeyHash c p.1) (c.serializeAccount p.2)

def putBlock (hash : Hash) (height : UInt64) (blockBytes : Bytes) : List BatchOp :=
  [.put (blockKey hash.bytes) blockBytes, .put (heightKey height) hash.bytes,
    .put latestHeightKey height.toBeBytes]

/-- The validators are read from the store before the batch with the accounts
of the configuration is applied to it. -/
def genesisWrites (c : Crates) (db : StateDB) (genesis : GenesisConfig) : List (Address × Account) :=
  genesis.accounts.map (fun acc => (acc.address, Account.new acc.balance 0)) ++
    genesis.validators.map fun val =>
      (val.address, { db.getAccount c val.address with
        isValidator := true, validatorPubkey := some val.pubkey, stakedAmount := val.stake })

/-- The tail that `apply_genesis` and `commit_block` share: the tree is updated
before the block is serialized and the batch is applied. -/
def writeBlock (c : Crates) (ioError : Option StorageError) (db : StateDB)
    (writes : List (Address × Account)) (block : Block) (height : UInt64) :
    StateDB × Except StorageError Hash :=
  let smt := writes.foldl (updateLeaf c) db.smt
  match c.serializeBlock block with
  | none => ({ db with smt := smt }, .error .bincode)
  | some blockBytes =>
    match db.kv.applyBatch ioError
        (writes.map (putAccount c) ++ putBlock (block.hash c) height blockBytes) with
    | (kv, .error e) => (⟨kv, smt⟩, .error e)
    | (kv, .ok ()) => (⟨kv, smt⟩, .ok (smt.root c))

def applyGenesis (c : Crates) (ioError : Option StorageError) (db : StateDB)
    (genesis : GenesisConfig) : StateDB × Except StorageError Hash :=
  writeBlock c ioError db (genesisWrites c db genesis) (genesis.toGenesisBlock c) 0

def commitBlock (c : Crates) (env : Env) (db : StateDB) (block : Block) (overlay : StateOverlay) :
    StateDB × Except StorageError Hash :=
  writeBlock c env.ioError db (env.order overlay) block block.header.height

end StateDB

end AuraChain
