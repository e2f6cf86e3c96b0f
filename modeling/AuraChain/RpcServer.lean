import AuraChain.Json
import AuraChain.MempoolLocks
import AuraChain.PeerManager

/-! The JSON-RPC server of a node: what a request is answered, and the locks that it
takes for it. A request is handled without a wait for another task. -/

namespace AuraChain

open LockScope

namespace PrimitiveError

def display (hex : HexCrate) : PrimitiveError → Bytes
  | invalidSignature => ascii "invalid transaction signature"
  | addressMismatch => ascii "sender address does not match public key"
  | merkleRootMismatch expected calculated =>
    ascii "merkle root mismatch: expected " ++ expected.toHex hex ++ ascii ", calculated " ++
      calculated.toHex hex

end PrimitiveError

def decimal (n : Nat) : Bytes := ascii (toString n)

namespace MempoolValidationError

def display (hex : HexCrate) : MempoolValidationError → Bytes
  | primitive e => ascii "primitive error: " ++ e.display hex
  | exceedsMaxSize size limit =>
    ascii "transaction exceeds max size limit of " ++ decimal limit ++ ascii " bytes (size: " ++
      decimal size ++ ascii ")"
  | insufficientFee fee minFee =>
    ascii "insufficient fee: minimum fee is " ++ decimal minFee.toNat ++ ascii ", provided " ++
      decimal fee.toNat
  | invalidAmount => ascii "zero or overflow amount"
  | insufficientBalance balance required =>
    ascii "insufficient sender balance: balance " ++ decimal balance.toNat ++ ascii ", required " ++
      decimal required.toNat
  | nonceTooLow expected got =>
    ascii "nonce too low: expected >= " ++ decimal expected.toNat ++ ascii ", got " ++
      decimal got.toNat
  | nonceGapTooLarge expected got =>
    ascii "nonce gap too large: expected " ++ decimal expected.toNat ++ ascii ", got " ++
      decimal got.toNat
  | alreadyValidator => ascii "account is already registered as validator"
  | insufficientStake => ascii "insufficient stake amount"

end MempoolValidationError

namespace MempoolError

def display (hex : HexCrate) : MempoolError → Bytes
  | validation e => ascii "validation error: " ++ e.display hex
  | duplicate hash => ascii "transaction already exists in mempool: " ++ hash.toHex hex
  | poolFull => ascii "mempool full and transaction fee too low to evict"
  | insufficientRbfBump minPercent =>
    ascii "insufficient fee bump for RBF (required at least +" ++ decimal minPercent.toNat ++
      ascii "%)"

end MempoolError

structure JsonRpcRequest where
  jsonrpc : Bytes
  id : Json
  method : Bytes
  params : Json

structure JsonRpcError where
  code : Int
  message : Bytes

structure JsonRpcResponse where
  jsonrpc : Bytes
  id : Json
  result : Option Json
  error : Option JsonRpcError

namespace JsonRpcResponse

def success (id result : Json) : JsonRpcResponse := ⟨ascii "2.0", id, some result, none⟩

def failure (id : Json) (code : Int) (message : Bytes) : JsonRpcResponse :=
  ⟨ascii "2.0", id, none, some ⟨code, message⟩⟩

end JsonRpcResponse

inductive RpcMethod
  | getBlockHeight
  | getBlockByHeight
  | getBlockByHash
  | getBalance
  | getAccount
  | sendTransaction
  | getValidators
  | getNodeInfo
  deriving DecidableEq

namespace RpcMethod

def name : RpcMethod → String
  | getBlockHeight => "getBlockHeight"
  | getBlockByHeight => "getBlockByHeight"
  | getBlockByHash => "getBlockByHash"
  | getBalance => "getBalance"
  | getAccount => "getAccount"
  | sendTransaction => "sendTransaction"
  | getValidators => "getValidators"
  | getNodeInfo => "getNodeInfo"

def ofName (method : Bytes) : Option RpcMethod :=
  [getBlockHeight, getBlockByHeight, getBlockByHash, getBalance, getAccount, sendTransaction,
    getValidators, getNodeInfo].find? fun m => decide (ascii m.name = method)

end RpcMethod

structure RpcCrates extends JsonCrates where
  crates : Crates
  walk : PeerManager.Walk

structure RpcState where
  stateDb : StateDB
  mempool : Mempool
  peers : PeerManager
  chainId : Bytes

structure RpcReply where
  mempool : Mempool
  response : JsonRpcResponse
  broadcast : Option Json

namespace JsonRpcRequest

/-- A parameter by name or, failing that, the first of a list. -/
def param {α : Type} (req : JsonRpcRequest) (key : String) (read : Json → Option α) : Option α :=
  ((req.params.get key).bind read).or (req.params.first.bind read)

def height (req : JsonRpcRequest) : Option UInt64 := req.param "height" Json.asU64

def hash (c : RpcCrates) (req : JsonRpcRequest) : Option Hash :=
  (req.param "hash" Json.asStr).bind fun s => (Hash.fromStr c.hex s).toOption

def address (c : RpcCrates) (req : JsonRpcRequest) : Option Address :=
  (req.param "address" Json.asStr).bind fun s => (Address.fromStr c.toTextCrates s).toOption

def transaction (c : RpcCrates) (req : JsonRpcRequest) : Except Bytes Transaction :=
  match Transaction.fromJson c.toJsonCrates req.params with
  | some tx => .ok tx
  | none => match req.params.first with
    | none => .error (ascii "invalid tx format")
    | some first => match Transaction.fromJson c.toJsonCrates first with
      | some tx => .ok tx
      | none => .error (c.serde.error first)

end JsonRpcRequest

namespace RpcState

def success (state : RpcState) (req : JsonRpcRequest) (result : Json) : RpcReply :=
  ⟨state.mempool, .success req.id result, none⟩

def failure (state : RpcState) (req : JsonRpcRequest) (code : Int) (message : Bytes) : RpcReply :=
  ⟨state.mempool, .failure req.id code message, none⟩

def validatorJson (c : RpcCrates) (v : Address × Account) : Json :=
  .object [("address", .string (v.1.display c.toTextCrates)),
    ("pubkey", .option (.hex c.hex) v.2.validatorPubkey), ("staked_amount", .u64 v.2.stakedAmount),
    ("is_active", .bool true)]

def nodeInfo (c : RpcCrates) (state : RpcState) : Json :=
  .object [("chain_id", .string state.chainId), ("latest_height", .u64 state.stateDb.getLatestHeight),
    ("state_root", .hex c.hex (state.stateDb.getStateRoot c.crates)),
    ("peer_count", .u64 (UInt64.ofNat (state.peers.activePeerCount c.walk))),
    ("mempool_size", .u64 (UInt64.ofNat state.mempool.byHash.size)), ("version", .text "0.1.0")]

def newTransaction (hex : HexCrate) (tx : Json) (txHash : Hash) : Json :=
  .object [("type", .text "newTransaction"), ("tx", tx), ("hash", .hex hex txHash)]

def sendTransaction (c : RpcCrates) (state : RpcState) (req : JsonRpcRequest) : Option RpcReply :=
  match req.transaction c with
  | .error e => some (state.failure req (-32602) (ascii "Invalid transaction format: " ++ e))
  | .ok tx => match state.mempool.addTransaction c.crates tx state.stateDb with
    | none => none
    | some (mempool, .error e) =>
      some ({ state with mempool }.failure req (-32000) (ascii "Mempool rejection: " ++ e.display c.hex))
    | some (mempool, .ok txHash) => (tx.toJson c.toJsonCrates).map fun txJson =>
      ⟨mempool, .success req.id (.object [("tx_hash", .hex c.hex txHash)]),
        some (newTransaction c.hex txJson txHash)⟩

/-- Nothing is answered where a value does not serialize, which panics, or where
the pool evicts forever. -/
def handleRpc (c : RpcCrates) (state : RpcState) (req : JsonRpcRequest) : Option RpcReply :=
  match RpcMethod.ofName req.method with
  | some .getBlockHeight => some (state.success req (.u64 state.stateDb.getLatestHeight))
  | some .getBlockByHeight => match req.height with
    | none => some (state.failure req (-32602) (ascii "Invalid parameters: missing height"))
    | some h => match state.stateDb.getBlockByHeight c.crates h with
      | none => some (state.failure req (-32602)
          (ascii "Block at height " ++ decimal h.toNat ++ ascii " not found"))
      | some block => (block.toJson c.toJsonCrates).map (state.success req)
  | some .getBlockByHash => match req.hash c with
    | none => some (state.failure req (-32602) (ascii "Invalid parameters: invalid block hash"))
    | some h => match state.stateDb.getBlockByHash c.crates h with
      | none => some (state.failure req (-32602) (ascii "Block " ++ h.toHex c.hex ++ ascii " not found"))
      | some block => (block.toJson c.toJsonCrates).map (state.success req)
  | some .getBalance => match req.address c with
    | none => some (state.failure req (-32602) (ascii "Invalid address parameter"))
    | some a => some (state.success req (.u64 (state.stateDb.getAccount c.crates a).balance))
  | some .getAccount => match req.address c with
    | none => some (state.failure req (-32602) (ascii "Invalid address parameter"))
    | some a => some (state.success req ((state.stateDb.getAccount c.crates a).toJson c.toJsonCrates))
  | some .sendTransaction => state.sendTransaction c req
  | some .getValidators => some (state.success req
      (.array ((state.stateDb.getValidators c.crates).map (validatorJson c))))
  | some .getNodeInfo => some (state.success req (state.nodeInfo c))
  | none => some (state.failure req (-32601) (ascii "Method '" ++ req.method ++ ascii "' not found"))

def handleRpcLocks (c : RpcCrates) (state : RpcState) (req : JsonRpcRequest) : LockScript :=
  match RpcMethod.ofName req.method with
  | some .getBlockByHeight => match req.height with
    | none => .skip
    | some h => state.stateDb.getBlockByHeightLocks h
  | some .sendTransaction => match req.transaction c with
    | .error _ => .skip
    | .ok tx => state.mempool.addTransactionLocks c.crates tx state.stateDb
  | some .getNodeInfo => .block [readStore, .touch .smt .read, .touch .byHash .read]
  | some _ => readStore
  | none => .skip

end RpcState

end AuraChain
