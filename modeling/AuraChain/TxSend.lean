import AuraChain.AcceptedOnce

/-! The wallet command of the node's binary. It asks a server for the account of
its key and sends a transfer with the next nonce, whatever has come in between.
The texts of JSON and of HTTP are left out. -/

namespace AuraChain

open LockScope

def Json.int (n : Int) : Json :=
  .number (if 0 ≤ n then .posInt (UInt64.ofNat n.toNat) else .negInt n)

namespace JsonRpcRequest

def ofValues (serde : SerdeCrate) : List Json → Option JsonRpcRequest
  | [jsonrpc, id, method, params] => do
    let jsonrpc ← serde.string jsonrpc
    let method ← serde.string method
    return ⟨jsonrpc, id, method, params⟩
  | _ => none

/-- Parameters that are not given are `null`. -/
def fromJson (serde : SerdeCrate) (v : Json) : Option JsonRpcRequest :=
  (serde.record ["jsonrpc", "id", "method"] [("params", .null)] v).bind (ofValues serde)

def toJson (req : JsonRpcRequest) : Json :=
  .object [("jsonrpc", .string req.jsonrpc), ("id", req.id), ("method", .string req.method),
    ("params", req.params)]

theorem fromJson_toJson {serde : SerdeCrate} (hserde : serde.Documented) (req : JsonRpcRequest) :
    fromJson serde req.toJson = some req := by
  have hvalues : serde.record ["jsonrpc", "id", "method"] [("params", .null)] req.toJson =
      some [.string req.jsonrpc, req.id, .string req.method, req.params] :=
    hserde.record _ _ [.string req.jsonrpc, req.id, .string req.method, req.params] (by decide) rfl
  rw [fromJson, hvalues, Option.bind_some, ofValues, hserde.string, hserde.string]
  rfl

end JsonRpcRequest

def JsonRpcError.toJson (e : JsonRpcError) : Json :=
  .object [("code", .int e.code), ("message", .string e.message)]

def JsonRpcResponse.toJson (response : JsonRpcResponse) : Json :=
  .object ([("jsonrpc", .string response.jsonrpc), ("id", response.id)] ++
    (response.result.map fun result => ("result", result)).toList ++
    (response.error.map fun e => ("error", e.toJson)).toList)

def Transaction.newUnsigned (sender recipient : Address) (amount fee nonce : UInt64)
    (txType : TransactionType) (payload : Bytes) (pubkey : PublicKey) : Transaction where
  sender := sender
  recipient := recipient
  amount := amount
  fee := fee
  nonce := nonce
  txType := txType
  payload := payload
  pubkey := pubkey
  signature := .zero 64

structure TxSend where
  fromSecret : Bytes
  toAddr : Bytes
  amount : UInt64
  fee : UInt64

inductive TxSendError
  | hexDecode
  | secretLength
  | recipient (e : AddressError)
  deriving DecidableEq

namespace TxSend

def parse (crates : TextCrates) (cmd : TxSend) : Except TxSendError (SecretKey × Address) :=
  match crates.hex.decode cmd.fromSecret with
  | none => .error .hexDecode
  | some secBytes => match FixedBytes.ofSlice? 32 secBytes with
    | none => .error .secretLength
    | some senderKp => match Address.fromStr crates cmd.toAddr with
      | .error e => .error (.recipient e)
      | .ok recipient => .ok (senderKp, recipient)

def senderAddr (c : Crates) (senderKp : SecretKey) : Address :=
  Address.fromPubkey c (c.verifyingKey senderKp)

def accQuery (c : RpcCrates) (senderKp : SecretKey) : Json :=
  .object [("jsonrpc", .text "2.0"), ("id", .u64 1), ("method", .text "getAccount"),
    ("params", .object
      [("address", .string ((senderAddr c.crates senderKp).display c.toTextCrates))])]

/-- An answer without a nonce counts as one with the nonce 0. -/
def nextNonce (accVal : Json) : UInt64 :=
  (((accVal.get "result").bind (Json.get "nonce")).bind Json.asU64).getD 0 + 1

def transaction (c : Crates) (cmd : TxSend) (senderKp : SecretKey) (recipient : Address)
    (nonce : UInt64) : Except PrimitiveError Transaction :=
  (Transaction.newUnsigned (senderAddr c senderKp) recipient cmd.amount cmd.fee nonce .transfer []
    (c.verifyingKey senderKp)).sign c senderKp

def sendQuery (c : RpcCrates) (tx : Transaction) : Option Json :=
  (tx.toJson c.toJsonCrates).map fun params =>
    .object [("jsonrpc", .text "2.0"), ("id", .u64 2), ("method", .text "sendTransaction"),
      ("params", params)]

/-- The request of the command to a server that `state` was asked of. -/
def run (c : RpcCrates) (cmd : TxSend) (state : RpcState) : Option JsonRpcRequest := do
  let (senderKp, recipient) ← (cmd.parse c.toTextCrates).toOption
  let accQuery ← JsonRpcRequest.fromJson c.serde (accQuery c senderKp)
  let reply ← state.handleRpc c accQuery
  let nonce := nextNonce reply.response.toJson
  let tx ← (cmd.transaction c.crates senderKp recipient nonce).toOption
  let sendQuery ← sendQuery c tx
  JsonRpcRequest.fromJson c.serde sendQuery

variable {c : RpcCrates} {config : MempoolConfig} {cmd : TxSend} {senderKp : SecretKey}
  {recipient : Address} {nonce : UInt64} {state : RpcState}

theorem transaction_ok {c : Crates} (hsign : c.SignVerifies) (cmd : TxSend) (senderKp : SecretKey)
    (recipient : Address) (nonce : UInt64) :
    ∃ tx, cmd.transaction c senderKp recipient nonce = .ok tx ∧ tx.verify c = .ok () ∧
      ∃ signature, tx = ⟨senderAddr c senderKp, recipient, cmd.amount, cmd.fee, nonce, .transfer, [],
        c.verifyingKey senderKp, signature⟩ := by
  let unsigned := Transaction.newUnsigned (senderAddr c senderKp) recipient cmd.amount cmd.fee nonce
    .transfer [] (c.verifyingKey senderKp)
  refine ⟨{ unsigned with signature := c.sign senderKp unsigned.signingBytes }, ?_, ?_, _, rfl⟩
  · rw [transaction, Transaction.sign, if_neg (by simp [Transaction.newUnsigned, senderAddr])]
    rfl
  · have hverify : PublicKey.verify c (c.verifyingKey senderKp) unsigned.signingBytes
        (c.sign senderKp unsigned.signingBytes) = true := by
      rw [PublicKey.verify, hsign.key, hsign.signature]
      rfl
    exact (if_neg (not_not.mpr rfl)).trans (if_pos hverify)

/-- The account is asked for by the text that stands for the address. -/
theorem accQuery_answer (hbech32 : c.bech32.WritesAddresses) (hserde : c.serde.Documented)
    (state : RpcState) (senderKp : SecretKey) :
    ∃ req, JsonRpcRequest.fromJson c.serde (accQuery c senderKp) = some req ∧
      state.handleRpc c req = some (state.success req
        ((state.stateDb.getAccount c.crates (senderAddr c.crates senderKp)).toJson
          c.toJsonCrates)) := by
  let req : JsonRpcRequest := ⟨ascii "2.0", .u64 1, ascii "getAccount",
    .object [("address", .string ((senderAddr c.crates senderKp).display c.toTextCrates))]⟩
  refine ⟨req, req.fromJson_toJson hserde, ?_⟩
  have hmethod : RpcMethod.ofName (ascii "getAccount") = some .getAccount := by decide
  have haddress : req.address c = some (senderAddr c.crates senderKp) := by
    show (Address.fromStr c.toTextCrates
      ((senderAddr c.crates senderKp).display c.toTextCrates)).toOption = _
    rw [Address.fromStr_display hbech32]
    rfl
  rw [RpcState.handleRpc, show RpcMethod.ofName req.method = some .getAccount from hmethod]
  dsimp only
  rw [haddress]

theorem nextNonce_account (id : Json) (acc : Account) :
    nextNonce (JsonRpcResponse.success id (acc.toJson c.toJsonCrates)).toJson = acc.nonce + 1 := rfl

theorem sendQuery_reads (hhex : c.hex.Documented) (hbech32 : c.bech32.WritesAddresses)
    (hserde : c.serde.Documented) (tx : Transaction) : ∃ query req, sendQuery c tx = some query ∧
      JsonRpcRequest.fromJson c.serde query = some req ∧
      RpcMethod.ofName req.method = some .sendTransaction ∧ req.transaction c = .ok tx := by
  obtain ⟨txJson, hjson, hread⟩ := tx.fromJson_toJson hhex hbech32 hserde
  let req : JsonRpcRequest := ⟨ascii "2.0", .u64 2, ascii "sendTransaction", txJson⟩
  have hmethod : RpcMethod.ofName (ascii "sendTransaction") = some .sendTransaction := by decide
  refine ⟨req.toJson, req, by rw [sendQuery, hjson]; rfl, req.fromJson_toJson hserde, hmethod, ?_⟩
  rw [JsonRpcRequest.transaction]
  dsimp only [req]
  rw [hread]

theorem run_reads (hsign : c.crates.SignVerifies) (hhex : c.hex.Documented)
    (hbech32 : c.bech32.WritesAddresses) (hserde : c.serde.Documented)
    (hparse : cmd.parse c.toTextCrates = .ok (senderKp, recipient)) (asked : RpcState) :
    ∃ req tx, cmd.run c asked = some req ∧
      RpcMethod.ofName req.method = some .sendTransaction ∧ req.transaction c = .ok tx ∧
      tx.verify c.crates = .ok () ∧ ∃ signature, tx = ⟨senderAddr c.crates senderKp, recipient,
        cmd.amount, cmd.fee,
        (asked.stateDb.getAccount c.crates (senderAddr c.crates senderKp)).nonce + 1, .transfer, [],
        c.crates.verifyingKey senderKp, signature⟩ := by
  obtain ⟨accReq, haccReq, hreply⟩ := accQuery_answer hbech32 hserde asked senderKp
  obtain ⟨tx, htx, hverify, hfields⟩ := transaction_ok hsign cmd senderKp recipient
    ((asked.stateDb.getAccount c.crates (senderAddr c.crates senderKp)).nonce + 1)
  obtain ⟨query, req, hquery, hreq, hmethod, hread⟩ := sendQuery_reads hhex hbech32 hserde tx
  refine ⟨req, tx, ?_, hmethod, hread, hverify, hfields⟩
  have hnonce := nextNonce_account (c := c) accReq.id
    (asked.stateDb.getAccount c.crates (senderAddr c.crates senderKp))
  rw [run, hparse]
  dsimp only [Except.toOption, Option.bind_eq_bind, Option.bind_some]
  rw [haccReq]
  dsimp only [Option.bind_some]
  rw [hreply]
  dsimp only [Option.bind_some, RpcState.success]
  rw [hnonce, htx]
  dsimp only [Option.bind_some]
  rw [hquery]
  exact hreq

/-- What the node checks of a transfer that the command has signed. -/
theorem passesChecks_iff {c : Crates} {pool : Mempool} {stateDb : StateDB} {tx : Transaction}
    (htype : tx.txType = .transfer) (hpayload : tx.payload = []) (hverify : tx.verify c = .ok ()) :
    Mempool.PassesChecks c pool tx stateDb ↔ tx.txHash c ∉ pool.byHash ∧
      minTransactionFee ≤ tx.fee ∧ tx.amount ≠ 0 ∧ (stateDb.getAccount c tx.sender).nonce < tx.nonce ∧
      tx.nonce ≤ (stateDb.getAccount c tx.sender).nonce + maxNonceGap ∧
      tx.amount.saturatingAdd tx.fee ≤ (stateDb.getAccount c tx.sender).balance := by
  have hsize : tx.sizeBytes ≤ maxTransactionSize := by
    rw [Transaction.sizeBytes, hpayload]
    decide
  have htransfer : validateType tx (stateDb.getAccount c tx.sender) = .ok () := by
    rw [validateType, htype]
  constructor
  · intro h
    obtain ⟨-, hfee, hamount, -⟩ := validateStateless_ok_iff.mp h.stateless
    obtain ⟨hlow, hgap, hbalance, -⟩ := validateStateful_ok_iff.mp h.stateful
    exact ⟨h.fresh, hfee, hamount htype, hlow, hgap, hbalance⟩
  · rintro ⟨hfresh, hfee, hamount, hlow, hgap, hbalance⟩
    exact ⟨validateStateless_ok_iff.mpr ⟨hsize, hfee, fun _ => hamount, hverify⟩, hfresh,
      validateStateful_ok_iff.mpr ⟨hlow, hgap, hbalance, htransfer⟩⟩

/-- The command sends a transfer of the next nonce of the account it has asked for.
A server that has come from a new pool accepts it on conditions on the account as it
is by then, and on the pool; while what it has accepted has that nonce it does not. -/
theorem payment_accepted_iff (hsign : c.crates.SignVerifies) (hhex : c.hex.Documented)
    (hbech32 : c.bech32.WritesAddresses) (hserde : c.serde.Documented)
    (hnew : state.mempool = Mempool.new config) {threads : Nat} {service : RpcService}
    {log : List RpcEvent} (hrun : TracedRun (RpcService.step c) (fun _ _ => True)
      (RpcService.new state threads, []) (service, log))
    (hparse : cmd.parse c.toTextCrates = .ok (senderKp, recipient)) (asked : RpcState) :
    let sender := senderAddr c.crates senderKp
    let nonce := (asked.stateDb.getAccount c.crates sender).nonce + 1
    let acc := service.state.stateDb.getAccount c.crates sender
    ∃ req tx, cmd.run c asked = some req ∧ req.transaction c = .ok tx ∧ tx.sender = sender ∧
      tx.recipient = recipient ∧ tx.amount = cmd.amount ∧ tx.fee = cmd.fee ∧ tx.payload = [] ∧
      tx.nonce = nonce ∧
      ∀ left, ((∃ last out, service.step c (.request req left) = some (last, out) ∧
          RpcService.accepted c out = [tx]) ↔
        service.workers ≠ 0 ∧ .hung ∉ log ∧ tx.txHash c.crates ∉ service.state.mempool.byHash ∧
          minTransactionFee ≤ cmd.fee ∧ cmd.amount ≠ 0 ∧ acc.nonce < nonce ∧
          nonce ≤ acc.nonce + maxNonceGap ∧ cmd.amount.saturatingAdd cmd.fee ≤ acc.balance ∧
          service.state.mempool.slot sender nonce = none ∧
          Mempool.HasRoom config service.state.mempool.pooled tx) ∧
        ((∃ paid ∈ RpcService.accepted c log, paid.SamePlace tx) →
          ¬ ∃ last out, service.step c (.request req left) = some (last, out) ∧
            RpcService.accepted c out = [tx]) := by
  intro sender nonce acc
  obtain ⟨req, tx, hsent, hmethod, htx, hverify, signature, rfl⟩ :=
    run_reads hsign hhex hbech32 hserde hparse asked
  have hkeeps := RpcService.Keeps.of_run hbech32 hnew hrun
  refine ⟨req, _, hsent, htx, rfl, rfl, rfl, rfl, rfl, rfl, fun left => ⟨?_, ?_⟩⟩
  · rw [hkeeps.accepts_iff hbech32 hmethod htx left, passesChecks_iff rfl rfl hverify]
    simp only [and_assoc]
    rfl
  · rintro ⟨paid, hpaid, hsender, hnonce⟩ ⟨last, out, hs, hout⟩
    obtain ⟨-, hnone, -, hslot, -⟩ := (hkeeps.accepts_iff hbech32 hmethod htx left).mp ⟨last, out, hs, hout⟩
    have hnil : service.kept = [] := by
      by_contra hne
      exact hnone (hkeeps.lives.jammed hne)
    have htaken := hkeeps.taken hnil hpaid
    rw [hsender, hnonce, hslot] at htaken
    cases htaken

end TxSend

namespace WalletRun

open MempoolRun RpcRun

def command : TxSend :=
  ⟨(Reference.secretKey 2).toHex Reference.hex, (Reference.address 3).display Reference.textCrates, 1000,
    200⟩

theorem payment_accepted_iff_first : ∃ req tx, command.run rpcCrates start = some req ∧
    tx.nonce = 1 ∧ ∃ last out,
      (RpcService.new start 4).step rpcCrates (.request req start.mempool) = some (last, out) ∧
        RpcService.accepted rpcCrates out = [tx] := by
  have hparse : command.parse rpcCrates.toTextCrates = .ok (Reference.secretKey 2, Reference.address 3) := by
    decide +kernel
  have hnew : start.mempool = Mempool.new config := rfl
  have hsender : TxSend.senderAddr rpcCrates.crates (Reference.secretKey 2) = Reference.address 2 := by
    decide +kernel
  have hsign : rpcCrates.crates.SignVerifies := Reference.signVerifies _
  have hbech32 : rpcCrates.bech32.WritesAddresses := Reference.bech32_writesAddresses
  obtain ⟨req, tx, hsent, -, -, -, -, -, hpayload, hnonce, haccepts⟩ :=
    TxSend.payment_accepted_iff hsign Reference.hex_documented hbech32 Reference.serde_documented hnew
      .refl hparse start
  have hacc : start.stateDb.getAccount rpcCrates.crates
      (TxSend.senderAddr rpcCrates.crates (Reference.secretKey 2)) = Account.new 10000000 0 := by
    rw [hsender]
    decide +kernel
  rw [hacc] at hnonce
  refine ⟨req, tx, hsent, hnonce, ((haccepts _).1.mpr ?_)⟩
  have hfresh : tx.txHash rpcCrates.crates ∉ start.mempool.byHash := Std.ExtTreeMap.not_mem_empty
  have hpooled : start.mempool.pooled = [] := by decide +kernel
  have hsize : tx.sizeBytes = 165 := by rw [Transaction.sizeBytes, hpayload]; rfl
  have hslot : start.mempool.slot (Reference.address 2) 1 = none := by decide +kernel
  have hstate : (RpcService.new start 4).state = start := rfl
  rw [hstate, hacc, hsender, hpooled]
  refine ⟨by decide, by simp, hfresh, by decide, by decide, by decide, by decide, by decide, hslot, ?_⟩
  rw [Mempool.HasRoom, hsize]
  decide

end WalletRun

end AuraChain
