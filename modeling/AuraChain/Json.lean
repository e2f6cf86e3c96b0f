import AuraChain.Primitives
import AuraChain.TextForms

/-! JSON values and the ones that the data of the node is written as. An object is
the list of its fields. What serde and serde_json read is a parameter: the built-in
types, and the values of the types that derive it. -/

namespace AuraChain

/-- A float is kept as its bits. -/
inductive JsonNumber
  | posInt (n : UInt64)
  | negInt (n : Int)
  | float (bits : UInt64)
  deriving DecidableEq

inductive Json
  | null
  | bool (b : Bool)
  | number (n : JsonNumber)
  | string (s : Bytes)
  | array (items : List Json)
  | object (fields : List (String × Json))

namespace Json

def get (key : String) : Json → Option Json
  | object fields => fields.lookup key
  | _ => none

def asU64 : Json → Option UInt64
  | number (.posInt n) => some n
  | _ => none

def asStr : Json → Option Bytes
  | string s => some s
  | _ => none

def asArray : Json → Option (List Json)
  | array items => some items
  | _ => none

def first (v : Json) : Option Json := v.asArray.bind List.head?

def text (s : String) : Json := string (ascii s)

def u64 (n : UInt64) : Json := number (.posInt n)

def u32 (n : UInt32) : Json := u64 n.toUInt64

def hex {n : Nat} (crate : HexCrate) (x : FixedBytes n) : Json := string (x.toHex crate)

def bytes (data : Bytes) : Json := array (data.map fun b => u64 b.toUInt64)

def option {α : Type} (toJson : α → Json) : Option α → Json
  | none => null
  | some x => toJson x

end Json

namespace TransactionType

def variant : TransactionType → String
  | transfer => "Transfer"
  | stake => "Stake"
  | unstake => "Unstake"
  | registerValidator => "RegisterValidator"

def toJson (t : TransactionType) : Json := .text t.variant

end TransactionType

/-- The readers of serde and serde_json. A struct is read as the values of its
fields, those that have a default last; `error` is the text for a value that is no
transaction. -/
structure SerdeCrate where
  string : Json → Option Bytes
  u64 : Json → Option UInt64
  bytes : Json → Option Bytes
  txType : Json → Option TransactionType
  record : List String → List (String × Json) → Json → Option (List Json)
  error : Json → Bytes

/-- What is written is read back. -/
structure SerdeCrate.Documented (serde : SerdeCrate) : Prop where
  string (s : Bytes) : serde.string (.string s) = some s
  u64 (n : UInt64) : serde.u64 (.u64 n) = some n
  bytes (data : Bytes) : serde.bytes (.bytes data) = some data
  txType (t : TransactionType) : serde.txType t.toJson = some t
  record (keys : List String) (defaults : List (String × Json)) (values : List Json) :
    (keys ++ defaults.map Prod.fst).Nodup → values.length = keys.length + defaults.length →
      serde.record keys defaults (.object ((keys ++ defaults.map Prod.fst).zip values)) = some values

/-- The crates that texts and JSON values are written and read with. -/
structure JsonCrates extends TextCrates where
  serde : SerdeCrate

def Address.toJson (crates : JsonCrates) (a : Address) : Option Json :=
  (a.toBech32 crates.bech32 defaultHrp).map .string

def Address.fromJson (crates : JsonCrates) (v : Json) : Option Address :=
  (crates.serde.string v).bind fun s => (Address.fromStr crates.toTextCrates s).toOption

def PublicKey.fromJson (crates : JsonCrates) (v : Json) : Option PublicKey :=
  (crates.serde.string v).bind fun s => (PublicKey.fromStr crates.hex s).toOption

def Signature.fromJson (crates : JsonCrates) (v : Json) : Option Signature :=
  (crates.serde.string v).bind fun s => (Signature.fromStr crates.hex s).toOption

namespace Transaction

def keys : List String :=
  ["sender", "recipient", "amount", "fee", "nonce", "tx_type", "payload", "pubkey", "signature"]

def toJson (crates : JsonCrates) (tx : Transaction) : Option Json := do
  let sender ← tx.sender.toJson crates
  let recipient ← tx.recipient.toJson crates
  return .object (keys.zip [sender, recipient, .u64 tx.amount, .u64 tx.fee, .u64 tx.nonce,
    tx.txType.toJson, .bytes tx.payload, .hex crates.hex tx.pubkey, .hex crates.hex tx.signature])

def ofValues (crates : JsonCrates) : List Json → Option Transaction
  | [sender, recipient, amount, fee, nonce, txType, payload, pubkey, signature] => do
    let sender ← Address.fromJson crates sender
    let recipient ← Address.fromJson crates recipient
    let amount ← crates.serde.u64 amount
    let fee ← crates.serde.u64 fee
    let nonce ← crates.serde.u64 nonce
    let txType ← crates.serde.txType txType
    let payload ← crates.serde.bytes payload
    let pubkey ← PublicKey.fromJson crates pubkey
    let signature ← Signature.fromJson crates signature
    return { sender, recipient, amount, fee, nonce, txType, payload, pubkey, signature }
  | _ => none

def fromJson (crates : JsonCrates) (v : Json) : Option Transaction :=
  (crates.serde.record keys [] v).bind (ofValues crates)

end Transaction

def Account.toJson (crates : JsonCrates) (acc : Account) : Json :=
  .object [("balance", .u64 acc.balance), ("nonce", .u64 acc.nonce),
    ("staked_amount", .u64 acc.stakedAmount), ("is_validator", .bool acc.isValidator),
    ("validator_pubkey", .option (.hex crates.hex) acc.validatorPubkey)]

def VoteType.toJson : VoteType → Json
  | preVote => .text "PreVote"
  | preCommit => .text "PreCommit"

def Vote.toJson (crates : JsonCrates) (vote : Vote) : Option Json := do
  let validator ← vote.validator.toJson crates
  return .object [("block_hash", .hex crates.hex vote.blockHash), ("height", .u64 vote.height),
    ("round", .u32 vote.round), ("vote_type", vote.voteType.toJson), ("validator", validator),
    ("pubkey", .hex crates.hex vote.pubkey), ("signature", .hex crates.hex vote.signature)]

def QuorumCertificate.toJson (crates : JsonCrates) (qc : QuorumCertificate) : Option Json := do
  let votes ← qc.votes.mapM (Vote.toJson crates)
  return .object [("block_hash", .hex crates.hex qc.blockHash), ("height", .u64 qc.height),
    ("round", .u32 qc.round), ("votes", .array votes),
    ("total_voting_power", .u64 qc.totalVotingPower),
    ("signers_voting_power", .u64 qc.signersVotingPower)]

def BlockHeader.toJson (crates : JsonCrates) (header : BlockHeader) : Option Json := do
  let proposer ← header.proposer.toJson crates
  return .object [("version", .u32 header.version), ("chain_id", .string header.chainId),
    ("height", .u64 header.height), ("round", .u32 header.round), ("prev_hash", .hex crates.hex header.prevHash),
    ("merkle_root", .hex crates.hex header.merkleRoot), ("state_root", .hex crates.hex header.stateRoot),
    ("validator_set_hash", .hex crates.hex header.validatorSetHash), ("timestamp", .u64 header.timestamp),
    ("proposer", proposer), ("signature", .hex crates.hex header.signature)]

def Block.toJson (crates : JsonCrates) (block : Block) : Option Json := do
  let header ← block.header.toJson crates
  let transactions ← block.transactions.mapM (Transaction.toJson crates)
  let qc ← match block.lastCommitQc with
    | none => some Json.null
    | some qc => qc.toJson crates
  return .object [("header", header), ("transactions", .array transactions), ("last_commit_qc", qc)]

section

variable {crates : JsonCrates}

theorem Address.toJson_some (hbech32 : crates.bech32.WritesAddresses) (a : Address) :
    ∃ text, a.toJson crates = some (.string text) ∧
      Address.fromStr crates.toTextCrates text = .ok a := by
  obtain ⟨text, henc, hpre, hdec⟩ := hbech32 a.bytes a.size
  exact ⟨text, by rw [toJson, toBech32, henc, Option.map_some], (fromStr_prefixed_iff hpre).mpr hdec⟩

theorem Address.fromJson_toJson (hbech32 : crates.bech32.WritesAddresses)
    (hserde : crates.serde.Documented) (a : Address) :
    ∃ v, a.toJson crates = some v ∧ Address.fromJson crates v = some a := by
  obtain ⟨text, htext, hread⟩ := a.toJson_some hbech32
  refine ⟨.string text, htext, ?_⟩
  rw [fromJson, hserde.string, Option.bind_some, hread]
  rfl

theorem Transaction.toJson_some (hbech32 : crates.bech32.WritesAddresses) (tx : Transaction) :
    ∃ v, tx.toJson crates = some v := by
  obtain ⟨sender, hsender, -⟩ := tx.sender.toJson_some hbech32
  obtain ⟨recipient, hrecipient, -⟩ := tx.recipient.toJson_some hbech32
  exact ⟨_, by rw [toJson, hsender, hrecipient]; rfl⟩

theorem Transaction.fromJson_toJson (hhex : crates.hex.Documented)
    (hbech32 : crates.bech32.WritesAddresses) (hserde : crates.serde.Documented) (tx : Transaction) :
    ∃ v, tx.toJson crates = some v ∧ fromJson crates v = some tx := by
  obtain ⟨sender, hsender, hsenderRead⟩ := tx.sender.fromJson_toJson hbech32 hserde
  obtain ⟨recipient, hrecipient, hrecipientRead⟩ := tx.recipient.fromJson_toJson hbech32 hserde
  have hpubkey : PublicKey.fromJson crates (.hex crates.hex tx.pubkey) = some tx.pubkey := by
    rw [PublicKey.fromJson, Json.hex, hserde.string, Option.bind_some, PublicKey.fromStr,
      ((FixedBytes.fromHex_reads hhex).written tx.pubkey).2]
    rfl
  have hsignature : Signature.fromJson crates (.hex crates.hex tx.signature) = some tx.signature := by
    rw [Signature.fromJson, Json.hex, hserde.string, Option.bind_some, Signature.fromStr,
      ((FixedBytes.fromHex_reads hhex).written tx.signature).2]
    rfl
  refine ⟨_, by rw [toJson, hsender, hrecipient]; rfl, ?_⟩
  have hvalues := hserde.record keys [] [sender, recipient, .u64 tx.amount, .u64 tx.fee,
    .u64 tx.nonce, tx.txType.toJson, .bytes tx.payload, .hex crates.hex tx.pubkey,
    .hex crates.hex tx.signature] (by decide) rfl
  rw [List.map_nil, List.append_nil] at hvalues
  rw [fromJson, hvalues, Option.bind_some, ofValues, hsenderRead, hrecipientRead, hserde.u64,
    hserde.u64, hserde.u64, hserde.txType, hserde.bytes, hpubkey, hsignature]
  rfl

theorem mapM_some {α β : Type} {f : α → Option β} (h : ∀ x, ∃ y, f x = some y) (l : List α) :
    ∃ ys, l.mapM f = some ys := by
  induction l with
  | nil => exact ⟨[], rfl⟩
  | cons x l ih =>
    obtain ⟨y, hy⟩ := h x
    obtain ⟨ys, hys⟩ := ih
    exact ⟨y :: ys, by rw [List.mapM_cons, hy, hys]; rfl⟩

theorem Block.toJson_some (hbech32 : crates.bech32.WritesAddresses) (block : Block) :
    ∃ v, block.toJson crates = some v := by
  have hvote : ∀ vote : Vote, ∃ v, vote.toJson crates = some v := by
    intro vote
    obtain ⟨validator, hvalidator, -⟩ := vote.validator.toJson_some hbech32
    exact ⟨_, by rw [Vote.toJson, hvalidator]; rfl⟩
  obtain ⟨proposer, hproposer, -⟩ := block.header.proposer.toJson_some hbech32
  obtain ⟨txs, htxs⟩ := mapM_some (Transaction.toJson_some hbech32) block.transactions
  cases hqc : block.lastCommitQc with
  | none => exact ⟨_, by rw [toJson, BlockHeader.toJson, hproposer, htxs, hqc]; rfl⟩
  | some qc =>
    obtain ⟨votes, hvotes⟩ := mapM_some hvote qc.votes
    exact ⟨_, by
      rw [toJson, BlockHeader.toJson, hproposer, htxs, hqc]
      dsimp only
      rw [QuorumCertificate.toJson, hvotes]
      rfl⟩

end

namespace Reference

def toByte (v : Json) : Option UInt8 :=
  v.asU64.bind fun n => if n.toNat < 2 ^ 8 then some n.toUInt8 else none

def toBytes (v : Json) : Option Bytes := v.asArray.bind fun items => items.mapM toByte

def ofVariant (name : Bytes) : Option TransactionType :=
  [.transfer, .stake, .unstake, .registerValidator].find? fun t : TransactionType =>
    decide (ascii t.variant = name)

/-- A variant without data is its name, or an object with its name for `null`. -/
def txType : Json → Option TransactionType
  | .string name => ofVariant name
  | .object [(name, .null)] => ofVariant (ascii name)
  | _ => none

/-- The fields of a struct are read by name or in order. -/
def record (keys : List String) (defaults : List (String × Json)) : Json → Option (List Json)
  | .object fields => do
    let values ← keys.mapM fun key => fields.lookup key
    return values ++ defaults.map fun d => (fields.lookup d.1).getD d.2
  | .array items =>
    if keys.length ≤ items.length ∧ items.length ≤ keys.length + defaults.length then
      some (items ++ (defaults.drop (items.length - keys.length)).map Prod.snd)
    else none
  | _ => none

theorem toBytes_bytes (data : Bytes) : toBytes (.bytes data) = some data := by
  show (data.map fun b => Json.u64 b.toUInt64).mapM toByte = some data
  induction data with
  | nil => rfl
  | cons b data ih =>
    have hb : toByte (.u64 b.toUInt64) = some b := by
      have hlt : b.toUInt64.toNat < 2 ^ 8 := by
        rw [UInt8.toNat_toUInt64]
        exact b.toNat_lt
      show (if b.toUInt64.toNat < 2 ^ 8 then some b.toUInt64.toUInt8 else none) = some b
      rw [if_pos hlt, UInt8.toUInt8_toUInt64]
    rw [List.map_cons, List.mapM_cons, hb, ih]
    rfl

theorem map_lookup_zip {keys : List String} {values : List Json} (hkeys : keys.Nodup)
    (hlen : values.length = keys.length) :
    keys.map (fun key => (keys.zip values).lookup key) = values.map some := by
  induction keys generalizing values with
  | nil => rw [List.length_eq_zero_iff.mp hlen, List.map_nil, List.map_nil]
  | cons key keys ih =>
    obtain ⟨hnew, hkeys⟩ := List.nodup_cons.mp hkeys
    cases values with
    | nil => cases hlen
    | cons value values =>
      rw [List.zip_cons_cons, List.map_cons, List.lookup_cons_self, List.map_cons,
        ← ih hkeys (Nat.succ.inj hlen)]
      refine congrArg _ (List.map_congr_left fun k hk => ?_)
      have hne : (k == key) = false := beq_false_of_ne fun h => hnew (h ▸ hk)
      rw [List.lookup_cons, hne]

theorem mapM_of_map {α β : Type} {f : α → Option β} {l : List α} {ys : List β}
    (h : l.map f = ys.map some) : l.mapM f = some ys := by
  induction l generalizing ys with
  | nil => rw [List.map_eq_nil_iff.mp h.symm, List.mapM_nil]; rfl
  | cons x l ih =>
    cases ys with
    | nil => cases h
    | cons y ys =>
      obtain ⟨hfirst, hrest⟩ := List.cons_eq_cons.mp h
      rw [List.mapM_cons, hfirst, ih hrest]
      rfl

theorem map_getD {α : Type} {f : String → Option α} {defaults : List (String × α)} {ys : List α}
    (h : (defaults.map Prod.fst).map f = ys.map some) :
    defaults.map (fun d => (f d.1).getD d.2) = ys := by
  induction defaults generalizing ys with
  | nil => rw [List.map_eq_nil_iff.mp h.symm, List.map_nil]
  | cons d defaults ih =>
    cases ys with
    | nil => cases h
    | cons y ys =>
      obtain ⟨hfirst, hrest⟩ := List.cons_eq_cons.mp h
      rw [List.map_cons, hfirst, ih hrest, Option.getD_some]

theorem record_zip {keys : List String} {defaults : List (String × Json)} {values : List Json}
    (hkeys : (keys ++ defaults.map Prod.fst).Nodup)
    (hlen : values.length = keys.length + defaults.length) :
    record keys defaults (.object ((keys ++ defaults.map Prod.fst).zip values)) = some values := by
  let lookup := fun key => ((keys ++ defaults.map Prod.fst).zip values).lookup key
  have hlens : values.length = (keys ++ defaults.map Prod.fst).length := by simp [hlen]
  have hall : keys.map lookup ++ (defaults.map Prod.fst).map lookup =
      (values.take keys.length).map some ++ (values.drop keys.length).map some := by
    rw [← List.map_append, ← List.map_append, List.take_append_drop]
    exact map_lookup_zip hkeys hlens
  obtain ⟨hrequired, hdefaults⟩ := List.append_inj hall (by simp [hlen])
  have hmapM : keys.mapM lookup = some (values.take keys.length) := mapM_of_map hrequired
  have hgetD : defaults.map (fun d => (lookup d.1).getD d.2) = values.drop keys.length :=
    map_getD hdefaults
  calc record keys defaults (.object ((keys ++ defaults.map Prod.fst).zip values))
    _ = (keys.mapM lookup).bind fun required =>
          some (required ++ defaults.map fun d => (lookup d.1).getD d.2) := rfl
    _ = some values := by rw [hmapM, hgetD, Option.bind_some, List.take_append_drop]

def serde : SerdeCrate := ⟨Json.asStr, Json.asU64, toBytes, txType, record, fun _ => []⟩

theorem serde_documented : serde.Documented where
  string _ := rfl
  u64 _ := rfl
  bytes := toBytes_bytes
  txType t := by cases t <;> decide
  record _ _ _ := record_zip

def jsonCrates : JsonCrates := ⟨textCrates, serde⟩

end Reference

end AuraChain
