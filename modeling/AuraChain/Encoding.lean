import AuraChain.Bincode

/-! The binary encodings of stored and transmitted values. Structs are written
field by field in the order of their declaration. `Hash`, `Address`, `PublicKey`
and `Signature` have their own impls: they write a byte string and read a
`Vec<u8>`, whose length they check. -/

namespace AuraChain

open Bincode

def FixedBytes.serialize {n : Nat} (x : FixedBytes n) : Bytes := serializeBytes x.bytes

def FixedBytes.deserialize (n : Nat) (message : String) : Deserialize (FixedBytes n) := do
  let bytes ← deserializeVecU8
  TokenReader.ofOption (.custom message) (FixedBytes.ofSlice? n bytes)

def Hash.serialize (x : Hash) : Bytes := FixedBytes.serialize x
def Hash.deserialize : Deserialize Hash := FixedBytes.deserialize 32 "expected 32 bytes for Hash"

def Address.serialize (x : Address) : Bytes := FixedBytes.serialize x
def Address.deserialize : Deserialize Address :=
  FixedBytes.deserialize 20 "expected 20 bytes for Address"

def PublicKey.serialize (x : PublicKey) : Bytes := FixedBytes.serialize x
def PublicKey.deserialize : Deserialize PublicKey :=
  FixedBytes.deserialize 32 "expected 32 bytes for PublicKey"

def Signature.serialize (x : Signature) : Bytes := FixedBytes.serialize x
def Signature.deserialize : Deserialize Signature :=
  FixedBytes.deserialize 64 "expected 64 bytes for Signature"

theorem FixedBytes.reads {n : Nat} (message : String) (hn : n < 2 ^ 64) (x : FixedBytes n) :
    Reads (FixedBytes.deserialize n message) x.serialize x := by
  have hlen : x.bytes.length < 2 ^ 64 := by
    rw [x.size]
    exact hn
  have hslice : FixedBytes.ofSlice? n x.bytes = some x := dif_pos x.size
  rw [FixedBytes.serialize, serializeBytes_eq_vecU8]
  exact Reads.last (reads_vecU8 hlen) (Reads.ofOption hslice)

theorem Hash.reads (x : Hash) : Reads Hash.deserialize x.serialize x :=
  FixedBytes.reads _ (by decide) x

theorem Address.reads (x : Address) : Reads Address.deserialize x.serialize x :=
  FixedBytes.reads _ (by decide) x

theorem PublicKey.reads (x : PublicKey) : Reads PublicKey.deserialize x.serialize x :=
  FixedBytes.reads _ (by decide) x

theorem Signature.reads (x : Signature) : Reads Signature.deserialize x.serialize x :=
  FixedBytes.reads _ (by decide) x

namespace Account

def serialize (acc : Account) : Bytes :=
  serializeU64 acc.balance ++ (serializeU64 acc.nonce ++ (serializeU64 acc.stakedAmount ++
    (serializeBool acc.isValidator ++ serializeOption PublicKey.serialize acc.validatorPubkey)))

def deserialize : Deserialize Account := do
  let balance ← deserializeU64
  let nonce ← deserializeU64
  let stakedAmount ← deserializeU64
  let isValidator ← deserializeBool
  let validatorPubkey ← deserializeOption PublicKey.deserialize
  return { balance, nonce, stakedAmount, isValidator, validatorPubkey }

def toBytes (acc : Account) : Bytes := acc.serialize

def fromBytes (bytes : Bytes) : Except BincodeError Account := Bincode.deserialize deserialize bytes

theorem reads (acc : Account) : Reads deserialize acc.serialize acc := by
  refine Reads.bind (reads_u64 acc.balance) ?_
  refine Reads.bind (reads_u64 acc.nonce) ?_
  refine Reads.bind (reads_u64 acc.stakedAmount) ?_
  refine Reads.bind (reads_bool acc.isValidator) ?_
  refine Reads.last (reads_option acc.validatorPubkey fun key _ => PublicKey.reads key) ?_
  exact Reads.pure acc

end Account

namespace TransactionType

def serialize : TransactionType → Bytes
  | transfer => serializeVariant 0
  | stake => serializeVariant 1
  | unstake => serializeVariant 2
  | registerValidator => serializeVariant 3

def deserialize : Deserialize TransactionType := do
  let index ← deserializeVariant
  if index = 0 then return transfer
  else if index = 1 then return stake
  else if index = 2 then return unstake
  else if index = 3 then return registerValidator
  else TokenReader.fail (.invalidVariantIndex index)

theorem reads (txType : TransactionType) : Reads deserialize txType.serialize txType := by
  cases txType with
  | transfer => exact Reads.last (reads_variant 0) (Reads.pure transfer)
  | stake => exact Reads.last (reads_variant 1) (Reads.pure stake)
  | unstake => exact Reads.last (reads_variant 2) (Reads.pure unstake)
  | registerValidator => exact Reads.last (reads_variant 3) (Reads.pure registerValidator)

end TransactionType

namespace Transaction

/-- A `Vec` is shorter than the address space. -/
def Representable (tx : Transaction) : Prop := tx.payload.length < 2 ^ 64

def serialize (tx : Transaction) : Bytes :=
  tx.sender.serialize ++ (tx.recipient.serialize ++ (serializeU64 tx.amount ++
    (serializeU64 tx.fee ++ (serializeU64 tx.nonce ++ (tx.txType.serialize ++
      (serializeVecU8 tx.payload ++ (PublicKey.serialize tx.pubkey ++ tx.signature.serialize)))))))

def deserialize : Deserialize Transaction := do
  let sender ← Address.deserialize
  let recipient ← Address.deserialize
  let amount ← deserializeU64
  let fee ← deserializeU64
  let nonce ← deserializeU64
  let txType ← TransactionType.deserialize
  let payload ← deserializeVecU8
  let pubkey ← PublicKey.deserialize
  let signature ← Signature.deserialize
  return { sender, recipient, amount, fee, nonce, txType, payload, pubkey, signature }

theorem reads {tx : Transaction} (h : tx.Representable) : Reads deserialize tx.serialize tx := by
  refine Reads.bind (Address.reads tx.sender) ?_
  refine Reads.bind (Address.reads tx.recipient) ?_
  refine Reads.bind (reads_u64 tx.amount) ?_
  refine Reads.bind (reads_u64 tx.fee) ?_
  refine Reads.bind (reads_u64 tx.nonce) ?_
  refine Reads.bind (TransactionType.reads tx.txType) ?_
  refine Reads.bind (reads_vecU8 h) ?_
  refine Reads.bind (PublicKey.reads tx.pubkey) ?_
  refine Reads.last (Signature.reads tx.signature) ?_
  exact Reads.pure tx

end Transaction

namespace VoteType

def serialize : VoteType → Bytes
  | preVote => serializeVariant 0
  | preCommit => serializeVariant 1

def deserialize : Deserialize VoteType := do
  let index ← deserializeVariant
  if index = 0 then return preVote
  else if index = 1 then return preCommit
  else TokenReader.fail (.invalidVariantIndex index)

theorem reads (voteType : VoteType) : Reads deserialize voteType.serialize voteType := by
  cases voteType with
  | preVote => exact Reads.last (reads_variant 0) (Reads.pure preVote)
  | preCommit => exact Reads.last (reads_variant 1) (Reads.pure preCommit)

end VoteType

namespace Vote

def serialize (vote : Vote) : Bytes :=
  vote.blockHash.serialize ++ (serializeU64 vote.height ++ (serializeU32 vote.round ++
    (vote.voteType.serialize ++ (vote.validator.serialize ++
      (PublicKey.serialize vote.pubkey ++ vote.signature.serialize)))))

def deserialize : Deserialize Vote := do
  let blockHash ← Hash.deserialize
  let height ← deserializeU64
  let round ← deserializeU32
  let voteType ← VoteType.deserialize
  let validator ← Address.deserialize
  let pubkey ← PublicKey.deserialize
  let signature ← Signature.deserialize
  return { blockHash, height, round, voteType, validator, pubkey, signature }

theorem reads (vote : Vote) : Reads deserialize vote.serialize vote := by
  refine Reads.bind (Hash.reads vote.blockHash) ?_
  refine Reads.bind (reads_u64 vote.height) ?_
  refine Reads.bind (reads_u32 vote.round) ?_
  refine Reads.bind (VoteType.reads vote.voteType) ?_
  refine Reads.bind (Address.reads vote.validator) ?_
  refine Reads.bind (PublicKey.reads vote.pubkey) ?_
  refine Reads.last (Signature.reads vote.signature) ?_
  exact Reads.pure vote

end Vote

namespace QuorumCertificate

def Representable (qc : QuorumCertificate) : Prop := qc.votes.length < 2 ^ 64

def serialize (qc : QuorumCertificate) : Bytes :=
  qc.blockHash.serialize ++ (serializeU64 qc.height ++ (serializeU32 qc.round ++
    (serializeSeq Vote.serialize qc.votes ++ (serializeU64 qc.totalVotingPower ++
      serializeU64 qc.signersVotingPower))))

def deserialize : Deserialize QuorumCertificate := do
  let blockHash ← Hash.deserialize
  let height ← deserializeU64
  let round ← deserializeU32
  let votes ← deserializeSeq Vote.deserialize
  let totalVotingPower ← deserializeU64
  let signersVotingPower ← deserializeU64
  return { blockHash, height, round, votes, totalVotingPower, signersVotingPower }

theorem reads {qc : QuorumCertificate} (h : qc.Representable) :
    Reads deserialize qc.serialize qc := by
  refine Reads.bind (Hash.reads qc.blockHash) ?_
  refine Reads.bind (reads_u64 qc.height) ?_
  refine Reads.bind (reads_u32 qc.round) ?_
  refine Reads.bind (reads_seq h fun vote _ => Vote.reads vote) ?_
  refine Reads.bind (reads_u64 qc.totalVotingPower) ?_
  refine Reads.last (reads_u64 qc.signersVotingPower) ?_
  exact Reads.pure qc

end QuorumCertificate

namespace BlockHeader

/-- A `String` is valid UTF-8. -/
def Representable (header : BlockHeader) : Prop :=
  IsUtf8 header.chainId ∧ header.chainId.length < 2 ^ 64

def serialize (header : BlockHeader) : Bytes :=
  serializeU32 header.version ++ (serializeString header.chainId ++ (serializeU64 header.height ++
    (serializeU32 header.round ++ (header.prevHash.serialize ++ (header.merkleRoot.serialize ++
      (header.stateRoot.serialize ++ (header.validatorSetHash.serialize ++
        (serializeU64 header.timestamp ++ (header.proposer.serialize ++
          header.signature.serialize)))))))))

def deserialize : Deserialize BlockHeader := do
  let version ← deserializeU32
  let chainId ← deserializeString
  let height ← deserializeU64
  let round ← deserializeU32
  let prevHash ← Hash.deserialize
  let merkleRoot ← Hash.deserialize
  let stateRoot ← Hash.deserialize
  let validatorSetHash ← Hash.deserialize
  let timestamp ← deserializeU64
  let proposer ← Address.deserialize
  let signature ← Signature.deserialize
  return { version, chainId, height, round, prevHash, merkleRoot, stateRoot, validatorSetHash,
           timestamp, proposer, signature }

theorem reads {header : BlockHeader} (h : header.Representable) :
    Reads deserialize header.serialize header := by
  refine Reads.bind (reads_u32 header.version) ?_
  refine Reads.bind (reads_string h.1 h.2) ?_
  refine Reads.bind (reads_u64 header.height) ?_
  refine Reads.bind (reads_u32 header.round) ?_
  refine Reads.bind (Hash.reads header.prevHash) ?_
  refine Reads.bind (Hash.reads header.merkleRoot) ?_
  refine Reads.bind (Hash.reads header.stateRoot) ?_
  refine Reads.bind (Hash.reads header.validatorSetHash) ?_
  refine Reads.bind (reads_u64 header.timestamp) ?_
  refine Reads.bind (Address.reads header.proposer) ?_
  refine Reads.last (Signature.reads header.signature) ?_
  exact Reads.pure header

end BlockHeader

namespace Block

/-- What Rust promises of every block in memory. -/
structure Representable (block : Block) : Prop where
  header : block.header.Representable
  length : block.transactions.length < 2 ^ 64
  transactions : ∀ tx ∈ block.transactions, tx.Representable
  lastCommitQc : ∀ qc, block.lastCommitQc = some qc → qc.Representable

def serialize (block : Block) : Bytes :=
  block.header.serialize ++ (serializeSeq Transaction.serialize block.transactions ++
    serializeOption QuorumCertificate.serialize block.lastCommitQc)

def deserialize : Deserialize Block := do
  let header ← BlockHeader.deserialize
  let transactions ← deserializeSeq Transaction.deserialize
  let lastCommitQc ← deserializeOption QuorumCertificate.deserialize
  return { header, transactions, lastCommitQc }

theorem representable_iff (block : Block) : block.Representable ↔
    (IsUtf8 block.header.chainId ∧ block.header.chainId.length < 2 ^ 64) ∧
      block.transactions.length < 2 ^ 64 ∧
      (∀ tx ∈ block.transactions, tx.payload.length < 2 ^ 64) ∧
      ∀ qc ∈ block.lastCommitQc, qc.votes.length < 2 ^ 64 := by
  refine ⟨fun h => ⟨h.header, h.length, h.transactions, h.lastCommitQc⟩, ?_⟩
  rintro ⟨hheader, hlength, htxs, hqc⟩
  exact ⟨hheader, hlength, htxs, hqc⟩

instance (block : Block) : Decidable block.Representable :=
  decidable_of_iff _ (representable_iff block).symm

theorem reads {block : Block} (h : block.Representable) :
    Reads deserialize block.serialize block := by
  refine Reads.bind (BlockHeader.reads h.header) ?_
  refine Reads.bind (reads_seq h.length fun tx htx => Transaction.reads (h.transactions tx htx)) ?_
  refine Reads.last (reads_option block.lastCommitQc fun qc hqc =>
    QuorumCertificate.reads (h.lastCommitQc qc hqc)) ?_
  exact Reads.pure block

end Block

inductive TunnelFrame
  | connectTcp (streamId : UInt32) (targetHost : Bytes) (targetPort : UInt16)
  | connectOk (streamId : UInt32)
  | connectFail (streamId : UInt32) (reason : Bytes)
  | data (streamId : UInt32) (data : Bytes)
  | close (streamId : UInt32)
  | bandwidthVoucher (sessionId bytesServed aurAmount : UInt64) (clientAddress : Address)
      (signature : Signature)
  | ping
  | pong
  deriving DecidableEq

namespace TunnelFrame

def Representable : TunnelFrame → Prop
  | connectTcp _ targetHost _ => IsUtf8 targetHost ∧ targetHost.length < 2 ^ 64
  | connectFail _ reason => IsUtf8 reason ∧ reason.length < 2 ^ 64
  | data _ bytes => bytes.length < 2 ^ 64
  | _ => True

def serialize : TunnelFrame → Bytes
  | connectTcp streamId targetHost targetPort => serializeVariant 0 ++
      (serializeU32 streamId ++ (serializeString targetHost ++ serializeU16 targetPort))
  | connectOk streamId => serializeVariant 1 ++ serializeU32 streamId
  | connectFail streamId reason =>
      serializeVariant 2 ++ (serializeU32 streamId ++ serializeString reason)
  | data streamId bytes => serializeVariant 3 ++ (serializeU32 streamId ++ serializeVecU8 bytes)
  | close streamId => serializeVariant 4 ++ serializeU32 streamId
  | bandwidthVoucher sessionId bytesServed aurAmount clientAddress signature =>
      serializeVariant 5 ++ (serializeU64 sessionId ++ (serializeU64 bytesServed ++
        (serializeU64 aurAmount ++ (clientAddress.serialize ++ signature.serialize))))
  | ping => serializeVariant 6
  | pong => serializeVariant 7

def deserializeConnectTcp : Deserialize TunnelFrame := do
  let streamId ← deserializeU32
  let targetHost ← deserializeString
  let targetPort ← deserializeU16
  return connectTcp streamId targetHost targetPort

def deserializeConnectFail : Deserialize TunnelFrame := do
  let streamId ← deserializeU32
  let reason ← deserializeString
  return connectFail streamId reason

def deserializeData : Deserialize TunnelFrame := do
  let streamId ← deserializeU32
  let bytes ← deserializeVecU8
  return data streamId bytes

def deserializeBandwidthVoucher : Deserialize TunnelFrame := do
  let sessionId ← deserializeU64
  let bytesServed ← deserializeU64
  let aurAmount ← deserializeU64
  let clientAddress ← Address.deserialize
  let signature ← Signature.deserialize
  return bandwidthVoucher sessionId bytesServed aurAmount clientAddress signature

def deserializeFields (index : UInt32) : Deserialize TunnelFrame :=
  if index = 0 then deserializeConnectTcp
  else if index = 1 then do
    let streamId ← deserializeU32
    return connectOk streamId
  else if index = 2 then deserializeConnectFail
  else if index = 3 then deserializeData
  else if index = 4 then do
    let streamId ← deserializeU32
    return close streamId
  else if index = 5 then deserializeBandwidthVoucher
  else if index = 6 then return ping
  else if index = 7 then return pong
  else TokenReader.fail (.invalidVariantIndex index)

def deserialize : Deserialize TunnelFrame := do
  let index ← deserializeVariant
  deserializeFields index

def toBytes (frame : TunnelFrame) : Bytes := frame.serialize

def fromBytes (bytes : Bytes) : Except BincodeError TunnelFrame :=
  Bincode.deserialize deserialize bytes

theorem reads_connectTcp {streamId : UInt32} {targetHost : Bytes} {targetPort : UInt16}
    (h : IsUtf8 targetHost ∧ targetHost.length < 2 ^ 64) :
    Reads deserializeConnectTcp
      (serializeU32 streamId ++ (serializeString targetHost ++ serializeU16 targetPort))
      (connectTcp streamId targetHost targetPort) := by
  refine Reads.bind (reads_u32 streamId) ?_
  refine Reads.bind (reads_string h.1 h.2) ?_
  exact (reads_u16 targetPort).map

theorem reads_connectFail {streamId : UInt32} {reason : Bytes}
    (h : IsUtf8 reason ∧ reason.length < 2 ^ 64) :
    Reads deserializeConnectFail (serializeU32 streamId ++ serializeString reason)
      (connectFail streamId reason) := by
  refine Reads.bind (reads_u32 streamId) ?_
  exact (reads_string h.1 h.2).map

theorem reads_data {streamId : UInt32} {bytes : Bytes} (h : bytes.length < 2 ^ 64) :
    Reads deserializeData (serializeU32 streamId ++ serializeVecU8 bytes)
      (data streamId bytes) := by
  refine Reads.bind (reads_u32 streamId) ?_
  exact (reads_vecU8 h).map

theorem reads_bandwidthVoucher (sessionId bytesServed aurAmount : UInt64) (clientAddress : Address)
    (signature : Signature) :
    Reads deserializeBandwidthVoucher
      (serializeU64 sessionId ++ (serializeU64 bytesServed ++ (serializeU64 aurAmount ++
        (clientAddress.serialize ++ signature.serialize))))
      (bandwidthVoucher sessionId bytesServed aurAmount clientAddress signature) := by
  refine Reads.bind (reads_u64 sessionId) ?_
  refine Reads.bind (reads_u64 bytesServed) ?_
  refine Reads.bind (reads_u64 aurAmount) ?_
  refine Reads.bind (Address.reads clientAddress) ?_
  exact (Signature.reads signature).map

theorem reads {frame : TunnelFrame} (h : frame.Representable) :
    Reads deserialize frame.serialize frame := by
  have hvariant : ∀ (index : UInt32) (l : Bytes), Reads (deserializeFields index) l frame →
      Reads deserialize (serializeVariant index ++ l) frame :=
    fun index l hfields => (reads_variant index).bind hfields
  cases frame with
  | connectTcp streamId targetHost targetPort => exact hvariant 0 _ (reads_connectTcp h)
  | connectOk streamId => exact hvariant 1 _ (reads_u32 streamId).map
  | connectFail streamId reason => exact hvariant 2 _ (reads_connectFail h)
  | data streamId bytes => exact hvariant 3 _ (reads_data h)
  | close streamId => exact hvariant 4 _ (reads_u32 streamId).map
  | bandwidthVoucher sessionId bytesServed aurAmount clientAddress signature =>
    exact hvariant 5 _ (reads_bandwidthVoucher _ _ _ _ _)
  | ping => exact (reads_variant 6).last (Reads.pure ping)
  | pong => exact (reads_variant 7).last (Reads.pure pong)

end TunnelFrame

/-- What is stored or sent reads back. -/
theorem encodings_round_trip :
    (∀ acc : Account, Account.fromBytes acc.toBytes = .ok acc) ∧
    (∀ block : Block, block.Representable →
      Bincode.deserialize Block.deserialize block.serialize = .ok block) ∧
    ∀ frame : TunnelFrame, frame.Representable → TunnelFrame.fromBytes frame.toBytes = .ok frame :=
  ⟨fun acc => (Account.reads acc).parse_exact, fun _ h => (Block.reads h).parse_exact,
    fun _ h => (TunnelFrame.reads h).parse_exact⟩

def sampleQc : QuorumCertificate where
  blockHash := Hash.zero
  height := 1
  round := 0
  votes := [⟨Hash.zero, 1, 0, .preCommit, Address.zero, FixedBytes.zero 32, FixedBytes.zero 64⟩]
  totalVotingPower := 3
  signersVotingPower := 3

def sampleBlock : Block where
  header := ⟨1, ascii "aura", 2, 0, Hash.zero, Hash.zero, Hash.zero, Hash.zero, 7, Address.zero,
    FixedBytes.zero 64⟩
  transactions := [⟨Address.zero, Address.zero, 5, 1, 0, .registerValidator, [1, 2, 3],
    FixedBytes.zero 32, FixedBytes.zero 64⟩]
  lastCommitQc := some sampleQc

theorem sampleBlock_representable : sampleBlock.Representable where
  header := ⟨⟨"aura", by decide⟩, by decide⟩
  length := by decide
  transactions := by
    intro tx htx
    rw [List.mem_singleton.mp htx]
    show 3 < 2 ^ 64
    decide
  lastCommitQc := by
    rintro qc ⟨⟩
    show 1 < 2 ^ 64
    decide

theorem sampleBlock_reads_back :
    Bincode.deserialize Block.deserialize sampleBlock.serialize = .ok sampleBlock ∧
    TunnelFrame.fromBytes (TunnelFrame.connectTcp 1 (ascii "aura") 443).toBytes =
      .ok (TunnelFrame.connectTcp 1 (ascii "aura") 443) :=
  ⟨encodings_round_trip.2.1 sampleBlock sampleBlock_representable,
    encodings_round_trip.2.2 _ ⟨⟨"aura", by decide⟩, by decide⟩⟩

/-- The crates with bincode's own encodings in place of the assumed ones. -/
def Crates.withBincode (c : Crates) : Crates :=
  { c with
    serializeAccount := Account.toBytes
    deserializeAccount := fun bytes => (Account.fromBytes bytes).toOption
    serializeBlock := fun block => if block.Representable then some block.serialize else none
    deserializeBlock := fun bytes => (Bincode.deserialize Block.deserialize bytes).toOption }

theorem Crates.withBincode_blockRoundTrip (c : Crates) : c.withBincode.BlockRoundTrip := by
  intro block bytes hbytes
  by_cases hb : block.Representable
  · have he : block.serialize = bytes := by simpa [withBincode, hb] using hbytes
    have h := (Block.reads hb).toOption_parse
    simp only [withBincode, ← he]
    exact h
  · simp [withBincode, hb] at hbytes

end AuraChain
