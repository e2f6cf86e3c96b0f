import AuraChain.Merkle

/-! What is signed and hashed for transactions, votes and headers, and the
checks of the primitives crate. Every caller of `PublicKey::verify` replaces
its error, so that it is a Boolean here. Power is compared in 128 bits, where
the products cannot overflow. -/

namespace AuraChain

def Address.fromPubkey (c : Crates) (pubkey : PublicKey) : Address :=
  ⟨(c.hashWithDomain domainAddress pubkey.bytes).bytes.take 20, by
    rw [List.length_take, (c.hashWithDomain domainAddress pubkey.bytes).size]; rfl⟩

def PublicKey.verify (c : Crates) (pubkey : PublicKey) (message : Bytes)
    (signature : Signature) : Bool :=
  c.isVerifyingKey pubkey && c.verifyStrict pubkey message signature

def TransactionType.typeByte : TransactionType → UInt8
  | transfer => 0
  | stake => 1
  | unstake => 2
  | registerValidator => 3

namespace Transaction

def signingBytes (tx : Transaction) : Bytes :=
  tx.sender.bytes ++ tx.recipient.bytes ++ tx.amount.toBeBytes ++ tx.fee.toBeBytes ++
    tx.nonce.toBeBytes ++ [tx.txType.typeByte] ++ bigEndian 4 tx.payload.length ++
    tx.payload ++ tx.pubkey.bytes

def sign (c : Crates) (tx : Transaction) (keypair : SecretKey) :
    Except PrimitiveError Transaction :=
  if Address.fromPubkey c (c.verifyingKey keypair) ≠ tx.sender then .error .addressMismatch
  else
    let tx := { tx with pubkey := c.verifyingKey keypair }
    .ok { tx with signature := c.sign keypair tx.signingBytes }

def txHash (c : Crates) (tx : Transaction) : Hash :=
  c.hashWithDomain domainTx (tx.signingBytes ++ tx.signature.bytes)

def verify (c : Crates) (tx : Transaction) : Except PrimitiveError Unit :=
  if Address.fromPubkey c tx.pubkey ≠ tx.sender then .error .addressMismatch
  else if PublicKey.verify c tx.pubkey tx.signingBytes tx.signature then .ok ()
  else .error .invalidSignature

def sizeBytes (tx : Transaction) : Nat := 165 + tx.payload.length

def feePerByte (tx : Transaction) : UInt64 := tx.fee / UInt64.ofNat tx.sizeBytes

end Transaction

def VoteType.typeByte : VoteType → UInt8
  | preVote => 0
  | preCommit => 1

namespace Vote

def signingBytes (blockHash : Hash) (height : UInt64) (round : UInt32) (voteType : VoteType)
    (validator : Address) : Bytes :=
  blockHash.bytes ++ height.toBeBytes ++ round.toBeBytes ++ [voteType.typeByte] ++ validator.bytes

def newSigned (c : Crates) (blockHash : Hash) (height : UInt64) (round : UInt32)
    (voteType : VoteType) (keypair : SecretKey) : Vote :=
  let pubkey := c.verifyingKey keypair
  let validator := Address.fromPubkey c pubkey
  { blockHash, height, round, voteType, validator, pubkey,
    signature := c.sign keypair (signingBytes blockHash height round voteType validator) }

def verify (c : Crates) (vote : Vote) : Except PrimitiveError Unit :=
  if Address.fromPubkey c vote.pubkey ≠ vote.validator then .error .addressMismatch
  else if PublicKey.verify c vote.pubkey
      (signingBytes vote.blockHash vote.height vote.round vote.voteType vote.validator)
      vote.signature then .ok ()
  else .error .invalidSignature

def voteHash (c : Crates) (vote : Vote) : Hash :=
  c.hashWithDomain domainVote
    (signingBytes vote.blockHash vote.height vote.round vote.voteType vote.validator)

theorem newSigned_verify {c : Crates} (hsign : c.SignVerifies) (blockHash : Hash)
    (height : UInt64) (round : UInt32) (voteType : VoteType) (keypair : SecretKey) :
    (newSigned c blockHash height round voteType keypair).verify c = .ok () := by
  simp [newSigned, verify, PublicKey.verify, hsign.key, hsign.signature]

end Vote

def QuorumCertificate.isValidQuorum (qc : QuorumCertificate) : Bool :=
  if qc.totalVotingPower = 0 then false
  else decide (2 * qc.totalVotingPower.toNat < 3 * qc.signersVotingPower.toNat)

namespace BlockHeader

def signingBytes (h : BlockHeader) : Bytes :=
  h.version.toBeBytes ++ bigEndian 4 h.chainId.length ++ h.chainId ++ h.height.toBeBytes ++
    h.round.toBeBytes ++ h.prevHash.bytes ++ h.merkleRoot.bytes ++ h.stateRoot.bytes ++
    h.validatorSetHash.bytes ++ h.timestamp.toBeBytes ++ h.proposer.bytes

def sign (c : Crates) (h : BlockHeader) (keypair : SecretKey) : Except PrimitiveError BlockHeader :=
  if Address.fromPubkey c (c.verifyingKey keypair) ≠ h.proposer then .error .addressMismatch
  else .ok { h with signature := c.sign keypair h.signingBytes }

def headerHash (c : Crates) (h : BlockHeader) : Hash :=
  c.hashWithDomain domainBlockHeader (h.signingBytes ++ h.signature.bytes)

def verifySignature (c : Crates) (h : BlockHeader) (pubkey : PublicKey) :
    Except PrimitiveError Unit :=
  if Address.fromPubkey c pubkey ≠ h.proposer then .error .addressMismatch
  else if PublicKey.verify c pubkey h.signingBytes h.signature then .ok ()
  else .error .invalidSignature

end BlockHeader

theorem forM_eq_ok_iff {ε α : Type} {f : α → Except ε Unit} {l : List α} :
    l.forM f = .ok () ↔ ∀ a ∈ l, f a = .ok () := by
  induction l with
  | nil => exact iff_of_true rfl (by simp)
  | cons a l ih =>
    rw [List.forall_mem_cons]
    cases ha : f a with
    | error e => simp [ha, bind, Except.bind]
    | ok u => simpa [ha, bind, Except.bind] using ih

namespace Block

def computeMerkleRoot (c : Crates) (block : Block) : Hash :=
  (MerkleTree.fromLeafHashes c (block.transactions.map (Transaction.txHash c))).root

def hash (c : Crates) (block : Block) : Hash := block.header.headerHash c

def validateBasic (c : Crates) (block : Block) : Except PrimitiveError Unit :=
  if block.computeMerkleRoot c ≠ block.header.merkleRoot then
    .error (.merkleRootMismatch block.header.merkleRoot (block.computeMerkleRoot c))
  else block.transactions.forM (Transaction.verify c)

theorem validateBasic_ok_iff {c : Crates} {block : Block} : block.validateBasic c = .ok () ↔
    block.computeMerkleRoot c = block.header.merkleRoot ∧
      ∀ tx ∈ block.transactions, tx.verify c = .ok () := by
  rw [validateBasic]
  by_cases hroot : block.computeMerkleRoot c = block.header.merkleRoot
  · rw [if_neg (not_not.mpr hroot), forM_eq_ok_iff]
    simp [hroot]
  · simp [hroot]

end Block

namespace GenesisConfig

def validatorSetHash (c : Crates) (genesis : GenesisConfig) : Hash :=
  c.hashBytes (genesis.validators.flatMap fun v =>
    v.address.bytes ++ v.pubkey.bytes ++ v.stake.toBeBytes)

def toGenesisBlock (c : Crates) (genesis : GenesisConfig) : Block where
  header := {
    version := 1
    chainId := genesis.chainId
    height := 0
    round := 0
    prevHash := Hash.zero
    merkleRoot := Hash.zero
    stateRoot := genesis.initialStateRoot
    validatorSetHash := genesis.validatorSetHash c
    timestamp := genesis.timestamp
    proposer := Address.zero
    signature := FixedBytes.zero 64 }
  transactions := []
  lastCommitQc := none

end GenesisConfig

end AuraChain
