import AuraChain.Word

/-! The data of the node: `[u8; n]` as `FixedBytes n`, which compares
lexicographically, accounts, transactions, votes, headers, blocks and the
genesis configuration. Strings are the list of their UTF-8 bytes. -/

namespace AuraChain

structure FixedBytes (n : Nat) where
  bytes : Bytes
  size : bytes.length = n
  deriving DecidableEq

namespace FixedBytes

theorem ext {n : Nat} {a b : FixedBytes n} (h : a.bytes = b.bytes) : a = b := by
  cases a; cases b; cases h; rfl

instance {n : Nat} : Ord (FixedBytes n) := ⟨compareOn bytes⟩

instance {n : Nat} : Std.TransOrd (FixedBytes n) :=
  inferInstanceAs (Std.TransCmp (compareOn bytes))

instance {n : Nat} : Std.LawfulEqOrd (FixedBytes n) where
  compare_self {a} := show compare a.bytes a.bytes = .eq from Std.ReflOrd.compare_self
  eq_of_compare {a b} h :=
    ext (Std.LawfulEqOrd.eq_of_compare (show compare a.bytes b.bytes = .eq from h))

def zero (n : Nat) : FixedBytes n := ⟨List.replicate n 0, List.length_replicate⟩

def ofSlice? (n : Nat) (l : Bytes) : Option (FixedBytes n) :=
  if h : l.length = n then some ⟨l, h⟩ else none

def ofNat (n k : Nat) : FixedBytes n := ⟨bigEndian n k, bigEndian_length n k⟩

end FixedBytes

abbrev Hash := FixedBytes 32
abbrev Address := FixedBytes 20
abbrev PublicKey := FixedBytes 32
abbrev SecretKey := FixedBytes 32
abbrev Signature := FixedBytes 64

instance : Std.TransOrd Hash := inferInstance
instance : Std.TransOrd Address := inferInstance

def Hash.zero : Hash := FixedBytes.zero 32

def Address.zero : Address := FixedBytes.zero 20

structure Account where
  balance : UInt64
  nonce : UInt64
  stakedAmount : UInt64
  isValidator : Bool
  validatorPubkey : Option PublicKey
  deriving DecidableEq

def Account.default : Account := ⟨0, 0, 0, false, none⟩

def Account.new (balance nonce : UInt64) : Account := ⟨balance, nonce, 0, false, none⟩

inductive TransactionType
  | transfer
  | stake
  | unstake
  | registerValidator
  deriving DecidableEq

structure Transaction where
  sender : Address
  recipient : Address
  amount : UInt64
  fee : UInt64
  nonce : UInt64
  txType : TransactionType
  payload : Bytes
  pubkey : PublicKey
  signature : Signature
  deriving DecidableEq

inductive VoteType
  | preVote
  | preCommit
  deriving DecidableEq

structure Vote where
  blockHash : Hash
  height : UInt64
  round : UInt32
  voteType : VoteType
  validator : Address
  pubkey : PublicKey
  signature : Signature
  deriving DecidableEq

structure QuorumCertificate where
  blockHash : Hash
  height : UInt64
  round : UInt32
  votes : List Vote
  totalVotingPower : UInt64
  signersVotingPower : UInt64
  deriving DecidableEq

structure BlockHeader where
  version : UInt32
  chainId : Bytes
  height : UInt64
  round : UInt32
  prevHash : Hash
  merkleRoot : Hash
  stateRoot : Hash
  validatorSetHash : Hash
  timestamp : UInt64
  proposer : Address
  signature : Signature
  deriving DecidableEq

structure Block where
  header : BlockHeader
  transactions : List Transaction
  lastCommitQc : Option QuorumCertificate
  deriving DecidableEq

structure GenesisAccount where
  address : Address
  balance : UInt64

structure GenesisValidator where
  address : Address
  pubkey : PublicKey
  stake : UInt64

structure GenesisConfig where
  chainId : Bytes
  timestamp : UInt64
  accounts : List GenesisAccount
  validators : List GenesisValidator
  initialStateRoot : Hash

inductive PrimitiveError
  | invalidSignature
  | addressMismatch
  | merkleRootMismatch (expected calculated : Hash)
  deriving DecidableEq

/-- The third-party crates that the node calls: BLAKE3, Ed25519 and bincode.
A key pair is its secret key, so that its public key is always the derived one.
`serializeBlock` fails where bincode returns an error. -/
structure Crates where
  blake3 : Bytes → Hash
  verifyingKey : SecretKey → PublicKey
  sign : SecretKey → Bytes → Signature
  isVerifyingKey : PublicKey → Bool
  verifyStrict : PublicKey → Bytes → Signature → Bool
  serializeAccount : Account → Bytes
  deserializeAccount : Bytes → Option Account
  serializeBlock : Block → Option Bytes
  deserializeBlock : Bytes → Option Block

/-- What Ed25519 documents: a derived public key is a valid key, and a
signature made with the secret key verifies under it. -/
structure Crates.SignVerifies (c : Crates) : Prop where
  key : ∀ sk, c.isVerifyingKey (c.verifyingKey sk) = true
  signature : ∀ sk m, c.verifyStrict (c.verifyingKey sk) m (c.sign sk m) = true

/-- What bincode documents: a block that was serialized reads back. -/
def Crates.BlockRoundTrip (c : Crates) : Prop :=
  ∀ b bytes, c.serializeBlock b = some bytes → c.deserializeBlock bytes = some b

/-- The same for accounts, whose serialization never fails. -/
def Crates.AccountRoundTrip (c : Crates) : Prop :=
  ∀ acc, c.deserializeAccount (c.serializeAccount acc) = some acc

end AuraChain
