import AuraChain.Engine

/-! A computable instance of the third-party crates that keeps everything
documented about them. A digest is the value of the data in base 257, a
signature is a digest of key and message, and an account has bincode's layout.
Blocks are numbered: those of a given list serialize, to their position. -/

namespace AuraChain.Reference

def digest (data : Bytes) : Nat := data.foldl (fun acc b => acc * 257 + (b.toNat + 1)) 0

def sign (key : SecretKey) (message : Bytes) : Signature :=
  FixedBytes.ofNat 64 (digest (key.bytes ++ message))

def encodeKey : Option PublicKey → Bytes
  | none => [0]
  | some key => 1 :: littleEndian 8 32 ++ key.bytes

def encodeAccount (acc : Account) : Bytes :=
  littleEndian 8 acc.balance.toNat ++ (littleEndian 8 acc.nonce.toNat ++
    (littleEndian 8 acc.stakedAmount.toNat ++
      (acc.isValidator.toUInt8 :: encodeKey acc.validatorPubkey)))

def word (l : Bytes) : UInt64 := UInt64.fromBeBytes (l.take 8).reverse

def decodeKey : Bytes → Option PublicKey
  | 1 :: rest => FixedBytes.ofSlice? 32 (rest.drop 8)
  | _ => none

def decodeAccount (l : Bytes) : Option Account :=
  match l.drop 24 with
  | flag :: key => some ⟨word l, word (l.drop 8), word (l.drop 16), flag == 1, decodeKey key⟩
  | [] => none

def crates (blocks : List Block) : Crates where
  blake3 data := FixedBytes.ofNat 32 (digest data)
  verifyingKey key := key
  sign := sign
  isVerifyingKey _ := true
  verifyStrict key message signature := signature == sign key message
  serializeAccount := encodeAccount
  deserializeAccount := decodeAccount
  serializeBlock b := if b ∈ blocks then some (List.replicate (blocks.idxOf b) 0) else none
  deserializeBlock bytes := blocks[bytes.length]?

def secretKey (k : UInt8) : SecretKey := ⟨List.replicate 32 k, List.length_replicate⟩

def address (k : UInt8) : Address := Address.fromPubkey (crates []) (secretKey k)

def env : Env := ⟨0, none, fun overlay => overlay.accounts.toList, fun _ => .refl _⟩

def genesis (keys : List UInt8) : GenesisConfig where
  chainId := ascii "aura-testnet"
  timestamp := 1700000000
  accounts := [⟨address 2, 10000000⟩, ⟨address 3, 5000000⟩]
  validators := keys.map fun k => ⟨address k, secretKey k, 1000000⟩
  initialStateRoot := Hash.zero

def genesisBlock (keys : List UInt8) : Block := (genesis keys).toGenesisBlock (crates [])

def stateDb (keys : List UInt8) (blocks : List Block) : StateDB :=
  ((StateDB.openInMemory (crates blocks)).applyGenesis (crates blocks) none (genesis keys)).1

def transaction (txType : TransactionType) (key : UInt8) (recipient : Address)
    (amount fee nonce : UInt64) : Transaction :=
  let tx : Transaction :=
    ⟨address key, recipient, amount, fee, nonce, txType, [], secretKey key, FixedBytes.zero 64⟩
  { tx with signature := sign (secretKey key) tx.signingBytes }

def transfer (nonce : UInt64) : Transaction :=
  transaction .transfer 2 (address 3) 1000 200 nonce

def header (height : UInt64) (prevHash : Hash) (timestamp : UInt64) (txs : List Transaction) :
    BlockHeader where
  version := 1
  chainId := ascii "aura-testnet"
  height := height
  round := 0
  prevHash := prevHash
  merkleRoot := (MerkleTree.fromLeafHashes (crates []) (txs.map (Transaction.txHash (crates [])))).root
  stateRoot := Hash.zero
  validatorSetHash := Hash.zero
  timestamp := timestamp
  proposer := address 1
  signature := FixedBytes.zero 64

def block (height : UInt64) (prevHash : Hash) (timestamp : UInt64) (txs : List Transaction) : Block :=
  ⟨header height prevHash timestamp txs, txs, none⟩

def engine (keys : List UInt8) (key : UInt8) (blocks : List Block) : ConsensusEngine :=
  ConsensusEngine.new (crates blocks) (secretKey key) (stateDb keys blocks)
    (Mempool.new MempoolConfig.default) (ascii "aura-testnet")

theorem littleEndian_length (width n : Nat) : (littleEndian width n).length = width := by
  simp [littleEndian]

theorem word_append (n : UInt64) (rest : Bytes) : word (littleEndian 8 n.toNat ++ rest) = n := by
  rw [word, List.take_left' (littleEndian_length 8 _), littleEndian, List.reverse_reverse]
  exact UInt64.fromBeBytes_toBeBytes n

theorem decodeKey_encodeKey (key : Option PublicKey) : decodeKey (encodeKey key) = key := by
  cases key with
  | none => rfl
  | some key =>
    have hd : (littleEndian 8 32 ++ key.bytes).drop 8 = key.bytes :=
      List.drop_left' (littleEndian_length 8 32)
    rw [encodeKey, List.cons_append, decodeKey, hd, FixedBytes.ofSlice?, dif_pos key.size]

theorem accountRoundTrip (blocks : List Block) : (crates blocks).AccountRoundTrip := by
  intro acc
  have hskip : ∀ (n : Nat) (rest : Bytes), (littleEndian 8 n ++ rest).drop 8 = rest :=
    fun n rest => List.drop_left' (littleEndian_length 8 n)
  have h8 : (encodeAccount acc).drop 8 = littleEndian 8 acc.nonce.toNat ++
      (littleEndian 8 acc.stakedAmount.toNat ++
        (acc.isValidator.toUInt8 :: encodeKey acc.validatorPubkey)) := hskip _ _
  have h16 : (encodeAccount acc).drop 16 = littleEndian 8 acc.stakedAmount.toNat ++
      (acc.isValidator.toUInt8 :: encodeKey acc.validatorPubkey) := by
    rw [← List.drop_drop (i := 8) (j := 8), h8, hskip]
  have h24 : (encodeAccount acc).drop 24 =
      acc.isValidator.toUInt8 :: encodeKey acc.validatorPubkey := by
    rw [← List.drop_drop (i := 8) (j := 16), h16, hskip]
  have hflag : (acc.isValidator.toUInt8 == 1) = acc.isValidator := by
    cases acc.isValidator <;> rfl
  change decodeAccount (encodeAccount acc) = some acc
  simp only [decodeAccount, h24, h8, h16, hflag, decodeKey_encodeKey, word_append]
  rw [encodeAccount, word_append]

theorem signVerifies (blocks : List Block) : (crates blocks).SignVerifies where
  key _ := rfl
  signature _ _ := beq_self_eq_true _

theorem blockRoundTrip (blocks : List Block) : (crates blocks).BlockRoundTrip := by
  intro b bytes h
  by_cases hb : b ∈ blocks
  · simp only [crates, if_pos hb, Option.some.injEq] at h
    rw [← h]
    simp [crates, List.getElem?_idxOf hb]
  · simp [crates, hb] at h

theorem address_two_ne_three : address 2 ≠ address 3 := by decide +kernel

theorem signingBytes_signature (tx : Transaction) (signature : Signature) :
    Transaction.signingBytes { tx with signature := signature } = tx.signingBytes := rfl

theorem verify_signed (blocks : List Block) (tx : Transaction) (key : UInt8)
    (hsender : tx.sender = address key) (hpubkey : tx.pubkey = secretKey key) :
    Transaction.verify (crates blocks)
      { tx with signature := sign (secretKey key) tx.signingBytes } = .ok () := by
  have haddress : Address.fromPubkey (crates blocks) tx.pubkey = tx.sender := by
    rw [hsender, hpubkey]
    rfl
  have hverifies : PublicKey.verify (crates blocks) tx.pubkey tx.signingBytes
      (sign (secretKey key) tx.signingBytes) = true := by
    rw [hpubkey]
    exact (signVerifies blocks).signature (secretKey key) tx.signingBytes
  have hmessage := signingBytes_signature tx (sign (secretKey key) tx.signingBytes)
  rw [Transaction.verify, hmessage]
  simp only [haddress, hverifies, ne_eq, not_true_eq_false, if_false, if_true]

theorem transaction_verify (blocks : List Block) (txType : TransactionType) (key : UInt8)
    (recipient : Address) (amount fee nonce : UInt64) :
    (transaction txType key recipient amount fee nonce).verify (crates blocks) = .ok () :=
  verify_signed blocks _ key rfl rfl

theorem transaction_stateless (blocks : List Block) (txType : TransactionType) (key : UInt8)
    (recipient : Address) (amount fee nonce : UInt64) (hfee : minTransactionFee ≤ fee)
    (hamount : txType = .transfer → amount ≠ 0) :
    validateStateless (crates blocks) (transaction txType key recipient amount fee nonce) = .ok () :=
  validateStateless_ok_iff.mpr ⟨by simp [transaction, Transaction.sizeBytes, maxTransactionSize],
    hfee, hamount, transaction_verify blocks txType key recipient amount fee nonce⟩

theorem block_validateBasic (height : UInt64) (prevHash : Hash) (timestamp : UInt64)
    {txs : List Transaction} (h : ∀ tx ∈ txs, tx.verify (crates []) = .ok ()) :
    (block height prevHash timestamp txs).validateBasic (crates []) = .ok () :=
  Block.validateBasic_ok_iff.mpr ⟨rfl, h⟩

theorem foldl_digest (l : Bytes) (a : Nat) :
    l.foldl (fun acc b => acc * 257 + (b.toNat + 1)) a = a * 257 ^ l.length + digest l := by
  induction l generalizing a with
  | nil => simp [digest]
  | cons b l ih =>
    have hd : digest (b :: l) = (0 * 257 + (b.toNat + 1)) * 257 ^ l.length + digest l :=
      ih (0 * 257 + (b.toNat + 1))
    rw [List.foldl_cons, ih, hd, List.length_cons, pow_succ]
    ring

theorem digest_append (l r : Bytes) : digest (l ++ r) = digest l * 257 ^ r.length + digest r := by
  rw [digest, List.foldl_append, foldl_digest]
  rfl

theorem digest_cons (b : UInt8) (l : Bytes) :
    digest (b :: l) = (b.toNat + 1) * 257 ^ l.length + digest l := by
  simpa [digest] using foldl_digest l (b.toNat + 1)

theorem digest_lt (l : Bytes) : digest l < 257 ^ l.length := by
  induction l with
  | nil => simp [digest]
  | cons b l ih =>
    have hb : b.toNat + 1 ≤ 256 := b.toNat_lt
    have hm := Nat.mul_le_mul_right (257 ^ l.length) hb
    rw [digest_cons, List.length_cons, pow_succ]
    omega

/-- The digits of equally long data are unique in base 257. -/
theorem digest_inj {l r : Bytes} (hlen : l.length = r.length) (h : digest l = digest r) : l = r := by
  induction l generalizing r with
  | nil => exact (List.length_eq_zero_iff.mp hlen.symm).symm
  | cons a l ih =>
    cases r with
    | nil => simp at hlen
    | cons b r =>
      have hl : l.length = r.length := by simpa using hlen
      have hlt : digest l < 257 ^ r.length := hl ▸ digest_lt l
      have hpos : 0 < 257 ^ r.length := Nat.pow_pos (by omega)
      rw [digest_cons, digest_cons, hl] at h
      have hleft := Nat.div_mod_unique hpos (a := (b.toNat + 1) * 257 ^ r.length + digest r)
        (d := a.toNat + 1) (c := digest l)
      have hright := Nat.div_mod_unique hpos (a := (b.toNat + 1) * 257 ^ r.length + digest r)
        (d := b.toNat + 1) (c := digest r)
      obtain ⟨hd, hm⟩ := hleft.mpr ⟨by rw [← h]; ring, hlt⟩
      obtain ⟨hd', hm'⟩ := hright.mpr ⟨by ring, digest_lt r⟩
      have hab : a = b := UInt8.toNat_inj.mp (by omega)
      rw [hab, ih hl (hm.symm.trans hm')]

theorem blake3_eq {blocks : List Block} {l r : Bytes}
    (h : (crates blocks).blake3 l = (crates blocks).blake3 r) :
    digest l ≡ digest r [MOD 256 ^ 32] := by
  have hb : bigEndian 32 (digest l) = bigEndian 32 (digest r) := by
    simpa only [crates, FixedBytes.ofNat, FixedBytes.mk.injEq] using h
  have he := congrArg ofBigEndian hb
  rw [ofBigEndian_bigEndian 32 (digest l), ofBigEndian_bigEndian 32 (digest r)] at he
  exact he

theorem digest_address_lt (a : Address) : digest a.bytes < 256 ^ 32 := by
  have hle : 257 ^ 20 ≤ 256 ^ 32 := by norm_num
  have hlt := digest_lt a.bytes
  rw [a.size] at hlt
  exact hlt.trans_le hle

/-- No two addresses share a key of the state tree: what differs in the hashed
data are its last twenty bytes, and they are too few to wrap. -/
theorem addressKeyHash_injective (blocks : List Block) :
    Function.Injective (addressKeyHash (crates blocks)) := by
  intro a b h
  have hmod := blake3_eq h
  rw [digest_append, digest_append _ b.bytes, a.size, b.size] at hmod
  have hc := Nat.ModEq.add_left_cancel' _ hmod
  have he := hc.eq_of_lt_of_lt (digest_address_lt a) (digest_address_lt b)
  exact FixedBytes.ext (digest_inj (a.size.trans b.size.symm) he)

end AuraChain.Reference
