import AuraChain.BlockBinding

/-! What the three kinds of signed messages spell. Each hash fixes the fields
behind it. The bytes that are signed carry no mark of their kind, and those of
a header can be those of a transaction. -/

namespace AuraChain

theorem UInt64.toBeBytes_fromBeBytes {l : Bytes} (h : l.length = 8) :
    (UInt64.fromBeBytes l).toBeBytes = l := by
  have hlt := ofBigEndian_lt l
  rw [h] at hlt
  rw [UInt64.fromBeBytes, UInt64.toBeBytes, UInt64.toNat_ofNat_of_lt' hlt, ← h,
    bigEndian_ofBigEndian]

theorem take_append_slice {l : Bytes} {i j k : Nat} (h : i + j = k) :
    l.take i ++ (l.drop i).take j = l.take k := by
  rw [← h, List.take_add]

namespace Vote

def signingData (vote : Vote) : Bytes :=
  signingBytes vote.blockHash vote.height vote.round vote.voteType vote.validator

def hashInput (vote : Vote) : Bytes × Bytes := (domainVote, vote.signingData)

theorem signingData_length (vote : Vote) : vote.signingData.length = 65 := by
  simp [signingData, signingBytes, FixedBytes.size]

theorem typeByte_injective : Function.Injective VoteType.typeByte := by
  intro s t h
  cases s <;> cases t <;> first | rfl | exact absurd h (by decide)

theorem signingData_inj {v w : Vote} (h : v.signingData = w.signingData) :
    v.blockHash = w.blockHash ∧ v.height = w.height ∧ v.round = w.round ∧
      v.voteType = w.voteType ∧ v.validator = w.validator := by
  simp only [signingData, signingBytes] at h
  obtain ⟨hrest, hvalidator⟩ := FixedBytes.append_inj h
  obtain ⟨hrest, htype⟩ := List.append_inj' hrest rfl
  obtain ⟨hrest, hround⟩ := List.append_inj' hrest (by simp)
  obtain ⟨hblock, hheight⟩ := List.append_inj' hrest (by simp)
  exact ⟨FixedBytes.ext hblock, UInt64.toBeBytes_injective hheight,
    UInt32.toBeBytes_injective hround, typeByte_injective (List.cons.inj htype).1, hvalidator⟩

end Vote

/-- Where nothing that is hashed collides, the hash of a transaction or a header
fixes all of it, and that of a vote what is signed. -/
theorem hashes_bind_fields {c : Crates} {inputs : Set (Bytes × Bytes)}
    (hinj : c.InjectiveOn inputs) :
    (∀ t u : Transaction, t.hashInput ∈ inputs → u.hashInput ∈ inputs →
      t.txHash c = u.txHash c → t = u) ∧
    (∀ g h : BlockHeader, g.hashInput ∈ inputs → h.hashInput ∈ inputs →
      g.headerHash c = h.headerHash c → g = h) ∧
    (∀ v w : Vote, v.hashInput ∈ inputs → w.hashInput ∈ inputs → v.voteHash c = w.voteHash c →
      v.blockHash = w.blockHash ∧ v.height = w.height ∧ v.round = w.round ∧
        v.voteType = w.voteType ∧ v.validator = w.validator) := by
  refine ⟨fun t u ht hu he => ?_, fun g h hg hh he => ?_, fun v w hv hw he => ?_⟩
  · exact Transaction.hashInput_injective (hinj ht hu he)
  · exact BlockHeader.hashInput_injective (hinj hg hh he)
  · have hinput : v.hashInput = w.hashInput := hinj hv hw he
    exact Vote.signingData_inj (congrArg Prod.snd hinput)

namespace Transaction

theorem signingBytes_length (tx : Transaction) :
    tx.signingBytes.length = 101 + tx.payload.length := by
  simp only [signingBytes, List.length_append, FixedBytes.size, UInt64.toBeBytes_length,
    bigEndian_length, List.length_singleton]
  omega

/-- The bytes are those of a transaction with a payload of the given size. -/
def Spells (bytes : Bytes) (payload : Nat) : Prop :=
  bytes.length = 101 + payload ∧ (∃ t : TransactionType, bytes[64]? = some t.typeByte) ∧
    (bytes.drop 65).take 4 = bigEndian 4 payload

theorem spells_signingBytes (tx : Transaction) : Spells tx.signingBytes tx.payload.length := by
  have hsplit : tx.signingBytes = (tx.sender.bytes ++ tx.recipient.bytes ++ tx.amount.toBeBytes ++
      tx.fee.toBeBytes ++ tx.nonce.toBeBytes) ++ (tx.txType.typeByte ::
        (bigEndian 4 tx.payload.length ++ (tx.payload ++ tx.pubkey.bytes))) := by
    simp [signingBytes]
  have hlength : (tx.sender.bytes ++ tx.recipient.bytes ++ tx.amount.toBeBytes ++
      tx.fee.toBeBytes ++ tx.nonce.toBeBytes).length = 64 := by
    simp [FixedBytes.size]
  refine ⟨tx.signingBytes_length, ⟨tx.txType, ?_⟩, ?_⟩
  · rw [hsplit, List.getElem?_append_right (by omega), hlength]
    rfl
  · rw [hsplit, ← List.drop_drop (i := 1) (j := 64), List.drop_left' hlength]
    exact List.take_left' (bigEndian_length 4 _)

/-- The transaction that is read off the bytes, field by field. -/
theorem exists_signingBytes {bytes : Bytes} {payload : Nat} (h : Spells bytes payload) :
    ∃ tx : Transaction, tx.signingBytes = bytes := by
  obtain ⟨hlength, ⟨t, ht⟩, hpayload⟩ := h
  have hslice : ∀ i j, i + j ≤ bytes.length → ((bytes.drop i).take j).length = j := by
    intro i j hij
    rw [List.length_take, List.length_drop]
    omega
  refine ⟨⟨⟨bytes.take 20, hslice 0 20 (by omega)⟩, ⟨(bytes.drop 20).take 20, hslice _ _ (by omega)⟩,
    UInt64.fromBeBytes ((bytes.drop 40).take 8), UInt64.fromBeBytes ((bytes.drop 48).take 8),
    UInt64.fromBeBytes ((bytes.drop 56).take 8), t, (bytes.drop 69).take payload,
    ⟨(bytes.drop (69 + payload)).take 32, hslice _ _ (by omega)⟩, FixedBytes.zero 64⟩, ?_⟩
  have htype : [t.typeByte] = (bytes.drop 64).take 1 := by
    rw [List.take_one, List.head?_drop, ht]
    rfl
  simp only [signingBytes]
  rw [UInt64.toBeBytes_fromBeBytes (hslice _ _ (by omega)),
    UInt64.toBeBytes_fromBeBytes (hslice _ _ (by omega)),
    UInt64.toBeBytes_fromBeBytes (hslice _ _ (by omega)), htype, hslice _ _ (by omega), ← hpayload,
    take_append_slice rfl, take_append_slice rfl, take_append_slice rfl, take_append_slice rfl,
    take_append_slice rfl, take_append_slice rfl, take_append_slice rfl, take_append_slice rfl,
    List.take_of_length_le (by omega)]

end Transaction

namespace BlockHeader

/-- The fields between the length of the chain id and the state root. -/
def leadingFields (h : BlockHeader) : Bytes :=
  h.chainId ++ h.height.toBeBytes ++ h.round.toBeBytes ++ h.prevHash.bytes ++ h.merkleRoot.bytes

/-- Five bytes of the fields are the type of a transaction and the length of its
payload. -/
def ReadsAsTransaction (h : BlockHeader) : Prop :=
  (∃ t : TransactionType, h.leadingFields[56]? = some t.typeByte) ∧
    (h.leadingFields.drop 57).take 4 = bigEndian 4 (75 + h.chainId.length)

theorem leadingFields_length (h : BlockHeader) : h.leadingFields.length = h.chainId.length + 76 := by
  simp [leadingFields, FixedBytes.size]

theorem signingBytes_length (h : BlockHeader) :
    h.signingBytes.length = 176 + h.chainId.length := by
  simp only [signingBytes, List.length_append, FixedBytes.size, UInt64.toBeBytes_length,
    UInt32.toBeBytes_length, bigEndian_length]
  omega

theorem spells_iff (h : BlockHeader) :
    Transaction.Spells h.signingBytes (75 + h.chainId.length) ↔ h.ReadsAsTransaction := by
  have hlength := h.leadingFields_length
  have hsplit : h.signingBytes = (h.version.toBeBytes ++ bigEndian 4 h.chainId.length) ++
      (h.leadingFields ++ (h.stateRoot.bytes ++ (h.validatorSetHash.bytes ++
        (h.timestamp.toBeBytes ++ h.proposer.bytes)))) := by
    simp [signingBytes, leadingFields]
  have hhead : (h.version.toBeBytes ++ bigEndian 4 h.chainId.length).length = 8 := by simp
  have hbyte : h.signingBytes[64]? = h.leadingFields[56]? := by
    rw [hsplit, List.getElem?_append_right (by omega), hhead, List.getElem?_append_left (by omega)]
  have hword : (h.signingBytes.drop 65).take 4 = (h.leadingFields.drop 57).take 4 := by
    rw [hsplit, ← List.drop_drop (i := 57) (j := 8), List.drop_left' hhead,
      List.drop_append_of_le_length (by omega), List.take_append_of_le_length]
    rw [List.length_drop]
    omega
  have hsize : h.signingBytes.length = 101 + (75 + h.chainId.length) := by
    rw [signingBytes_length]
    omega
  rw [Transaction.Spells, hbyte, hword, ReadsAsTransaction]
  exact and_iff_right hsize

theorem exists_transaction_iff (h : BlockHeader) :
    (∃ tx : Transaction, tx.signingBytes = h.signingBytes) ↔ h.ReadsAsTransaction := by
  rw [← spells_iff]
  constructor
  · rintro ⟨tx, he⟩
    have hspells := tx.spells_signingBytes
    have hlength := tx.signingBytes_length
    rw [he, signingBytes_length] at hlength
    have hpayload : tx.payload.length = 75 + h.chainId.length := by omega
    rwa [he, hpayload] at hspells
  · exact Transaction.exists_signingBytes

end BlockHeader

theorem Transaction.sign_signature {c : Crates} {tx tx' : Transaction} {keypair : SecretKey}
    (h : tx.sign c keypair = .ok tx') : tx'.signature = c.sign keypair tx'.signingBytes := by
  rw [Transaction.sign] at h
  split_ifs at h
  cases h
  rfl

theorem BlockHeader.sign_signature {c : Crates} {h h' : BlockHeader} {keypair : SecretKey}
    (hs : h.sign c keypair = .ok h') : h'.signature = c.sign keypair h'.signingBytes := by
  rw [BlockHeader.sign] at hs
  split_ifs at hs
  cases hs
  rfl

/-- Where the bytes are the same, each signature passes for the other. -/
theorem signatures_exchange {c : Crates} (hsign : c.SignVerifies) {keypair : SecretKey}
    {tx tx' : Transaction} {h h' : BlockHeader} (ht : tx.sign c keypair = .ok tx')
    (hh : h.sign c keypair = .ok h') (he : tx'.signingBytes = h'.signingBytes) :
    PublicKey.verify c (c.verifyingKey keypair) h'.signingBytes tx'.signature = true ∧
      PublicKey.verify c (c.verifyingKey keypair) tx'.signingBytes h'.signature = true := by
  rw [Transaction.sign_signature ht, BlockHeader.sign_signature hh, he]
  simp [PublicKey.verify, hsign.key, hsign.signature]

/-- Votes are signed on bytes of their own length. A header is signed on bytes
that no transaction is signed on exactly where it does not read as one. -/
theorem signed_kinds_differ_iff (h : BlockHeader) :
    (∀ (tx : Transaction) (v : Vote), tx.signingBytes ≠ h.signingBytes ∧
      tx.signingBytes ≠ v.signingData ∧ h.signingBytes ≠ v.signingData) ↔
      ¬ h.ReadsAsTransaction := by
  rw [← h.exists_transaction_iff, not_exists]
  constructor
  · intro hdiffer tx
    exact (hdiffer tx ⟨Hash.zero, 0, 0, .preVote, Address.zero, FixedBytes.zero 32,
      FixedBytes.zero 64⟩).1
  · intro hnone tx v
    have hvote := v.signingData_length
    refine ⟨hnone tx, fun he => ?_, fun he => ?_⟩
    · have hlength := tx.signingBytes_length
      rw [he, hvote] at hlength
      omega
    · have hlength := h.signingBytes_length
      rw [he, hvote] at hlength
      omega

namespace SignedBytes

open Reference

/-- With the chain id of the testnet the five bytes are the first of the Merkle
root: a transfer with a payload of 87 bytes. -/
def collidingHeader : BlockHeader :=
  { header 1 Hash.zero 0 [] with
    merkleRoot := ⟨0 :: bigEndian 4 87 ++ List.replicate 27 0, rfl⟩, proposer := Address.zero }

def collidingTransaction : Transaction where
  sender := ⟨bigEndian 4 1 ++ bigEndian 4 12 ++ ascii "aura-testnet", rfl⟩
  recipient := ⟨bigEndian 8 1 ++ List.replicate 12 0, rfl⟩
  amount := 0
  fee := 0
  nonce := 0
  txType := .transfer
  payload := List.replicate 87 0
  pubkey := FixedBytes.zero 32
  signature := FixedBytes.zero 64

def sampleVote (height : UInt64) : Vote :=
  ⟨Hash.zero, height, 0, .preVote, Address.zero, FixedBytes.zero 32, FixedBytes.zero 64⟩

theorem signed_kinds_collide : ¬ ∀ (tx : Transaction) (h : BlockHeader) (v : Vote),
    tx.signingBytes ≠ h.signingBytes ∧ tx.signingBytes ≠ v.signingData ∧
      h.signingBytes ≠ v.signingData := by
  intro hclaim
  exact (hclaim collidingTransaction collidingHeader (sampleVote 1)).1 (by decide +kernel)

/-- The inputs of two messages of each kind. -/
def sampleInputs : List (Bytes × Bytes) :=
  [(transfer 1).hashInput, (transfer 2).hashInput, (header 1 Hash.zero 0 []).hashInput,
    (header 2 Hash.zero 0 []).hashInput, (sampleVote 1).hashInput, (sampleVote 2).hashInput]

theorem hashes_bind_fields_samples :
    ((transfer 1).txHash (crates []) = (transfer 2).txHash (crates []) →
      transfer 1 = transfer 2) ∧
    ((header 1 Hash.zero 0 []).headerHash (crates []) =
      (header 2 Hash.zero 0 []).headerHash (crates []) →
      header 1 Hash.zero 0 [] = header 2 Hash.zero 0 []) ∧
    ((sampleVote 1).voteHash (crates []) = (sampleVote 2).voteHash (crates []) →
      (1 : UInt64) = 2) := by
  have hpairwise : sampleInputs.Pairwise fun p q =>
      (crates []).hashWithDomain p.1 p.2 = (crates []).hashWithDomain q.1 q.2 → p = q := by
    decide +kernel
  obtain ⟨htx, hheader, hvote⟩ :=
    hashes_bind_fields (Crates.injectiveOn_of_pairwise hpairwise)
  refine ⟨htx _ _ ?_ ?_, hheader _ _ ?_ ?_, fun he => (hvote _ _ ?_ ?_ he).2.1⟩
  all_goals simp [sampleInputs]

end SignedBytes

end AuraChain
