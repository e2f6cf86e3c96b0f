import AuraChain.MerkleSpec
import AuraChain.Reference

/-! What the hash of a block fixes. The bytes hashed for headers and
transactions determine them, and the Merkle root determines the transactions
only together with their number. -/

namespace AuraChain

def BlockHeader.hashInput (h : BlockHeader) : Bytes × Bytes :=
  (domainBlockHeader, h.signingBytes ++ h.signature.bytes)

def Block.inputs (c : Crates) (block : Block) : List (Bytes × Bytes) :=
  block.header.hashInput :: block.bodyInputs c

attribute [ext] Transaction BlockHeader

theorem TransactionType.typeByte_injective : Function.Injective TransactionType.typeByte := by
  intro s t h
  cases s <;> cases t <;> first | rfl | exact absurd h (by decide)

namespace FixedBytes

theorem append_inj {n : Nat} {l r : Bytes} {a b : FixedBytes n} (h : l ++ a.bytes = r ++ b.bytes) :
    l = r ∧ a = b := by
  obtain ⟨hl, hr⟩ := List.append_inj' h (a.size.trans b.size.symm)
  exact ⟨hl, ext hr⟩

end FixedBytes

/-- The payload is the only part without a fixed width. -/
theorem Transaction.hashInput_injective : Function.Injective Transaction.hashInput := by
  intro a b h
  have hdata : a.signingBytes ++ a.signature.bytes = b.signingBytes ++ b.signature.bytes :=
    congrArg Prod.snd h
  obtain ⟨hsigning, hsignature⟩ := FixedBytes.append_inj hdata
  simp only [signingBytes] at hsigning
  obtain ⟨hrest, hpubkey⟩ := FixedBytes.append_inj hsigning
  obtain ⟨hrest, hpayload⟩ := List.append_inj hrest (by simp [FixedBytes.size])
  obtain ⟨hrest, -⟩ := List.append_inj' hrest (by simp)
  obtain ⟨hrest, htype⟩ := List.append_inj' hrest rfl
  obtain ⟨hrest, hnonce⟩ := List.append_inj' hrest (by simp)
  obtain ⟨hrest, hfee⟩ := List.append_inj' hrest (by simp)
  obtain ⟨hrest, hamount⟩ := List.append_inj' hrest (by simp)
  obtain ⟨hsender, hrecipient⟩ := FixedBytes.append_inj hrest
  have hsender := FixedBytes.ext hsender
  have htype := TransactionType.typeByte_injective (List.cons.inj htype).1
  have hnonce := UInt64.toBeBytes_injective hnonce
  have hfee := UInt64.toBeBytes_injective hfee
  have hamount := UInt64.toBeBytes_injective hamount
  exact Transaction.ext hsender hrecipient hamount hfee hnonce htype hpayload hpubkey hsignature

/-- The chain identifier is the only part without a fixed width. -/
theorem BlockHeader.hashInput_injective : Function.Injective BlockHeader.hashInput := by
  intro a b h
  have hdata : a.signingBytes ++ a.signature.bytes = b.signingBytes ++ b.signature.bytes :=
    congrArg Prod.snd h
  obtain ⟨hsigning, hsignature⟩ := FixedBytes.append_inj hdata
  simp only [signingBytes] at hsigning
  obtain ⟨hrest, hproposer⟩ := FixedBytes.append_inj hsigning
  obtain ⟨hrest, htimestamp⟩ := List.append_inj' hrest (by simp)
  obtain ⟨hrest, hvalidators⟩ := FixedBytes.append_inj hrest
  obtain ⟨hrest, hstate⟩ := FixedBytes.append_inj hrest
  obtain ⟨hrest, hmerkle⟩ := FixedBytes.append_inj hrest
  obtain ⟨hrest, hprev⟩ := FixedBytes.append_inj hrest
  obtain ⟨hrest, hround⟩ := List.append_inj' hrest (by simp)
  obtain ⟨hrest, hheight⟩ := List.append_inj' hrest (by simp)
  obtain ⟨hrest, hchain⟩ := List.append_inj hrest (by simp)
  obtain ⟨hversion, -⟩ := List.append_inj' hrest (by simp)
  have hversion := UInt32.toBeBytes_injective hversion
  have hheight := UInt64.toBeBytes_injective hheight
  have hround := UInt32.toBeBytes_injective hround
  have htimestamp := UInt64.toBeBytes_injective htimestamp
  exact BlockHeader.ext hversion hchain hheight hround hprev hmerkle hstate hvalidators htimestamp
    hproposer hsignature

namespace Block

theorem validateBasic_root {c : Crates} {block : Block} (h : block.validateBasic c = .ok ()) :
    block.computeMerkleRoot c = block.header.merkleRoot := by
  by_contra hne
  rw [validateBasic, if_pos hne] at h
  cases h

theorem transactions_eq {c : Crates} {inputs : Set (Bytes × Bytes)} (hinj : c.InjectiveOn inputs)
    {a b : Block} (ha : ∀ p ∈ a.bodyInputs c, p ∈ inputs) (hb : ∀ p ∈ b.bodyInputs c, p ∈ inputs)
    (hlen : a.transactions.length = b.transactions.length)
    (hroot : a.computeMerkleRoot c = b.computeMerkleRoot c) : a.transactions = b.transactions := by
  by_cases hempty : a.transactions = []
  · rw [hempty, List.length_nil] at hlen
    rw [hempty, List.length_eq_zero_iff.mp hlen.symm]
  · have hnonempty : b.transactions ≠ [] := by
      intro he
      rw [he, List.length_nil] at hlen
      exact hempty (List.length_eq_zero_iff.mp hlen)
    have hla : a.transactions.map (Transaction.txHash c) ≠ [] := by simpa using hempty
    have hlb : b.transactions.map (Transaction.txHash c) ≠ [] := by simpa using hnonempty
    have hleaves : (a.transactions.map (Transaction.txHash c)).length =
        (b.transactions.map (Transaction.txHash c)).length := by
      rw [List.length_map, List.length_map, hlen]
    have htop : MerkleTree.top c (a.transactions.map (Transaction.txHash c)) =
        MerkleTree.top c (b.transactions.map (Transaction.txHash c)) := by
      rw [MerkleTree.top_eq c hla, MerkleTree.top_eq c hlb]
      exact congrArg (fun r => [r]) hroot
    have hnode := hashInternalNode_injOn hinj
    have htx : Set.InjOn (Transaction.txHash c) (Set.preimage Transaction.hashInput inputs) :=
      fun p hp q hq he => Transaction.hashInput_injective (hinj hp hq he)
    rw [MerkleTree.top, MerkleTree.top, ← hleaves] at htop
    have hmap : a.transactions.map (Transaction.txHash c) =
        b.transactions.map (Transaction.txHash c) := by
      refine PaddedTree.leaves_inj hnode ?_ ?_ hleaves htop
      · exact fun p hp => ha _ (List.mem_append_right _ (List.mem_map_of_mem hp))
      · rw [hleaves]
        exact fun p hp => hb _ (List.mem_append_right _ (List.mem_map_of_mem hp))
    exact PaddedTree.map_injOn htx
      (fun tx h => ha _ (List.mem_append_left _ (List.mem_map_of_mem h)))
      (fun tx h => hb _ (List.mem_append_left _ (List.mem_map_of_mem h))) hmap

/-- Assuming that nothing hashed for two valid blocks collides, their common
hash fixes the transactions exactly where a common header comes with equally
many of them: an odd level is padded with a copy of its last node, so that a
body may repeat its end without a change of the root. -/
theorem hash_fixes_transactions_iff {c : Crates} {inputs : Set (Bytes × Bytes)}
    (hinj : c.InjectiveOn inputs) {a b : Block} (ha : ∀ p ∈ a.inputs c, p ∈ inputs)
    (hb : ∀ p ∈ b.inputs c, p ∈ inputs) (hva : a.validateBasic c = .ok ())
    (hvb : b.validateBasic c = .ok ()) :
    (a.hash c = b.hash c → a.transactions = b.transactions) ↔
      (a.header = b.header → a.transactions.length = b.transactions.length) := by
  constructor
  · intro hfixes hheader
    have hhash : a.hash c = b.hash c := congrArg (BlockHeader.headerHash c) hheader
    rw [hfixes hhash]
  · intro hlen hhash
    have hheader : a.header = b.header :=
      BlockHeader.hashInput_injective (hinj (ha _ List.mem_cons_self) (hb _ List.mem_cons_self) hhash)
    apply transactions_eq hinj (fun p hp => ha p (List.mem_cons_of_mem _ hp))
      (fun p hp => hb p (List.mem_cons_of_mem _ hp)) (hlen hheader)
    rw [validateBasic_root hva, validateBasic_root hvb, hheader]

def threeTransfers : Block :=
  Reference.block 1 Hash.zero 0 [Reference.transfer 1, Reference.transfer 2, Reference.transfer 3]

def reordered : Block :=
  Reference.block 1 Hash.zero 0 [Reference.transfer 2, Reference.transfer 1, Reference.transfer 3]

theorem verify_transfers {txs : List Transaction}
    (h : ∀ tx ∈ txs, ∃ nonce, tx = Reference.transfer nonce) :
    ∀ tx ∈ txs, tx.verify (Reference.crates []) = .ok () := by
  intro tx htx
  obtain ⟨nonce, rfl⟩ := h tx htx
  exact Reference.transaction_verify ..

theorem hash_fixes_transactions_reordered :
    (threeTransfers.hash (Reference.crates []) = reordered.hash (Reference.crates []) →
        threeTransfers.transactions = reordered.transactions) ↔
      (threeTransfers.header = reordered.header →
        threeTransfers.transactions.length = reordered.transactions.length) := by
  have hpairwise : (threeTransfers.inputs (Reference.crates []) ++
      reordered.inputs (Reference.crates [])).Pairwise fun p q =>
      (Reference.crates []).hashWithDomain p.1 p.2 = (Reference.crates []).hashWithDomain q.1 q.2 →
      p = q := by decide +kernel
  exact hash_fixes_transactions_iff (Crates.injectiveOn_of_pairwise hpairwise)
    (fun p hp => List.mem_append_left _ hp) (fun p hp => List.mem_append_right _ hp)
    (Reference.block_validateBasic _ _ _ (verify_transfers (by simp)))
    (Reference.block_validateBasic _ _ _ (verify_transfers (by simp)))

def lastRepeated : Block :=
  { threeTransfers with transactions := threeTransfers.transactions ++ [Reference.transfer 3] }

theorem hash_keeps_lastRepeated :
    (Reference.crates []).InjectiveOn {p | p ∈ threeTransfers.inputs (Reference.crates []) ++
        lastRepeated.inputs (Reference.crates [])} ∧
      threeTransfers.validateBasic (Reference.crates []) = .ok () ∧
      lastRepeated.validateBasic (Reference.crates []) = .ok () ∧
      threeTransfers.hash (Reference.crates []) = lastRepeated.hash (Reference.crates []) ∧
      threeTransfers.transactions ≠ lastRepeated.transactions := by
  have hpairwise : (threeTransfers.inputs (Reference.crates []) ++
      lastRepeated.inputs (Reference.crates [])).Pairwise fun p q =>
      (Reference.crates []).hashWithDomain p.1 p.2 = (Reference.crates []).hashWithDomain q.1 q.2 →
      p = q := by decide +kernel
  have hrepeated : ∀ tx ∈ lastRepeated.transactions, ∃ nonce, tx = Reference.transfer nonce := by
    simp [lastRepeated, threeTransfers, Reference.block]
  refine ⟨Crates.injectiveOn_of_pairwise hpairwise,
    Reference.block_validateBasic _ _ _ (verify_transfers (by simp)),
    validateBasic_ok_iff.mpr ⟨rfl, verify_transfers hrepeated⟩, rfl, fun h => ?_⟩
  exact absurd (congrArg List.length h) (by decide)

end Block

end AuraChain
