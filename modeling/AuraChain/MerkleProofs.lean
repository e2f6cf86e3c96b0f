import AuraChain.MerkleSpec
import AuraChain.Sync

/-! Inclusion proofs. They are complete and sound for trees over payloads; a
light client checks them with the transaction hash as a payload, although the
tree over a block body has the transaction hashes themselves for leaves. -/

namespace AuraChain

namespace MerkleTree

theorem generateProof_of_lt (c : Crates) {leaves : List Hash} {index : Nat} {x : Hash}
    (hx : leaves[index]? = some x) : ∃ proof : MerkleProof,
      (fromLeafHashes c leaves).generateProof index = .ok (some proof) ∧
      PaddedTree.climb (hashInternalNode c) x proof.auditPath = (fromLeafHashes c leaves).root := by
  obtain ⟨hlt, -⟩ := List.getElem?_eq_some_iff.mp hx
  have hne : leaves ≠ [] := List.ne_nil_of_length_pos (by omega)
  have hlevels := levels_fromLeafHashes c hne
  obtain ⟨path, hpath, htop⟩ := auditPath_climb c (PaddedTree.height leaves.length) hx
  refine ⟨⟨index, leaves.length, path⟩, ?_, ?_⟩
  · have hsome : (fromLeafHashes c leaves).levels.isEmpty = false := by
      rw [hlevels]
      simpa using PaddedTree.levels_ne_nil (hashInternalNode c) _ leaves
    rw [generateProof, leaves_fromLeafHashes, if_neg (by omega), if_neg (by simp [hsome]), hlevels,
      hpath]
    rfl
  · have hroot : (fromLeafHashes c leaves).root ∈ [(fromLeafHashes c leaves).root] :=
      List.mem_singleton_self _
    have hmem := List.mem_of_getElem? htop
    rw [← top, top_eq c hne, List.mem_singleton] at hmem
    exact hmem

theorem generateProof_of_le (c : Crates) {leaves : List Hash} {index : Nat}
    (h : leaves.length ≤ index) : (fromLeafHashes c leaves).generateProof index = .ok none := by
  rw [generateProof, leaves_fromLeafHashes, if_pos h]

/-- No index panics; those of the payloads, and no others, get a proof, and it
verifies. -/
theorem generateProof_complete (c : Crates) (payloads : List Bytes) (index : Nat) :
    ∃ result, (fromLeafPayloads c payloads).generateProof index = .ok result ∧
      (result.isSome = true ↔ index < payloads.length) ∧
      ∀ proof ∈ result, ∀ data ∈ payloads[index]?,
        proof.verify c (fromLeafPayloads c payloads).root data = true := by
  by_cases hlt : index < payloads.length
  · have hdata : payloads[index]? = some payloads[index] := List.getElem?_eq_getElem hlt
    have hx : (payloads.map (hashLeaf c))[index]? = some (hashLeaf c payloads[index]) := by
      rw [List.getElem?_map, hdata]
      rfl
    obtain ⟨proof, hproof, hroot⟩ := generateProof_of_lt c hx
    refine ⟨some proof, hproof, by simp [hlt], ?_⟩
    intro p hp data hd
    obtain rfl : proof = p := Option.some.inj hp
    obtain rfl : payloads[index] = data := Option.some.inj (hdata.symm.trans hd)
    exact (MerkleProof.verify_iff c proof _ _).mpr hroot
  · have hle : (payloads.map (hashLeaf c)).length ≤ index := by
      rw [List.length_map]
      omega
    exact ⟨none, generateProof_of_le c hle, by simp [hlt], by simp⟩

end MerkleTree

namespace MerkleProof

def payloadInputs (c : Crates) (payloads : List Bytes) : List (Bytes × Bytes) :=
  payloads.map merkleLeafInput ++ MerkleTree.inputs c (payloads.map (hashLeaf c))

/-- The position that the direction flags name in a tree over so many leaves. -/
def position (proof : MerkleProof) (leaves : Nat) : Nat :=
  PaddedTree.position leaves (proof.auditPath.map Prod.snd)

theorem merkleLeafInput_injective : Function.Injective merkleLeafInput :=
  fun _ _ h => (List.cons.inj (congrArg Prod.snd h)).2

/-- A proof that verifies, with siblings from anywhere, is as long as the tree
has levels above the leaves, and its direction flags lead to its payload. -/
theorem payload_of_verify {c : Crates} {inputs : Set (Bytes × Bytes)} (hinj : c.InjectiveOn inputs)
    {payloads : List Bytes} (hpayloads : ∀ p ∈ payloadInputs c payloads, p ∈ inputs)
    (hempty : payloads ≠ []) {proof : MerkleProof} {data : Bytes}
    (hproof : ∀ p ∈ proof.inputs c data, p ∈ inputs)
    (h : proof.verify c (MerkleTree.fromLeafPayloads c payloads).root data = true) :
    proof.auditPath.length = PaddedTree.height payloads.length ∧
      payloads[proof.position payloads.length]? = some data := by
  have hne : payloads.map (hashLeaf c) ≠ [] := by simpa using hempty
  have hleaf : ∀ d ∈ payloads, merkleLeafInput d ∈ inputs :=
    fun d hd => hpayloads _ (List.mem_append_left _ (List.mem_map_of_mem hd))
  have htree : ∀ p ∈ MerkleTree.inputs c (payloads.map (hashLeaf c)), p ∈ inputs :=
    fun p hp => hpayloads p (List.mem_append_right _ hp)
  have hleaves : ∀ x ∈ payloads.map (hashLeaf c), ∃ p ∈ inputs, p.1 ≠ domainMerkleNode ∧
      c.hashWithDomain p.1 p.2 = x := by
    intro x hx
    obtain ⟨d, hd, rfl⟩ := List.mem_map.mp hx
    exact ⟨merkleLeafInput d, hleaf d hd, by simp only [merkleLeafInput]; decide, rfl⟩
  obtain ⟨hlen, -⟩ := leaf_of_verify hinj hne htree hleaves hproof h
  have hnode := hashInternalNode_injOn hinj
  have htop : (PaddedTree.parents (hashInternalNode c))^[proof.auditPath.length]
      (payloads.map (hashLeaf c)) =
      [PaddedTree.climb (hashInternalNode c) (hashLeaf c data) proof.auditPath] := by
    rw [hlen, (verify_iff c proof _ data).mp h]
    exact MerkleTree.top_eq c hne
  have hfound := PaddedTree.getElem?_of_climb hnode
    (fun p hp => htree _ (List.mem_map_of_mem (hlen ▸ hp)))
    (fun p hp => hproof _ (List.mem_cons_of_mem _ (List.mem_map_of_mem hp))) htop
  rw [List.length_map, List.getElem?_map, Option.map_eq_some_iff] at hfound
  obtain ⟨d, hd, he⟩ := hfound
  have hinput : merkleLeafInput d = merkleLeafInput data :=
    hinj (hleaf d (List.mem_of_getElem? hd)) (hproof _ List.mem_cons_self) he
  rw [List.length_map] at hlen
  exact ⟨hlen, merkleLeafInput_injective hinput ▸ hd⟩

/-- A proof that verifies, with siblings from anywhere, is about a payload and
is as long as the tree has levels above the leaves, assuming that among
`inputs`, which hold all that is hashed, nothing collides or hashes to zero. -/
theorem verify_sound {c : Crates} {inputs : Set (Bytes × Bytes)} (hinj : c.InjectiveOn inputs)
    (hzero : c.NonzeroOn inputs) {payloads : List Bytes} {proof : MerkleProof} {data : Bytes}
    (hpayloads : ∀ p ∈ payloadInputs c payloads, p ∈ inputs)
    (hproof : ∀ p ∈ proof.inputs c data, p ∈ inputs)
    (h : proof.verify c (MerkleTree.fromLeafPayloads c payloads).root data = true) :
    data ∈ payloads ∧
      proof.auditPath.length = (MerkleTree.fromLeafPayloads c payloads).levels.length - 1 := by
  by_cases hempty : payloads = []
  · subst hempty
    have hroot : PaddedTree.climb (hashInternalNode c) (hashLeaf c data) proof.auditPath =
        Hash.zero := (verify_iff c proof _ data).mp h
    exact absurd hroot (climb_ne_zero hzero hproof)
  · have hne : payloads.map (hashLeaf c) ≠ [] := by simpa using hempty
    obtain ⟨hlen, hfound⟩ := payload_of_verify hinj hpayloads hempty hproof h
    refine ⟨List.mem_of_getElem? hfound, ?_⟩
    rw [hlen, MerkleTree.fromLeafPayloads, MerkleTree.levels_fromLeafHashes c hne,
      PaddedTree.levels_length, List.length_map, Nat.add_sub_cancel]

/-- The index and the number of leaves that a proof carries are not looked at: a
proof that verifies is right about them exactly when they agree with the number
of payloads and with what its direction flags lead to. -/
theorem verify_position_iff {c : Crates} {inputs : Set (Bytes × Bytes)} (hinj : c.InjectiveOn inputs)
    {payloads : List Bytes} (hpayloads : ∀ p ∈ payloadInputs c payloads, p ∈ inputs)
    (hempty : payloads ≠ []) {proof : MerkleProof} {data : Bytes}
    (hproof : ∀ p ∈ proof.inputs c data, p ∈ inputs)
    (h : proof.verify c (MerkleTree.fromLeafPayloads c payloads).root data = true) :
    (proof.totalLeaves = payloads.length ∧ proof.leafIndex < payloads.length ∧
      payloads[proof.leafIndex]? = some data) ↔
    (proof.totalLeaves = payloads.length ∧
      payloads[proof.leafIndex]? = payloads[proof.position payloads.length]?) := by
  obtain ⟨-, hfound⟩ := payload_of_verify hinj hpayloads hempty hproof h
  rw [hfound]
  constructor
  · rintro ⟨htotal, -, hdata⟩
    exact ⟨htotal, hdata⟩
  · rintro ⟨htotal, hdata⟩
    exact ⟨htotal, (List.getElem?_eq_some_iff.mp hdata).1, hdata⟩

def payloads : List Bytes := [[1], [2], [3]]

def thirdProof : MerkleProof where
  leafIndex := 2
  totalLeaves := 3
  auditPath := [(hashLeaf (Reference.crates []) [3], true),
    (hashInternalNode (Reference.crates []) (hashLeaf (Reference.crates []) [1])
      (hashLeaf (Reference.crates []) [2]), false)]

theorem injectiveOn_third : (Reference.crates []).InjectiveOn {p | p ∈
    payloadInputs (Reference.crates []) payloads ++ thirdProof.inputs (Reference.crates []) [3]} :=
  Crates.injectiveOn_of_pairwise (by decide +kernel)

theorem verify_third : thirdProof.verify (Reference.crates [])
    (MerkleTree.fromLeafPayloads (Reference.crates []) payloads).root [3] = true := by
  decide +kernel

theorem verify_sound_third : [3] ∈ payloads ∧ thirdProof.auditPath.length =
    (MerkleTree.fromLeafPayloads (Reference.crates []) payloads).levels.length - 1 := by
  have hzero : ∀ p ∈ payloadInputs (Reference.crates []) payloads ++
      thirdProof.inputs (Reference.crates []) [3],
      (Reference.crates []).hashWithDomain p.1 p.2 ≠ Hash.zero := by decide +kernel
  exact verify_sound injectiveOn_third hzero (fun p hp => List.mem_append_left _ hp)
    (fun p hp => List.mem_append_right _ hp) verify_third

theorem verify_position_third :
    (thirdProof.totalLeaves = payloads.length ∧ thirdProof.leafIndex < payloads.length ∧
      payloads[thirdProof.leafIndex]? = some [3]) ↔
    (thirdProof.totalLeaves = payloads.length ∧
      payloads[thirdProof.leafIndex]? = payloads[thirdProof.position payloads.length]?) :=
  verify_position_iff injectiveOn_third (fun _ hp => List.mem_append_left _ hp) (by decide)
    (fun _ hp => List.mem_append_right _ hp) verify_third

/-- Like the proof that it is made of, it verifies. -/
def misplacedProof : MerkleProof := { thirdProof with leafIndex := 1, totalLeaves := 100 }

theorem verify_ignores_position : ¬ ∀ (c : Crates) (inputs : Set (Bytes × Bytes))
    (payloads : List Bytes) (proof : MerkleProof) (data : Bytes), c.InjectiveOn inputs →
      payloads ≠ [] → (∀ p ∈ payloadInputs c payloads, p ∈ inputs) →
      (∀ p ∈ proof.inputs c data, p ∈ inputs) →
      proof.verify c (MerkleTree.fromLeafPayloads c payloads).root data = true →
        proof.totalLeaves = payloads.length ∧ proof.leafIndex < payloads.length ∧
          payloads[proof.leafIndex]? = some data := by
  intro hclaim
  have htotal := (hclaim _ _ payloads misplacedProof [3] injectiveOn_third (by decide)
    (fun _ hp => List.mem_append_left _ hp) (fun _ hp => List.mem_append_right _ hp)
    verify_third).1
  exact absurd htotal (by decide)

end MerkleProof

namespace ChainSyncer

/-- The proof of a transaction in a block is rejected, since the verifier
hashes the transaction hash once more, as leaf data. -/
theorem lightClientProof_rejected (c : Crates) {block : Block} {index : Nat} {tx : Transaction}
    (htx : block.transactions[index]? = some tx) : ∃ proof : MerkleProof,
      (MerkleTree.fromLeafHashes c (block.transactions.map (Transaction.txHash c))).generateProof
        index = .ok (some proof) ∧
      ∀ inputs, c.InjectiveOn inputs → (∀ p ∈ block.bodyInputs c, p ∈ inputs) →
        (∀ p ∈ proof.inputs c (tx.txHash c).bytes, p ∈ inputs) →
        verifyLightClientProof c (block.computeMerkleRoot c) tx proof = false := by
  have hx : (block.transactions.map (Transaction.txHash c))[index]? = some (tx.txHash c) := by
    rw [List.getElem?_map, htx]
    rfl
  have hne : block.transactions.map (Transaction.txHash c) ≠ [] := by
    intro he
    rw [he] at hx
    cases hx
  obtain ⟨proof, hproof, -⟩ := MerkleTree.generateProof_of_lt c hx
  refine ⟨proof, hproof, fun inputs hinj hbody hinputs => ?_⟩
  have htxs : ∀ tx ∈ block.transactions, tx.hashInput ∈ inputs :=
    fun tx htx => hbody _ (List.mem_append_left _ (List.mem_map_of_mem htx))
  have htree : ∀ p ∈ MerkleTree.inputs c (block.transactions.map (Transaction.txHash c)),
      p ∈ inputs := fun p hp => hbody p (List.mem_append_right _ hp)
  have hleaves : ∀ x ∈ block.transactions.map (Transaction.txHash c), ∃ p ∈ inputs,
      p.1 ≠ domainMerkleNode ∧ c.hashWithDomain p.1 p.2 = x := by
    intro x hx
    obtain ⟨t, ht, rfl⟩ := List.mem_map.mp hx
    exact ⟨t.hashInput, htxs t ht, by simp only [Transaction.hashInput]; decide, rfl⟩
  by_contra hverify
  have hv : proof.verify c (block.computeMerkleRoot c) (tx.txHash c).bytes = true := by
    simpa [verifyLightClientProof] using hverify
  obtain ⟨-, hmem⟩ := MerkleProof.leaf_of_verify hinj hne htree hleaves hinputs hv
  obtain ⟨t, ht, he⟩ := List.mem_map.mp hmem
  have hinput : t.hashInput = merkleLeafInput (tx.txHash c).bytes :=
    hinj (htxs t ht) (hinputs _ List.mem_cons_self) he
  have hdomain : domainTx ≠ domainMerkleLeaf := by decide
  exact hdomain (congrArg Prod.fst hinput)

def oneTransfer : Block := Reference.block 1 Hash.zero 0 [Reference.transfer 1]

def twoTransfers : Block := Reference.block 1 Hash.zero 0 [Reference.transfer 1, Reference.transfer 2]

def secondProof : MerkleProof := ⟨1, 2, [((Reference.transfer 1).txHash (Reference.crates []), false)]⟩

theorem lightClientProof_rejected_second :
    verifyLightClientProof (Reference.crates []) (twoTransfers.computeMerkleRoot (Reference.crates []))
      (Reference.transfer 2) secondProof = false := by
  have hpairwise : (twoTransfers.bodyInputs (Reference.crates []) ++
      secondProof.inputs (Reference.crates [])
        ((Reference.transfer 2).txHash (Reference.crates [])).bytes).Pairwise fun p q =>
      (Reference.crates []).hashWithDomain p.1 p.2 =
        (Reference.crates []).hashWithDomain q.1 q.2 → p = q := by decide +kernel
  have hcomputed : ((MerkleTree.fromLeafHashes (Reference.crates []) (twoTransfers.transactions.map
      (Transaction.txHash (Reference.crates [])))).generateProof 1).toOption =
      some (some secondProof) := by decide +kernel
  have htx : twoTransfers.transactions[1]? = some (Reference.transfer 2) := rfl
  obtain ⟨proof, hproof, hrejected⟩ := lightClientProof_rejected (Reference.crates []) htx
  rw [hproof] at hcomputed
  obtain rfl : proof = secondProof := by simpa [Except.toOption] using hcomputed
  exact hrejected _ (Crates.injectiveOn_of_pairwise hpairwise)
    (fun p hp => List.mem_append_left _ hp) (fun p hp => List.mem_append_right _ hp)

theorem onlyTransfer_rejected :
    ((MerkleTree.fromLeafHashes (Reference.crates []) (oneTransfer.transactions.map
        (Transaction.txHash (Reference.crates [])))).generateProof 0).toOption =
      some (some ⟨0, 1, []⟩) ∧
    verifyLightClientProof (Reference.crates []) (oneTransfer.computeMerkleRoot (Reference.crates []))
      (Reference.transfer 1) ⟨0, 1, []⟩ = false := by
  constructor <;> decide +kernel

end ChainSyncer

end AuraChain
