import AuraChain.Primitives

/-! The Merkle tree as a padded tree: which levels it keeps, what its proofs
climb, and what both hash. -/

namespace AuraChain

def merkleLeafInput (data : Bytes) : Bytes × Bytes := (domainMerkleLeaf, 0x00 :: data)

def merkleNodeInput (children : Hash × Hash) : Bytes × Bytes :=
  (domainMerkleNode, 0x01 :: children.1.bytes ++ children.2.bytes)

theorem merkleNodeInput_injective : Function.Injective merkleNodeInput := by
  intro p q h
  have hlen : p.1.bytes.length = q.1.bytes.length := p.1.size.trans q.1.size.symm
  have hdata : p.1.bytes ++ p.2.bytes = q.1.bytes ++ q.2.bytes :=
    (List.cons.inj (congrArg Prod.snd h)).2
  obtain ⟨hleft, hright⟩ := List.append_inj hdata hlen
  exact Prod.ext (FixedBytes.ext hleft) (FixedBytes.ext hright)

theorem hashInternalNode_injOn {c : Crates} {inputs : Set (Bytes × Bytes)} (hinj : c.InjectiveOn inputs) :
    Set.InjOn (fun p => hashInternalNode c p.1 p.2) (Set.preimage merkleNodeInput inputs) :=
  fun _ hp _ hq he => merkleNodeInput_injective (hinj hp hq he)

theorem buildLevels_eq (c : Crates) {fuel : Nat} {level : List Hash} (hlevel : level ≠ [])
    (hfuel : level.length ≤ fuel) : level :: buildLevels c fuel level =
      PaddedTree.levels (hashInternalNode c) (PaddedTree.height level.length) level := by
  have hpos : 0 < level.length := List.length_pos_iff.mpr hlevel
  induction fuel generalizing level with
  | zero => omega
  | succ fuel ih =>
    by_cases htwo : 1 < level.length
    · have hlen := PaddedTree.parents_length (hashInternalNode c) level
      have hne : PaddedTree.parents (hashInternalNode c) level ≠ [] := by
        intro he
        rw [he, List.length_nil] at hlen
        omega
      rw [buildLevels, if_pos htwo, nextLevel_eq_parents, ih hne (by omega) (by omega), hlen,
        PaddedTree.height_of_two_le htwo, PaddedTree.levels]
    · rw [buildLevels, if_neg htwo, PaddedTree.height_of_lt_two (by omega), PaddedTree.levels]

namespace MerkleTree

def top (c : Crates) (leaves : List Hash) : List Hash :=
  (PaddedTree.parents (hashInternalNode c))^[PaddedTree.height leaves.length] leaves

theorem levels_fromLeafHashes (c : Crates) {leaves : List Hash} (h : leaves ≠ []) :
    (fromLeafHashes c leaves).levels =
      PaddedTree.levels (hashInternalNode c) (PaddedTree.height leaves.length) leaves := by
  rw [fromLeafHashes, if_neg (by simpa using h)]
  exact buildLevels_eq c h le_rfl

theorem leaves_fromLeafHashes (c : Crates) (leaves : List Hash) :
    (fromLeafHashes c leaves).leaves = leaves := by
  rw [fromLeafHashes]
  split_ifs with h
  · exact (List.isEmpty_iff.mp h).symm
  · rfl

theorem top_eq (c : Crates) {leaves : List Hash} (h : leaves ≠ []) :
    top c leaves = [(fromLeafHashes c leaves).root] := by
  obtain ⟨r, hr⟩ := List.length_eq_one_iff.mp (PaddedTree.top_length (hashInternalNode c) h)
  rw [root, levels_fromLeafHashes c h, PaddedTree.getLast?_levels, top, hr]
  rfl

/-- All that is hashed for the levels above the leaves. -/
def inputs (c : Crates) (leaves : List Hash) : List (Bytes × Bytes) :=
  (PaddedTree.pairs (hashInternalNode c) (PaddedTree.height leaves.length) leaves).map
    merkleNodeInput

end MerkleTree

def Transaction.hashInput (tx : Transaction) : Bytes × Bytes :=
  (domainTx, tx.signingBytes ++ tx.signature.bytes)

def Block.bodyInputs (c : Crates) (block : Block) : List (Bytes × Bytes) :=
  block.transactions.map Transaction.hashInput ++
    MerkleTree.inputs c (block.transactions.map (Transaction.txHash c))

/-- The siblings of an index lead from its leaf to the one above it in the
highest level, and no sibling is missing. -/
theorem auditPath_climb (c : Crates) (height : Nat) {index : Nat} {level : List Hash} {x : Hash}
    (hx : level[index]? = some x) :
    ∃ path, auditPath index (PaddedTree.levels (hashInternalNode c) height level).dropLast =
        .ok path ∧
      ((PaddedTree.parents (hashInternalNode c))^[height] level)[index / 2 ^ height]? =
        some (PaddedTree.climb (hashInternalNode c) x path) := by
  induction height generalizing index level x with
  | zero => exact ⟨[], rfl, by simpa [PaddedTree.climb] using hx⟩
  | succ height ih =>
    obtain ⟨s, hs, hparent⟩ := PaddedTree.parent_getElem? (hashInternalNode c) hx
    obtain ⟨path, hpath, htop⟩ := ih hparent
    refine ⟨(s, index % 2 == 0) :: path, ?_, ?_⟩
    · have hsibling : level[if (index % 2 == 0) = true then
          if index + 1 < level.length then index + 1 else index else index - 1]? = some s := by
        simpa [PaddedTree.siblingIndex] using hs
      rw [PaddedTree.dropLast_levels_succ, auditPath]
      simp only [hsibling, hpath]
      rfl
    · rw [Function.iterate_succ_apply, pow_succ', ← Nat.div_div_eq_div_mul]
      exact htop

namespace MerkleProof

/-- All that is hashed to check a proof. -/
def inputs (c : Crates) (proof : MerkleProof) (leafData : Bytes) : List (Bytes × Bytes) :=
  merkleLeafInput leafData ::
    (PaddedTree.steps (hashInternalNode c) (hashLeaf c leafData) proof.auditPath).map merkleNodeInput

theorem foldl_eq_climb (c : Crates) (x : Hash) (path : List (Hash × Bool)) :
    path.foldl (fun currentHash sibling =>
      if sibling.2 then hashInternalNode c currentHash sibling.1
      else hashInternalNode c sibling.1 currentHash) x =
    PaddedTree.climb (hashInternalNode c) x path := by
  induction path generalizing x with
  | nil => rfl
  | cons sibling path ih =>
    rw [List.foldl_cons, ih, PaddedTree.climb, PaddedTree.step]
    split_ifs <;> rfl

theorem verify_iff (c : Crates) (proof : MerkleProof) (expectedRoot : Hash) (leafData : Bytes) :
    proof.verify c expectedRoot leafData = true ↔
      PaddedTree.climb (hashInternalNode c) (hashLeaf c leafData) proof.auditPath = expectedRoot := by
  rw [verify, foldl_eq_climb, beq_iff_eq]

theorem climb_ne_zero {c : Crates} {inputs : Set (Bytes × Bytes)} (hzero : c.NonzeroOn inputs)
    {proof : MerkleProof} {leafData : Bytes} (hproof : ∀ p ∈ proof.inputs c leafData, p ∈ inputs) :
    PaddedTree.climb (hashInternalNode c) (hashLeaf c leafData) proof.auditPath ≠ Hash.zero := by
  rcases PaddedTree.climb_cases (hashInternalNode c) (hashLeaf c leafData) proof.auditPath with
    he | ⟨p, hp, he⟩
  · rw [he]
    exact hzero (merkleLeafInput leafData) (hproof _ List.mem_cons_self)
  · rw [he]
    exact hzero (merkleNodeInput p) (hproof _ (List.mem_cons_of_mem _ (List.mem_map_of_mem hp)))

/-- A proof that verifies ends at a leaf of the tree, whatever its siblings are,
if nothing that is hashed collides and the leaves are no nodes. -/
theorem leaf_of_verify {c : Crates} {inputs : Set (Bytes × Bytes)} (hinj : c.InjectiveOn inputs)
    {leaves : List Hash} (hne : leaves ≠ []) (htree : ∀ p ∈ MerkleTree.inputs c leaves, p ∈ inputs)
    (hleaves : ∀ x ∈ leaves, ∃ p ∈ inputs, p.1 ≠ domainMerkleNode ∧
      c.hashWithDomain p.1 p.2 = x) {proof : MerkleProof} {leafData : Bytes}
    (hproof : ∀ p ∈ proof.inputs c leafData, p ∈ inputs)
    (h : proof.verify c (MerkleTree.fromLeafHashes c leaves).root leafData = true) :
    proof.auditPath.length = PaddedTree.height leaves.length ∧ hashLeaf c leafData ∈ leaves := by
  have hnode := hashInternalNode_injOn hinj
  have hpairs : ∀ p ∈ PaddedTree.pairs (hashInternalNode c) (PaddedTree.height leaves.length) leaves,
      merkleNodeInput p ∈ inputs :=
    fun p hp => htree _ (List.mem_map_of_mem hp)
  have hsteps : ∀ p ∈ PaddedTree.steps (hashInternalNode c) (hashLeaf c leafData) proof.auditPath,
      merkleNodeInput p ∈ inputs :=
    fun p hp => hproof _ (List.mem_cons_of_mem _ (List.mem_map_of_mem hp))
  apply PaddedTree.leaf_of_climb_mem hnode hpairs hsteps
  · intro p hp hmem
    obtain ⟨q, hq, hdomain, he⟩ := hleaves _ hmem
    exact hdomain (congrArg Prod.fst (hinj hq (hsteps p hp) he))
  · intro p hp he
    have hinput := hinj (hpairs p hp) (hproof _ List.mem_cons_self) he
    have hdomain : domainMerkleNode ≠ domainMerkleLeaf := by decide
    exact hdomain (congrArg Prod.fst hinput)
  · have htop := MerkleTree.top_eq c hne
    rw [MerkleTree.top] at htop
    rw [htop, (verify_iff c proof _ leafData).mp h]
    exact List.mem_singleton_self _

end MerkleProof

end AuraChain
