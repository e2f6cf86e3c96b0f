import AuraChain.PaddedTree
import AuraChain.Types

/-! Domain-separated hashing, the Merkle tree over a block body and its
inclusion proofs. -/

namespace AuraChain

def Crates.hashBytes (c : Crates) (data : Bytes) : Hash := c.blake3 data

def Crates.hashWithDomain (c : Crates) (domain data : Bytes) : Hash :=
  c.blake3 (littleEndian 8 domain.length ++ domain ++ data)

/-- No collision among the given inputs, each a domain and the data hashed
under it. -/
def Crates.InjectiveOn (c : Crates) (inputs : Set (Bytes × Bytes)) : Prop :=
  Set.InjOn (fun p => c.hashWithDomain p.1 p.2) inputs

def Crates.NonzeroOn (c : Crates) (inputs : Set (Bytes × Bytes)) : Prop :=
  ∀ p ∈ inputs, c.hashWithDomain p.1 p.2 ≠ Hash.zero

theorem Crates.injectiveOn_of_pairwise {c : Crates} {inputs : List (Bytes × Bytes)}
    (h : inputs.Pairwise fun p q =>
      c.hashWithDomain p.1 p.2 = c.hashWithDomain q.1 q.2 → p = q) :
    c.InjectiveOn {p | p ∈ inputs} := by
  have hflip : inputs.Pairwise (flip fun p q =>
      c.hashWithDomain p.1 p.2 = c.hashWithDomain q.1 q.2 → p = q) :=
    h.imp fun hpq he => (hpq (Eq.symm he)).symm
  exact List.Pairwise.forall_of_forall_of_flip (fun _ _ _ => rfl) h hflip

def domainTx : Bytes := ascii "AURA_TX_v1"
def domainBlockHeader : Bytes := ascii "AURA_HEADER_v1"
def domainMerkleLeaf : Bytes := ascii "AURA_LEAF_v1"
def domainMerkleNode : Bytes := ascii "AURA_NODE_v1"
def domainSmtLeaf : Bytes := ascii "AURA_SMT_LEAF_v1"
def domainSmtNode : Bytes := ascii "AURA_SMT_NODE_v1"
def domainVote : Bytes := ascii "AURA_VOTE_v1"
def domainAddress : Bytes := ascii "AURA_ADDRESS_v1"
def domainProposerSeed : Bytes := ascii "AURA_PROPOSER_SEED_v1"

def hashLeaf (c : Crates) (data : Bytes) : Hash :=
  c.hashWithDomain domainMerkleLeaf (0x00 :: data)

def hashInternalNode (c : Crates) (left right : Hash) : Hash :=
  c.hashWithDomain domainMerkleNode (0x01 :: left.bytes ++ right.bytes)

/-- One pass of the loop over `chunks(2)`: an odd last node is paired with itself. -/
def nextLevel (c : Crates) : List Hash → List Hash
  | [] => []
  | [a] => [hashInternalNode c a a]
  | a :: b :: rest => hashInternalNode c a b :: nextLevel c rest

theorem nextLevel_eq_parents (c : Crates) (level : List Hash) :
    nextLevel c level = PaddedTree.parents (hashInternalNode c) level := by
  induction level using nextLevel.induct with
  | case1 => simp [nextLevel, PaddedTree.parents, PaddedTree.chunks]
  | case2 a => simp [nextLevel, PaddedTree.parents, PaddedTree.chunks]
  | case3 a b rest ih => simpa [nextLevel, PaddedTree.parents, PaddedTree.chunks] using ih

theorem nextLevel_length (c : Crates) (level : List Hash) :
    (nextLevel c level).length = (level.length + 1) / 2 := by
  rw [nextLevel_eq_parents, PaddedTree.parents_length]

/-- The levels above `current`, while it has more than one node. Every pass
shortens the level, so its length is fuel enough. -/
def buildLevels (c : Crates) : Nat → List Hash → List (List Hash)
  | 0, _ => []
  | fuel + 1, current =>
    if 1 < current.length then
      nextLevel c current :: buildLevels c fuel (nextLevel c current)
    else []

structure MerkleTree where
  leaves : List Hash
  levels : List (List Hash)

def MerkleTree.fromLeafHashes (c : Crates) (leaves : List Hash) : MerkleTree :=
  if leaves.isEmpty then ⟨[], [[Hash.zero]]⟩
  else ⟨leaves, leaves :: buildLevels c leaves.length leaves⟩

def MerkleTree.root (tree : MerkleTree) : Hash :=
  (tree.levels.getLast?.bind List.head?).getD Hash.zero

def MerkleTree.fromLeafPayloads (c : Crates) (payloads : List Bytes) : MerkleTree :=
  fromLeafHashes c (payloads.map (hashLeaf c))

structure MerkleProof where
  leafIndex : Nat
  totalLeaves : Nat
  auditPath : List (Hash × Bool)
  deriving DecidableEq

def MerkleProof.verify (c : Crates) (proof : MerkleProof) (expectedRoot : Hash)
    (leafData : Bytes) : Bool :=
  proof.auditPath.foldl (fun currentHash sibling =>
    if sibling.2 then hashInternalNode c currentHash sibling.1
    else hashInternalNode c sibling.1 currentHash) (hashLeaf c leafData) == expectedRoot

/-- Where an index or a range outside a slice panics. -/
inductive IndexPanic
  | levelIndex
  | levelsRange
  deriving DecidableEq

def auditPath : Nat → List (List Hash) → Except IndexPanic (List (Hash × Bool))
  | _, [] => .ok []
  | index, level :: levels =>
    let isRight := index % 2 == 0
    let siblingIndex :=
      if isRight then if index + 1 < level.length then index + 1 else index else index - 1
    match level[siblingIndex]? with
    | none => .error .levelIndex
    | some siblingHash => (auditPath (index / 2) levels).map ((siblingHash, isRight) :: ·)

def MerkleTree.generateProof (tree : MerkleTree) (leafIndex : Nat) :
    Except IndexPanic (Option MerkleProof) :=
  if tree.leaves.length ≤ leafIndex then .ok none
  else if tree.levels.isEmpty then .error .levelsRange
  else (auditPath leafIndex tree.levels.dropLast).map fun path =>
    some ⟨leafIndex, tree.leaves.length, path⟩

theorem buildLevels_fuel (c : Crates) {fuel : Nat} {current : List Hash}
    (h : current.length ≤ fuel) : buildLevels c fuel current = buildLevels c (fuel + 1) current := by
  induction fuel generalizing current with
  | zero =>
    have hn : current = [] := List.length_eq_zero_iff.mp (by omega)
    simp [buildLevels, hn]
  | succ fuel ih =>
    by_cases hl : 1 < current.length
    · have hnext : (nextLevel c current).length ≤ fuel := by
        rw [nextLevel_length]
        omega
      have hunfold : ∀ n, buildLevels c (n + 1) current =
          nextLevel c current :: buildLevels c n (nextLevel c current) := by
        intro n
        simp [buildLevels, hl]
      rw [hunfold fuel, hunfold (fuel + 1), ih hnext]
    · simp [buildLevels, hl]

end AuraChain
