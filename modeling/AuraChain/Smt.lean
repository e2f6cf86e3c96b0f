import AuraChain.OrdMap
import AuraChain.Primitives

/-! The sparse Merkle tree over the accounts. The recursion is on the number
of levels below a node, `SMT_DEPTH - depth` in the source. `root` partitions
a group by filtering, `rootBy` in a given iteration order. -/

namespace AuraChain

def smtDepth : Nat := 256

def hashSmtLeaf (c : Crates) (key : Hash) (value : Bytes) : Hash :=
  c.hashWithDomain domainSmtLeaf (key.bytes ++ value)

def hashSmtNode (c : Crates) (left right : Hash) : Hash :=
  c.hashWithDomain domainSmtNode (left.bytes ++ right.bytes)

def emptyRoot (c : Crates) : Nat → Hash
  | 0 => Hash.zero
  | level + 1 =>
    let prev := emptyRoot c level
    hashSmtNode c prev prev

structure SparseMerkleTree where
  leaves : OrdMap Hash Hash

namespace SparseMerkleTree

def new : SparseMerkleTree := ⟨∅⟩

def update (c : Crates) (smt : SparseMerkleTree) (key : Hash) (value : Bytes) : SparseMerkleTree :=
  if value.isEmpty then ⟨smt.leaves.erase key⟩
  else ⟨smt.leaves.insert key (hashSmtLeaf c key value)⟩

def delete (smt : SparseMerkleTree) (key : Hash) : SparseMerkleTree := ⟨smt.leaves.erase key⟩

def keyBit (key : Hash) (depth : Nat) : UInt8 :=
  (key.bytes.getD (depth / 8) 0 >>> UInt8.ofNat (7 - depth % 8)) &&& 1

def computeSubtreeRoot (c : Crates) : Nat → OrdMap Hash Hash → Hash
  | 0, nodes => ((nodes.toList.head?).map Prod.snd).getD (emptyRoot c 0)
  | level + 1, nodes =>
    if nodes.isEmpty then emptyRoot c (level + 1)
    else
      let depth := smtDepth - (level + 1)
      let leftHash := computeSubtreeRoot c level (nodes.filter fun key _ => keyBit key depth == 0)
      let rightHash := computeSubtreeRoot c level (nodes.filter fun key _ => keyBit key depth != 0)
      if leftHash = emptyRoot c level ∧ rightHash = emptyRoot c level then emptyRoot c (level + 1)
      else hashSmtNode c leftHash rightHash

def root (c : Crates) (smt : SparseMerkleTree) : Hash :=
  if smt.leaves.isEmpty then emptyRoot c smtDepth
  else computeSubtreeRoot c smtDepth smt.leaves

/-- The order in which the HashMap of the group at a depth is iterated. -/
structure GroupOrder where
  entries : Nat → OrdMap Hash Hash → List (Hash × Hash)
  entries_perm : ∀ depth nodes, (entries depth nodes).Perm nodes.toList

def splitGroup (depth : Nat) (groups : OrdMap Hash Hash × OrdMap Hash Hash) (p : Hash × Hash) :
    OrdMap Hash Hash × OrdMap Hash Hash :=
  if keyBit p.1 depth = 0 then (groups.1.insert p.1 p.2, groups.2)
  else (groups.1, groups.2.insert p.1 p.2)

/-- The recursion with its loop over the group written out, entry by entry. -/
def computeSubtreeRootBy (c : Crates) (order : GroupOrder) : Nat → OrdMap Hash Hash → Hash
  | 0, nodes => (((order.entries smtDepth nodes).head?).map Prod.snd).getD (emptyRoot c 0)
  | level + 1, nodes =>
    if nodes.isEmpty then emptyRoot c (level + 1)
    else
      let depth := smtDepth - (level + 1)
      let groups := (order.entries depth nodes).foldl (splitGroup depth) (∅, ∅)
      let leftHash := computeSubtreeRootBy c order level groups.1
      let rightHash := computeSubtreeRootBy c order level groups.2
      if leftHash = emptyRoot c level ∧ rightHash = emptyRoot c level then emptyRoot c (level + 1)
      else hashSmtNode c leftHash rightHash

def rootBy (c : Crates) (order : GroupOrder) (smt : SparseMerkleTree) : Hash :=
  if smt.leaves.isEmpty then emptyRoot c smtDepth
  else computeSubtreeRootBy c order smtDepth smt.leaves

theorem update_comm (c : Crates) (smt : SparseMerkleTree) {k l : Hash} (h : k ≠ l) (v w : Bytes) :
    (smt.update c k v).update c l w = (smt.update c l w).update c k v := by
  unfold update
  by_cases hv : v.isEmpty = true <;> by_cases hw : w.isEmpty = true <;>
    simp only [hv, hw, if_true, if_false, Bool.false_eq_true]
  · exact congrArg mk (OrdMap.erase_comm smt.leaves k l)
  · exact congrArg mk (OrdMap.insert_erase_comm smt.leaves h.symm (hashSmtLeaf c l w)).symm
  · exact congrArg mk (OrdMap.insert_erase_comm smt.leaves h (hashSmtLeaf c k v))
  · exact congrArg mk (OrdMap.insert_comm smt.leaves h (hashSmtLeaf c k v) (hashSmtLeaf c l w))

end SparseMerkleTree

end AuraChain
