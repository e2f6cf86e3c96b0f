import AuraChain.FullTree
import AuraChain.Smt

/-! The sparse Merkle tree against its reference, the full tree of 256 levels
over all keys. A key that holds the empty value is absent. -/

namespace AuraChain

/-- The number of a leaf, whose bits are those of its key from the first on. -/
def Hash.path (key : Hash) : Nat := ofBigEndian key.bytes

namespace Hash

theorem path_lt (key : Hash) : key.path < 2 ^ smtDepth := by
  have h := ofBigEndian_lt key.bytes
  rw [key.size] at h
  exact h

theorem ofNat_path (key : Hash) : FixedBytes.ofNat 32 key.path = key := by
  apply FixedBytes.ext
  have h := bigEndian_ofBigEndian key.bytes
  rw [key.size] at h
  exact h

theorem path_ofNat (i : Nat) : path (FixedBytes.ofNat 32 i) = i % 2 ^ smtDepth :=
  ofBigEndian_bigEndian 32 i

theorem shift_and_one_eq_zero_iff (b : UInt8) {s : Nat} (hs : s < 8) :
    (b >>> UInt8.ofNat s) &&& 1 = 0 ↔ b.toNat.testBit s = false := by
  have hof : (UInt8.ofNat s).toNat = s := UInt8.toNat_ofNat_of_lt' (hs.trans (by decide))
  rw [← UInt8.toNat_inj, UInt8.toNat_and, UInt8.toNat_shiftRight, hof, Nat.mod_eq_of_lt hs,
    UInt8.toNat_one, UInt8.toNat_zero, Nat.and_one_is_mod, Nat.shiftRight_eq_div_pow,
    Nat.testBit_eq_decide_div_mod_eq, decide_eq_false_iff_not]
  omega

/-- The bit that splits a group at a depth is the digit of the path that
counts, from the last, the levels below the split. -/
theorem keyBit_eq_zero_iff {key : Hash} {level : Nat} (hlevel : level < smtDepth) :
    SparseMerkleTree.keyBit key (smtDepth - (level + 1)) = 0 ↔ key.path / 2 ^ level % 2 = 0 := by
  have hdepth : smtDepth - (level + 1) = 255 - level := by
    rw [smtDepth]
    omega
  have hlt : level < 256 := hlevel
  have hi : (255 - level) / 8 < key.bytes.length := by
    rw [key.size]
    omega
  have hexp : key.bytes.length - 1 - (255 - level) / 8 = level / 8 := by
    rw [key.size]
    omega
  have hshift : 7 - (255 - level) % 8 = level % 8 := by omega
  have hmod : level % 8 < 8 := Nat.mod_lt _ (by omega)
  have hbyte : (key.bytes.getD ((255 - level) / 8) 0).toNat.testBit (level % 8) =
      key.path.testBit level := by
    have h256 : (256 : Nat) = 2 ^ 8 := rfl
    rw [← ofBigEndian_digit hi, hexp, h256, ← pow_mul, Nat.testBit_mod_two_pow,
      Nat.testBit_div_two_pow, Nat.mod_add_div, decide_eq_true hmod, Bool.true_and, path]
  rw [SparseMerkleTree.keyBit, hdepth, hshift, shift_and_one_eq_zero_iff _ hmod, hbyte,
    Nat.testBit_eq_decide_div_mod_eq, decide_eq_false_iff_not]
  omega

end Hash

inductive SmtOp
  | update (key : Hash) (value : Bytes)
  | delete (key : Hash)

namespace SmtOp

def key : SmtOp → Hash
  | update key _ => key
  | delete key => key

@[simp] theorem key_update (key : Hash) (value : Bytes) : (update key value).key = key := rfl
@[simp] theorem key_delete (key : Hash) : (delete key).key = key := rfl

def value : SmtOp → Bytes
  | update _ value => value
  | delete _ => []

def write (kv : Hash → Bytes) (op : SmtOp) : Hash → Bytes :=
  Function.update kv op.key op.value

def map (ops : List SmtOp) : Hash → Bytes := ops.foldl write fun _ => []

end SmtOp

def referenceLeaf (c : Crates) (kv : Hash → Bytes) (path : Nat) : Hash :=
  let key : Hash := FixedBytes.ofNat 32 path
  if kv key = [] then Hash.zero else hashSmtLeaf c key (kv key)

def referenceRoot (c : Crates) (kv : Hash → Bytes) : Hash :=
  FullTree.value (hashSmtNode c) (referenceLeaf c kv) smtDepth 0

def smtLeafInput (key : Hash) (value : Bytes) : Bytes × Bytes :=
  (domainSmtLeaf, key.bytes ++ value)

def smtNodeInput (children : Hash × Hash) : Bytes × Bytes :=
  (domainSmtNode, children.1.bytes ++ children.2.bytes)

def smtInputs (c : Crates) (kv : Hash → Bytes) : Set (Bytes × Bytes) :=
  {p | ∃ key, kv key ≠ [] ∧ p = smtLeafInput key (kv key)} ∪
    smtNodeInput '' FullTree.pairs (hashSmtNode c) (referenceLeaf c kv) smtDepth

theorem smtNodeInput_injective : Function.Injective smtNodeInput := by
  intro p q h
  have hlen : p.1.bytes.length = q.1.bytes.length := p.1.size.trans q.1.size.symm
  obtain ⟨hleft, hright⟩ := List.append_inj (congrArg Prod.snd h) hlen
  exact Prod.ext (FixedBytes.ext hleft) (FixedBytes.ext hright)

theorem referenceLeaf_path (c : Crates) (kv : Hash → Bytes) (key : Hash) :
    referenceLeaf c kv key.path = if kv key = [] then Hash.zero else hashSmtLeaf c key (kv key) := by
  rw [referenceLeaf, Hash.ofNat_path]

theorem value_eq_of_leaf_eq {c : Crates} {kv kv' : Hash → Bytes}
    (hinj : c.InjectiveOn (smtInputs c kv ∪ smtInputs c kv'))
    (hzero : c.NonzeroOn (smtInputs c kv ∪ smtInputs c kv')) {key : Hash}
    (h : referenceLeaf c kv key.path = referenceLeaf c kv' key.path) : kv key = kv' key := by
  rw [referenceLeaf_path, referenceLeaf_path] at h
  by_cases hv : kv key = [] <;> by_cases hw : kv' key = []
  · rw [hv, hw]
  · rw [if_pos hv, if_neg hw] at h
    exact absurd h.symm (hzero (smtLeafInput key (kv' key)) (Or.inr (Or.inl ⟨key, hw, rfl⟩)))
  · rw [if_neg hv, if_pos hw] at h
    exact absurd h (hzero (smtLeafInput key (kv key)) (Or.inl (Or.inl ⟨key, hv, rfl⟩)))
  · rw [if_neg hv, if_neg hw] at h
    have hinput := hinj (Or.inl (Or.inl ⟨key, hv, rfl⟩)) (Or.inr (Or.inl ⟨key, hw, rfl⟩)) h
    exact List.append_cancel_left (congrArg Prod.snd hinput)

theorem eq_of_referenceRoot_eq {c : Crates} {kv kv' : Hash → Bytes}
    (hinj : c.InjectiveOn (smtInputs c kv ∪ smtInputs c kv'))
    (hzero : c.NonzeroOn (smtInputs c kv ∪ smtInputs c kv'))
    (h : referenceRoot c kv = referenceRoot c kv') : kv = kv' := by
  have hnode : Set.InjOn (fun p => hashSmtNode c p.1 p.2)
      (FullTree.pairs (hashSmtNode c) (referenceLeaf c kv) smtDepth ∪
        FullTree.pairs (hashSmtNode c) (referenceLeaf c kv') smtDepth) := by
    intro p hp q hq he
    have hmem : ∀ p ∈ FullTree.pairs (hashSmtNode c) (referenceLeaf c kv) smtDepth ∪
        FullTree.pairs (hashSmtNode c) (referenceLeaf c kv') smtDepth,
        smtNodeInput p ∈ smtInputs c kv ∪ smtInputs c kv' := by
      rintro p (hp | hp)
      · exact Or.inl (Or.inr ⟨p, hp, rfl⟩)
      · exact Or.inr (Or.inr ⟨p, hp, rfl⟩)
    exact smtNodeInput_injective (hinj (hmem p hp) (hmem q hq) he)
  funext key
  exact value_eq_of_leaf_eq hinj hzero (FullTree.leaves_eq hnode h key.path_lt)

namespace SparseMerkleTree

def leafAt (nodes : OrdMap Hash Hash) (path : Nat) : Hash :=
  nodes.getD (FixedBytes.ofNat 32 path) Hash.zero

/-- The keys of a group are those below one node of the full tree. -/
def Below (nodes : OrdMap Hash Hash) (level path : Nat) : Prop :=
  ∀ (key leaf : Hash), nodes[key]? = some leaf → key.path / 2 ^ level = path

def leftGroup (level : Nat) (nodes : OrdMap Hash Hash) : OrdMap Hash Hash :=
  nodes.filter fun key _ => keyBit key (smtDepth - (level + 1)) == 0

def rightGroup (level : Nat) (nodes : OrdMap Hash Hash) : OrdMap Hash Hash :=
  nodes.filter fun key _ => keyBit key (smtDepth - (level + 1)) != 0

theorem foldl_splitGroup (depth : Nat) (l : List (Hash × Hash))
    (groups : OrdMap Hash Hash × OrdMap Hash Hash) :
    l.foldl (splitGroup depth) groups =
      ((l.filter fun p => keyBit p.1 depth == 0).foldl (fun m p => m.insert p.1 p.2) groups.1,
        (l.filter fun p => keyBit p.1 depth != 0).foldl (fun m p => m.insert p.1 p.2) groups.2) := by
  induction l generalizing groups with
  | nil => rfl
  | cons p l ih =>
    rw [List.foldl_cons, ih, splitGroup]
    by_cases h : keyBit p.1 depth = 0 <;> simp [h]

/-- The loop over a group leaves the same two groups in every order. -/
theorem split_eq (order : GroupOrder) (level : Nat) (nodes : OrdMap Hash Hash) :
    (order.entries (smtDepth - (level + 1)) nodes).foldl (splitGroup (smtDepth - (level + 1)))
      (∅, ∅) = (leftGroup level nodes, rightGroup level nodes) := by
  have hfilter : ∀ f : Hash → Bool,
      ((order.entries (smtDepth - (level + 1)) nodes).filter fun p => f p.1).foldl
        (fun m p => m.insert p.1 p.2) ∅ = nodes.filter fun key _ => f key := by
    intro f
    apply OrdMap.foldl_insert_perm
    rw [Std.ExtTreeMap.toList_filter]
    exact (order.entries_perm _ nodes).filter _
  rw [foldl_splitGroup]
  exact Prod.ext (hfilter fun key => keyBit key (smtDepth - (level + 1)) == 0)
    (hfilter fun key => keyBit key (smtDepth - (level + 1)) != 0)

theorem computeSubtreeRootBy_empty (c : Crates) (order : GroupOrder) (level : Nat) :
    computeSubtreeRootBy c order level ∅ = emptyRoot c level := by
  cases level with
  | zero =>
    have hperm := order.entries_perm smtDepth ∅
    rw [Std.ExtTreeMap.toList_eq_nil_iff.mpr rfl, List.perm_nil] at hperm
    simp [computeSubtreeRootBy, hperm]
  | succ level => simp [computeSubtreeRootBy]

/-- A group hashes to the node over its two halves, whichever branch is taken. -/
theorem computeSubtreeRootBy_succ (c : Crates) (order : GroupOrder) (level : Nat)
    (nodes : OrdMap Hash Hash) : computeSubtreeRootBy c order (level + 1) nodes =
      hashSmtNode c (computeSubtreeRootBy c order level (leftGroup level nodes))
        (computeSubtreeRootBy c order level (rightGroup level nodes)) := by
  by_cases hempty : nodes = ∅
  · have hleft : leftGroup level ∅ = ∅ := Std.ExtTreeMap.filter_eq_empty_iff.mpr (by simp)
    have hright : rightGroup level ∅ = ∅ := Std.ExtTreeMap.filter_eq_empty_iff.mpr (by simp)
    simp only [hempty, hleft, hright, computeSubtreeRootBy_empty, emptyRoot]
  · have hnot : ¬nodes.isEmpty = true := fun h => hempty (Std.ExtTreeMap.isEmpty_iff.mp h)
    rw [computeSubtreeRootBy, if_neg hnot]
    simp only [split_eq]
    split_ifs with hcollapse
    · rw [hcollapse.1, hcollapse.2, emptyRoot]
    · rfl

theorem lookup_filter (nodes : OrdMap Hash Hash) (f : Hash → Bool) (key : Hash) :
    (nodes.filter fun key _ => f key)[key]? = if f key then nodes[key]? else none := by
  rw [Std.ExtTreeMap.getElem?_filter']
  cases f key <;> cases nodes[key]? <;> rfl

theorem leafAt_filter {nodes : OrdMap Hash Hash} {f : Hash → Bool} {path : Nat}
    (h : f (FixedBytes.ofNat 32 path) = true) :
    leafAt (nodes.filter fun key _ => f key) path = leafAt nodes path := by
  rw [leafAt, leafAt, Std.ExtTreeMap.getD_eq_getD_getElem?, Std.ExtTreeMap.getD_eq_getD_getElem?,
    lookup_filter, if_pos h]

theorem keyBit_ofNat_eq_zero_iff {level : Nat} (hlevel : level < smtDepth) (i : Nat) :
    keyBit (FixedBytes.ofNat 32 i) (smtDepth - (level + 1)) = 0 ↔ i / 2 ^ level % 2 = 0 := by
  have hdvd : 2 ∣ 2 ^ (smtDepth - level) := dvd_pow_self 2 (by omega)
  have hpow : 2 ^ smtDepth = 2 ^ level * 2 ^ (smtDepth - level) := by
    rw [← pow_add, Nat.add_sub_cancel' (by omega)]
  rw [Hash.keyBit_eq_zero_iff hlevel, Hash.path_ofNat, hpow, Nat.mod_mul_right_div_self,
    Nat.mod_mod_of_dvd _ hdvd]

theorem half_group {nodes : OrdMap Hash Hash} {level path : Nat} {f : Hash → Bool} (bit : Nat)
    (hbelow : Below nodes (level + 1) path)
    (hkey : ∀ key : Hash, f key = true → key.path / 2 ^ level % 2 = bit)
    (hof : ∀ i, i / 2 ^ level % 2 = bit → f (FixedBytes.ofNat 32 i) = true) (hbit : bit < 2) :
    Below (nodes.filter fun key _ => f key) level (2 * path + bit) ∧
      ∀ i, i / 2 ^ level = 2 * path + bit →
        leafAt (nodes.filter fun key _ => f key) i = leafAt nodes i := by
  constructor
  · intro key leaf h
    rw [lookup_filter] at h
    by_cases hk : f key = true
    · rw [if_pos hk] at h
      have hpath := hbelow key leaf h
      have hb := hkey key hk
      rw [FullTree.div_pow_succ] at hpath
      omega
    · rw [if_neg hk] at h
      cases h
  · intro i hi
    exact leafAt_filter (hof i (by omega))

theorem leftGroup_spec {nodes : OrdMap Hash Hash} {level path : Nat} (hlevel : level < smtDepth)
    (hbelow : Below nodes (level + 1) path) : Below (leftGroup level nodes) level (2 * path) ∧
      ∀ i, i / 2 ^ level = 2 * path → leafAt (leftGroup level nodes) i = leafAt nodes i := by
  refine half_group 0 hbelow ?_ ?_ (by omega)
  · intro key hk
    exact (Hash.keyBit_eq_zero_iff hlevel).mp (beq_iff_eq.mp hk)
  · intro i hi
    exact beq_iff_eq.mpr ((keyBit_ofNat_eq_zero_iff hlevel i).mpr hi)

theorem rightGroup_spec {nodes : OrdMap Hash Hash} {level path : Nat} (hlevel : level < smtDepth)
    (hbelow : Below nodes (level + 1) path) : Below (rightGroup level nodes) level (2 * path + 1) ∧
      ∀ i, i / 2 ^ level = 2 * path + 1 → leafAt (rightGroup level nodes) i = leafAt nodes i := by
  refine half_group 1 hbelow ?_ ?_ (by omega)
  · intro key hk
    have hbit := (Hash.keyBit_eq_zero_iff hlevel).not.mp (bne_iff_ne.mp hk)
    omega
  · intro i hi
    apply bne_iff_ne.mpr
    intro h
    have hbit := (keyBit_ofNat_eq_zero_iff hlevel i).mp h
    omega

/-- The recursion computes the node of the full tree that the group lies
below, by induction on the level. -/
theorem computeSubtreeRootBy_eq_value (c : Crates) (order : GroupOrder) {level path : Nat}
    {nodes : OrdMap Hash Hash} (hlevel : level ≤ smtDepth) (hbelow : Below nodes level path) :
    computeSubtreeRootBy c order level nodes =
      FullTree.value (hashSmtNode c) (leafAt nodes) level path := by
  induction level generalizing path nodes with
  | zero =>
    have hperm := order.entries_perm smtDepth nodes
    rw [computeSubtreeRootBy, FullTree.value, leafAt, Std.ExtTreeMap.getD_eq_getD_getElem?]
    cases hl : order.entries smtDepth nodes with
    | nil =>
      rw [hl] at hperm
      have hempty : nodes = ∅ := Std.ExtTreeMap.toList_eq_nil_iff.mp (List.nil_perm.mp hperm)
      simp [hempty, emptyRoot]
    | cons p rest =>
      have hp : nodes[p.1]? = some p.2 := by
        rw [← OrdMap.mem_toList_iff, ← hperm.mem_iff, hl]
        exact List.mem_cons_self
      have hpath : p.1.path = path := by simpa using hbelow p.1 p.2 hp
      rw [← hpath, Hash.ofNat_path, hp]
      rfl
  | succ level ih =>
    obtain ⟨hleft, hleaves⟩ := leftGroup_spec hlevel hbelow
    obtain ⟨hright, hleaves'⟩ := rightGroup_spec hlevel hbelow
    rw [computeSubtreeRootBy_succ, ih (Nat.le_of_succ_le hlevel) hleft,
      ih (Nat.le_of_succ_le hlevel) hright, FullTree.value, FullTree.value_congr hleaves,
      FullTree.value_congr hleaves']

def sortedOrder : GroupOrder := ⟨fun _ nodes => nodes.toList, fun _ _ => .refl _⟩

theorem computeSubtreeRoot_eq (c : Crates) (level : Nat) (nodes : OrdMap Hash Hash) :
    computeSubtreeRoot c level nodes = computeSubtreeRootBy c sortedOrder level nodes := by
  induction level generalizing nodes with
  | zero => rfl
  | succ level ih =>
    simp only [computeSubtreeRoot, computeSubtreeRootBy, split_eq, ih]
    rfl

theorem root_eq_rootBy (c : Crates) (smt : SparseMerkleTree) :
    smt.root c = smt.rootBy c sortedOrder := by
  rw [root, rootBy, computeSubtreeRoot_eq]

/-- The leaves are those of the non-empty values. -/
def Represents (c : Crates) (smt : SparseMerkleTree) (kv : Hash → Bytes) : Prop :=
  ∀ key : Hash, smt.leaves[key]? = if kv key = [] then none else some (hashSmtLeaf c key (kv key))

def apply (c : Crates) (smt : SparseMerkleTree) : SmtOp → SparseMerkleTree
  | .update key value => smt.update c key value
  | .delete key => smt.delete key

def build (c : Crates) (ops : List SmtOp) : SparseMerkleTree := ops.foldl (apply c) new

theorem apply_leaves (c : Crates) (smt : SparseMerkleTree) (op : SmtOp) (key : Hash) :
    (apply c smt op).leaves[key]? = if op.key = key then
      (if op.value = [] then none else some (hashSmtLeaf c key op.value))
    else smt.leaves[key]? := by
  cases op with
  | update k value =>
    simp only [apply, update, SmtOp.key, SmtOp.value, List.isEmpty_iff]
    by_cases hk : k = key
    · subst hk
      by_cases hv : value = [] <;> simp [hv]
    · by_cases hv : value = [] <;> simp [hv, hk, OrdMap.lookup_insert, OrdMap.lookup_erase]
  | delete k =>
    simp only [apply, delete, SmtOp.key, SmtOp.value, OrdMap.lookup_erase, if_true]

theorem Represents.apply {c : Crates} {smt : SparseMerkleTree} {kv : Hash → Bytes}
    (h : Represents c smt kv) (op : SmtOp) :
    Represents c (SparseMerkleTree.apply c smt op) (SmtOp.write kv op) := by
  intro key
  rw [apply_leaves, SmtOp.write, Function.update_apply]
  by_cases hk : op.key = key
  · simp [hk]
  · rw [if_neg hk, if_neg (Ne.symm hk), h key]

theorem represents_build (c : Crates) (ops : List SmtOp) :
    Represents c (build c ops) (SmtOp.map ops) := by
  have hrun : ∀ smt kv, Represents c smt kv →
      Represents c (ops.foldl (SparseMerkleTree.apply c) smt) (ops.foldl SmtOp.write kv) := by
    induction ops with
    | nil => exact fun _ _ h => h
    | cons op ops ih => exact fun _ _ h => ih _ _ (h.apply op)
  exact hrun new (fun _ => []) fun key => by simp [new]

theorem Represents.leafAt {c : Crates} {smt : SparseMerkleTree} {kv : Hash → Bytes}
    (h : Represents c smt kv) (path : Nat) : leafAt smt.leaves path = referenceLeaf c kv path := by
  rw [SparseMerkleTree.leafAt, referenceLeaf, Std.ExtTreeMap.getD_eq_getD_getElem?, h]
  by_cases hv : kv (FixedBytes.ofNat 32 path) = [] <;> simp [hv]

theorem Represents.rootBy {c : Crates} {smt : SparseMerkleTree} {kv : Hash → Bytes}
    (h : Represents c smt kv) (order : GroupOrder) : smt.rootBy c order = referenceRoot c kv := by
  have hbelow : Below smt.leaves smtDepth 0 := fun key _ _ => Nat.div_eq_of_lt key.path_lt
  have hvalue := computeSubtreeRootBy_eq_value c order le_rfl hbelow
  have hleaf : SparseMerkleTree.leafAt smt.leaves = referenceLeaf c kv := funext h.leafAt
  rw [hleaf] at hvalue
  rw [SparseMerkleTree.rootBy, referenceRoot, ← hvalue]
  split_ifs with hempty
  · rw [Std.ExtTreeMap.isEmpty_iff.mp hempty, computeSubtreeRootBy_empty]
  · rfl

theorem Represents.root {c : Crates} {smt : SparseMerkleTree} {kv : Hash → Bytes}
    (h : Represents c smt kv) : smt.root c = referenceRoot c kv := by
  rw [root_eq_rootBy, h.rootBy]

end SparseMerkleTree

namespace SmtOp

theorem foldl_write_congr (ops : List SmtOp) {kv kv' : Hash → Bytes} {key : Hash}
    (h : kv key = kv' key) : ops.foldl write kv key = ops.foldl write kv' key := by
  induction ops generalizing kv kv' with
  | nil => exact h
  | cons op ops ih =>
    apply ih
    simp only [write, Function.update_apply, h]

theorem foldl_write_filter (ops : List SmtOp) (kv : Hash → Bytes) (key : Hash) :
    ops.foldl write kv key = (ops.filter fun op => op.key = key).foldl write kv key := by
  induction ops generalizing kv with
  | nil => rfl
  | cons op ops ih =>
    rw [List.foldl_cons, ih]
    by_cases hk : op.key = key
    · simp [hk]
    · have hsame : write kv op key = kv key := Function.update_of_ne (Ne.symm hk) _ _
      simp only [List.filter_cons, hk, decide_false, Bool.false_eq_true, if_false]
      exact foldl_write_congr _ hsame

theorem map_eq_of_filter {ops ops' : List SmtOp}
    (h : ∀ key, ops.filter (fun op => op.key = key) = ops'.filter fun op => op.key = key) :
    map ops = map ops' := by
  funext key
  rw [map, map, foldl_write_filter, foldl_write_filter ops', h]

theorem map_without (ops : List SmtOp) (key : Hash) :
    map (ops.filter fun op => op.key ≠ key) = Function.update (map ops) key [] := by
  funext k
  rw [map, foldl_write_filter, List.filter_filter, Function.update_apply]
  by_cases hk : k = key
  · subst hk
    have hnone : (ops.filter fun op => decide (op.key = k) && decide (op.key ≠ k)) = [] := by
      simp
    rw [if_pos rfl, hnone]
    rfl
  · have hall : (ops.filter fun op => decide (op.key = k) && decide (op.key ≠ key)) =
        ops.filter fun op => op.key = k := by
      apply List.filter_congr
      intro op _
      by_cases ho : op.key = k <;> simp [ho, hk]
    rw [if_neg hk, hall, map, ← foldl_write_filter]

end SmtOp

end AuraChain
