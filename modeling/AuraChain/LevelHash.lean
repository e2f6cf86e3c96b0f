import AuraChain.Reference
import AuraChain.SmtReference

/-! A second computable instance of the crates, for state trees that hold one
key. A node hashes to one more than the larger of its children, so that the
hashes of a tree tell the levels apart, and all other data to a multiple of 512. -/

namespace AuraChain.Reference

def nodePrefix : Bytes := littleEndian 8 domainSmtNode.length ++ domainSmtNode

def levelHash (data : Bytes) : Hash :=
  if nodePrefix.isPrefixOf data then
    let children := data.drop nodePrefix.length
    FixedBytes.ofNat 32 (max (ofBigEndian (children.take 32)) (ofBigEndian (children.drop 32)) + 1)
  else FixedBytes.ofNat 32 (512 * digest data)

def levelCrates (blocks : List Block) : Crates := { crates blocks with blake3 := levelHash }

def leafNumber (key : Hash) (value : Bytes) : Nat :=
  512 * digest (littleEndian 8 domainSmtLeaf.length ++ domainSmtLeaf ++ (key.bytes ++ value)) %
    2 ^ smtDepth

theorem ofBigEndian_ofNat {n : Nat} (hn : n < 2 ^ smtDepth) :
    ofBigEndian (FixedBytes.ofNat 32 n).bytes = n := by
  have h := ofBigEndian_bigEndian 32 n
  rw [Nat.mod_eq_of_lt (show n < 256 ^ 32 from hn)] at h
  exact h

theorem ofNat_inj {m n : Nat} (hm : m < 2 ^ smtDepth) (hn : n < 2 ^ smtDepth)
    (h : (FixedBytes.ofNat 32 m : Hash) = FixedBytes.ofNat 32 n) : m = n := by
  rw [← ofBigEndian_ofNat hm, ← ofBigEndian_ofNat hn, h]

theorem ofNat_mod (n : Nat) :
    (FixedBytes.ofNat 32 (n % 2 ^ smtDepth) : Hash) = FixedBytes.ofNat 32 n := by
  apply FixedBytes.ext
  apply ofBigEndian_injective (by simp [FixedBytes.ofNat])
  simp only [FixedBytes.ofNat, ofBigEndian_bigEndian]
  exact Nat.mod_mod n _

section

variable {c : Crates} (hc : c.blake3 = levelHash)
include hc

theorem hashSmtNode_level {m n : Nat} (hm : m < 2 ^ smtDepth) (hn : n < 2 ^ smtDepth) :
    hashSmtNode c (FixedBytes.ofNat 32 m) (FixedBytes.ofNat 32 n) =
      FixedBytes.ofNat 32 (max m n + 1) := by
  have hpre : nodePrefix.isPrefixOf (nodePrefix ++ ((FixedBytes.ofNat 32 m).bytes ++
      (FixedBytes.ofNat 32 n).bytes)) = true :=
    List.isPrefixOf_iff_prefix.mpr (List.prefix_append _ _)
  have hlen : (FixedBytes.ofNat 32 m).bytes.length = 32 := (FixedBytes.ofNat 32 m).size
  rw [hashSmtNode, Crates.hashWithDomain, hc]
  change levelHash (nodePrefix ++ _) = _
  rw [levelHash, if_pos hpre]
  simp only [List.drop_left, List.take_left' hlen, List.drop_left' hlen, ofBigEndian_ofNat hm,
    ofBigEndian_ofNat hn]

theorem hashSmtLeaf_level (key : Hash) (value : Bytes) :
    hashSmtLeaf c key value = FixedBytes.ofNat 32 (leafNumber key value) := by
  rw [leafNumber, ofNat_mod, hashSmtLeaf, Crates.hashWithDomain, hc]
  rfl

theorem addressKeyHash_level_injective : Function.Injective (addressKeyHash c) := by
  have hle : 512 * 257 ^ 20 ≤ 256 ^ 32 := by norm_num
  have hlt : ∀ a : Address, 512 * digest a.bytes < 256 ^ 32 := by
    intro a
    have hdigest := digest_lt a.bytes
    rw [a.size] at hdigest
    omega
  have hnumber : ∀ a : Address, addressKeyHash c a = FixedBytes.ofNat 32 (512 *
      digest (littleEndian 8 domainSmtLeaf.length ++ domainSmtLeaf ++ a.bytes)) := by
    intro a
    rw [addressKeyHash, Crates.hashWithDomain, hc]
    rfl
  intro a b h
  rw [hnumber, hnumber, digest_append, digest_append _ b.bytes, a.size, b.size, Nat.mul_add,
    Nat.mul_add] at h
  have hbytes := congrArg (fun x : Hash => ofBigEndian x.bytes) h
  simp only [FixedBytes.ofNat, ofBigEndian_bigEndian] at hbytes
  have hmod := Nat.ModEq.add_left_cancel' _ hbytes
  have he := hmod.eq_of_lt_of_lt (hlt a) (hlt b)
  exact FixedBytes.ext (digest_inj (a.size.trans b.size.symm) (by omega))

end

theorem leafNumber_mod (key : Hash) (value : Bytes) : leafNumber key value % 512 = 0 := by
  have hdvd : 512 ∣ 2 ^ smtDepth := Dvd.intro (2 ^ 247) rfl
  rw [leafNumber, Nat.mod_mod_of_dvd _ hdvd, Nat.mul_mod_right]

theorem leafNumber_lt (key : Hash) (value : Bytes) : leafNumber key value < 2 ^ smtDepth :=
  Nat.mod_lt _ (Nat.pow_pos (by omega))

def single (key : Hash) (value : Bytes) : Hash → Bytes := Function.update (fun _ => []) key value

/-- The node of a tree with one key: above the key it counts from the number of
the leaf, elsewhere from zero. -/
def singleNumber (key : Hash) (value : Bytes) (level path : Nat) : Nat :=
  if key.path / 2 ^ level = path then leafNumber key value + level else level

theorem singleNumber_lt (key : Hash) (value : Bytes) {level : Nat} (path : Nat)
    (hlevel : level ≤ smtDepth) : singleNumber key value level path < 2 ^ smtDepth := by
  have hmod := leafNumber_mod key value
  have hlt := leafNumber_lt key value
  have hdepth : smtDepth = 256 := rfl
  have hpow : 2 ^ smtDepth = 512 * 2 ^ 247 := rfl
  rw [singleNumber]
  split_ifs <;> omega

theorem singleNumber_succ (key : Hash) (value : Bytes) (level path : Nat) :
    max (singleNumber key value level (2 * path)) (singleNumber key value level (2 * path + 1)) + 1 =
      singleNumber key value (level + 1) path := by
  simp only [singleNumber, FullTree.div_pow_succ]
  split_ifs <;> omega

theorem value_single {c : Crates} (hc : c.blake3 = levelHash) (key : Hash) {value : Bytes}
    (hvalue : value ≠ []) {level path : Nat} (hlevel : level ≤ smtDepth)
    (hpath : path < 2 ^ (smtDepth - level)) :
    FullTree.value (hashSmtNode c) (referenceLeaf c (single key value)) level path =
      FixedBytes.ofNat 32 (singleNumber key value level path) := by
  induction level generalizing path with
  | zero =>
    rw [FullTree.value, referenceLeaf, singleNumber, pow_zero, Nat.div_one]
    by_cases hkey : key.path = path
    · have hof : (FixedBytes.ofNat 32 path : Hash) = key := by rw [← hkey, Hash.ofNat_path]
      simp [hof, single, hvalue, hkey, hashSmtLeaf_level hc]
    · have hof : (FixedBytes.ofNat 32 path : Hash) ≠ key := by
        intro he
        rw [Nat.sub_zero] at hpath
        rw [← he, Hash.path_ofNat] at hkey
        exact hkey (Nat.mod_eq_of_lt hpath)
      simp [single, Function.update_of_ne hof, hkey]
      decide
  | succ level ih =>
    have hpow : 2 ^ (smtDepth - level) = 2 * 2 ^ (smtDepth - (level + 1)) := by
      rw [← pow_succ']
      congr 1
      omega
    rw [FullTree.value, ih (by omega) (by omega), ih (by omega) (by omega),
      hashSmtNode_level hc (singleNumber_lt key value _ (by omega))
        (singleNumber_lt key value _ (by omega)), singleNumber_succ]

theorem mem_smtInputs_single {c : Crates} (hc : c.blake3 = levelHash) {key : Hash}
    {value : Bytes} (hvalue : value ≠ []) {p : Bytes × Bytes} (hp : p ∈ smtInputs c (single key value)) :
    (p = smtLeafInput key value ∧ c.hashWithDomain p.1 p.2 =
      FixedBytes.ofNat 32 (leafNumber key value)) ∨
    ∃ level path, level < smtDepth ∧ p = smtNodeInput
        (FixedBytes.ofNat 32 (singleNumber key value level (2 * path)),
          FixedBytes.ofNat 32 (singleNumber key value level (2 * path + 1))) ∧
      c.hashWithDomain p.1 p.2 =
        FixedBytes.ofNat 32 (singleNumber key value (level + 1) path) := by
  rcases hp with ⟨k, hk, rfl⟩ | ⟨_, ⟨level, path, hlevel, hpath, rfl⟩, rfl⟩
  · have hkey : k = key := by
      by_contra hne
      exact hk (Function.update_of_ne hne _ _)
    subst hkey
    have hv : single k value k = value := Function.update_self _ _ _
    rw [hv]
    exact Or.inl ⟨rfl, hashSmtLeaf_level hc k value⟩
  · have hpow : 2 ^ (smtDepth - level) = 2 * 2 ^ (smtDepth - (level + 1)) := by
      rw [← pow_succ']
      congr 1
      omega
    refine Or.inr ⟨level, path, hlevel, ?_, ?_⟩
    · rw [value_single hc key hvalue hlevel.le (by omega),
        value_single hc key hvalue hlevel.le (by omega)]
    · exact value_single hc key hvalue (Nat.succ_le_of_lt hlevel) hpath

theorem singleNumber_mod (key : Hash) (value : Bytes) {level : Nat} (path : Nat)
    (hlevel : level ≤ smtDepth) : singleNumber key value level path % 512 = level := by
  have hmod := leafNumber_mod key value
  have hdepth : smtDepth = 256 := rfl
  rw [singleNumber]
  split_ifs <;> omega

/-- The number of a node above the leaves tells its level and whether it stands
above the key, and so its children. -/
theorem singleNumber_children {key : Hash} {v w : Bytes} {level path level' path' : Nat}
    (hne : leafNumber key v = leafNumber key w → v = w) (hvz : leafNumber key v ≠ 0)
    (hwz : leafNumber key w ≠ 0) (hlevel : level < smtDepth) (hlevel' : level' < smtDepth)
    (h : singleNumber key v (level + 1) path = singleNumber key w (level' + 1) path') :
    singleNumber key v level (2 * path) = singleNumber key w level' (2 * path') ∧
      singleNumber key v level (2 * path + 1) = singleNumber key w level' (2 * path' + 1) := by
  have hmod : singleNumber key v (level + 1) path % 512 = level + 1 :=
    singleNumber_mod key v path hlevel
  have hmod' : singleNumber key w (level' + 1) path' % 512 = level' + 1 :=
    singleNumber_mod key w path' hlevel'
  have he : level = level' := by omega
  subst he
  rw [singleNumber, singleNumber] at h
  split_ifs at h with hon hon' hon'
  · have hpath : path = path' := hon.symm.trans hon'
    rw [hne (by omega), hpath]
    exact ⟨rfl, rfl⟩
  · omega
  · omega
  · rw [FullTree.div_pow_succ] at hon hon'
    simp only [singleNumber]
    constructor <;> split_ifs <;> omega

theorem smtInputs_single_inj {c : Crates} (hc : c.blake3 = levelHash) {key : Hash} {v w : Bytes}
    (hv : v ≠ []) (hw : w ≠ []) (hne : leafNumber key v = leafNumber key w → v = w)
    (hvz : leafNumber key v ≠ 0) (hwz : leafNumber key w ≠ 0) {p q : Bytes × Bytes}
    (hp : p ∈ smtInputs c (single key v))
    (hq : q ∈ smtInputs c (single key w))
    (h : c.hashWithDomain p.1 p.2 =
      c.hashWithDomain q.1 q.2) : p = q := by
  have hleaf : ∀ (x y : Bytes) (level path : Nat), level < smtDepth →
      (FixedBytes.ofNat 32 (leafNumber key x) : Hash) ≠
        FixedBytes.ofNat 32 (singleNumber key y (level + 1) path) := by
    intro x y level path hlevel he
    have hnum : leafNumber key x = singleNumber key y (level + 1) path :=
      ofNat_inj (leafNumber_lt key x) (singleNumber_lt key y path hlevel) he
    have hmod : singleNumber key y (level + 1) path % 512 = level + 1 :=
      singleNumber_mod key y path hlevel
    have hzero := leafNumber_mod key x
    omega
  rcases mem_smtInputs_single hc hv hp with ⟨hp, hpe⟩ | ⟨level, path, hlevel, hp, hpe⟩ <;>
    rcases mem_smtInputs_single hc hw hq with ⟨hq, hqe⟩ | ⟨level', path', hlevel', hq, hqe⟩ <;>
    rw [hpe, hqe] at h
  · rw [hp, hq, hne (ofNat_inj (leafNumber_lt key v) (leafNumber_lt key w) h)]
  · exact absurd h (hleaf v w level' path' hlevel')
  · exact absurd h.symm (hleaf w v level path hlevel)
  · obtain ⟨hleft, hright⟩ := singleNumber_children hne hvz hwz hlevel hlevel'
      (ofNat_inj (singleNumber_lt key v path hlevel) (singleNumber_lt key w path' hlevel') h)
    rw [hp, hq, hleft, hright]

theorem smtInputs_single_nonzero {c : Crates} (hc : c.blake3 = levelHash) {key : Hash} {v : Bytes}
    (hv : v ≠ []) (hvz : leafNumber key v ≠ 0) :
    c.NonzeroOn (smtInputs c (single key v)) := by
  have hzero : (Hash.zero : Hash) = FixedBytes.ofNat 32 0 := by decide
  have hpos : 0 < 2 ^ smtDepth := Nat.pow_pos (by omega)
  intro p hp h
  rcases mem_smtInputs_single hc hv hp with ⟨-, he⟩ | ⟨level, path, hlevel, -, he⟩
  · rw [he, hzero] at h
    exact hvz (ofNat_inj (leafNumber_lt key v) hpos h)
  · rw [he, hzero] at h
    have hnum : singleNumber key v (level + 1) path = 0 :=
      ofNat_inj (singleNumber_lt key v path hlevel) hpos h
    have hmod : singleNumber key v (level + 1) path % 512 = level + 1 :=
      singleNumber_mod key v path hlevel
    omega

/-- A hash that tells the two values apart tells their trees apart. -/
theorem collisionFree_single {c : Crates} (hc : c.blake3 = levelHash) {key : Hash} {v w : Bytes}
    (hv : v ≠ []) (hw : w ≠ []) (hne : leafNumber key v ≠ leafNumber key w)
    (hvz : leafNumber key v ≠ 0) (hwz : leafNumber key w ≠ 0) :
    c.InjectiveOn (smtInputs c (single key v) ∪
        smtInputs c (single key w)) ∧
      c.NonzeroOn (smtInputs c (single key v) ∪
        smtInputs c (single key w)) := by
  constructor
  · rintro p (hp | hp) q (hq | hq) h
    · exact smtInputs_single_inj hc hv hv (fun _ => rfl) hvz hvz hp hq h
    · exact smtInputs_single_inj hc hv hw (fun he => absurd he hne) hvz hwz hp hq h
    · exact smtInputs_single_inj hc hw hv (fun he => absurd he.symm hne) hwz hvz hp hq h
    · exact smtInputs_single_inj hc hw hw (fun _ => rfl) hwz hwz hp hq h
  · rintro p (hp | hp)
    · exact smtInputs_single_nonzero hc hv hvz p hp
    · exact smtInputs_single_nonzero hc hw hwz p hp

end AuraChain.Reference
