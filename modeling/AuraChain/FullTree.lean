import Mathlib

/-! The full binary tree over numbered leaves. The node at `path` of a level
stands above the leaves whose number divided by `2 ^ level` is `path`. -/

universe u

namespace FullTree

variable {α : Type u} (node : α → α → α)

def value (leaf : Nat → α) : Nat → Nat → α
  | 0, path => leaf path
  | level + 1, path => node (value leaf level (2 * path)) (value leaf level (2 * path + 1))

/-- The children of every inner node of the tree of the given height. -/
def pairs (leaf : Nat → α) (height : Nat) : Set (α × α) :=
  {p | ∃ level path, level < height ∧ path < 2 ^ (height - (level + 1)) ∧
    p = (value node leaf level (2 * path), value node leaf level (2 * path + 1))}

theorem div_pow_succ (i level : Nat) : i / 2 ^ (level + 1) = i / 2 ^ level / 2 := by
  rw [pow_succ, Nat.div_div_eq_div_mul]

variable {node}

theorem value_congr {leaf leaf' : Nat → α} {level path : Nat}
    (h : ∀ i, i / 2 ^ level = path → leaf i = leaf' i) :
    value node leaf level path = value node leaf' level path := by
  induction level generalizing path with
  | zero => exact h path (by simp)
  | succ level ih =>
    have hleft : value node leaf level (2 * path) = value node leaf' level (2 * path) := by
      apply ih
      intro i hi
      exact h i (by rw [div_pow_succ, hi]; omega)
    have hright : value node leaf level (2 * path + 1) = value node leaf' level (2 * path + 1) := by
      apply ih
      intro i hi
      exact h i (by rw [div_pow_succ, hi]; omega)
    rw [value, value, hleft, hright]

/-- Where no two inner nodes collide, equal nodes stand above equal leaves. -/
theorem leaf_eq {leaf leaf' : Nat → α} {height : Nat}
    (hinj : Set.InjOn (fun p => node p.1 p.2) (pairs node leaf height ∪ pairs node leaf' height))
    {level path : Nat} (hlevel : level ≤ height) (hpath : path < 2 ^ (height - level))
    (h : value node leaf level path = value node leaf' level path) {i : Nat}
    (hi : i / 2 ^ level = path) : leaf i = leaf' i := by
  induction level generalizing path with
  | zero =>
    have hzero : i = path := by simpa using hi
    rw [hzero]
    exact h
  | succ level ih =>
    have hmem : ∀ f : Nat → α, (value node f level (2 * path), value node f level (2 * path + 1)) ∈
        pairs node f height := fun f => ⟨level, path, hlevel, hpath, rfl⟩
    have hpair := hinj (Or.inl (hmem leaf)) (Or.inr (hmem leaf')) h
    have hpow : 2 ^ (height - level) = 2 * 2 ^ (height - (level + 1)) := by
      rw [← pow_succ']
      congr 1
      omega
    rw [div_pow_succ] at hi
    rcases Nat.mod_two_eq_zero_or_one (i / 2 ^ level) with hbit | hbit
    · exact ih (by omega) (by omega) (congrArg Prod.fst hpair) (by omega)
    · exact ih (by omega) (by omega) (congrArg Prod.snd hpair) (by omega)

theorem leaves_eq {leaf leaf' : Nat → α} {height : Nat}
    (hinj : Set.InjOn (fun p => node p.1 p.2) (pairs node leaf height ∪ pairs node leaf' height))
    (h : value node leaf height 0 = value node leaf' height 0) {i : Nat} (hi : i < 2 ^ height) :
    leaf i = leaf' i :=
  leaf_eq hinj le_rfl (by simp) h (Nat.div_eq_of_lt hi)

end FullTree
