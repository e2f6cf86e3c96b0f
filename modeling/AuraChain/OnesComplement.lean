import Mathlib

/-! Addition of words with an end-around carry: a carry out of the top is added
at the bottom. Sums are those of numbers modulo the largest word, with that word
in the place of a zero that was carried to. -/

namespace OnesComplement

def add (top a b : Nat) : Nat :=
  if a + b ≤ top then a + b else a + b - (top + 1) + 1

def sum (top : Nat) (words : List Nat) : Nat := words.foldl (add top) 0

variable {top : Nat}

theorem add_modEq (a b : Nat) : add top a b ≡ a + b [MOD top] := by
  rw [add]
  split_ifs with h
  · rfl
  · have hsplit : a + b = a + b - (top + 1) + 1 + top := by omega
    conv_rhs => rw [hsplit]
    exact Nat.ModEq.symm Nat.add_modEq_right

theorem add_le {a b : Nat} (ha : a ≤ top) (hb : b ≤ top) : add top a b ≤ top := by
  rw [add]
  split_ifs with h
  · exact h
  · omega

theorem add_pos {a b : Nat} (h : 0 < a + b) : 0 < add top a b := by
  rw [add]
  split_ifs
  · exact h
  · omega

theorem foldl_modEq (words : List Nat) (a : Nat) :
    words.foldl (add top) a ≡ a + words.sum [MOD top] := by
  induction words generalizing a with
  | nil => rfl
  | cons w words ih =>
    rw [List.foldl_cons, List.sum_cons, ← Nat.add_assoc]
    exact (ih _).trans ((add_modEq a w).add_right _)

theorem foldl_le {words : List Nat} (h : ∀ w ∈ words, w ≤ top) {a : Nat} (ha : a ≤ top) :
    words.foldl (add top) a ≤ top := by
  induction words generalizing a with
  | nil => exact ha
  | cons w words ih =>
    obtain ⟨hw, hwords⟩ := List.forall_mem_cons.mp h
    exact ih hwords (add_le ha hw)

theorem foldl_pos {words : List Nat} {a : Nat} (h : 0 < a + words.sum) :
    0 < words.foldl (add top) a := by
  induction words generalizing a with
  | nil => simpa using h
  | cons w words ih =>
    rw [List.sum_cons] at h
    refine ih ?_
    by_cases hpos : 0 < a + w
    · have hadd := @add_pos top _ _ hpos
      omega
    · omega

/-- Words that add up to a multiple of the largest one, and not all of them zero,
sum to the largest one. -/
theorem sum_eq_top {words : List Nat} (h : ∀ w ∈ words, w ≤ top) (hpos : 0 < words.sum)
    (hmod : words.sum ≡ 0 [MOD top]) : sum top words = top := by
  have hsum : sum top words ≡ 0 [MOD top] := by
    have hfold := @foldl_modEq top words 0
    rw [Nat.zero_add] at hfold
    exact hfold.trans hmod
  have hle : sum top words ≤ top := foldl_le h (Nat.zero_le top)
  have hlow : 0 < sum top words := foldl_pos (by omega)
  exact Nat.le_antisymm hle (Nat.le_of_dvd hlow ((Nat.modEq_zero_iff_dvd).mp hsum))

end OnesComplement
