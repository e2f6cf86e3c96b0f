import Mathlib

/-! The choice of a position by weight. A target below the total lies in the
interval of one position, and as many targets lie there as it weighs. -/

namespace WeightedChoice

def choose (target : Nat) : Nat → List Nat → Option Nat
  | _, [] => none
  | acc, w :: rest =>
    if target < acc + w then some 0 else (choose target (acc + w) rest).map (· + 1)

variable {target acc i : Nat} {weights : List Nat}

/-- The interval of a position starts at the sum of the weights before it. -/
theorem choose_eq_some_iff (hle : acc ≤ target) : choose target acc weights = some i ↔
    i < weights.length ∧ acc + (weights.take i).sum ≤ target ∧
      target < acc + (weights.take (i + 1)).sum := by
  induction weights generalizing acc i with
  | nil => simp [choose]
  | cons w rest ih =>
    rw [choose]
    by_cases hw : target < acc + w
    · rw [if_pos hw]
      cases i with
      | zero => simp [hle, hw]
      | succ i =>
        simp only [Option.some.injEq, List.take_succ_cons, List.sum_cons]
        omega
    · have hle' : acc + w ≤ target := Nat.not_lt.mp hw
      rw [if_neg hw]
      cases i with
      | zero =>
        simp only [Option.map_eq_some_iff, List.take_succ_cons, List.take_zero, List.sum_cons,
          List.sum_nil]
        omega
      | succ i =>
        simp only [Option.map_eq_some_iff, Nat.add_right_cancel_iff, exists_eq_right, ih hle',
          List.take_succ_cons, List.sum_cons, List.length_cons]
        omega

theorem choose_isSome (hle : acc ≤ target) (h : target < acc + weights.sum) :
    ∃ i, choose target acc weights = some i := by
  induction weights generalizing acc with
  | nil =>
    rw [List.sum_nil] at h
    omega
  | cons w rest ih =>
    rw [choose]
    by_cases hw : target < acc + w
    · exact ⟨0, if_pos hw⟩
    · rw [List.sum_cons, ← Nat.add_assoc] at h
      obtain ⟨i, hi⟩ := ih (Nat.not_lt.mp hw) h
      exact ⟨i + 1, by rw [if_neg hw, hi, Option.map_some]⟩

theorem choose_pos (hle : acc ≤ target) (h : choose target acc weights = some i) :
    ∃ hi : i < weights.length, 0 < weights[i] := by
  obtain ⟨hi, hlow, hhigh⟩ := (choose_eq_some_iff hle).mp h
  rw [List.sum_take_succ weights i hi] at hhigh
  exact ⟨hi, by omega⟩

/-- Of the targets below the total, a position is chosen for as many as it weighs. -/
theorem card_choose (hi : i < weights.length) :
    ((Finset.range weights.sum).filter fun target => choose target 0 weights = some i).card =
      weights[i] := by
  have hnext := List.sum_take_succ weights i hi
  have htotal : (weights.take (i + 1)).sum ≤ weights.sum := by
    rw [← List.sum_take_add_sum_drop weights (i + 1)]
    omega
  have hinterval : ((Finset.range weights.sum).filter fun target =>
      choose target 0 weights = some i) =
        Finset.Ico (weights.take i).sum (weights.take (i + 1)).sum := by
    ext target
    rw [Finset.mem_filter, Finset.mem_range, Finset.mem_Ico, choose_eq_some_iff (Nat.zero_le _)]
    omega
  rw [hinterval, Nat.card_Ico, hnext]
  omega

end WeightedChoice
