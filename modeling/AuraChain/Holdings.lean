import Mathlib

/-! The total worth of finitely many accounts, and how it moves when one
account is replaced. -/

universe u v

namespace Holdings

variable {α : Type u} {β : Type v} [Fintype α] [DecidableEq α]

def total (worth : β → Nat) (s : α → β) : Nat := ∑ a, worth (s a)

theorem total_update (worth : β → Nat) (s : α → β) (a : α) (b : β) :
    total worth (Function.update s a b) + worth (s a) = total worth s + worth b := by
  have hrest : ∑ x ∈ Finset.univ.erase a, worth (Function.update s a b x) =
      ∑ x ∈ Finset.univ.erase a, worth (s x) := by
    apply Finset.sum_congr rfl
    intro x hx
    rw [Function.update_of_ne (Finset.ne_of_mem_erase hx)]
  have hnew := Finset.add_sum_erase Finset.univ (fun x => worth (Function.update s a b x))
    (Finset.mem_univ a)
  have hold := Finset.add_sum_erase Finset.univ (fun x => worth (s x)) (Finset.mem_univ a)
  simp only [Function.update_self] at hnew
  unfold total
  omega

omit [DecidableEq α] in
theorem worth_le_total (worth : β → Nat) (s : α → β) (a : α) : worth (s a) ≤ total worth s :=
  Finset.single_le_sum (fun x _ => Nat.zero_le (worth (s x))) (Finset.mem_univ a)

theorem worth_add_le_total (worth : β → Nat) (s : α → β) {a b : α} (h : a ≠ b) :
    worth (s a) + worth (s b) ≤ total worth s := by
  have hb : b ∈ Finset.univ.erase a := Finset.mem_erase.mpr ⟨h.symm, Finset.mem_univ b⟩
  have hle := Finset.single_le_sum (fun x _ => Nat.zero_le (worth (s x))) hb
  have hold := Finset.add_sum_erase Finset.univ (fun x => worth (s x)) (Finset.mem_univ a)
  rw [total]
  omega

/-- A table with one entry for each key, summed over all keys. -/
theorem sum_find {ε : Type*} {key : ε → α} (f : ε → Nat) {l : List ε} (hk : (l.map key).Nodup) :
    ∑ a, ((l.find? fun x => key x = a).map f).getD 0 = (l.map f).sum := by
  induction l with
  | nil => simp
  | cons x l ih =>
    obtain ⟨hnot, hk⟩ := List.nodup_cons.mp hk
    have habsent : l.find? (fun y => decide (key y = key x)) = none := by
      refine List.find?_eq_none.mpr fun y hy he => ?_
      exact hnot (of_decide_eq_true he ▸ List.mem_map_of_mem hy)
    have hsplit : ∀ a, (((x :: l).find? fun y => key y = a).map f).getD 0 =
        (if key x = a then f x else 0) + ((l.find? fun y => key y = a).map f).getD 0 := by
      intro a
      by_cases ha : key x = a
      · subst ha
        simp [habsent]
      · simp [ha]
    rw [Finset.sum_congr rfl fun a _ => hsplit a, Finset.sum_add_distrib, ih hk, Finset.sum_ite_eq,
      if_pos (Finset.mem_univ _), List.map_cons, List.sum_cons]

end Holdings
