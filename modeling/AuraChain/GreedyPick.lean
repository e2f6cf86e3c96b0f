import Mathlib

/-! Picking from a list, in its order, whatever still fits into a budget. Whether
an element is picked depends on what the elements before it leave. -/

universe u

namespace GreedyPick

variable {α : Type u} (size : α → Nat)

def pick : Nat → List α → List α
  | _, [] => []
  | budget, a :: l =>
    if size a ≤ budget then a :: pick (budget - size a) l else pick budget l

def left : Nat → List α → Nat
  | budget, [] => budget
  | budget, a :: l => if size a ≤ budget then left (budget - size a) l else left budget l

theorem pick_append (budget : Nat) (l r : List α) :
    pick size budget (l ++ r) = pick size budget l ++ pick size (left size budget l) r := by
  induction l generalizing budget with
  | nil => rfl
  | cons a l ih =>
    rw [List.cons_append, pick, pick, left]
    split_ifs
    · rw [ih, List.cons_append]
    · exact ih budget

theorem pick_sublist (budget : Nat) (l : List α) : (pick size budget l).Sublist l := by
  induction l generalizing budget with
  | nil => exact .slnil
  | cons a l ih =>
    rw [pick]
    split_ifs
    · exact (ih _).cons_cons a
    · exact (ih _).cons a

theorem sum_pick_add_left (budget : Nat) (l : List α) :
    ((pick size budget l).map size).sum + left size budget l = budget := by
  induction l generalizing budget with
  | nil => exact Nat.zero_add budget
  | cons a l ih =>
    rw [pick, left]
    split_ifs with hfits
    · rw [List.map_cons, List.sum_cons, Nat.add_assoc, ih]
      omega
    · exact ih budget

theorem sum_pick_le (budget : Nat) (l : List α) :
    ((pick size budget l).map size).sum ≤ budget := by
  have h := sum_pick_add_left size budget l
  omega

/-- What is left out of an ordered list would not fit to the picks before it. -/
theorem pick_maximal {r : α → α → Prop} [DecidableRel r] (hasymm : ∀ a b, r a b → ¬ r b a)
    {budget : Nat} {l : List α} (hsorted : l.Pairwise r) {a : α} (ha : a ∈ l)
    (hout : a ∉ pick size budget l) :
    budget < (((pick size budget l).filter fun b => r b a).map size).sum + size a := by
  obtain ⟨before, after, rfl⟩ := List.mem_iff_append.mp ha
  obtain ⟨-, hafter, hbefore⟩ := List.pairwise_append.mp hsorted
  have hpast : ¬ size a ≤ left size budget before := by
    intro hfits
    refine hout ?_
    rw [pick_append, pick, if_pos hfits]
    exact List.mem_append_right _ List.mem_cons_self
  have hpick : pick size budget (before ++ a :: after) =
      pick size budget before ++ pick size (left size budget before) after := by
    rw [pick_append, pick, if_neg hpast]
  have hhigher : (pick size budget before).filter (fun b => r b a) = pick size budget before := by
    refine List.filter_eq_self.mpr fun b hb => decide_eq_true ?_
    exact hbefore b ((pick_sublist size budget before).subset hb) a List.mem_cons_self
  have hlower : (pick size (left size budget before) after).filter (fun b => r b a) = [] := by
    refine List.filter_eq_nil_iff.mpr fun b hb hba => ?_
    have hab := (List.pairwise_cons.mp hafter).1 b ((pick_sublist size _ after).subset hb)
    exact hasymm a b hab (of_decide_eq_true hba)
  rw [hpick, List.filter_append, hhigher, hlower, List.append_nil]
  have hleft := sum_pick_add_left size budget before
  omega

/-- Where all fits, all is picked. -/
theorem pick_eq_self {budget : Nat} {l : List α} (h : (l.map size).sum ≤ budget) :
    pick size budget l = l := by
  induction l generalizing budget with
  | nil => rfl
  | cons a l ih =>
    rw [List.map_cons, List.sum_cons] at h
    rw [pick, if_pos (by omega), ih (by omega)]

def Fits [DecidableEq α] (budget : Nat) (l : List α) (a : α) : Prop :=
  size a ≤ left size budget (l.takeWhile fun b => decide (b ≠ a))

instance [DecidableEq α] (budget : Nat) (l : List α) (a : α) : Decidable (Fits size budget l a) :=
  inferInstanceAs (Decidable (_ ≤ _))

theorem takeWhile_ne_append [DecidableEq α] {l : List α} {a : α} (h : a ∈ l) :
    ∃ r, l = l.takeWhile (fun b => decide (b ≠ a)) ++ a :: r := by
  induction l with
  | nil => cases h
  | cons b l ih =>
    by_cases hb : b = a
    · subst hb
      exact ⟨l, by simp⟩
    · have hm : a ∈ l := (List.mem_cons.mp h).resolve_left (Ne.symm hb)
      obtain ⟨r, hr⟩ := ih hm
      refine ⟨r, ?_⟩
      rw [List.takeWhile_cons_of_pos (by simpa using hb), List.cons_append, ← hr]

theorem mem_pick_append {budget : Nat} {l r : List α} {a : α} (h : (l ++ a :: r).Nodup) :
    a ∈ pick size budget (l ++ a :: r) ↔ size a ≤ left size budget l := by
  have hout : a ∉ l ∧ a ∉ r := by
    obtain ⟨-, hr, hdisjoint⟩ := List.nodup_append'.mp h
    exact ⟨fun hl => hdisjoint hl List.mem_cons_self, (List.nodup_cons.mp hr).1⟩
  have hl : a ∉ pick size budget l := fun hm => hout.1 ((pick_sublist size budget l).subset hm)
  rw [pick_append, List.mem_append, pick]
  split_ifs with hfits
  · simp [hfits]
  · have hr : a ∉ pick size (left size budget l) r :=
      fun hm => hout.2 ((pick_sublist size _ r).subset hm)
    simp [hl, hr, hfits]

/-- What is picked from a list without repetition. -/
theorem mem_pick_iff [DecidableEq α] {budget : Nat} {l : List α} {a : α} (h : l.Nodup) :
    a ∈ pick size budget l ↔ a ∈ l ∧ Fits size budget l a := by
  constructor
  · intro hm
    have hl := (pick_sublist size budget l).subset hm
    obtain ⟨r, hr⟩ := takeWhile_ne_append hl
    rw [hr] at hm h
    exact ⟨hl, (mem_pick_append size h).mp hm⟩
  · rintro ⟨hl, hfits⟩
    obtain ⟨r, hr⟩ := takeWhile_ne_append hl
    rw [hr] at h ⊢
    exact (mem_pick_append size h).mpr hfits

theorem Fits.of_sum [DecidableEq α] {budget : Nat} {l : List α} {a : α} (h : l.Nodup)
    (hsum : (l.map size).sum ≤ budget) (ha : a ∈ l) : Fits size budget l a := by
  have hm : a ∈ pick size budget l := by rwa [pick_eq_self size hsum]
  exact ((mem_pick_iff size h).mp hm).2

end GreedyPick
