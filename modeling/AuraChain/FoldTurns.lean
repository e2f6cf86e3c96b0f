import Mathlib

/-! The turns of a fold: each element of the list with the state that it meets.
What every turn adds to a measure of the state, the fold adds in sum. -/

universe u v

variable {σ : Type u} {α : Type v}

def EachTurn (step : σ → α → σ) (P : σ → α → Prop) (s : σ) (l : List α) : Prop :=
  ∀ before a after, l = before ++ a :: after → P (before.foldl step s) a

namespace EachTurn

variable {step : σ → α → σ} {P : σ → α → Prop} {s : σ} {a : α} {l : List α}

theorem nil (step : σ → α → σ) (P : σ → α → Prop) (s : σ) : EachTurn step P s [] := by
  intro before a after h
  simp at h

theorem cons_iff : EachTurn step P s (a :: l) ↔ P s a ∧ EachTurn step P (step s a) l := by
  constructor
  · intro h
    exact ⟨h [] a l rfl, fun before b after he => h (a :: before) b after (by rw [he]; rfl)⟩
  · rintro ⟨hhead, hrest⟩ before b after he
    cases before with
    | nil =>
      obtain ⟨rfl, -⟩ := List.cons.inj he
      exact hhead
    | cons first before =>
      obtain ⟨rfl, htail⟩ := List.cons.inj he
      exact hrest before b after htail

/-- Gains and losses are summed apart, so that nothing is subtracted. -/
theorem measure {m : σ → Nat} {gain loss : α → Nat} (h : EachTurn step P s l)
    (hstep : ∀ s a, P s a → m (step s a) + loss a = m s + gain a) :
    m (l.foldl step s) + (l.map loss).sum = m s + (l.map gain).sum := by
  induction l generalizing s with
  | nil => rfl
  | cons a l ih =>
    obtain ⟨hhead, hrest⟩ := cons_iff.mp h
    have hturn := hstep s a hhead
    have htail := ih hrest
    rw [List.foldl_cons, List.map_cons, List.map_cons, List.sum_cons, List.sum_cons]
    omega

end EachTurn
