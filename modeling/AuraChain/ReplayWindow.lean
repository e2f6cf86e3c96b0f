import Mathlib

/-! Windows against replay. A window is a lower bound for the numbers that are
still accepted. Every number that comes in moves it past itself, so that exactly
the records of a sequence are accepted, the numbers above all earlier ones. -/

namespace ReplayWindow

/-- The window after the numbers of a list. -/
def window (w : ℕ) (l : List ℕ) : ℕ := l.foldl (fun w n => max w (n + 1)) w

def records (w : ℕ) : List ℕ → List ℕ
  | [] => []
  | n :: l => if w ≤ n then n :: records (n + 1) l else records w l

variable {w n m : ℕ} {l : List ℕ}

@[simp] theorem window_nil (w : ℕ) : window w [] = w := rfl

@[simp] theorem window_cons (w n : ℕ) (l : List ℕ) :
    window w (n :: l) = window (max w (n + 1)) l := rfl

/-- A number is accepted exactly if it is above all numbers before it. -/
theorem window_le_iff : window w l ≤ n ↔ w ≤ n ∧ ∀ m ∈ l, m < n := by
  induction l generalizing w with
  | nil => simp
  | cons a l ih =>
    rw [window_cons, ih, max_le_iff, Nat.succ_le_iff, List.forall_mem_cons, and_assoc]

theorem le_of_mem_records (h : n ∈ records w l) : w ≤ n := by
  induction l generalizing w with
  | nil => simp [records] at h
  | cons a l ih =>
    by_cases ha : w ≤ a
    · rw [records, if_pos ha] at h
      rcases List.mem_cons.mp h with rfl | h
      · exact ha
      · have hle := ih h
        omega
    · rw [records, if_neg ha] at h
      exact ih h

theorem records_pairwise (w : ℕ) (l : List ℕ) : (records w l).Pairwise (· < ·) := by
  induction l generalizing w with
  | nil => exact .nil
  | cons a l ih =>
    by_cases ha : w ≤ a
    · rw [records, if_pos ha]
      exact List.pairwise_cons.mpr ⟨fun n hn => le_of_mem_records hn, ih (a + 1)⟩
    · rw [records, if_neg ha]
      exact ih w

end ReplayWindow
