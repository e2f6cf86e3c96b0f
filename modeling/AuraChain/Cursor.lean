import Mathlib

/-! A cursor on a list that is fed items in any order. It moves on an item that is
the next one of the list, and ignores all others. -/

namespace Cursor

variable {α : Type*} [DecidableEq α] {l : List α} {k m : Nat}

def feed (l : List α) (k : Nat) (x : α) : Nat := if l[k]? = some x then k + 1 else k

def feedAll (l : List α) (k : Nat) (items : List α) : Nat := items.foldl (feed l) k

theorem feed_pos {x : α} (h : l[k]? = some x) : feed l k x = k + 1 := if_pos h

theorem feed_neg {x : α} (h : l[k]? ≠ some x) : feed l k x = k := if_neg h

theorem feedAll_append (l : List α) (k : Nat) (items more : List α) :
    feedAll l k (items ++ more) = feedAll l (feedAll l k items) more := List.foldl_append

theorem le_feedAll (l : List α) (k : Nat) (items : List α) : k ≤ feedAll l k items := by
  induction items generalizing k with
  | nil => exact Nat.le_refl k
  | cons x items ih =>
    refine le_trans ?_ (ih (feed l k x))
    rw [feed]
    split_ifs
    · exact Nat.le_succ k
    · exact Nat.le_refl k

/-- The cursor gets as far as the items have the list in its order, whatever else
comes in between. -/
theorem le_feedAll_iff (hm : m ≤ l.length) (hkm : k ≤ m) (items : List α) :
    m ≤ feedAll l k items ↔ ((l.take m).drop k).Sublist items := by
  induction items generalizing k with
  | nil =>
    show m ≤ k ↔ _
    rw [List.sublist_nil, List.drop_eq_nil_iff, List.length_take, Nat.min_eq_left hm]
  | cons x items ih =>
    show m ≤ feedAll l (feed l k x) items ↔ _
    rcases Nat.eq_or_lt_of_le hkm with rfl | hlt
    · refine iff_of_true (le_trans ?_ (le_feedAll l _ items)) ?_
      · rw [feed]
        split_ifs
        · exact Nat.le_succ k
        · exact Nat.le_refl k
      · rw [List.drop_eq_nil_of_le (List.length_take_le k l)]
        exact List.nil_sublist _
    · have hlen : k < l.length := hlt.trans_le hm
      have hnext : (l.take m).drop k = l[k] :: (l.take m).drop (k + 1) := by
        rw [List.drop_eq_getElem_cons (by rw [List.length_take]; omega), List.getElem_take]
      rw [hnext]
      by_cases hx : l[k] = x
      · rw [feed_pos (by rw [List.getElem?_eq_getElem hlen, hx]), hx, List.cons_sublist_cons]
        exact ih hlt
      · have hskip : (l[k] :: (l.take m).drop (k + 1)).Sublist (x :: items) ↔
            (l[k] :: (l.take m).drop (k + 1)).Sublist items := by
          rw [List.sublist_cons_iff]
          exact or_iff_left fun ⟨r, hr, _⟩ => hx (List.cons.inj hr).1
        rw [feed_neg (by rw [List.getElem?_eq_getElem hlen]; simpa using hx), hskip, ← hnext]
        exact ih hkm

end Cursor
