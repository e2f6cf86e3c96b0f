import Mathlib

/-! A list cut into pieces of one size, and an array with holes into which pieces
are put by their numbers, in any order and any number of times. Read from the
start, with something short in the place of a hole, the array is the list exactly
when every piece is there. -/

universe u

namespace SparseArray

variable {α : Type u}

def get (slots : List (Option α)) (i : Nat) : Option α := slots[i]?.join

/-- Holes fill the place up to an index past the end. -/
def set (slots : List (Option α)) (i : Nat) (v : α) : List (Option α) :=
  if i < slots.length then slots.set i (some v)
  else slots ++ List.replicate (i - slots.length) none ++ [some v]

def filled (slots : List (Option α)) : Nat := slots.countP Option.isSome

def join (hole : List α) (slots : List (Option (List α))) : List α :=
  slots.flatMap fun slot => slot.getD hole

/-- The numbered values, put into an empty array one after the other. -/
def collect (f : Nat → α) (is : List Nat) : List (Option α) :=
  is.foldl (fun slots i => set slots i (f i)) []

theorem length_set (slots : List (Option α)) (i : Nat) (v : α) :
    (set slots i v).length = max slots.length (i + 1) := by
  rw [set]
  split_ifs with hi
  · rw [List.length_set]
    omega
  · simp only [List.length_append, List.length_replicate, List.length_singleton]
    omega

theorem get_set (slots : List (Option α)) (i : Nat) (v : α) (j : Nat) :
    get (set slots i v) j = if i = j then some v else get slots j := by
  rw [get, get, set]
  by_cases hi : i < slots.length
  · rw [if_pos hi, List.getElem?_set]
    split_ifs <;> rfl
  rw [if_neg hi]
  rcases lt_trichotomy j i with hj | rfl | hj
  · rw [if_neg (by omega), List.getElem?_append_left (by simp; omega), List.getElem?_append]
    split_ifs with hold
    · rfl
    · rw [List.getElem?_replicate, if_pos (by omega), List.getElem?_eq_none (by omega)]
      rfl
  · rw [if_pos rfl, List.getElem?_append_right (by simp; omega)]
    have hlast : j - (slots ++ List.replicate (j - slots.length) (none : Option α)).length = 0 := by
      simp only [List.length_append, List.length_replicate]
      omega
    rw [hlast]
    rfl
  · rw [if_neg (by omega), List.getElem?_eq_none (by simp; omega), List.getElem?_eq_none (by omega)]

section collect

variable {f : Nat → α} {is : List Nat} {n : Nat}

theorem collect_concat (f : Nat → α) (is : List Nat) (i : Nat) :
    collect f (is ++ [i]) = set (collect f is) i (f i) := by
  rw [collect, List.foldl_append]
  rfl

theorem get_collect (f : Nat → α) (is : List Nat) (j : Nat) :
    get (collect f is) j = if j ∈ is then some (f j) else none := by
  induction is using List.reverseRecOn with
  | nil => rfl
  | append_singleton is i ih =>
    rw [collect_concat, get_set, ih]
    by_cases hij : i = j
    · subst hij
      simp
    · simp [hij, Ne.symm hij]

theorem length_collect_le (h : ∀ i ∈ is, i < n) : (collect f is).length ≤ n := by
  induction is using List.reverseRecOn with
  | nil => exact Nat.zero_le n
  | append_singleton is i ih =>
    obtain ⟨hold, hi⟩ := List.forall_mem_append.mp h
    have hlast := hi i (List.mem_singleton_self i)
    have hrest := ih hold
    rw [collect_concat, length_set]
    omega

/-- The array ends with a value, never with a hole. -/
theorem last_mem_of_length_collect (h : (collect f is).length = n + 1) : n ∈ is := by
  induction is using List.reverseRecOn with
  | nil => cases h
  | append_singleton is i ih =>
    rw [collect_concat, length_set] at h
    by_cases hlast : i = n
    · rw [hlast]
      exact List.mem_append_right is (List.mem_singleton_self n)
    · exact List.mem_append_left _ (ih (by omega))

theorem collect_eq_of_all (h : ∀ i ∈ is, i < n) (hall : ∀ i < n, i ∈ is) :
    collect f is = (List.range n).map fun i => some (f i) := by
  have hle := length_collect_le (f := f) h
  have hfull : (collect f is).length = n := by
    cases n with
    | zero => omega
    | succ n =>
      by_contra hshort
      have hget := get_collect f is n
      rw [if_pos (hall n (by omega)), get, List.getElem?_eq_none (by omega)] at hget
      cases hget
  apply List.ext_getElem?
  intro i
  by_cases hi : i < n
  · have hget := get_collect f is i
    rw [if_pos (hall i hi), get, Option.join_eq_some_iff] at hget
    simp [hget, hi]
  · rw [List.getElem?_eq_none (by omega), List.getElem?_eq_none (by simp; omega)]

theorem le_filled_collect_iff (h : ∀ i ∈ is, i < n) :
    n ≤ filled (collect f is) ↔ ∀ i < n, i ∈ is := by
  constructor
  · intro hfilled i hi
    have hle := length_collect_le (f := f) h
    have hcount : (collect f is).countP Option.isSome ≤ (collect f is).length := List.countP_le_length
    rw [filled] at hfilled
    have hall : (collect f is).countP Option.isSome = (collect f is).length := by omega
    have hlt : i < (collect f is).length := by omega
    have hsome := List.countP_eq_length.mp hall _ (List.getElem_mem hlt)
    have hget := get_collect f is i
    rw [get, List.getElem?_eq_getElem hlt, Option.join_some] at hget
    by_contra hmissing
    rw [if_neg hmissing] at hget
    rw [hget] at hsome
    cases hsome
  · intro hall
    rw [collect_eq_of_all h hall, filled, List.countP_map]
    simp [Function.comp_def]

end collect

section join

variable {f : Nat → List α} {is : List Nat} {n : Nat} {hole : List α}

theorem join_collect_of_all (h : ∀ i ∈ is, i < n) (hall : ∀ i < n, i ∈ is) :
    join hole (collect f is) = ((List.range n).map f).flatten := by
  rw [collect_eq_of_all h hall, join, List.flatMap_map]
  rfl

theorem length_join (hole : List α) (slots : List (Option (List α))) : (join hole slots).length =
    ∑ i ∈ Finset.range slots.length, ((get slots i).getD hole).length := by
  induction slots using List.reverseRecOn with
  | nil => rfl
  | append_singleton slots slot ih =>
    have hlast : get (slots ++ [slot]) slots.length = slot := by simp [get]
    have hfront : ∑ i ∈ Finset.range slots.length, ((get (slots ++ [slot]) i).getD hole).length =
        ∑ i ∈ Finset.range slots.length, ((get slots i).getD hole).length := by
      refine Finset.sum_congr rfl fun i hi => ?_
      rw [get, get, List.getElem?_append_left (Finset.mem_range.mp hi)]
    rw [join, List.flatMap_append, List.length_append, ← join, ih, List.length_append,
      List.length_singleton, Finset.sum_range_succ, hlast, hfront]
    simp

/-- A piece that is missing makes the array shorter than the list: at the end it
is not there at all, and before the end the hole is shorter. -/
theorem length_join_lt (h : ∀ i ∈ is, i < n) (hmissing : ∃ i < n, i ∉ is)
    (hshort : ∀ i, i + 1 < n → hole.length < (f i).length)
    (hlast : ∀ i, i + 1 = n → 0 < (f i).length) :
    (join hole (collect f is)).length < ∑ i ∈ Finset.range n, (f i).length := by
  have hle := length_collect_le (f := f) h
  have hterm : ∀ i, i + 1 < n → ((get (collect f is) i).getD hole).length ≤ (f i).length := by
    intro i hi
    rw [get_collect]
    split_ifs
    · exact le_rfl
    · exact (hshort i hi).le
  rw [length_join]
  by_cases hfull : (collect f is).length = n
  · obtain ⟨k, rfl⟩ : ∃ k, n = k + 1 := by
      obtain ⟨i, hi, -⟩ := hmissing
      exact ⟨n - 1, by omega⟩
    have hend : k ∈ is := last_mem_of_length_collect hfull
    rw [hfull]
    obtain ⟨i, hi, hnot⟩ := hmissing
    refine Finset.sum_lt_sum (fun j hj => ?_) ⟨i, Finset.mem_range.mpr hi, ?_⟩
    · by_cases hj' : j = k
      · rw [hj', get_collect, if_pos hend, Option.getD_some]
      · exact hterm j (by have := Finset.mem_range.mp hj; omega)
    · rw [get_collect, if_neg hnot, Option.getD_none]
      have hne : i ≠ k := fun he => hnot (he ▸ hend)
      exact hshort i (by omega)
  · obtain ⟨k, rfl⟩ : ∃ k, n = k + 1 := ⟨n - 1, by omega⟩
    rw [Finset.sum_range_succ]
    have hfront : ∑ i ∈ Finset.range (collect f is).length, ((get (collect f is) i).getD hole).length ≤
        ∑ i ∈ Finset.range k, (f i).length := by
      refine (Finset.sum_le_sum fun i hi => hterm i ?_).trans
        (Finset.sum_le_sum_of_subset (Finset.range_subset_range.mpr (by omega)))
      have := Finset.mem_range.mp hi
      omega
    exact Nat.lt_of_le_of_lt hfront (Nat.lt_add_of_pos_right (hlast k rfl))

theorem length_flatten_range (f : Nat → List α) (n : Nat) :
    ((List.range n).map f).flatten.length = ∑ i ∈ Finset.range n, (f i).length := by
  induction n with
  | zero => rfl
  | succ n ih =>
    rw [List.range_succ, List.map_append, List.flatten_append, List.length_append, ih,
      Finset.sum_range_succ]
    simp

theorem join_collect_eq_iff (h : ∀ i ∈ is, i < n)
    (hshort : ∀ i, i + 1 < n → hole.length < (f i).length)
    (hlast : ∀ i, i + 1 = n → 0 < (f i).length) :
    join hole (collect f is) = ((List.range n).map f).flatten ↔ ∀ i < n, i ∈ is := by
  constructor
  · intro hjoin
    by_contra hmissing
    simp only [not_forall] at hmissing
    obtain ⟨i, hi, hnot⟩ := hmissing
    have hlt := length_join_lt h ⟨i, hi, hnot⟩ hshort hlast
    rw [hjoin, length_flatten_range] at hlt
    exact absurd hlt (lt_irrefl _)
  · exact join_collect_of_all h

end join

end SparseArray

namespace Pieces

variable {α : Type u}

def piece (size : Nat) (l : List α) (i : Nat) : List α := (l.drop (i * size)).take size

/-- The length over the size, rounded up. -/
def count (size : Nat) (l : List α) : Nat := (l.length + size - 1) / size

variable {size i : Nat} {l : List α}

theorem lt_count_iff (h : 0 < size) : i < count size l ↔ i * size < l.length := by
  rw [count, Nat.lt_div_iff_mul_lt h]
  omega

theorem length_piece (size : Nat) (l : List α) (i : Nat) :
    (piece size l i).length = min size (l.length - i * size) := by
  rw [piece, List.length_take, List.length_drop]

theorem length_piece_of_lt (h : 0 < size) (hi : i + 1 < count size l) :
    (piece size l i).length = size := by
  rw [lt_count_iff h, Nat.succ_mul] at hi
  rw [length_piece]
  omega

theorem length_piece_pos (h : 0 < size) (hi : i < count size l) : 0 < (piece size l i).length := by
  rw [lt_count_iff h] at hi
  rw [length_piece]
  omega

theorem flatten_pieces_take (size : Nat) (l : List α) (n : Nat) :
    ((List.range n).map (piece size l)).flatten = l.take (n * size) := by
  induction n with
  | zero => simp
  | succ n ih =>
    rw [List.range_succ, List.map_append, List.flatten_append, ih, Nat.succ_mul, List.take_add]
    simp [piece]

theorem flatten_pieces (h : 0 < size) (l : List α) :
    ((List.range (count size l)).map (piece size l)).flatten = l := by
  have hall : ¬ count size l * size < l.length := by
    rw [← lt_count_iff h]
    exact lt_irrefl _
  rw [flatten_pieces_take, List.take_of_length_le (by omega)]

end Pieces
