import AuraChain.OrdMap

/-! Ordered maps whose keys are lists, in lexicographic order. The keys with a
given prefix are neighbours, so that a scan from the prefix on finds them all. -/

universe u v

namespace PrefixScan

variable {α : Type u} [Ord α] [Std.LawfulEqOrd α]

omit [Std.LawfulEqOrd α] in
theorem compare_cons (x y : α) (l r : List α) :
    compare (x :: l) (y :: r) = (compare x y).then (compare l r) :=
  List.compareLex_cons_cons

theorem compare_append (pre l r : List α) : compare (pre ++ l) (pre ++ r) = compare l r := by
  induction pre with
  | nil => rfl
  | cons x pre ih =>
    rw [List.cons_append, List.cons_append, compare_cons, Std.ReflOrd.compare_self, ih]
    rfl

theorem not_lt_of_prefix {pre key : List α} (h : pre <+: key) : compare key pre ≠ .lt := by
  induction pre generalizing key with
  | nil =>
    cases key with
    | nil => exact fun he => by cases he
    | cons x l => exact fun he => by cases he
  | cons p pre ih =>
    obtain ⟨rest, rfl⟩ := h
    rw [List.cons_append, compare_cons, Std.ReflOrd.compare_self]
    exact ih (List.prefix_append pre rest)

theorem prefix_of_between {pre key key' : List α} (hge : compare key pre ≠ .lt)
    (hlt : compare key key' = .lt) (h : pre <+: key') : pre <+: key := by
  induction pre generalizing key key' with
  | nil => exact List.nil_prefix
  | cons p pre ih =>
    obtain ⟨rest, rfl⟩ := h
    cases key with
    | nil => exact absurd rfl hge
    | cons x l =>
      rw [compare_cons] at hge
      rw [List.cons_append, compare_cons] at hlt
      cases hx : compare x p with
      | lt => simp [hx] at hge
      | gt => simp [hx] at hlt
      | eq =>
        obtain rfl := Std.LawfulEqOrd.eq_of_compare hx
        simp only [hx, Ordering.eq_then] at hge hlt
        exact (List.prefix_cons_inj x).mpr (ih hge hlt (List.prefix_append pre rest))

end PrefixScan

/-- In a list in which nothing kept follows what ends the scan, scanning is
filtering. -/
theorem List.takeWhile_dropWhile_eq_filter {α : Type u} {before keep : α → Bool} {l : List α}
    (hbefore : ∀ x ∈ l, before x = true → keep x = false)
    (hsorted : l.Pairwise fun x y => before x = false → before y = false ∧
      (keep x = false → keep y = false)) :
    (l.dropWhile before).takeWhile keep = l.filter keep := by
  induction l with
  | nil => rfl
  | cons x l ih =>
    rw [List.pairwise_cons] at hsorted
    have htail := ih (fun y hy => hbefore y (List.mem_cons_of_mem _ hy)) hsorted.2
    cases hx : before x with
    | true =>
      have hkeep := hbefore x List.mem_cons_self hx
      rw [List.dropWhile_cons_of_pos hx, htail, List.filter_cons_of_neg (by simp [hkeep])]
    | false =>
      have hnone : ∀ y ∈ l, before y = false := fun y hy => (hsorted.1 y hy hx).1
      have hdrop : l.dropWhile before = l := List.dropWhile_eq_self_iff.mpr fun hpos => by
        simp [hnone _ (List.getElem_mem hpos)]
      rw [hdrop] at htail
      rw [List.dropWhile_cons_of_neg (by simp [hx])]
      cases hk : keep x with
      | true => rw [List.takeWhile_cons_of_pos hk, htail, List.filter_cons_of_pos hk]
      | false =>
        have hall : ∀ y ∈ l, ¬keep y = true := fun y hy => by simp [(hsorted.1 y hy hx).2 hk]
        rw [List.takeWhile_cons_of_neg (by simp [hk]), List.filter_cons_of_neg (by simp [hk]),
          List.filter_eq_nil_iff.mpr hall]

namespace OrdMap

variable {α : Type u} {β : Type v} [Ord α] [Std.TransOrd α] [Std.LawfulEqOrd α] [DecidableEq α]

theorem scan_eq_filter (m : OrdMap (List α) β) (pre : List α) :
    (m.toList.dropWhile fun p => compare p.1 pre == .lt).takeWhile (fun p => pre.isPrefixOf p.1) =
      m.toList.filter fun p => pre.isPrefixOf p.1 := by
  apply List.takeWhile_dropWhile_eq_filter
  · intro p _ hlt
    rw [Bool.eq_false_iff]
    intro hp
    exact PrefixScan.not_lt_of_prefix (List.isPrefixOf_iff_prefix.mp hp) (beq_iff_eq.mp hlt)
  · refine (Std.ExtTreeMap.ordered_keys_toList (t := m)).imp ?_
    intro p q hpq hge
    have hge : compare p.1 pre ≠ .lt := fun he => by simp [he] at hge
    constructor
    · rw [beq_eq_false_iff_ne]
      intro hlt
      exact hge (Std.TransCmp.lt_trans hpq hlt)
    · intro hp
      rw [Bool.eq_false_iff] at hp ⊢
      intro hq
      exact hp (List.isPrefixOf_iff_prefix.mpr
        (PrefixScan.prefix_of_between hge hpq (List.isPrefixOf_iff_prefix.mp hq)))

end OrdMap
