import Mathlib

/-! Ordered maps and sets over a lawful order, with their lookups read
through equality of keys. Two maps with the same lookups are equal, so that
the order in which different keys were written does not matter. -/

universe u v

abbrev OrdMap (α : Type u) (β : Type v) [Ord α] := Std.ExtTreeMap α β compare
abbrev OrdSet (α : Type u) [Ord α] := Std.ExtTreeSet α compare

namespace OrdMap

variable {α : Type u} {β : Type v} [Ord α] [Std.TransOrd α] [Std.LawfulEqOrd α]
  [DecidableEq α]

theorem lookup_insert (m : OrdMap α β) (k a : α) (v : β) :
    (m.insert k v)[a]? = if k = a then some v else m[a]? := by
  simp [Std.ExtTreeMap.getElem?_insert]

theorem lookup_erase (m : OrdMap α β) (k a : α) :
    (m.erase k)[a]? = if k = a then none else m[a]? := by
  simp [Std.ExtTreeMap.getElem?_erase]

theorem getD_insert_ite (m : OrdMap α β) (k a : α) (v d : β) :
    (m.insert k v).getD a d = if k = a then v else m.getD a d := by
  simp [Std.ExtTreeMap.getD_insert]

omit [Std.LawfulEqOrd α] [DecidableEq α] in
theorem size_lt_insert {m : OrdMap α β} {k : α} (h : m[k]? = none) (v : β) :
    m.size < (m.insert k v).size := by
  have hk : ¬ m.contains k = true := by
    rw [Std.ExtTreeMap.contains_eq_isSome_getElem?, h]
    simp
  rw [Std.ExtTreeMap.size_insert]
  simp [hk]

theorem insert_comm (m : OrdMap α β) {k l : α} (h : k ≠ l) (v w : β) :
    (m.insert k v).insert l w = (m.insert l w).insert k v := by
  apply Std.ExtTreeMap.ext_getElem?
  intro a
  simp only [lookup_insert]
  by_cases hl : l = a
  · have hk : k ≠ a := fun hk => h (hk.trans hl.symm)
    simp [hl, hk]
  · simp [hl]

theorem erase_comm (m : OrdMap α β) (k l : α) :
    (m.erase k).erase l = (m.erase l).erase k := by
  apply Std.ExtTreeMap.ext_getElem?
  intro a
  simp only [lookup_erase]
  by_cases hl : l = a <;> by_cases hk : k = a <;> simp [hl, hk]

theorem insert_erase_comm (m : OrdMap α β) {k l : α} (h : k ≠ l) (v : β) :
    (m.insert k v).erase l = (m.erase l).insert k v := by
  apply Std.ExtTreeMap.ext_getElem?
  intro a
  simp only [lookup_insert, lookup_erase]
  by_cases hl : l = a
  · have hk : k ≠ a := fun hk => h (hk.trans hl.symm)
    simp [hl, hk]
  · simp [hl]

omit [DecidableEq α] in
theorem nodup_keys_toList (m : OrdMap α β) : (m.toList.map Prod.fst).Nodup := by
  rw [List.Nodup, List.pairwise_map]
  refine (Std.ExtTreeMap.distinct_keys_toList (t := m)).imp ?_
  intro a b h he
  exact h (Std.compare_eq_iff_eq.mpr he)

omit [DecidableEq α] in
theorem mem_toList_iff (m : OrdMap α β) (k : α) (v : β) : (k, v) ∈ m.toList ↔ m[k]? = some v :=
  Std.ExtTreeMap.mem_toList_iff_getElem?_eq_some

theorem lookup_foldl_insert {l : List (α × β)} (hk : (l.map Prod.fst).Nodup) (m : OrdMap α β)
    (a : α) (v : β) : (l.foldl (fun m p => m.insert p.1 p.2) m)[a]? = some v ↔
      (a, v) ∈ l ∨ a ∉ l.map Prod.fst ∧ m[a]? = some v := by
  induction l generalizing m with
  | nil => simp
  | cons p l ih =>
    obtain ⟨hnot, hk⟩ := List.nodup_cons.mp hk
    rw [List.foldl_cons, ih hk, lookup_insert, List.mem_cons, List.map_cons, List.mem_cons]
    by_cases h : p.1 = a
    · subst h
      have hno : (p.1, v) ∉ l := fun hm => hnot (List.mem_map.mpr ⟨_, hm, rfl⟩)
      have hp : (p.1, v) = p ↔ p.2 = v := by
        rw [Prod.ext_iff]
        simp [eq_comm]
      simp [hno, hp, hnot]
    · have hp : (a, v) ≠ p := fun he => h (congrArg Prod.fst he).symm
      simp [h, hp, Ne.symm h]

/-- A map is rebuilt from its entries in any order. -/
theorem foldl_insert_perm {l : List (α × β)} {m : OrdMap α β} (h : l.Perm m.toList) :
    l.foldl (fun m p => m.insert p.1 p.2) ∅ = m := by
  have hk : (l.map Prod.fst).Nodup := (h.map Prod.fst).nodup_iff.mpr (nodup_keys_toList m)
  apply Std.ExtTreeMap.ext_getElem?
  intro a
  apply Option.ext
  intro v
  rw [lookup_foldl_insert hk, h.mem_iff, mem_toList_iff]
  simp

/-- The values of all keys, a value that stands under several keys several times. -/
def contents (m : OrdMap α β) : List β := m.toList.map Prod.snd

omit [DecidableEq α] in
theorem mem_contents (m : OrdMap α β) (v : β) : v ∈ contents m ↔ ∃ k : α, m[k]? = some v := by
  simp only [contents, List.mem_map, Prod.exists, exists_eq_right, mem_toList_iff]

omit [Std.LawfulEqOrd α] [DecidableEq α] in
theorem length_contents (m : OrdMap α β) : (contents m).length = m.size := by
  rw [contents, List.length_map, Std.ExtTreeMap.length_toList]

omit [DecidableEq α] in
theorem nodup_toList (m : OrdMap α β) : m.toList.Nodup := (nodup_keys_toList m).of_map _

theorem contents_insert {m : OrdMap α β} {k : α} (h : m[k]? = none) (v : β) :
    (contents (m.insert k v)).Perm (v :: contents m) := by
  have hnew : (k, v) ∉ m.toList := by
    rw [mem_toList_iff, h]
    simp
  have hperm : (m.insert k v).toList.Perm ((k, v) :: m.toList) := by
    rw [List.perm_ext_iff_of_nodup (nodup_toList _)
      (List.nodup_cons.mpr ⟨hnew, nodup_toList m⟩)]
    rintro ⟨a, w⟩
    rw [List.mem_cons, mem_toList_iff, mem_toList_iff, lookup_insert, Prod.mk.injEq]
    by_cases ha : k = a
    · subst a
      simp [h, eq_comm]
    · simp [ha, Ne.symm ha]
  exact hperm.map Prod.snd

theorem contents_erase {m : OrdMap α β} {k : α} {v : β} (h : m[k]? = some v) :
    (contents m).Perm (v :: contents (m.erase k)) := by
  have hgone : (m.erase k)[k]? = none := by rw [lookup_erase, if_pos rfl]
  have hback : (m.erase k).insert k v = m := by
    apply Std.ExtTreeMap.ext_getElem?
    intro a
    rw [lookup_insert, lookup_erase]
    split_ifs with ha
    · rw [← ha, h]
    · rfl
  have hperm := contents_insert hgone v
  rwa [hback] at hperm

omit [Std.LawfulEqOrd α] [DecidableEq α] in
theorem getD_of_lookup {m : OrdMap α β} {k : α} {v : β} (h : m[k]? = some v) (d : β) :
    m.getD k d = v := by
  rw [Std.ExtTreeMap.getD_eq_getD_getElem?, h, Option.getD_some]

theorem insert_present {m : OrdMap α β} {k : α} {v : β} (h : m[k]? = some v) : m.insert k v = m := by
  apply Std.ExtTreeMap.ext_getElem?
  intro a
  rw [lookup_insert]
  split_ifs with ha
  · rw [← ha, h]
  · rfl

theorem erase_absent {m : OrdMap α β} {k : α} (h : m[k]? = none) : m.erase k = m := by
  apply Std.ExtTreeMap.ext_getElem?
  intro a
  rw [lookup_erase]
  split_ifs with ha
  · rw [← ha, h]
  · rfl

end OrdMap
