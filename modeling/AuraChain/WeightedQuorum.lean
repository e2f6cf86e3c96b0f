import Mathlib

/-! Weighted quorums over a finite list of members: the weight of a selection,
the overlap of two quorums of more than two thirds, and the weight that a list
of distinct keys finds among members with distinct keys. -/

universe u v

namespace WeightedQuorum

variable {α : Type u} {β : Type v}

def weight (w : β → Nat) (members : List β) (p : β → Bool) : Nat :=
  ((members.filter p).map w).sum

theorem weight_le (w : β → Nat) (members : List β) (p : β → Bool) :
    weight w members p ≤ (members.map w).sum := by
  induction members with
  | nil => simp [weight]
  | cons b members ih =>
    rw [weight] at ih ⊢
    rw [List.filter_cons]
    split_ifs with hp <;> simp only [List.map_cons, List.sum_cons] <;> omega

theorem weight_add (w : β → Nat) (members : List β) (p q : β → Bool) :
    weight w members p + weight w members q ≤
      (members.map w).sum + weight w members (fun b => p b && q b) := by
  induction members with
  | nil => simp [weight]
  | cons b members ih =>
    unfold weight at ih ⊢
    cases hp : p b <;> cases hq : q b <;> simp [hp, hq] <;> omega

theorem weight_mono (w : β → Nat) {members : List β} {p q : β → Bool}
    (h : ∀ b ∈ members, p b = true → q b = true) : weight w members p ≤ weight w members q := by
  induction members with
  | nil => simp [weight]
  | cons b members ih =>
    have hrest := ih fun x hx => h x (List.mem_cons_of_mem b hx)
    have hb := h b List.mem_cons_self
    unfold weight at hrest ⊢
    rw [List.filter_cons, List.filter_cons]
    cases hp : p b with
    | false =>
      cases hq : q b with
      | false => simpa using hrest
      | true =>
        simp only [Bool.false_eq_true, if_false, if_true, List.map_cons, List.sum_cons]
        omega
    | true =>
      rw [hb hp]
      simpa using hrest

/-- Two selections of more than two thirds share more than one third. -/
theorem overlap (w : β → Nat) {members : List β} {p q : β → Bool}
    (hp : 2 * (members.map w).sum < 3 * weight w members p)
    (hq : 2 * (members.map w).sum < 3 * weight w members q) :
    (members.map w).sum < 3 * weight w members (fun b => p b && q b) := by
  have hadd := weight_add w members p q
  omega

/-- The members that two quorums share are not all among a third of the weight. -/
theorem exists_common (w : β → Nat) {members : List β} {p q faulty : β → Bool}
    (hp : 2 * (members.map w).sum < 3 * weight w members p)
    (hq : 2 * (members.map w).sum < 3 * weight w members q)
    (hfaulty : 3 * weight w members faulty ≤ (members.map w).sum) :
    ∃ b ∈ members, p b = true ∧ q b = true ∧ faulty b = false := by
  by_contra hnone
  have hshared : weight w members (fun b => p b && q b) ≤ weight w members faulty := by
    apply weight_mono
    intro b hb hpq
    obtain ⟨hpb, hqb⟩ := (Bool.and_eq_true _ _).mp hpq
    by_contra hf
    exact hnone ⟨b, hb, hpb, hqb, Bool.eq_false_of_not_eq_true hf⟩
  have hover := overlap w hp hq
  omega

section Find

variable [DecidableEq α] (key : β → α)

theorem find?_key {members : List β} (h : (members.map key).Nodup) {b : β} (hb : b ∈ members) :
    members.find? (fun x => key x = key b) = some b := by
  cases hf : members.find? (fun x => key x = key b) with
  | none =>
    have hnone := List.find?_eq_none.mp hf b hb
    simp at hnone
  | some x =>
    have hx := List.mem_of_find?_eq_some hf
    have he : key x = key b := by simpa using List.find?_some hf
    rw [List.inj_on_of_nodup_map h hx hb he]

theorem sum_find?_eq_weight (w : β → Nat) {members : List β} {keys : List α}
    (hm : (members.map key).Nodup) (hk : keys.Nodup) :
    ((keys.filterMap fun a => members.find? (fun x => key x = a)).map w).sum =
      weight w members (fun b => decide (key b ∈ keys)) := by
  have hfound : ∀ {a b}, members.find? (fun x => key x = a) = some b → b ∈ members ∧ key b = a := by
    intro a b h
    exact ⟨List.mem_of_find?_eq_some h, by simpa using List.find?_some h⟩
  have hperm : (keys.filterMap fun a => members.find? (fun x => key x = a)).Perm
      (members.filter fun b => decide (key b ∈ keys)) := by
    refine (List.perm_ext_iff_of_nodup ?_ (hm.of_map.filter _)).mpr fun b => ?_
    · refine hk.filterMap fun a a' b hb hb' => ?_
      exact (hfound hb).2.symm.trans (hfound hb').2
    · simp only [List.mem_filterMap, List.mem_filter, decide_eq_true_eq]
      constructor
      · rintro ⟨a, ha, hb⟩
        obtain ⟨hmem, rfl⟩ := hfound hb
        exact ⟨hmem, ha⟩
      · rintro ⟨hmem, ha⟩
        exact ⟨key b, ha, find?_key key hm hmem⟩
  exact (hperm.map w).sum_eq

end Find

end WeightedQuorum
