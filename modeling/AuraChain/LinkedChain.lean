import Mathlib

/-! Numbered lists whose elements name the hash of their predecessor. The first
element has number zero, and what it names is left open. -/

universe u v

variable {α : Type u} {κ : Type v} {number : α → Nat} {parent hash : α → κ} {chain : List α}
  {a b : α}

structure LinkedChain (number : α → Nat) (parent hash : α → κ) (chain : List α) : Prop where
  number_eq : ∀ {i b}, chain[i]? = some b → number b = i
  parent_eq : ∀ {i a b}, chain[i]? = some a → chain[i + 1]? = some b → parent b = hash a

namespace LinkedChain

theorem getElem?_concat_iff {i : Nat} :
    (chain ++ [b])[i]? = some a ↔ chain[i]? = some a ∨ i = chain.length ∧ b = a := by
  rcases lt_trichotomy i chain.length with hi | rfl | hi
  · rw [List.getElem?_append_left hi]
    constructor
    · exact Or.inl
    · rintro (h | ⟨h, -⟩)
      · exact h
      · omega
  · simp
  · have hnone : chain[i]? = none := List.getElem?_eq_none hi.le
    have hnone' : (chain ++ [b])[i]? = none := List.getElem?_eq_none (by simp; omega)
    simp only [hnone, hnone', reduceCtorEq, false_or, false_iff, not_and]
    omega

theorem nil : LinkedChain number parent hash [] where
  number_eq h := by simp at h
  parent_eq h := by simp at h

theorem number_lt (h : LinkedChain number parent hash chain) (hb : b ∈ chain) :
    number b < chain.length := by
  obtain ⟨i, hi, rfl⟩ := List.getElem_of_mem hb
  rw [h.number_eq (List.getElem?_eq_getElem hi)]
  exact hi

/-- A chain grows by an element that names its last one. -/
theorem append (h : LinkedChain number parent hash chain) (hnumber : number b = chain.length)
    (hparent : ∀ a, chain.getLast? = some a → parent b = hash a) :
    LinkedChain number parent hash (chain ++ [b]) := by
  constructor
  · intro i x hx
    rcases getElem?_concat_iff.mp hx with hx | ⟨rfl, rfl⟩
    · exact h.number_eq hx
    · exact hnumber
  · intro i x y hx hy
    rcases getElem?_concat_iff.mp hy with hy | ⟨hi, rfl⟩
    · have hlt := (List.getElem?_eq_some_iff.mp hy).1
      rw [List.getElem?_append_left (by omega)] at hx
      exact h.parent_eq hx hy
    · rw [List.getElem?_append_left (by omega)] at hx
      apply hparent
      rw [List.getLast?_eq_getElem?, ← hi, Nat.add_sub_cancel]
      exact hx

end LinkedChain
