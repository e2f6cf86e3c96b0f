import Mathlib

/-! A balance under flows that first charge and then credit it, where a credit
stops at a cap. That no charge exceeds the balance is a matter of sums: those
of all flows so far against the balance at the start, and those of the latest
flows against the cap. -/

namespace CappedBalance

def charges (flows : List (Nat × Nat)) : Nat := (flows.map Prod.fst).sum

def credits (flows : List (Nat × Nat)) : Nat := (flows.map Prod.snd).sum

def settle (cap balance : Nat) (flow : Nat × Nat) : Nat := min (balance - flow.1 + flow.2) cap

/-- Every flow finds what it charges. -/
def Solvent (cap : Nat) : Nat → List (Nat × Nat) → Prop
  | _, [] => True
  | balance, flow :: flows => flow.1 ≤ balance ∧ Solvent cap (settle cap balance flow) flows

structure CoveredAt (cap balance : Nat) (before : List (Nat × Nat)) (charge : Nat) : Prop where
  start : charges before + charge ≤ balance + credits before
  latest : ∀ older latest, before = older ++ latest → charges latest + charge ≤ cap + credits latest

def Covered (cap balance : Nat) (flows : List (Nat × Nat)) : Prop :=
  ∀ before flow after, flows = before ++ flow :: after → 0 < flow.1 →
    CoveredAt cap balance before flow.1

theorem charges_cons (flow : Nat × Nat) (flows : List (Nat × Nat)) :
    charges (flow :: flows) = flow.1 + charges flows := rfl

theorem credits_cons (flow : Nat × Nat) (flows : List (Nat × Nat)) :
    credits (flow :: flows) = flow.2 + credits flows := rfl

theorem settle_le (cap balance : Nat) (flow : Nat × Nat) : settle cap balance flow ≤ cap :=
  Nat.min_le_right _ _

variable {cap balance : Nat} {flow : Nat × Nat} {flows : List (Nat × Nat)}

/-- What the balance at the start pays together with all before it. -/
theorem CoveredAt.of_charges {charge : Nat} {before : List (Nat × Nat)} (hb : balance ≤ cap)
    (h : charges before + charge ≤ balance) : CoveredAt cap balance before charge where
  start := by omega
  latest older latest he := by
    have hsum : charges before = charges older + charges latest := by
      simp [charges, he]
    omega

theorem Covered.head (h : Covered cap balance (flow :: flows)) : flow.1 ≤ balance := by
  rcases Nat.eq_zero_or_pos flow.1 with hzero | hpos
  · omega
  · have hstart := (h [] flow flows rfl hpos).start
    simpa [charges, credits] using hstart

theorem Covered.tail (h : Covered cap balance (flow :: flows)) :
    Covered cap (settle cap balance flow) flows := by
  intro before next after he hpos
  have hnext := h (flow :: before) next after (by rw [he]; rfl) hpos
  have hhead := h.head
  constructor
  · have hstart := hnext.start
    have hlatest := hnext.latest [flow] before rfl
    rw [charges_cons, credits_cons] at hstart
    rw [settle]
    omega
  · exact fun older latest hsplit => hnext.latest (flow :: older) latest (by rw [hsplit]; rfl)

theorem Covered.cons (hb : balance ≤ cap) (hflow : flow.1 ≤ balance)
    (h : Covered cap (settle cap balance flow) flows) : Covered cap balance (flow :: flows) := by
  intro before next after he hpos
  cases before with
  | nil =>
    obtain ⟨rfl, -⟩ := List.cons.inj he
    refine .of_charges hb ?_
    simpa [charges] using hflow
  | cons first before =>
    obtain ⟨rfl, hrest⟩ := List.cons.inj he
    have hnext := h before next after hrest hpos
    have hstart := hnext.start
    rw [settle] at hstart
    have hsum : charges (flow :: before) + next.1 ≤ balance + credits (flow :: before) := by
      rw [charges_cons, credits_cons]
      omega
    refine ⟨hsum, fun older latest hsplit => ?_⟩
    cases older with
    | nil =>
      rw [← List.nil_append latest, ← hsplit]
      omega
    | cons second older => exact hnext.latest older latest (List.cons.inj hsplit).2

/-- Solvency at every turn in closed form. -/
theorem solvent_iff_covered (hb : balance ≤ cap) :
    Solvent cap balance flows ↔ Covered cap balance flows := by
  induction flows generalizing balance with
  | nil => exact iff_of_true trivial fun before flow after he => by simp at he
  | cons flow flows ih =>
    rw [Solvent, ih (settle_le cap balance flow)]
    constructor
    · rintro ⟨hflow, hrest⟩
      exact .cons hb hflow hrest
    · exact fun h => ⟨h.head, h.tail⟩

end CappedBalance
