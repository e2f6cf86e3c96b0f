import AuraChain.AccountableSafety
import AuraChain.WeightedChoice

/-! Proposer election is proportional to stake. The loop over the validators is
a choice by weight, whose sums fit 64 bits. -/

namespace AuraChain

/-- The position of the validator that `pick_proposer` returns. -/
def pickPosition (targetPower : UInt64) : UInt64 → List ValidatorInfo → Option Nat
  | _, [] => none
  | accumulated, val :: rest =>
    if targetPower < accumulated + val.votingPower then some 0
    else (pickPosition targetPower (accumulated + val.votingPower) rest).map (· + 1)

def accumulate (accumulated : UInt64) (validators : List ValidatorInfo) : UInt64 :=
  validators.foldl (fun accumulated val => accumulated + val.votingPower) accumulated

variable {targetPower accumulated : UInt64} {V front rest : List ValidatorInfo}

theorem pickProposer_eq : pickProposer targetPower accumulated V =
    (pickPosition targetPower accumulated V).bind fun i => V[i]? := by
  induction V generalizing accumulated with
  | nil => rfl
  | cons val rest ih =>
    rw [pickProposer, pickPosition]
    by_cases hval : targetPower < accumulated + val.votingPower
    · rw [if_pos hval, if_pos hval]
      rfl
    · rw [if_neg hval, if_neg hval, ih]
      cases pickPosition targetPower (accumulated + val.votingPower) rest with
      | none => rfl
      | some i => rfl

/-- The accumulator at a turn of the loop is the sum over the earlier turns. -/
theorem pickProposer_append (h : pickProposer targetPower accumulated front = none) :
    pickProposer targetPower accumulated (front ++ rest) =
      pickProposer targetPower (accumulate accumulated front) rest := by
  induction front generalizing accumulated with
  | nil => rfl
  | cons val front ih =>
    rw [pickProposer] at h
    split_ifs at h with hval
    rw [List.cons_append, pickProposer, if_neg hval]
    exact ih h

theorem toNat_accumulate
    (hfits : accumulated.toNat + (V.map ValidatorInfo.power).sum < 2 ^ 64) :
    (accumulate accumulated V).toNat = accumulated.toNat + (V.map ValidatorInfo.power).sum := by
  have hmap : (V.map ValidatorInfo.votingPower).map UInt64.toNat = V.map ValidatorInfo.power := by
    simp [ValidatorInfo.power, Function.comp_def]
  have hfold := UInt64.toNat_foldl_add (V.map ValidatorInfo.votingPower) accumulated
  rw [hmap, List.foldl_map] at hfold
  rw [accumulate, hfold, Nat.mod_eq_of_lt hfits]

theorem pickPosition_eq_choose
    (hfits : accumulated.toNat + (V.map ValidatorInfo.power).sum < 2 ^ 64) :
    pickPosition targetPower accumulated V =
      WeightedChoice.choose targetPower.toNat accumulated.toNat (V.map ValidatorInfo.power) := by
  induction V generalizing accumulated with
  | nil => rfl
  | cons val rest ih =>
    rw [List.map_cons, List.sum_cons] at hfits
    have hsum : (accumulated + val.votingPower).toNat = accumulated.toNat + val.power := by
      rw [UInt64.toNat_add]
      exact Nat.mod_eq_of_lt (by rw [ValidatorInfo.power] at hfits; omega)
    have hrest : pickPosition targetPower (accumulated + val.votingPower) rest =
        WeightedChoice.choose targetPower.toNat (accumulated + val.votingPower).toNat
          (rest.map ValidatorInfo.power) := ih (by omega)
    have hlt : targetPower < accumulated + val.votingPower ↔
        targetPower.toNat < accumulated.toNat + val.power := by rw [UInt64.lt_iff_toNat_lt, hsum]
    rw [pickPosition, List.map_cons, WeightedChoice.choose, hrest, hsum]
    simp only [hlt]

theorem pickPosition_isSome (hfits : (V.map ValidatorInfo.power).sum < 2 ^ 64)
    (htarget : targetPower.toNat < (V.map ValidatorInfo.power).sum) :
    ∃ i, pickPosition targetPower 0 V = some i := by
  rw [pickPosition_eq_choose (by simpa using hfits)]
  exact WeightedChoice.choose_isSome (Nat.zero_le _) (by simpa using htarget)

theorem pickPosition_pos (hfits : (V.map ValidatorInfo.power).sum < 2 ^ 64) {i : Nat}
    (hi : pickPosition targetPower 0 V = some i) : ∃ v, V[i]? = some v ∧ 0 < v.power := by
  rw [pickPosition_eq_choose (by simpa using hfits)] at hi
  obtain ⟨hlt, hpos⟩ := WeightedChoice.choose_pos (Nat.zero_le _) hi
  rw [List.length_map] at hlt
  rw [List.getElem_map] at hpos
  exact ⟨V[i], List.getElem?_eq_getElem hlt, hpos⟩

theorem card_pickPosition (hfits : (V.map ValidatorInfo.power).sum < 2 ^ 64) {i : Nat}
    {v : ValidatorInfo} (hi : V[i]? = some v) :
    ((Finset.range (V.map ValidatorInfo.power).sum).filter fun target =>
      pickPosition (UInt64.ofNat target) 0 V = some i).card = v.power := by
  obtain ⟨hlt, rfl⟩ := List.getElem?_eq_some_iff.mp hi
  have hi' : i < (V.map ValidatorInfo.power).length := by rwa [List.length_map]
  have hcard := WeightedChoice.card_choose hi'
  rw [List.getElem_map] at hcard
  rw [← hcard]
  refine congrArg Finset.card (Finset.filter_congr fun target htarget => ?_)
  have hsmall : (UInt64.ofNat target).toNat = target := by
    rw [Finset.mem_range] at htarget
    rw [UInt64.toNat_ofNat']
    exact Nat.mod_eq_of_lt (by omega)
  rw [pickPosition_eq_choose (by simpa using hfits), hsmall]
  rfl

theorem selectProposer_eq {c : Crates} {height : UInt64} {round : UInt32} {v : ValidatorInfo}
    (hpos : totalPower V ≠ 0)
    (hpick : pickProposer (proposerSeed c height round % totalPower V) 0 V = some v) :
    selectProposer c height round V = some v := by
  have hne : V.isEmpty = false := by
    cases V with
    | nil => exact absurd rfl hpos
    | cons val rest => rfl
  rw [selectProposer, hne, if_neg Bool.false_ne_true, if_neg hpos, hpick]

/-- A validator is elected for exactly as many of the residues as it has power,
the fallback to the first validator is never taken, and no sum overflows. -/
theorem election_proportional {c : Crates} (hpos : 0 < (V.map ValidatorInfo.power).sum)
    (hfits : (V.map ValidatorInfo.power).sum < 2 ^ 64) :
    (totalPower V).toNat = (V.map ValidatorInfo.power).sum ∧
    (∀ targetPower < totalPower V, ∃ i v, pickPosition targetPower 0 V = some i ∧
      V[i]? = some v ∧ pickProposer targetPower 0 V = some v ∧ 0 < v.power) ∧
    (∀ height round, ∃ v, selectProposer c height round V = some v ∧
      pickProposer (proposerSeed c height round % totalPower V) 0 V = some v) ∧
    (∀ i v, V[i]? = some v → ((Finset.range (totalPower V).toNat).filter fun target =>
      pickPosition (UInt64.ofNat target) 0 V = some i).card = v.power) ∧
    (∀ targetPower front rest, V = front ++ rest → pickProposer targetPower 0 front = none →
      pickProposer targetPower 0 V = pickProposer targetPower (accumulate 0 front) rest ∧
      (accumulate 0 front).toNat = (front.map ValidatorInfo.power).sum) := by
  have htotal := toNat_totalPower hfits
  have hpick : ∀ targetPower < totalPower V, ∃ i v, pickPosition targetPower 0 V = some i ∧
      V[i]? = some v ∧ pickProposer targetPower 0 V = some v ∧ 0 < v.power := by
    intro targetPower hlt
    rw [UInt64.lt_iff_toNat_lt, htotal] at hlt
    obtain ⟨i, hi⟩ := pickPosition_isSome hfits hlt
    obtain ⟨v, hv, hpower⟩ := pickPosition_pos hfits hi
    exact ⟨i, v, hi, hv, by rw [pickProposer_eq, hi, Option.bind_some, hv], hpower⟩
  refine ⟨htotal, hpick, fun height round => ?_, fun i v hi => ?_, ?_⟩
  · have hne : totalPower V ≠ 0 := by
      intro h0
      rw [h0] at htotal
      simp at htotal
      omega
    have hmod : proposerSeed c height round % totalPower V < totalPower V :=
      UInt64.mod_lt _ (UInt64.pos_iff_ne_zero.mpr hne)
    obtain ⟨i, v, -, -, hv, -⟩ := hpick _ hmod
    exact ⟨v, selectProposer_eq hne hv, hv⟩
  · rw [htotal]
    exact card_pickPosition hfits hi
  · rintro targetPower front rest rfl hnone
    rw [List.map_append, List.sum_append] at hfits
    refine ⟨pickProposer_append hnone, ?_⟩
    have hfront : (accumulate 0 front).toNat =
        (0 : UInt64).toNat + (front.map ValidatorInfo.power).sum :=
      toNat_accumulate (by rw [UInt64.toNat_zero]; omega)
    rw [hfront, UInt64.toNat_zero, Nat.zero_add]

namespace ProposerElection

def validators : List ValidatorInfo :=
  [⟨Reference.address 1, Reference.secretKey 1, 60⟩, ⟨Reference.address 2, Reference.secretKey 2, 0⟩,
    ⟨Reference.address 3, Reference.secretKey 3, 40⟩]

theorem election_proportional_three :
    (∃ v, selectProposer (Reference.crates []) 1 0 validators = some v) ∧
    ((Finset.range 100).filter fun target =>
      pickPosition (UInt64.ofNat target) 0 validators = some 2).card = 40 := by
  obtain ⟨-, -, helect, hcard, -⟩ := election_proportional (c := Reference.crates [])
    (V := validators) (by decide) (by decide)
  obtain ⟨v, hv, -⟩ := helect 1 0
  exact ⟨⟨v, hv⟩, hcard 2 _ rfl⟩

end ProposerElection

end AuraChain
