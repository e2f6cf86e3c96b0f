import AuraChain.Equivocation
import AuraChain.MempoolRun

/-! The penalty for a double signature. Evidence stays valid after it has been
applied, and every application takes a fifth of the stake that is left. -/

namespace AuraChain

def DoubleSignEvidence.applySlashing (c : Crates) (evidence : DoubleSignEvidence)
    (overlay : StateOverlay) (stateDb : StateDB) : StateOverlay × Except SlashingError Address :=
  match evidence.verify c with
  | .error e => (overlay, .error e)
  | .ok maliciousValidator =>
    let account := overlay.getAccount c maliciousValidator stateDb
    let slashedAmount := account.stakedAmount / 5
    (overlay.setAccount maliciousValidator
      { account with
        stakedAmount := account.stakedAmount.saturatingSub slashedAmount
        isValidator := false }, .ok maliciousValidator)

def DoubleSignEvidence.swap (evidence : DoubleSignEvidence) : DoubleSignEvidence :=
  ⟨evidence.voteB, evidence.voteA⟩

def DoubleSignEvidence.presentations (evidence : DoubleSignEvidence) : List DoubleSignEvidence :=
  [evidence, evidence.swap]

def submitEach (c : Crates) (db : StateDB) (submitted : List DoubleSignEvidence)
    (overlay : StateOverlay) : StateOverlay :=
  submitted.foldl (fun overlay evidence => (evidence.applySlashing c overlay db).1) overlay

def Account.slashed (account : Account) : Account :=
  { account with
    stakedAmount := account.stakedAmount.saturatingSub (account.stakedAmount / 5)
    isValidator := false }

variable {c : Crates} {db : StateDB} {overlay : StateOverlay} {evidence : DoubleSignEvidence}
  {a : Address}

theorem DoubleSignEvidence.verify_swap (h : evidence.verify c = .ok a) :
    evidence.swap.verify c = .ok a := by
  obtain ⟨⟨hv, hh, hr, ht, hb⟩, hva, hvb, rfl⟩ := verify_ok_iff.mp h
  exact verify_ok_iff.mpr ⟨⟨hv.symm, hh.symm, hr.symm, ht.symm, hb.symm⟩, hvb, hva, hv.symm⟩

theorem DoubleSignEvidence.verify_presentation (h : evidence.verify c = .ok a)
    {presented : DoubleSignEvidence} (hp : presented ∈ evidence.presentations) :
    presented.verify c = .ok a := by
  rcases List.mem_pair.mp hp with rfl | rfl
  · exact h
  · exact verify_swap h

theorem applySlashing_ok (h : evidence.verify c = .ok a) :
    evidence.applySlashing c overlay db =
      (overlay.setAccount a (overlay.getAccount c a db).slashed, .ok a) := by
  rw [DoubleSignEvidence.applySlashing, h]
  rfl

theorem setAccount_setAccount (account account' : Account) :
    (overlay.setAccount a account).setAccount a account' = overlay.setAccount a account' := by
  have hmap : (overlay.accounts.insert a account).insert a account' =
      overlay.accounts.insert a account' := by
    apply Std.ExtTreeMap.ext_getElem?
    intro b
    simp only [OrdMap.lookup_insert]
    split_ifs <;> rfl
  simp only [StateOverlay.setAccount, hmap]

/-- Every submission of an offence slashes, however it is presented. -/
theorem submitEach_setAccount (submitted : List DoubleSignEvidence)
    (h : ∀ presented ∈ submitted, presented.verify c = .ok a) (account : Account) :
    submitEach c db submitted (overlay.setAccount a account) =
      overlay.setAccount a (Account.slashed^[submitted.length] account) := by
  induction submitted generalizing account with
  | nil => rfl
  | cons presented submitted ih =>
    have hfirst := h presented List.mem_cons_self
    have hrest := ih (fun e he => h e (List.mem_cons_of_mem presented he)) account.slashed
    rw [List.length_cons, Function.iterate_succ_apply, ← hrest, submitEach, List.foldl_cons,
      applySlashing_ok hfirst, StateOverlay.getAccount_setAccount_self, setAccount_setAccount,
      submitEach]

theorem slashed_stakedAmount (account : Account) : account.slashed.stakedAmount.toNat =
    account.stakedAmount.toNat - account.stakedAmount.toNat / 5 := by
  rw [Account.slashed, UInt64.toNat_saturatingSub, UInt64.toNat_div]
  rfl

/-- A fifth of at most four units rounds down to nothing. -/
theorem slashed_slashed_iff (account : Account) :
    account.slashed.slashed = account.slashed ↔ account.stakedAmount ≤ 5 := by
  have hstake := slashed_stakedAmount account
  have hagain := slashed_stakedAmount account.slashed
  rw [UInt64.le_iff_toNat_le]
  have hfive : (5 : UInt64).toNat = 5 := rfl
  constructor
  · intro hfixed
    rw [hfixed] at hagain
    omega
  · intro hle
    have hsame : account.slashed.slashed.stakedAmount = account.slashed.stakedAmount :=
      UInt64.toNat_inj.mp (by omega)
    exact congrArg (fun stake => { account.slashed with stakedAmount := stake }) hsame

theorem submitEach_cons {first : DoubleSignEvidence} {again : List DoubleSignEvidence}
    (hfirst : first.verify c = .ok a) (hagain : ∀ presented ∈ again, presented.verify c = .ok a) :
    submitEach c db (first :: again) overlay = overlay.setAccount a
      (Account.slashed^[again.length] (overlay.getAccount c a db).slashed) := by
  rw [submitEach, List.foldl_cons, applySlashing_ok hfirst]
  exact submitEach_setAccount again hagain (overlay.getAccount c a db).slashed

theorem setAccount_injective {account account' : Account}
    (h : overlay.setAccount a account = overlay.setAccount a account') : account = account' := by
  have hread := congrArg (fun o : StateOverlay => o.accounts[a]?) h
  simpa only [StateOverlay.setAccount, OrdMap.lookup_insert, if_pos, Option.some.injEq] using hread

/-- An offence is punished once only where a second penalty has nothing to take. -/
theorem slashed_once_iff (c : Crates) (db : StateDB) (overlay : StateOverlay)
    (evidence : DoubleSignEvidence) (a : Address) (h : evidence.verify c = .ok a) :
    (∀ first ∈ evidence.presentations, ∀ again : List DoubleSignEvidence,
      (∀ presented ∈ again, presented ∈ evidence.presentations) →
        submitEach c db (first :: again) overlay = (first.applySlashing c overlay db).1) ↔
    (overlay.getAccount c a db).stakedAmount ≤ 5 := by
  have hok : ∀ presented ∈ evidence.presentations, presented.verify c = .ok a :=
    fun _ => DoubleSignEvidence.verify_presentation h
  rw [← slashed_slashed_iff]
  constructor
  · intro honce
    have hself : evidence ∈ evidence.presentations := List.mem_cons_self
    have htwice := honce evidence hself [evidence] (by simpa using hself)
    rw [submitEach_cons h (by simpa using h), applySlashing_ok h] at htwice
    exact setAccount_injective htwice
  · intro hfixed first hfirst again hagain
    rw [submitEach_cons (hok first hfirst) fun e he => hok e (hagain e he),
      applySlashing_ok (hok first hfirst), Function.iterate_fixed hfixed]

namespace Slashing

open MempoolRun

def prevote (hash : Nat) : Vote :=
  Vote.newSigned crates (FixedBytes.ofNat 32 hash) 5 0 .preVote (Reference.secretKey 1)

def doubleVote : DoubleSignEvidence := ⟨prevote 1, prevote 2⟩

def offender : Address := Reference.address 1

theorem verify_doubleVote : doubleVote.verify crates = .ok offender :=
  DoubleSignEvidence.verify_ok_iff.mpr ⟨⟨rfl, rfl, rfl, rfl, by decide +kernel⟩,
    Vote.newSigned_verify (Reference.signVerifies _) .., Vote.newSigned_verify (Reference.signVerifies _) .., rfl⟩

def smallStake : StateOverlay :=
  StateOverlay.new.setAccount offender
    { Account.default with stakedAmount := 5, isValidator := true }

theorem slashed_once_small :
    submitEach crates stateDb [doubleVote.swap, doubleVote, doubleVote.swap] smallStake =
      (doubleVote.swap.applySlashing crates smallStake stateDb).1 := by
  have hstake : (smallStake.getAccount crates offender stateDb).stakedAmount ≤ 5 := by
    rw [smallStake, StateOverlay.getAccount_setAccount_self]
    exact UInt64.le_refl 5
  exact (slashed_once_iff crates stateDb smallStake doubleVote offender
    verify_doubleVote).mpr hstake doubleVote.swap (by simp [DoubleSignEvidence.presentations])
    [doubleVote, doubleVote.swap] (by simp [DoubleSignEvidence.presentations])

/-- Submitted twice, the evidence takes 360000 of a stake of 1000000. -/
theorem slashed_twice : ¬ ∀ (c : Crates) (db : StateDB) (overlay : StateOverlay)
    (evidence : DoubleSignEvidence) (a : Address), evidence.verify c = .ok a →
      ∀ first ∈ evidence.presentations, ∀ again : List DoubleSignEvidence,
        (∀ presented ∈ again, presented ∈ evidence.presentations) →
          submitEach c db (first :: again) overlay = (first.applySlashing c overlay db).1 := by
  intro hclaim
  have honce := hclaim crates stateDb StateOverlay.new doubleVote offender
    verify_doubleVote doubleVote (by simp [DoubleSignEvidence.presentations]) [doubleVote.swap]
    (by simp [DoubleSignEvidence.presentations])
  have hswap : ∀ presented ∈ [doubleVote.swap], presented.verify crates = .ok offender := by
    simpa using DoubleSignEvidence.verify_swap verify_doubleVote
  rw [submitEach_cons verify_doubleVote hswap, applySlashing_ok verify_doubleVote] at honce
  have hsmall := (slashed_slashed_iff _).mp (setAccount_injective honce)
  exact absurd hsmall (by decide +kernel)

end Slashing

end AuraChain
