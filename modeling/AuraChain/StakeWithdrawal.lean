import AuraChain.DebitOverflow

/-! What an Unstake pays out. Its amount is charged to the balance together with
the fee before it is credited, so that only the stake shrinks. -/

namespace AuraChain

/-- The states that the execution of admitted transactions reaches. -/
inductive ExecutedAdmitted (c : Crates) (db : StateDB) : StateOverlay → Prop
  | base : ExecutedAdmitted c db StateOverlay.new
  | execute {overlay : StateOverlay} {tx : Transaction} (h : ExecutedAdmitted c db overlay)
      (stateless : validateStateless c tx = .ok ())
      (stateful : validateStateful tx (overlay.getAccount c tx.sender db) = .ok ()) :
      ExecutedAdmitted c db (executeTransaction c db overlay tx)

/-- An Unstake that an account can ask for: of some of its stake, with the next
nonce, and with a fee that it can pay. -/
structure AsksForStake (account : Account) (tx : Transaction) : Prop where
  txType : tx.txType = .unstake
  nonce : tx.nonce = account.nonce + 1
  positive : 0 < tx.amount
  staked : tx.amount ≤ account.stakedAmount
  minFee : minTransactionFee ≤ tx.fee
  fee : tx.fee ≤ account.balance

structure PaidInFull (before after : Account) (tx : Transaction) : Prop where
  admitted : validateStateful tx before = .ok ()
  stakedAmount : after.stakedAmount.toNat + tx.amount.toNat = before.stakedAmount.toNat
  balance : after.balance.toNat + tx.fee.toNat = before.balance.toNat + tx.amount.toNat

variable {account : Account} {tx : Transaction}

theorem validateType_unstake_iff (ht : tx.txType = .unstake)
    (hstaked : tx.amount ≤ account.stakedAmount) :
    validateType tx account = .ok () ↔ account.isValidator = true := by
  have henough : ¬ account.stakedAmount < tx.amount := UInt64.not_lt.mpr hstaked
  cases hv : account.isValidator with
  | false => simp [validateType, ht, hv]
  | true => simp [validateType, ht, hv, henough]

theorem afterSending_unstake (ht : tx.txType = .unstake) :
    (account.afterSending tx).stakedAmount.toNat = account.stakedAmount.toNat - tx.amount.toNat ∧
    (account.afterSending tx).balance.toNat = min (account.balance.toNat -
      (tx.amount.toNat + tx.fee.toNat) % 2 ^ 64 + tx.amount.toNat) (2 ^ 64 - 1) := by
  simp only [Account.afterSending, ht, Account.debit, UInt64.toNat_saturatingSub,
    UInt64.toNat_saturatingAdd, UInt64.toNat_add, and_self]

theorem admitted_unstake_iff (h : AsksForStake account tx) :
    validateStateful tx account = .ok () ↔ account.isValidator = true ∧
      account.nonce.toNat + maxNonceGap.toNat < 2 ^ 64 ∧
      min (tx.amount.toNat + tx.fee.toNat) (2 ^ 64 - 1) ≤ account.balance.toNat := by
  rw [validateStateful_ok_iff, validateType_unstake_iff h.txType h.staked, h.nonce,
    ← nextNonce_iff, UInt64.le_iff_toNat_le (a := tx.amount.saturatingAdd tx.fee),
    UInt64.toNat_saturatingAdd]
  tauto

theorem paidInFull_iff (h : AsksForStake account tx) :
    PaidInFull account (account.afterSending tx) tx ↔ account.isValidator = true ∧
      account.nonce.toNat + maxNonceGap.toNat < 2 ^ 64 ∧ account.balance = maxWord ∧
        tx.amount = tx.fee ∧ 2 ^ 63 ≤ tx.amount.toNat := by
  obtain ⟨hstaked, hbalance⟩ := @afterSending_unstake account tx h.txType
  have hpos := UInt64.lt_iff_toNat_lt.mp h.positive
  have hle := UInt64.le_iff_toNat_le.mp h.staked
  have hfee := UInt64.le_iff_toNat_le.mp h.fee
  have hlt := account.balance.toNat_lt
  have ha := tx.amount.toNat_lt
  have hmax : account.balance = maxWord ↔ account.balance.toNat = 2 ^ 64 - 1 := by
    rw [← UInt64.toNat_inj, toNat_maxWord]
  have hsame : tx.amount = tx.fee ↔ tx.amount.toNat = tx.fee.toNat := UInt64.toNat_inj.symm
  rw [UInt64.toNat_zero] at hpos
  constructor
  · rintro ⟨hadmitted, -, hpaid⟩
    obtain ⟨hvalidator, hnonce, hfunds⟩ := (admitted_unstake_iff h).mp hadmitted
    rw [hbalance] at hpaid
    have hwraps : 2 ^ 64 ≤ tx.amount.toNat + tx.fee.toNat := by omega
    exact ⟨hvalidator, hnonce, hmax.mpr (by omega), hsame.mpr (by omega), by omega⟩
  · rintro ⟨hvalidator, hnonce, hfull, hequal, hlarge⟩
    rw [hmax] at hfull
    rw [hsame] at hequal
    refine ⟨(admitted_unstake_iff h).mpr ⟨hvalidator, hnonce, by omega⟩, by omega, ?_⟩
    rw [hbalance]
    omega

theorem getAccount_executeTransaction (c : Crates) (db : StateDB) (overlay : StateOverlay)
    (tx : Transaction) : (executeTransaction c db overlay tx).getAccount c tx.sender db =
      (overlay.getAccount c tx.sender db).afterSending tx := by
  have hview := congrFun (view_executeTransaction c db overlay tx) tx.sender
  rw [Ledger.apply, Function.update_self] at hview
  exact hview

/-- An Unstake is paid in full only where amount and fee overflow together, in an
account with the largest balance. -/
theorem unstake_paid_iff (c : Crates) (db : StateDB) (overlay : StateOverlay) (tx : Transaction)
    (h : AsksForStake (overlay.getAccount c tx.sender db) tx) :
    PaidInFull (overlay.getAccount c tx.sender db)
        ((executeTransaction c db overlay tx).getAccount c tx.sender db) tx ↔
      (overlay.getAccount c tx.sender db).isValidator = true ∧
      (overlay.getAccount c tx.sender db).nonce.toNat + maxNonceGap.toNat < 2 ^ 64 ∧
      (overlay.getAccount c tx.sender db).balance = maxWord ∧
      tx.amount = tx.fee ∧ 2 ^ 63 ≤ tx.amount.toNat := by
  rw [getAccount_executeTransaction]
  exact paidInFull_iff h

namespace StakeWithdrawal

open MempoolRun

def registration : Transaction :=
  Reference.transaction .registerValidator 2 (Reference.address 2) 1000000 200 1

def withdrawal : Transaction :=
  Reference.transaction .unstake 2 (Reference.address 2) 300000 200 2

def registered : StateOverlay := executeTransaction crates stateDb StateOverlay.new registration

def validator : Account := (Account.new 10000000 0).afterSending registration

theorem registered_getAccount : registered.getAccount crates withdrawal.sender stateDb = validator := by
  have hsent := getAccount_executeTransaction crates stateDb StateOverlay.new registration
  have hbefore : StateOverlay.new.getAccount crates registration.sender stateDb =
      Account.new 10000000 0 := stateDb_getAccount.1
  rw [hbefore] at hsent
  exact hsent

theorem asks_withdrawal :
    AsksForStake (registered.getAccount crates withdrawal.sender stateDb) withdrawal := by
  rw [registered_getAccount]
  exact ⟨rfl, rfl, by decide, by decide, by decide, by decide⟩

theorem unstake_paid_registered :
    ¬ PaidInFull (registered.getAccount crates withdrawal.sender stateDb)
      ((executeTransaction crates stateDb registered withdrawal).getAccount crates
        withdrawal.sender stateDb) withdrawal := by
  intro hpaid
  obtain ⟨-, -, -, hequal, -⟩ :=
    (unstake_paid_iff crates stateDb registered withdrawal asks_withdrawal).mp hpaid
  exact absurd hequal (by decide)

/-- A registered validator withdraws some of its stake and receives nothing. -/
theorem stake_never_paid : ¬ ∀ (c : Crates) (db : StateDB) (overlay : StateOverlay)
    (tx : Transaction), ExecutedAdmitted c db overlay →
      AsksForStake (overlay.getAccount c tx.sender db) tx →
      PaidInFull (overlay.getAccount c tx.sender db)
        ((executeTransaction c db overlay tx).getAccount c tx.sender db) tx := by
  intro hclaim
  have hstateful : validateStateful registration
      (StateOverlay.new.getAccount crates registration.sender stateDb) = .ok () := by
    change validateStateful registration (stateDb.getAccount crates (Reference.address 2)) = .ok ()
    rw [stateDb_getAccount.1]
    rfl
  have hreached : ExecutedAdmitted crates stateDb registered :=
    .execute .base (Reference.transaction_stateless _ _ _ _ _ _ _ (by decide) nofun) hstateful
  have hpaid := (hclaim crates stateDb registered withdrawal hreached asks_withdrawal).balance
  rw [getAccount_executeTransaction, registered_getAccount] at hpaid
  exact absurd hpaid (by decide)

end StakeWithdrawal

end AuraChain
