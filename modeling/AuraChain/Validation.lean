import AuraChain.Store

/-! The two admission checks of the mempool. -/

namespace AuraChain

def minTransactionFee : UInt64 := 100
def maxTransactionSize : Nat := 128 * 1024
def maxNonceGap : UInt64 := 64
def minValidatorStake : UInt64 := 1000000

inductive MempoolValidationError
  | primitive (e : PrimitiveError)
  | exceedsMaxSize (size limit : Nat)
  | insufficientFee (fee minFee : UInt64)
  | invalidAmount
  | insufficientBalance (balance required : UInt64)
  | nonceTooLow (expected got : UInt64)
  | nonceGapTooLarge (expected got : UInt64)
  | alreadyValidator
  | insufficientStake
  deriving DecidableEq

def validateStateless (c : Crates) (tx : Transaction) : Except MempoolValidationError Unit :=
  if maxTransactionSize < tx.sizeBytes then .error (.exceedsMaxSize tx.sizeBytes maxTransactionSize)
  else if tx.fee < minTransactionFee then .error (.insufficientFee tx.fee minTransactionFee)
  else if tx.amount = 0 ∧ tx.txType = .transfer then .error .invalidAmount
  else match tx.verify c with
    | .error e => .error (.primitive e)
    | .ok () => .ok ()

def validateType (tx : Transaction) (account : Account) : Except MempoolValidationError Unit :=
  match tx.txType with
  | .registerValidator =>
    if account.isValidator then .error .alreadyValidator
    else if tx.amount < minValidatorStake then .error .insufficientStake
    else .ok ()
  | .unstake =>
    if account.isValidator = false ∨ account.stakedAmount < tx.amount then .error .insufficientStake
    else .ok ()
  | .transfer => .ok ()
  | .stake => .ok ()

def validateStateful (tx : Transaction) (account : Account) : Except MempoolValidationError Unit :=
  if tx.nonce ≤ account.nonce then .error (.nonceTooLow (account.nonce + 1) tx.nonce)
  else if account.nonce + maxNonceGap < tx.nonce then
    .error (.nonceGapTooLarge (account.nonce + 1) tx.nonce)
  else
    let required := tx.amount.saturatingAdd tx.fee
    if account.balance < required then .error (.insufficientBalance account.balance required)
    else validateType tx account

theorem validateStateless_ok_iff {c : Crates} {tx : Transaction} :
    validateStateless c tx = .ok () ↔
      tx.sizeBytes ≤ maxTransactionSize ∧ minTransactionFee ≤ tx.fee ∧
        (tx.txType = .transfer → tx.amount ≠ 0) ∧ tx.verify c = .ok () := by
  rw [validateStateless]
  split_ifs with hs hf ha
  · simp [Nat.not_le.mpr hs]
  · simp [UInt64.not_le.mpr hf]
  · simp [ha]
  · have hpositive : tx.txType = .transfer → tx.amount ≠ 0 := fun ht hz => ha ⟨hz, ht⟩
    cases hv : tx.verify c with
    | error e => simp
    | ok _ => exact iff_of_true rfl ⟨Nat.le_of_not_lt hs, UInt64.not_lt.mp hf, hpositive, rfl⟩

theorem validateStateless_ok {c : Crates} {tx : Transaction} (h : validateStateless c tx = .ok ()) :
    tx.sizeBytes ≤ maxTransactionSize ∧ minTransactionFee ≤ tx.fee ∧
      (tx.txType = .transfer → tx.amount ≠ 0) ∧ tx.verify c = .ok () :=
  validateStateless_ok_iff.mp h

theorem validateStateful_ok_iff {tx : Transaction} {account : Account} :
    validateStateful tx account = .ok () ↔
      account.nonce < tx.nonce ∧ tx.nonce ≤ account.nonce + maxNonceGap ∧
        tx.amount.saturatingAdd tx.fee ≤ account.balance ∧ validateType tx account = .ok () := by
  rw [validateStateful]
  dsimp only
  split_ifs with hn hg hb
  · simp [UInt64.not_lt.mpr hn]
  · simp [UInt64.not_le.mpr hg]
  · simp [UInt64.not_le.mpr hb]
  · simp [UInt64.not_le.mp hn, UInt64.not_lt.mp hg, UInt64.not_lt.mp hb]

theorem validateStateful_ok {tx : Transaction} {account : Account}
    (h : validateStateful tx account = .ok ()) :
    account.nonce < tx.nonce ∧ tx.nonce ≤ account.nonce + maxNonceGap ∧
      tx.amount.saturatingAdd tx.fee ≤ account.balance ∧ validateType tx account = .ok () :=
  validateStateful_ok_iff.mp h

theorem validateType_unstake {tx : Transaction} {account : Account} (ht : tx.txType = .unstake)
    (h : validateType tx account = .ok ()) : tx.amount ≤ account.stakedAmount := by
  simp only [validateType, ht] at h
  split_ifs at h with hs
  exact UInt64.not_lt.mp fun hlt => hs (.inr hlt)

end AuraChain
