import AuraChain.FoldTurns
import AuraChain.Overdraft

/-! Whether the executor loses an update. Where no operation overflows or
saturates, an account ends with what the transactions say, but for what it has
paid to itself: the sender's account is written back over the credit. -/

namespace AuraChain

namespace Transaction

def spent (a : Address) (tx : Transaction) : Nat :=
  if tx.sender = a then tx.amount.toNat + tx.fee.toNat else 0

def received (a : Address) (tx : Transaction) : Nat :=
  if tx.txType = .transfer ∧ tx.recipient = a then tx.amount.toNat else 0

def staked (a : Address) (tx : Transaction) : Nat :=
  if (tx.txType = .stake ∨ tx.txType = .registerValidator) ∧ tx.sender = a
    then tx.amount.toNat else 0

def unstaked (a : Address) (tx : Transaction) : Nat :=
  if tx.txType = .unstake ∧ tx.sender = a then tx.amount.toNat else 0

def sent (a : Address) (tx : Transaction) : Nat := if tx.sender = a then 1 else 0

def selfPaid (a : Address) (tx : Transaction) : Nat :=
  if tx.txType = .transfer ∧ tx.sender = a ∧ tx.recipient = a then tx.amount.toNat else 0

end Transaction

/-- An account before and after the transactions, as these describe it. -/
structure LosesNothing (a : Address) (txs : List Transaction) (before after : Account) : Prop where
  balance : after.balance.toNat + (txs.map (Transaction.spent a)).sum =
    before.balance.toNat + (txs.map (Transaction.received a)).sum +
      (txs.map (Transaction.unstaked a)).sum
  stakedAmount : after.stakedAmount.toNat + (txs.map (Transaction.unstaked a)).sum =
    before.stakedAmount.toNat + (txs.map (Transaction.staked a)).sum
  nonce : after.nonce.toNat = before.nonce.toNat + (txs.map (Transaction.sent a)).sum
  unnamed : (∀ tx ∈ txs, tx.sender ≠ a ∧ tx.recipient ≠ a) → after = before

namespace Ledger

/-- No operation of the turn overflows or saturates. -/
structure Fits (ledger : Ledger) (tx : Transaction) : Prop where
  debit : tx.amount.toNat + tx.fee.toNat ≤ (ledger tx.sender).balance.toNat
  nonce : (ledger tx.sender).nonce.toNat + 1 < 2 ^ 64
  credit : tx.txType = .transfer →
    (ledger tx.recipient).balance.toNat + tx.amount.toNat < 2 ^ 64
  stake : tx.txType = .stake ∨ tx.txType = .registerValidator →
    (ledger tx.sender).stakedAmount.toNat + tx.amount.toNat < 2 ^ 64
  unstake : tx.txType = .unstake → tx.amount ≤ (ledger tx.sender).stakedAmount

variable {ledger : Ledger} {tx : Transaction} {txs : List Transaction}

theorem balance_turn (a : Address) (h : ledger.Fits tx) :
    (ledger.apply tx a).balance.toNat + (tx.spent a + tx.selfPaid a) =
      (ledger a).balance.toNat + (tx.received a + tx.unstaked a) := by
  have hlt := (ledger a).balance.toNat_lt
  have hdebit := h.debit
  have hcredit := h.credit
  rw [balance_apply h.debit, CappedBalance.settle, balanceCap]
  unfold Transaction.flow Transaction.spent Transaction.selfPaid Transaction.received
    Transaction.unstaked
  by_cases ha : tx.sender = a
  · subst ha
    cases tx.txType with
    | transfer =>
      simp only [if_true, true_and, reduceCtorEq, false_and, if_false]
      omega
    | unstake =>
      simp only [if_true, true_and, reduceCtorEq, false_and, if_false]
      omega
    | stake =>
      simp only [if_true, reduceCtorEq, false_and, if_false]
      omega
    | registerValidator =>
      simp only [if_true, reduceCtorEq, false_and, if_false]
      omega
  · simp only [ha, if_false, false_and, and_false]
    split_ifs with hr
    · obtain ⟨ht, rfl⟩ := hr
      have hfits := hcredit ht
      omega
    · omega

theorem stakedAmount_apply (a : Address) : (ledger.apply tx a).stakedAmount =
    if tx.sender = a then ((ledger a).afterSending tx).stakedAmount
      else (ledger a).stakedAmount := by
  rw [Ledger.apply]
  by_cases ha : tx.sender = a
  · subst ha
    rw [Function.update_self, if_pos rfl]
  · rw [Function.update_of_ne (Ne.symm ha), if_neg ha]
    split_ifs
    · by_cases hr : tx.recipient = a
      · subst hr
        rw [Function.update_self]
        rfl
      · rw [Function.update_of_ne (Ne.symm hr)]
    · rfl

theorem stakedAmount_turn (a : Address) (h : ledger.Fits tx) :
    (ledger.apply tx a).stakedAmount.toNat + tx.unstaked a =
      (ledger a).stakedAmount.toNat + tx.staked a := by
  have hstake := h.stake
  have hunstake := h.unstake
  rw [stakedAmount_apply, Transaction.unstaked, Transaction.staked]
  by_cases ha : tx.sender = a
  · subst ha
    cases ht : tx.txType with
    | transfer => simp [Account.afterSending, Account.debit, ht]
    | unstake =>
      have hle := UInt64.le_iff_toNat_le.mp (hunstake ht)
      simp only [Account.afterSending, ht, if_true, reduceCtorEq, or_self, false_and, if_false,
        true_and, UInt64.toNat_saturatingSub]
      omega
    | stake =>
      have hfits := hstake (.inl ht)
      simp only [Account.afterSending, ht, if_true, reduceCtorEq, or_false, true_and, if_false,
        false_and, UInt64.toNat_saturatingAdd]
      omega
    | registerValidator =>
      have hfits := hstake (.inr ht)
      simp only [Account.afterSending, ht, if_true, reduceCtorEq, false_or, true_and, if_false,
        false_and, UInt64.toNat_saturatingAdd]
      omega
  · simp [ha]

theorem nonce_turn (a : Address) (h : ledger.Fits tx) :
    (ledger.apply tx a).nonce.toNat + 0 = (ledger a).nonce.toNat + tx.sent a := by
  have hnonce := h.nonce
  rw [nonce_apply, Transaction.sent]
  split_ifs with ha
  · subst ha
    have hone : (1 : UInt64).toNat = 1 := rfl
    rw [UInt64.toNat_add, hone, Nat.mod_eq_of_lt hnonce]
  · rfl

theorem apply_unnamed {a : Address} (hsender : tx.sender ≠ a) (hrecipient : tx.recipient ≠ a) :
    ledger.apply tx a = ledger a := by
  rw [Ledger.apply, Function.update_of_ne hsender.symm]
  split_ifs
  · rw [Function.update_of_ne hrecipient.symm]
  · rfl

theorem foldl_unnamed {a : Address} (h : ∀ tx ∈ txs, tx.sender ≠ a ∧ tx.recipient ≠ a) :
    txs.foldl Ledger.apply ledger a = ledger a := by
  induction txs generalizing ledger with
  | nil => rfl
  | cons tx txs ih =>
    obtain ⟨⟨hsender, hrecipient⟩, hrest⟩ := List.forall_mem_cons.mp h
    rw [List.foldl_cons, ih hrest, apply_unnamed hsender hrecipient]

theorem foldl_balance (a : Address) (h : EachTurn Ledger.apply Fits ledger txs) :
    (txs.foldl Ledger.apply ledger a).balance.toNat + (txs.map (Transaction.spent a)).sum +
        (txs.map (Transaction.selfPaid a)).sum =
      (ledger a).balance.toNat + (txs.map (Transaction.received a)).sum +
        (txs.map (Transaction.unstaked a)).sum := by
  have hsum := h.measure (m := fun ledger => (ledger a).balance.toNat)
    fun ledger tx hfits => balance_turn a hfits
  rw [List.sum_map_add, List.sum_map_add] at hsum
  omega

/-- What an account has paid to itself is all that it can lose. -/
theorem losesNothing_iff (a : Address) (h : EachTurn Ledger.apply Fits ledger txs) :
    LosesNothing a txs (ledger a) (txs.foldl Ledger.apply ledger a) ↔
      (txs.map (Transaction.selfPaid a)).sum = 0 := by
  have hbalance := foldl_balance a h
  have hstaked := h.measure (m := fun ledger => (ledger a).stakedAmount.toNat)
    fun ledger tx hfits => stakedAmount_turn a hfits
  have hnonce := h.measure (m := fun ledger => (ledger a).nonce.toNat)
    fun ledger tx hfits => nonce_turn a hfits
  simp only [List.map_const', List.sum_replicate, smul_zero, Nat.add_zero] at hnonce
  constructor
  · intro hlaw
    have hkept := hlaw.balance
    omega
  · intro hzero
    exact ⟨by omega, hstaked, hnonce, foldl_unnamed⟩

end Ledger

def FitsEach (c : Crates) (db : StateDB) (overlay : StateOverlay) (txs : List Transaction) : Prop :=
  ∀ before tx after, txs = before ++ tx :: after →
    Ledger.Fits ((executeTransactionsSpeculative c db before overlay).view c db) tx

theorem fitsEach_iff {c : Crates} {db : StateDB} {overlay : StateOverlay} {txs : List Transaction} :
    FitsEach c db overlay txs ↔ EachTurn Ledger.apply Ledger.Fits (overlay.view c db) txs := by
  simp only [FitsEach, EachTurn, view_execute]

theorem sum_selfPaid_eq_zero_iff {txs : List Transaction} :
    (∀ a, (txs.map (Transaction.selfPaid a)).sum = 0) ↔
      ∀ tx ∈ txs, tx.txType = .transfer → tx.sender = tx.recipient → tx.amount = 0 := by
  have hzero : ∀ n : UInt64, n.toNat = 0 ↔ n = 0 := fun n => by
    rw [← UInt64.toNat_inj, UInt64.toNat_zero]
  simp only [List.sum_eq_zero_iff, List.forall_mem_map]
  constructor
  · intro h tx htx ht he
    have hpaid := h tx.sender tx htx
    rw [Transaction.selfPaid, if_pos ⟨ht, rfl, he.symm⟩, hzero] at hpaid
    exact hpaid
  · intro h a tx htx
    rw [Transaction.selfPaid]
    split_ifs with hself
    · obtain ⟨ht, hsender, hrecipient⟩ := hself
      rw [h tx htx ht (hsender.trans hrecipient.symm)]
      rfl
    · rfl

/-- The executor loses no update of any account exactly if no transaction of the
list pays its own sender. -/
theorem executor_loses_nothing_iff (c : Crates) (db : StateDB) (overlay : StateOverlay)
    (txs : List Transaction) (h : FitsEach c db overlay txs) :
    (∀ a, LosesNothing a txs (overlay.getAccount c a db)
        ((executeTransactionsSpeculative c db txs overlay).getAccount c a db)) ↔
      ∀ tx ∈ txs, tx.txType = .transfer → tx.sender = tx.recipient → tx.amount = 0 := by
  have hledger := fitsEach_iff.mp h
  rw [← sum_selfPaid_eq_zero_iff]
  refine forall_congr' fun a => ?_
  have hview := congrFun (view_execute c db txs overlay) a
  have hiff := Ledger.losesNothing_iff a hledger
  rw [← hview] at hiff
  exact hiff

namespace ExecutorLedger

open MempoolRun

def selfTransfer : Transaction :=
  Reference.transaction .transfer 2 (Reference.address 2) 1000 200 1

theorem fitsEach_single {tx : Transaction} (h : Ledger.Fits (stateDb.getAccount crates) tx) :
    FitsEach crates stateDb StateOverlay.new [tx] := by
  rw [fitsEach_iff, view_new]
  exact EachTurn.cons_iff.mpr ⟨h, .nil _ _ _⟩

theorem fits_transfer {recipient : Address} {account : Account}
    (hrecipient : stateDb.getAccount crates recipient = account)
    (hcredit : account.balance.toNat + 1000 < 2 ^ 64) :
    Ledger.Fits (stateDb.getAccount crates)
      (Reference.transaction .transfer 2 recipient 1000 200 1) where
  debit := by
    change 1000 + 200 ≤ (stateDb.getAccount crates (Reference.address 2)).balance.toNat
    rw [stateDb_getAccount.1]
    decide
  nonce := by
    change (stateDb.getAccount crates (Reference.address 2)).nonce.toNat + 1 < 2 ^ 64
    rw [stateDb_getAccount.1]
    decide
  credit _ := by
    change (stateDb.getAccount crates recipient).balance.toNat + 1000 < 2 ^ 64
    rwa [hrecipient]
  stake := by
    intro h
    rcases h with h | h <;> cases h
  unstake := nofun

theorem executor_loses_nothing_transfer : LosesNothing (Reference.address 2) [transfer 2 200 1]
    (StateOverlay.new.getAccount crates (Reference.address 2) stateDb)
    ((executeTransactionsSpeculative crates stateDb [transfer 2 200 1] StateOverlay.new).getAccount
      crates (Reference.address 2) stateDb) := by
  have hfits : Ledger.Fits (stateDb.getAccount crates) (transfer 2 200 1) :=
    fits_transfer stateDb_getAccount.2 (by decide)
  refine (executor_loses_nothing_iff crates stateDb StateOverlay.new _
    (fitsEach_single hfits)).mpr (fun tx htx _ he => ?_) _
  rw [List.mem_singleton] at htx
  subst htx
  exact absurd he Reference.address_two_ne_three

/-- An account pays 1000 to itself and loses them. -/
theorem self_transfer_lost : ¬ ∀ (c : Crates) (db : StateDB) (txs : List Transaction),
    FitsEach c db StateOverlay.new txs → ∀ a, LosesNothing a txs (db.getAccount c a)
      ((executeTransactionsSpeculative c db txs StateOverlay.new).getAccount c a db) := by
  intro hclaim
  have hfits : Ledger.Fits (stateDb.getAccount crates) selfTransfer :=
    fits_transfer stateDb_getAccount.1 (by decide)
  have hbalance := (hclaim crates stateDb [selfTransfer] (fitsEach_single hfits)
    (Reference.address 2)).balance
  exact absurd hbalance (by decide +kernel)

end ExecutorLedger

end AuraChain
