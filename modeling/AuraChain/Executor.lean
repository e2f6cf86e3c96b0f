import AuraChain.Holdings
import AuraChain.StoreSpec
import AuraChain.Validation

/-! Execution of a block body on the overlay, and the ledger that it acts on.
The ledger is the account of every address as seen through the overlay. -/

namespace AuraChain

def Account.debit (acc : Account) (tx : Transaction) : Account :=
  { acc with
    balance := acc.balance.saturatingSub (tx.amount + tx.fee)
    nonce := acc.nonce + 1 }

def executeTransaction (c : Crates) (db : StateDB) (overlay : StateOverlay) (tx : Transaction) :
    StateOverlay :=
  let senderAcc := (overlay.getAccount c tx.sender db).debit tx
  match tx.txType with
  | .transfer =>
    let recipientAcc := overlay.getAccount c tx.recipient db
    (overlay.setAccount tx.recipient
      { recipientAcc with balance := recipientAcc.balance.saturatingAdd tx.amount }).setAccount
      tx.sender senderAcc
  | .registerValidator =>
    overlay.setAccount tx.sender
      { senderAcc with
        isValidator := true
        validatorPubkey := some tx.pubkey
        stakedAmount := senderAcc.stakedAmount.saturatingAdd tx.amount }
  | .stake =>
    overlay.setAccount tx.sender
      { senderAcc with stakedAmount := senderAcc.stakedAmount.saturatingAdd tx.amount }
  | .unstake =>
    overlay.setAccount tx.sender
      { senderAcc with
        stakedAmount := senderAcc.stakedAmount.saturatingSub tx.amount
        balance := senderAcc.balance.saturatingAdd tx.amount }

def executeTransactionsSpeculative (c : Crates) (db : StateDB) (txs : List Transaction)
    (overlay : StateOverlay) : StateOverlay :=
  txs.foldl (executeTransaction c db) overlay

abbrev Ledger := Address → Account

def StateOverlay.view (c : Crates) (overlay : StateOverlay) (db : StateDB) : Ledger :=
  fun a => overlay.getAccount c a db

def Account.afterSending (acc : Account) (tx : Transaction) : Account :=
  match tx.txType with
  | .transfer => acc.debit tx
  | .registerValidator =>
    { acc.debit tx with
      isValidator := true
      validatorPubkey := some tx.pubkey
      stakedAmount := acc.stakedAmount.saturatingAdd tx.amount }
  | .stake => { acc.debit tx with stakedAmount := acc.stakedAmount.saturatingAdd tx.amount }
  | .unstake =>
    { acc.debit tx with
      stakedAmount := acc.stakedAmount.saturatingSub tx.amount
      balance := (acc.debit tx).balance.saturatingAdd tx.amount }

def Account.credit (acc : Account) (tx : Transaction) : Account :=
  { acc with balance := acc.balance.saturatingAdd tx.amount }

/-- The sender's account is computed before the recipient is credited and
written after it, so that a transfer to oneself loses the credit. -/
def Ledger.apply (ledger : Ledger) (tx : Transaction) : Ledger :=
  let credited := if tx.txType = .transfer
    then Function.update ledger tx.recipient ((ledger tx.recipient).credit tx) else ledger
  Function.update credited tx.sender ((ledger tx.sender).afterSending tx)

theorem view_setAccount (c : Crates) (overlay : StateOverlay) (db : StateDB) (a : Address)
    (acc : Account) :
    (overlay.setAccount a acc).view c db = Function.update (overlay.view c db) a acc := by
  funext b
  rw [StateOverlay.view, StateOverlay.getAccount_setAccount]
  by_cases h : a = b
  · subst b
    simp
  · rw [if_neg h, Function.update_of_ne (Ne.symm h)]
    rfl

theorem view_new (c : Crates) (db : StateDB) : StateOverlay.new.view c db = db.getAccount c := by
  funext a
  simp [StateOverlay.view, StateOverlay.getAccount, StateOverlay.new]

theorem view_executeTransaction (c : Crates) (db : StateDB) (overlay : StateOverlay)
    (tx : Transaction) :
    (executeTransaction c db overlay tx).view c db = (overlay.view c db).apply tx := by
  cases ht : tx.txType <;>
    simp [executeTransaction, Ledger.apply, ht, view_setAccount, Account.afterSending,
      Account.credit, StateOverlay.view, Account.debit]

theorem view_execute (c : Crates) (db : StateDB) (txs : List Transaction) (overlay : StateOverlay) :
    (executeTransactionsSpeculative c db txs overlay).view c db =
      txs.foldl Ledger.apply (overlay.view c db) := by
  induction txs generalizing overlay with
  | nil => rfl
  | cons tx txs ih =>
    simp only [executeTransactionsSpeculative, List.foldl_cons] at ih ⊢
    rw [ih, view_executeTransaction]

theorem Account.afterSending_nonce (acc : Account) (tx : Transaction) :
    (acc.afterSending tx).nonce = acc.nonce + 1 := by
  rw [afterSending]
  cases tx.txType <;> rfl

theorem nonce_apply (ledger : Ledger) (tx : Transaction) (a : Address) :
    (ledger.apply tx a).nonce =
      if tx.sender = a then (ledger a).nonce + 1 else (ledger a).nonce := by
  rw [Ledger.apply]
  by_cases h : tx.sender = a
  · subst a
    simp [Account.afterSending_nonce]
  · rw [Function.update_of_ne (Ne.symm h), if_neg h]
    split_ifs with ht
    · by_cases hr : tx.recipient = a
      · subst a
        simp [Account.credit]
      · rw [Function.update_of_ne (Ne.symm hr)]
    · rfl

/-- The nonce counts the executed transactions of the account, whatever
nonces these carry. -/
theorem nonce_execute (txs : List Transaction) (ledger : Ledger) (a : Address) :
    (txs.foldl Ledger.apply ledger a).nonce =
      (ledger a).nonce + UInt64.ofNat (txs.countP (fun tx => tx.sender = a)) := by
  induction txs generalizing ledger with
  | nil => simp
  | cons tx txs ih =>
    rw [List.foldl_cons, ih, nonce_apply, List.countP_cons]
    by_cases h : tx.sender = a
    · rw [if_pos h, if_pos (decide_eq_true h), UInt64.ofNat_add, UInt64.add_assoc,
        UInt64.add_comm (UInt64.ofNat _)]
      rfl
    · simp [h]

end AuraChain
