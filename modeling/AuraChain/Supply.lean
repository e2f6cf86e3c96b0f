import AuraChain.Executor
import AuraChain.Reference

/-! The supply: the exact sum of balances and stakes over all accounts, and
what the execution of one transaction does to it. -/

namespace AuraChain

instance {n : Nat} : Fintype (FixedBytes n) :=
  Fintype.ofEquiv (List.Vector UInt8 n)
    { toFun := fun v => ⟨v.1, v.2⟩
      invFun := fun b => ⟨b.bytes, b.size⟩
      left_inv := fun _ => rfl
      right_inv := fun _ => rfl }

def Account.worth (acc : Account) : Nat := acc.balance.toNat + acc.stakedAmount.toNat

def Ledger.supply (ledger : Ledger) : Nat := Holdings.total Account.worth ledger

namespace Ledger

/-- What the sender's balance really pays, as the debit saturates at zero. -/
def paid (ledger : Ledger) (tx : Transaction) : Nat :=
  min (ledger tx.sender).balance.toNat (tx.amount + tx.fee).toNat

def charged (ledger : Ledger) (tx : Transaction) : Nat :=
  match tx.txType with
  | .unstake => ledger.paid tx + min tx.amount.toNat (ledger tx.sender).stakedAmount.toNat
  | _ => ledger.paid tx

/-- What the transaction adds to a balance or a stake, up to the largest word. -/
def credited (ledger : Ledger) (tx : Transaction) : Nat :=
  match tx.txType with
  | .transfer =>
    if tx.sender = tx.recipient then 0
    else min tx.amount.toNat (2 ^ 64 - 1 - (ledger tx.recipient).balance.toNat)
  | .unstake => min tx.amount.toNat (2 ^ 64 - 1 - ((ledger tx.sender).balance.toNat - ledger.paid tx))
  | _ => min tx.amount.toNat (2 ^ 64 - 1 - (ledger tx.sender).stakedAmount.toNat)

def chargedAll : Ledger → List Transaction → Nat
  | _, [] => 0
  | ledger, tx :: txs => ledger.charged tx + chargedAll (ledger.apply tx) txs

def creditedAll : Ledger → List Transaction → Nat
  | _, [] => 0
  | ledger, tx :: txs => ledger.credited tx + creditedAll (ledger.apply tx) txs

theorem supply_update (ledger : Ledger) (a : Address) (acc : Account) :
    supply (Function.update ledger a acc) + (ledger a).worth = ledger.supply + acc.worth :=
  Holdings.total_update Account.worth ledger a acc

theorem supply_apply_own (ledger : Ledger) (tx : Transaction) (h : tx.txType ≠ .transfer) :
    supply (ledger.apply tx) + (ledger tx.sender).worth =
      ledger.supply + ((ledger tx.sender).afterSending tx).worth := by
  rw [Ledger.apply, if_neg h]
  exact supply_update ledger tx.sender _

theorem supply_transfer (ledger : Ledger) (tx : Transaction) (ht : tx.txType = .transfer)
    (hne : tx.sender ≠ tx.recipient) :
    supply (ledger.apply tx) + (ledger tx.sender).worth + (ledger tx.recipient).worth =
      ledger.supply + ((ledger tx.sender).debit tx).worth +
        ((ledger tx.recipient).credit tx).worth := by
  have hafter : (ledger tx.sender).afterSending tx = (ledger tx.sender).debit tx := by
    simp only [Account.afterSending, ht]
  have hin := supply_update ledger tx.recipient ((ledger tx.recipient).credit tx)
  have hout := supply_update (Function.update ledger tx.recipient ((ledger tx.recipient).credit tx))
    tx.sender ((ledger tx.sender).afterSending tx)
  rw [Function.update_of_ne hne, hafter] at hout
  rw [Ledger.apply, if_pos ht, hafter]
  omega

theorem supply_transfer_self (ledger : Ledger) (tx : Transaction) (ht : tx.txType = .transfer)
    (he : tx.sender = tx.recipient) :
    supply (ledger.apply tx) + (ledger tx.sender).worth =
      ledger.supply + ((ledger tx.sender).debit tx).worth := by
  have hafter : (ledger tx.sender).afterSending tx = (ledger tx.sender).debit tx := by
    simp only [Account.afterSending, ht]
  rw [Ledger.apply, if_pos ht, ← he, Function.update_idem, hafter]
  exact supply_update ledger tx.sender _

theorem worth_debit (ledger : Ledger) (tx : Transaction) :
    ((ledger tx.sender).debit tx).worth + ledger.paid tx = (ledger tx.sender).worth := by
  simp only [Account.worth, Account.debit, paid, UInt64.toNat_saturatingSub]
  omega

theorem supply_apply (ledger : Ledger) (tx : Transaction) :
    supply (ledger.apply tx) + ledger.charged tx = ledger.supply + ledger.credited tx := by
  have hdebit := worth_debit ledger tx
  cases ht : tx.txType with
  | transfer =>
    simp only [charged, credited, ht]
    by_cases he : tx.sender = tx.recipient
    · have hs := supply_transfer_self ledger tx ht he
      rw [if_pos he]
      omega
    · have hs := supply_transfer ledger tx ht he
      have hcredit : ((ledger tx.recipient).credit tx).worth = (ledger tx.recipient).worth +
          min tx.amount.toNat (2 ^ 64 - 1 - (ledger tx.recipient).balance.toNat) := by
        have hlt := (ledger tx.recipient).balance.toNat_lt
        simp only [Account.worth, Account.credit, UInt64.toNat_saturatingAdd]
        omega
      rw [if_neg he]
      omega
  | registerValidator | stake =>
    have hs := supply_apply_own ledger tx (by simp [ht])
    have hlt := (ledger tx.sender).stakedAmount.toNat_lt
    simp only [charged, credited, ht]
    simp only [Account.afterSending, ht, Account.worth, UInt64.toNat_saturatingAdd,
      Account.debit] at hs hdebit
    omega
  | unstake =>
    have hs := supply_apply_own ledger tx (by simp [ht])
    have hlt := ((ledger tx.sender).debit tx).balance.toNat_lt
    simp only [charged, credited, ht]
    simp only [Account.afterSending, ht, Account.worth, UInt64.toNat_saturatingAdd,
      UInt64.toNat_saturatingSub, Account.debit] at hs hdebit hlt
    omega

theorem supply_applyAll (ledger : Ledger) (txs : List Transaction) :
    supply (txs.foldl Ledger.apply ledger) + ledger.chargedAll txs =
      ledger.supply + ledger.creditedAll txs := by
  induction txs generalizing ledger with
  | nil => rfl
  | cons tx txs ih =>
    have hhead := supply_apply ledger tx
    have htail := ih (ledger.apply tx)
    simp only [List.foldl_cons, chargedAll, creditedAll]
    omega

end Ledger

def ledgerAfter (c : Crates) (db : StateDB) (txs : List Transaction) : Ledger :=
  (executeTransactionsSpeculative c db txs StateOverlay.new).view c db

theorem ledgerAfter_eq (c : Crates) (db : StateDB) (txs : List Transaction) :
    ledgerAfter c db txs = txs.foldl Ledger.apply (db.getAccount c) := by
  rw [ledgerAfter, view_execute, view_new]

/-- A body of transactions creates no money exactly if it credits no more than
it charges; a single one of them exactly if this holds of it at its turn. -/
theorem execute_supply_le_iff (c : Crates) (db : StateDB) (block : Block) :
    ((ledgerAfter c db block.transactions).supply ≤ Ledger.supply (db.getAccount c) ↔
      Ledger.creditedAll (db.getAccount c) block.transactions ≤
        Ledger.chargedAll (db.getAccount c) block.transactions) ∧
    ∀ pre tx,
      ((ledgerAfter c db (pre ++ [tx])).supply ≤ (ledgerAfter c db pre).supply ↔
        (ledgerAfter c db pre).credited tx ≤ (ledgerAfter c db pre).charged tx) := by
  constructor
  · have hall := Ledger.supply_applyAll (db.getAccount c) block.transactions
    rw [ledgerAfter_eq]
    omega
  · intro pre tx
    have hone := Ledger.supply_apply (ledgerAfter c db pre) tx
    have hnext : ledgerAfter c db (pre ++ [tx]) = (ledgerAfter c db pre).apply tx := by
      rw [ledgerAfter_eq, ledgerAfter_eq, List.foldl_append]
      rfl
    rw [hnext]
    omega

/-- A payment from an account that does not exist fits into a valid block. -/
def unfundedBlock : Block :=
  Reference.block 1 Hash.zero 0
    [Reference.transaction .transfer 2 (Reference.address 3) 1000 200 1]

theorem openInMemory_getAccount (c : Crates) :
    (StateDB.openInMemory c).getAccount c = fun _ => Account.default := rfl

theorem unfundedBlock_creates_money : ¬ ∀ (db : StateDB) (block : Block),
    block.validateBasic (Reference.crates []) = .ok () →
    (ledgerAfter (Reference.crates []) db block.transactions).supply ≤
      Ledger.supply (db.getAccount (Reference.crates [])) := by
  intro hall
  have hvalid : unfundedBlock.validateBasic (Reference.crates []) = .ok () := by
    refine Reference.block_validateBasic _ _ _ fun tx htx => ?_
    rw [List.mem_singleton.mp htx]
    exact Reference.transaction_verify ..
  have hle := hall (StateDB.openInMemory (Reference.crates [])) unfundedBlock hvalid
  have hsum := Ledger.supply_applyAll
    ((StateDB.openInMemory (Reference.crates [])).getAccount (Reference.crates []))
    unfundedBlock.transactions
  have hcharged : Ledger.chargedAll
      ((StateDB.openInMemory (Reference.crates [])).getAccount (Reference.crates []))
      unfundedBlock.transactions = 0 := by
    rw [openInMemory_getAccount]
    rfl
  have hcredited : Ledger.creditedAll
      ((StateDB.openInMemory (Reference.crates [])).getAccount (Reference.crates []))
      unfundedBlock.transactions = 1000 := by
    rw [openInMemory_getAccount]
    simp [unfundedBlock, Reference.block, Reference.transaction, Ledger.creditedAll,
      Ledger.credited, Account.default, Reference.address_two_ne_three]
  rw [ledgerAfter_eq] at hle
  omega

theorem validated_fits {c : Crates} {db : StateDB} {overlay : StateOverlay} {tx : Transaction}
    (htotal : Ledger.supply (overlay.view c db) < 2 ^ 64)
    (hstateful : validateStateful tx (overlay.getAccount c tx.sender db) = .ok ()) :
    min (tx.amount.toNat + tx.fee.toNat) (2 ^ 64 - 1) ≤ (overlay.view c db tx.sender).balance.toNat ∧
      (overlay.view c db tx.sender).worth < 2 ^ 64 ∧
      (tx.sender ≠ tx.recipient →
        (overlay.view c db tx.sender).worth + (overlay.view c db tx.recipient).worth < 2 ^ 64) ∧
      (tx.txType = .unstake →
        tx.amount.toNat ≤ (overlay.view c db tx.sender).stakedAmount.toNat) := by
  obtain ⟨-, -, hbalance, htype⟩ := validateStateful_ok hstateful
  rw [UInt64.le_iff_toNat_le, UInt64.toNat_saturatingAdd] at hbalance
  refine ⟨hbalance, ?_, fun hne => ?_, fun ht => ?_⟩
  · exact (Holdings.worth_le_total Account.worth (overlay.view c db) tx.sender).trans_lt htotal
  · exact (Holdings.worth_add_le_total Account.worth (overlay.view c db) hne).trans_lt htotal
  · exact UInt64.le_iff_toNat_le.mp (validateType_unstake ht htype)

/-- A validated transaction loses exactly its fee, except where a transfer to
oneself or an unstaking swallows the amount, or amount and fee overflow. -/
theorem execute_conserves_iff (c : Crates) (db : StateDB) (overlay : StateOverlay) (tx : Transaction)
    (htotal : Ledger.supply (overlay.view c db) < 2 ^ 64)
    (hstateless : validateStateless c tx = .ok ())
    (hstateful : validateStateful tx (overlay.getAccount c tx.sender db) = .ok ()) :
    Ledger.supply ((executeTransaction c db overlay tx).view c db) + tx.fee.toNat =
        Ledger.supply (overlay.view c db) ↔
      (tx.txType = .transfer → tx.sender ≠ tx.recipient) ∧ (tx.txType = .unstake → tx.amount = 0) ∧
        tx.amount.toNat + tx.fee.toNat < 2 ^ 64 := by
  obtain ⟨hbalance, hworth, hpair, hunstake⟩ := validated_fits htotal hstateful
  have hamount := (validateStateless_ok hstateless).2.2.1
  have hstep := Ledger.supply_apply (overlay.view c db) tx
  have ha := tx.amount.toNat_lt
  have hf := tx.fee.toNat_lt
  have hzero : tx.amount = 0 ↔ tx.amount.toNat = 0 := by rw [← UInt64.toNat_inj, UInt64.toNat_zero]
  rw [view_executeTransaction]
  simp only [Account.worth] at hworth hpair
  cases ht : tx.txType with
  | transfer =>
    have hne0 : tx.amount.toNat ≠ 0 := fun h => hamount ht (hzero.mpr h)
    simp only [Ledger.charged, Ledger.credited, ht, Ledger.paid, UInt64.toNat_add] at hstep
    by_cases he : tx.sender = tx.recipient
    · simp only [he, if_true] at hstep hbalance ⊢
      simp only [ne_eq, not_true_eq_false, imp_false, false_and, iff_false]
      omega
    · have hp := hpair he
      rw [if_neg he] at hstep
      simp only [ne_eq, he, not_false_eq_true, implies_true, true_and, reduceCtorEq, false_implies]
      omega
  | registerValidator =>
    simp only [Ledger.charged, Ledger.credited, ht, Ledger.paid, UInt64.toNat_add] at hstep
    simp only [reduceCtorEq, false_implies, true_and]
    omega
  | stake =>
    simp only [Ledger.charged, Ledger.credited, ht, Ledger.paid, UInt64.toNat_add] at hstep
    simp only [reduceCtorEq, false_implies, true_and]
    omega
  | unstake =>
    have hu := hunstake ht
    simp only [Ledger.charged, Ledger.credited, ht, Ledger.paid, UInt64.toNat_add] at hstep
    simp only [reduceCtorEq, false_implies, true_and, forall_const, hzero]
    omega

theorem supply_single (c : Crates) (a : Address) (acc : Account) :
    Ledger.supply ((StateOverlay.new.setAccount a acc).view c (StateDB.openInMemory c)) = acc.worth := by
  have hzero : Ledger.supply (fun _ => Account.default) = 0 := by
    simp [Ledger.supply, Holdings.total, Account.worth, Account.default]
  have hupdate := Ledger.supply_update (fun _ => Account.default) a acc
  have hd : Account.default.worth = 0 := rfl
  rw [view_setAccount, view_new, openInMemory_getAccount]
  omega

def richOverlay : StateOverlay :=
  StateOverlay.new.setAccount (Reference.address 2)
    ⟨1000000, 0, 500, true, some (Reference.secretKey 2)⟩

theorem richOverlay_getAccount (c : Crates) (db : StateDB) :
    richOverlay.getAccount c (Reference.address 2) db =
      ⟨1000000, 0, 500, true, some (Reference.secretKey 2)⟩ :=
  StateOverlay.getAccount_setAccount_self _

theorem richOverlay_supply_lt : Ledger.supply
    (richOverlay.view (Reference.crates []) (StateDB.openInMemory (Reference.crates []))) < 2 ^ 64 := by
  rw [richOverlay, supply_single]
  decide

def payment : Transaction :=
  Reference.transaction .transfer 2 (Reference.address 3) 1000 200 1

theorem execute_conserves_payment :
    Ledger.supply ((executeTransaction (Reference.crates [])
      (StateDB.openInMemory (Reference.crates [])) richOverlay payment).view (Reference.crates [])
      (StateDB.openInMemory (Reference.crates []))) + payment.fee.toNat =
    Ledger.supply (richOverlay.view (Reference.crates [])
      (StateDB.openInMemory (Reference.crates []))) := by
  have hstateless : validateStateless (Reference.crates []) payment = .ok () :=
    Reference.transaction_stateless [] _ _ _ _ _ _ (by decide) (by decide)
  have hstateful : validateStateful payment (richOverlay.getAccount (Reference.crates []) payment.sender
      (StateDB.openInMemory (Reference.crates []))) = .ok () := by
    rw [show payment.sender = Reference.address 2 from rfl, richOverlay_getAccount]
    rfl
  have hother : payment.sender ≠ payment.recipient := Reference.address_two_ne_three
  refine (execute_conserves_iff _ _ _ payment richOverlay_supply_lt hstateless hstateful).mpr ?_
  exact ⟨fun _ => hother, nofun, by decide⟩

def withdrawal : Transaction :=
  Reference.transaction .unstake 2 (Reference.address 2) 300 200 1

/-- Unstaking debits the amount that it then credits. -/
theorem withdrawal_loses_amount : ¬ ∀ (db : StateDB) (overlay : StateOverlay) (tx : Transaction),
    Ledger.supply (overlay.view (Reference.crates []) db) < 2 ^ 64 →
    validateStateless (Reference.crates []) tx = .ok () →
    validateStateful tx (overlay.getAccount (Reference.crates []) tx.sender db) = .ok () →
    Ledger.supply ((executeTransaction (Reference.crates []) db overlay tx).view
      (Reference.crates []) db) + tx.fee.toNat =
        Ledger.supply (overlay.view (Reference.crates []) db) := by
  intro hall
  have hstateless : validateStateless (Reference.crates []) withdrawal = .ok () :=
    Reference.transaction_stateless [] _ _ _ _ _ _ (by decide) (by decide)
  have hstateful : validateStateful withdrawal (richOverlay.getAccount (Reference.crates [])
      withdrawal.sender (StateDB.openInMemory (Reference.crates []))) = .ok () := by
    rw [show withdrawal.sender = Reference.address 2 from rfl, richOverlay_getAccount]
    rfl
  have heq := hall _ _ _ richOverlay_supply_lt hstateless hstateful
  have hstep := Ledger.supply_apply (richOverlay.view (Reference.crates [])
    (StateDB.openInMemory (Reference.crates []))) withdrawal
  have hsender : richOverlay.view (Reference.crates []) (StateDB.openInMemory (Reference.crates []))
      withdrawal.sender = ⟨1000000, 0, 500, true, some (Reference.secretKey 2)⟩ :=
    richOverlay_getAccount _ _
  have hpaid : Ledger.paid (richOverlay.view (Reference.crates [])
      (StateDB.openInMemory (Reference.crates []))) withdrawal = 500 := by
    rw [Ledger.paid, hsender]
    rfl
  have hcharged : Ledger.charged (richOverlay.view (Reference.crates [])
      (StateDB.openInMemory (Reference.crates []))) withdrawal = 800 := by
    simp only [Ledger.charged, show withdrawal.txType = .unstake from rfl, hpaid, hsender]
    rfl
  have hcredited : Ledger.credited (richOverlay.view (Reference.crates [])
      (StateDB.openInMemory (Reference.crates []))) withdrawal = 300 := by
    simp only [Ledger.credited, show withdrawal.txType = .unstake from rfl, hpaid, hsender]
    rfl
  have hfee : withdrawal.fee.toNat = 200 := rfl
  rw [view_executeTransaction] at heq
  omega

end AuraChain
