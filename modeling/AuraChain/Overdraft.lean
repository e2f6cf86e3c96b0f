import AuraChain.CappedBalance
import AuraChain.Executor
import AuraChain.FoldTurns
import AuraChain.MempoolRun
import AuraChain.Reference

/-! Whether the transactions of a body find the balances that they charge. The
pool admits each of them against the committed balance alone. -/

namespace AuraChain

def balanceCap : Nat := 2 ^ 64 - 1

/-- What the transaction takes from the account and gives to it afterwards. A
transfer to oneself gives nothing. -/
def Transaction.flow (a : Address) (tx : Transaction) : Nat × Nat :=
  if tx.sender = a then
    (tx.amount.toNat + tx.fee.toNat, if tx.txType = .unstake then tx.amount.toNat else 0)
  else (0, if tx.txType = .transfer ∧ tx.recipient = a then tx.amount.toNat else 0)

/-- Each transaction, at its turn, finds its amount and its fee. -/
def FundsEach (c : Crates) (db : StateDB) (txs : List Transaction) : Prop :=
  ∀ before tx after, txs = before ++ tx :: after → tx.amount.toNat + tx.fee.toNat ≤
    ((executeTransactionsSpeculative c db before StateOverlay.new).getAccount c tx.sender db).balance.toNat

def CoveredTurn (c : Crates) (db : StateDB) (before : List Transaction) (tx : Transaction) : Prop :=
  CappedBalance.CoveredAt balanceCap (db.getAccount c tx.sender).balance.toNat
    (before.map (Transaction.flow tx.sender)) (tx.amount.toNat + tx.fee.toNat)

def Mempool.submit (c : Crates) (db : StateDB) (pool : Mempool) (tx : Transaction) :
    Option (Mempool × List (Except MempoolError Hash)) :=
  (pool.addTransaction c tx db).map fun r => (r.1, [r.2])

def AdmittedAgainst (c : Crates) (config : MempoolConfig) (db : StateDB) (pool : Mempool) : Prop :=
  ∃ log, TracedRun (Mempool.submit c db) (fun _ _ => True) (Mempool.new config, []) (pool, log)

variable {c : Crates} {db : StateDB} {config : MempoolConfig} {pool : Mempool}

theorem flow_charge {a : Address} {tx : Transaction} (h : 0 < (tx.flow a).1) : tx.sender = a := by
  by_contra hne
  simp [Transaction.flow, hne] at h

theorem flow_sender (tx : Transaction) :
    (tx.flow tx.sender).1 = tx.amount.toNat + tx.fee.toNat := by
  rw [Transaction.flow, if_pos rfl]

namespace Ledger

def FundsEach (ledger : Ledger) (txs : List Transaction) : Prop :=
  ∀ before tx after, txs = before ++ tx :: after →
    tx.amount.toNat + tx.fee.toNat ≤ (before.foldl Ledger.apply ledger tx.sender).balance.toNat

variable {ledger : Ledger} {tx : Transaction} {txs : List Transaction}

theorem fundsEach_cons : ledger.FundsEach (tx :: txs) ↔
    tx.amount.toNat + tx.fee.toNat ≤ (ledger tx.sender).balance.toNat ∧
      (ledger.apply tx).FundsEach txs :=
  EachTurn.cons_iff (P := fun (ledger : Ledger) (tx : Transaction) =>
    tx.amount.toNat + tx.fee.toNat ≤ (ledger tx.sender).balance.toNat)

theorem balance_debit (acc : Account)
    (h : tx.amount.toNat + tx.fee.toNat ≤ acc.balance.toNat) :
    (acc.debit tx).balance.toNat = acc.balance.toNat - (tx.amount.toNat + tx.fee.toNat) := by
  have hlt := acc.balance.toNat_lt
  rw [Account.debit, UInt64.toNat_saturatingSub, UInt64.toNat_add, Nat.mod_eq_of_lt (by omega)]

theorem balance_afterSending (acc : Account)
    (h : tx.amount.toNat + tx.fee.toNat ≤ acc.balance.toNat) :
    (acc.afterSending tx).balance.toNat =
      CappedBalance.settle balanceCap acc.balance.toNat (tx.flow tx.sender) := by
  have hdebit := balance_debit acc h
  have hlt := acc.balance.toNat_lt
  rw [CappedBalance.settle, Transaction.flow, if_pos rfl, balanceCap]
  cases ht : tx.txType with
  | unstake =>
    simp only [Account.afterSending, ht, UInt64.toNat_saturatingAdd, hdebit, if_true]
  | transfer =>
    simp only [Account.afterSending, ht, hdebit, reduceCtorEq, if_false]
    omega
  | stake =>
    simp only [Account.afterSending, ht, hdebit, reduceCtorEq, if_false]
    omega
  | registerValidator =>
    simp only [Account.afterSending, ht, hdebit, reduceCtorEq, if_false]
    omega

/-- As long as the sender is solvent, all balances follow the flows. -/
theorem balance_apply (h : tx.amount.toNat + tx.fee.toNat ≤ (ledger tx.sender).balance.toNat)
    (a : Address) : (ledger.apply tx a).balance.toNat =
      CappedBalance.settle balanceCap (ledger a).balance.toNat (tx.flow a) := by
  rw [Ledger.apply]
  by_cases ha : tx.sender = a
  · subst ha
    rw [Function.update_self]
    exact balance_afterSending _ h
  · have hlt := (ledger a).balance.toNat_lt
    rw [Function.update_of_ne (Ne.symm ha), CappedBalance.settle, Transaction.flow, if_neg ha,
      balanceCap]
    by_cases ht : tx.txType = .transfer
    · by_cases hr : tx.recipient = a
      · subst hr
        simp [ht, Account.credit]
      · rw [if_pos ht, Function.update_of_ne (Ne.symm hr), if_neg (fun he => hr he.2)]
        simp only
        omega
    · rw [if_neg ht, if_neg (fun he => ht he.1)]
      simp only
      omega

theorem fundsEach_iff_solvent : ledger.FundsEach txs ↔ ∀ a,
    CappedBalance.Solvent balanceCap (ledger a).balance.toNat (txs.map (Transaction.flow a)) := by
  induction txs generalizing ledger with
  | nil => exact iff_of_true (fun before tx after he => by simp at he) fun _ => trivial
  | cons tx txs ih =>
    have hhead : tx.amount.toNat + tx.fee.toNat ≤ (ledger tx.sender).balance.toNat ↔
        ∀ a, (tx.flow a).1 ≤ (ledger a).balance.toNat := by
      constructor
      · intro h a
        rcases Nat.eq_zero_or_pos (tx.flow a).1 with hzero | hpos
        · omega
        · rwa [← flow_charge hpos, flow_sender]
      · intro h
        have hsender := h tx.sender
        rwa [flow_sender] at hsender
    simp only [List.map_cons, CappedBalance.Solvent]
    rw [fundsEach_cons, ih, forall_and, ← hhead]
    refine and_congr_right fun h => forall_congr' fun a => ?_
    rw [balance_apply h]

end Ledger

theorem eachCovered_iff (c : Crates) (db : StateDB) (txs : List Transaction) :
    (∀ a, CappedBalance.Covered balanceCap (db.getAccount c a).balance.toNat
        (txs.map (Transaction.flow a))) ↔
      ∀ before tx after, txs = before ++ tx :: after → 0 < tx.amount.toNat + tx.fee.toNat →
        CoveredTurn c db before tx := by
  constructor
  · intro h before tx after he hpos
    have hturn := h tx.sender (before.map (Transaction.flow tx.sender)) (tx.flow tx.sender)
      (after.map (Transaction.flow tx.sender)) (by rw [he, List.map_append, List.map_cons])
    rw [flow_sender] at hturn
    exact hturn hpos
  · intro h a before flow after he hpos
    obtain ⟨txs₁, txs₂, rfl, rfl, hrest⟩ := List.map_eq_append_iff.mp he
    obtain ⟨tx, txs₃, rfl, rfl, -⟩ := List.map_eq_cons_iff.mp hrest
    have hsender := flow_charge hpos
    subst hsender
    rw [flow_sender] at hpos ⊢
    exact h txs₁ tx txs₃ rfl hpos

theorem fundsEach_iff (c : Crates) (db : StateDB) (txs : List Transaction) : FundsEach c db txs ↔
    ∀ before tx after, txs = before ++ tx :: after → 0 < tx.amount.toNat + tx.fee.toNat →
      CoveredTurn c db before tx := by
  have hledger : FundsEach c db txs ↔ Ledger.FundsEach (db.getAccount c) txs := by
    have hview : ∀ before a,
        (executeTransactionsSpeculative c db before StateOverlay.new).getAccount c a db =
          before.foldl Ledger.apply (db.getAccount c) a := by
      intro before a
      have h := congrFun (view_execute c db before StateOverlay.new) a
      rwa [view_new] at h
    simp only [FundsEach, Ledger.FundsEach, hview]
  rw [hledger, Ledger.fundsEach_iff_solvent, ← eachCovered_iff]
  refine forall_congr' fun a => CappedBalance.solvent_iff_covered ?_
  have hlt := (db.getAccount c a).balance.toNat_lt
  rw [balanceCap]
  omega

structure Admitted (c : Crates) (db : StateDB) (pool : Mempool) : Prop where
  consistent : pool.Consistent c
  stateless : ∀ tx ∈ pool.pooled, validateStateless c tx = .ok ()
  stateful : ∀ tx ∈ pool.pooled, validateStateful tx (db.getAccount c tx.sender) = .ok ()

theorem Admitted.addTransaction (h : Admitted c db pool) {tx : Transaction}
    {r : Mempool × Except MempoolError Hash} (hr : pool.addTransaction c tx db = some r) :
    Admitted c db r.1 := by
  obtain ⟨hc, hpooled⟩ := Mempool.addTransaction_pooled h.consistent hr
  refine ⟨hc, fun t ht => ?_, fun t ht => ?_⟩
  · rcases hpooled t ht with hin | ⟨rfl, hchecks⟩
    · exact h.stateless t hin
    · exact hchecks.stateless
  · rcases hpooled t ht with hin | ⟨rfl, hchecks⟩
    · exact h.stateful t hin
    · exact hchecks.stateful

theorem AdmittedAgainst.admitted (h : AdmittedAgainst c config db pool) : Admitted c db pool := by
  obtain ⟨log, hrun⟩ := h
  have hempty : (Mempool.new config).pooled = [] := rfl
  refine TracedRun.invariant (P := fun pool _ => Admitted c db pool) hrun ?_ ?_
  · exact ⟨.new c config, by simp [hempty], by simp [hempty]⟩
  · intro s _ tx t out hs _ he
    obtain ⟨r, hr, hout⟩ := Option.map_eq_some_iff.mp he
    cases hout
    exact hs.addTransaction hr

theorem charges_others {before : List Transaction} {tx : Transaction}
    (h : ∀ t ∈ before, t.sender ≠ tx.sender) :
    CappedBalance.charges (before.map (Transaction.flow tx.sender)) = 0 := by
  induction before with
  | nil => rfl
  | cons t before ih =>
    have hhead : (t.flow tx.sender).1 = 0 := by
      simp [Transaction.flow, h t List.mem_cons_self]
    have htail := ih fun u hu => h u (List.mem_cons_of_mem t hu)
    rw [List.map_cons, CappedBalance.charges_cons]
    omega

/-- The block of an honest proposer overdraws no account exactly when, of several
transactions of one sender, each is covered by what the earlier ones leave, and
no amount overflows with its fee. -/
theorem harvest_funded_iff (h : AdmittedAgainst c config db pool) (maxBytes : Nat) :
    FundsEach c db (pool.harvest maxBytes) ↔
      ∀ before tx after, pool.harvest maxBytes = before ++ tx :: after →
        tx.amount.toNat + tx.fee.toNat < 2 ^ 64 ∧
          ((∃ t ∈ before, t.sender = tx.sender) → CoveredTurn c db before tx) := by
  have hadmitted := h.admitted
  have hchecks : ∀ before tx after, pool.harvest maxBytes = before ++ tx :: after →
      0 < tx.amount.toNat + tx.fee.toNat ∧
        min (tx.amount.toNat + tx.fee.toNat) (2 ^ 64 - 1) ≤
          (db.getAccount c tx.sender).balance.toNat := by
    intro before tx after he
    have hm : tx ∈ pool.harvest maxBytes := by simp [he]
    have hpooled := (Mempool.mem_pooled hadmitted.consistent).mpr
      (Mempool.harvest_mem hadmitted.consistent hm)
    have hfee := (validateStateless_ok (hadmitted.stateless tx hpooled)).2.1
    have hbalance := (validateStateful_ok (hadmitted.stateful tx hpooled)).2.2.1
    have hmin : minTransactionFee.toNat = 100 := rfl
    rw [UInt64.le_iff_toNat_le] at hfee hbalance
    rw [UInt64.toNat_saturatingAdd] at hbalance
    exact ⟨by omega, hbalance⟩
  rw [fundsEach_iff]
  constructor
  · intro hcovered before tx after he
    have hturn := hcovered before tx after he (hchecks before tx after he).1
    have hcap := hturn.latest _ [] (List.append_nil _).symm
    refine ⟨?_, fun _ => hturn⟩
    simp only [CappedBalance.charges, CappedBalance.credits, balanceCap, List.map_nil,
      List.sum_nil] at hcap
    omega
  · intro hcond before tx after he hpos
    obtain ⟨hfits, hlater⟩ := hcond before tx after he
    by_cases hearlier : ∃ t ∈ before, t.sender = tx.sender
    · exact hlater hearlier
    · have hbalance := (hchecks before tx after he).2
      have hfirst : ∀ t ∈ before, t.sender ≠ tx.sender := fun t ht hs => hearlier ⟨t, ht, hs⟩
      have hlt := (db.getAccount c tx.sender).balance.toNat_lt
      have hzero := charges_others hfirst
      refine CappedBalance.CoveredAt.of_charges ?_ (by omega)
      rw [balanceCap]
      omega

namespace Overdraft

def crates : Crates := Reference.crates [Reference.genesisBlock [1]]

def stateDb : StateDB := Reference.stateDb [1] [Reference.genesisBlock [1]]

def transfer (amount nonce : UInt64) : Transaction :=
  Reference.transaction .transfer 2 (Reference.address 3) amount 200 nonce

theorem harvest_pair (amount : UInt64) (h : (runAll (Mempool.submit crates stateDb) (fun _ _ => True)
      (Mempool.new MempoolConfig.default) [transfer amount 1, transfer amount 2]).map
      (fun t => t.1.harvest 10000) = some [transfer amount 2, transfer amount 1]) :
    ∃ pool : Mempool, AdmittedAgainst crates MempoolConfig.default stateDb pool ∧
      pool.harvest 10000 = [transfer amount 2, transfer amount 1] := by
  obtain ⟨⟨pool, log⟩, hrun, hharvest⟩ := TracedRun.of_map h
  exact ⟨pool, ⟨log, hrun⟩, hharvest⟩

theorem harvest_funded_small : ∃ pool : Mempool,
    pool.harvest 10000 = [transfer 1000 2, transfer 1000 1] ∧
      FundsEach crates stateDb (pool.harvest 10000) := by
  obtain ⟨pool, hadmitted, hharvest⟩ := harvest_pair 1000 (by decide +kernel)
  refine ⟨pool, hharvest, (harvest_funded_iff hadmitted 10000).mpr fun before tx after he => ?_⟩
  rw [hharvest] at he
  rcases before with _ | ⟨first, _ | ⟨second, rest⟩⟩
  · obtain ⟨rfl, -⟩ := List.cons.inj he
    exact ⟨by decide +kernel, by simp⟩
  · obtain ⟨rfl, hrest⟩ := List.cons.inj he
    obtain ⟨rfl, -⟩ := List.cons.inj hrest
    refine ⟨by decide +kernel, fun _ => CappedBalance.CoveredAt.of_charges ?_ ?_⟩
    · decide +kernel
    · decide +kernel
  · simp at he

theorem harvest_overdraws : ¬ ∀ (c : Crates) (config : MempoolConfig) (db : StateDB) (pool : Mempool)
    (maxBytes : Nat), AdmittedAgainst c config db pool → FundsEach c db (pool.harvest maxBytes) := by
  intro hclaim
  obtain ⟨pool, hadmitted, hharvest⟩ := harvest_pair 6000000 (by decide +kernel)
  have hfunded := hclaim crates _ stateDb pool 10000 hadmitted [transfer 6000000 2]
    (transfer 6000000 1) [] hharvest
  exact absurd hfunded (by decide +kernel)

end Overdraft

end AuraChain
