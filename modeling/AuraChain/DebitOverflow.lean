import AuraChain.MempoolRun
import AuraChain.Sync

/-! The sum of amount and fee that both executors take from a balance. Nothing
before them bounds it: the pool compares a saturating sum with the balance, and
the checks of a block do not look at the amounts. -/

namespace AuraChain

def maxWord : UInt64 := UInt64.ofNat (2 ^ 64 - 1)

namespace Transaction

def totalDeduct (tx : Transaction) : UInt64 := tx.amount + tx.fee

def ExactDebit (tx : Transaction) : Prop :=
  tx.totalDeduct.toNat = tx.amount.toNat + tx.fee.toNat

theorem exactDebit_iff_lt {tx : Transaction} :
    tx.ExactDebit ↔ tx.amount.toNat + tx.fee.toNat < 2 ^ 64 := by
  rw [ExactDebit, totalDeduct, UInt64.toNat_add]
  omega

end Transaction

variable {c : Crates} {account : Account} {tx : Transaction}

theorem balance_debit_exact (account : Account) (h : tx.ExactDebit) :
    (account.debit tx).balance.toNat =
      account.balance.toNat - (tx.amount.toNat + tx.fee.toNat) := by
  rw [← h]
  exact UInt64.toNat_saturatingSub _ _

theorem toNat_maxWord : maxWord.toNat = 2 ^ 64 - 1 := rfl

theorem validateStateful_exact (h : validateStateful tx account = .ok ())
    (hbalance : account.balance ≠ maxWord) : tx.ExactDebit := by
  have hle := (validateStateful_ok h).2.2.1
  have hlt := account.balance.toNat_lt
  rw [ne_eq, ← UInt64.toNat_inj, toNat_maxWord] at hbalance
  rw [UInt64.le_iff_toNat_le, UInt64.toNat_saturatingAdd] at hle
  rw [Transaction.exactDebit_iff_lt]
  omega

/-- The sum saturates at the largest balance, and no higher one is demanded. -/
def saturating (a : Address) (account : Account) : Transaction :=
  ⟨a, a, maxWord, maxWord, account.nonce + 1, .transfer, [], FixedBytes.zero 32, FixedBytes.zero 64⟩

/-- Near the largest word no nonce passes, as the upper end of its range wraps. -/
theorem nextNonce_iff {nonce : UInt64} : nonce < nonce + 1 ∧ nonce + 1 ≤ nonce + maxNonceGap ↔
    nonce.toNat + maxNonceGap.toNat < 2 ^ 64 := by
  have hlt := nonce.toNat_lt
  have hgap : maxNonceGap.toNat = 64 := rfl
  have hone : (1 : UInt64).toNat = 1 := rfl
  rw [UInt64.lt_iff_toNat_lt, UInt64.le_iff_toNat_le, UInt64.toNat_add, UInt64.toNat_add, hgap, hone]
  omega

theorem validateStateful_saturating (a : Address) (hbalance : account.balance = maxWord)
    (hnonce : account.nonce.toNat + maxNonceGap.toNat < 2 ^ 64) :
    validateStateful (saturating a account) account = .ok () := by
  obtain ⟨hlow, hfar⟩ := nextNonce_iff.mpr hnonce
  refine validateStateful_ok_iff.mpr ⟨hlow, hfar, ?_, rfl⟩
  show maxWord.saturatingAdd maxWord ≤ account.balance
  rw [hbalance]
  decide

theorem not_validateStateful (hnonce : 2 ^ 64 ≤ account.nonce.toNat + maxNonceGap.toNat) :
    validateStateful tx account ≠ .ok () := by
  intro h
  obtain ⟨hlow, hfar, -, -⟩ := validateStateful_ok h
  have hlt := account.nonce.toNat_lt
  have hgap : maxNonceGap.toNat = 64 := rfl
  rw [UInt64.lt_iff_toNat_lt] at hlow
  rw [UInt64.le_iff_toNat_le, UInt64.toNat_add] at hfar
  omega

theorem admissible_exact_iff (c : Crates) (stateDb : StateDB) (a : Address) :
    (∀ tx : Transaction, tx.sender = a →
      validateStateful tx (stateDb.getAccount c a) = .ok () → tx.ExactDebit) ↔
    ((stateDb.getAccount c a).balance = maxWord →
      2 ^ 64 ≤ (stateDb.getAccount c a).nonce.toNat + maxNonceGap.toNat) := by
  constructor
  · intro hall hbalance
    by_contra hnonce
    have hvalid := validateStateful_saturating a hbalance (Nat.not_le.mp hnonce)
    have hexact := Transaction.exactDebit_iff_lt.mp (hall _ rfl hvalid)
    simp only [saturating, toNat_maxWord] at hexact
    omega
  · intro hcond tx _ h
    by_cases hbalance : (stateDb.getAccount c a).balance = maxWord
    · exact absurd h (not_validateStateful (hcond hbalance))
    · exact validateStateful_exact h hbalance

theorem verified_exact_iff (c : Crates) (txs : List Transaction) :
    (∀ header lastCommitQc, Block.validateBasic c ⟨header, txs, lastCommitQc⟩ = .ok () →
      ∀ tx ∈ txs, tx.ExactDebit) ↔
    ((∀ tx ∈ txs, tx.verify c = .ok ()) →
      ∀ tx ∈ txs, tx.amount.toNat + tx.fee.toNat < 2 ^ 64) := by
  simp only [Block.validateBasic_ok_iff, Transaction.exactDebit_iff_lt]
  constructor
  · intro hall hverify
    let block : Block := ⟨Reference.header 1 Hash.zero 0 [], txs, none⟩
    exact hall { block.header with merkleRoot := block.computeMerkleRoot c } none ⟨rfl, hverify⟩
  · intro hcond header lastCommitQc hbasic
    exact hcond hbasic.2

/-- The sum is exact for what the pool admits unless the sender holds the largest
balance, and for what a block holds exactly if the amounts happen to fit. -/
theorem executor_debit_exact (c : Crates) :
    (∀ (pool : Mempool) (tx : Transaction) (stateDb : StateDB) (pool' : Mempool) (txHash : Hash),
      pool.addTransaction c tx stateDb = some (pool', .ok txHash) →
        (stateDb.getAccount c tx.sender).balance ≠ maxWord → tx.ExactDebit) ∧
    (∀ (stateDb : StateDB) (a : Address), (∀ tx : Transaction, tx.sender = a →
        validateStateful tx (stateDb.getAccount c a) = .ok () → tx.ExactDebit) ↔
      ((stateDb.getAccount c a).balance = maxWord →
        2 ^ 64 ≤ (stateDb.getAccount c a).nonce.toNat + maxNonceGap.toNat)) ∧
    (∀ txs : List Transaction, (∀ header lastCommitQc, Block.validateBasic c ⟨header, txs, lastCommitQc⟩ = .ok () →
        ∀ tx ∈ txs, tx.ExactDebit) ↔
      ((∀ tx ∈ txs, tx.verify c = .ok ()) →
        ∀ tx ∈ txs, tx.amount.toNat + tx.fee.toNat < 2 ^ 64)) ∧
    (∀ (account : Account) (tx : Transaction), tx.ExactDebit → (account.debit tx).balance.toNat =
      account.balance.toNat - (tx.amount.toNat + tx.fee.toNat)) := by
  refine ⟨fun pool tx stateDb pool' txHash hadd hbalance => ?_, admissible_exact_iff c,
    verified_exact_iff c, fun account tx h => balance_debit_exact account h⟩
  rcases Mempool.addTransaction_cases hadd with ⟨-, e, he⟩ | ⟨hchecks, -⟩
  · cases he
  · exact validateStateful_exact hchecks.stateful hbalance

namespace DebitOverflow

def genesis : GenesisConfig :=
  { Reference.genesis [1] with accounts := [⟨Reference.address 2, maxWord⟩] }

def genesisBlock : Block := genesis.toGenesisBlock (Reference.crates [])

def crates : Crates := Reference.crates [genesisBlock]

def stateDb : StateDB := ((StateDB.openInMemory crates).applyGenesis crates none genesis).1

def pool : Mempool := .new MempoolConfig.default

/-- Amount and fee wrap around to 99. -/
def wrapping : Transaction :=
  Reference.transaction .transfer 2 (Reference.address 3) maxWord 100 1

theorem executor_debit_exact_transfer : (Reference.transfer 1).ExactDebit := by
  have hadd : (pool.addTransaction MempoolRun.crates (Reference.transfer 1)
      MempoolRun.stateDb).map Prod.snd =
        some (.ok ((Reference.transfer 1).txHash MempoolRun.crates)) := by decide +kernel
  obtain ⟨⟨pool', outcome⟩, hr, rfl⟩ := Option.map_eq_some_iff.mp hadd
  obtain ⟨hadmitted, -, -, -⟩ := executor_debit_exact MempoolRun.crates
  refine hadmitted _ _ _ _ _ hr ?_
  change (MempoolRun.stateDb.getAccount MempoolRun.crates (Reference.address 2)).balance ≠ maxWord
  rw [MempoolRun.stateDb_getAccount.1]
  decide

theorem not_exact_wrapping : ¬ wrapping.ExactDebit := by
  have hamount : wrapping.amount.toNat = 2 ^ 64 - 1 := rfl
  have hfee : wrapping.fee.toNat = 100 := rfl
  rw [Transaction.exactDebit_iff_lt, hamount, hfee]
  omega

/-- The sender of the largest balance is admitted with a sum that wraps, and
any sender is in a block. -/
theorem executor_debit_wraps :
    (¬ ∀ (c : Crates) (config : MempoolConfig) (pool pool' : Mempool) (tx : Transaction)
      (stateDb : StateDB) (txHash : Hash), Mempool.Reachable c config pool →
        pool.addTransaction c tx stateDb = some (pool', .ok txHash) → tx.ExactDebit) ∧
    ¬ ∀ (c : Crates) (block : Block) (tx : Transaction), block.validateBasic c = .ok () →
      tx ∈ block.transactions → tx.ExactDebit := by
  constructor
  · intro hclaim
    have hadd : (pool.addTransaction crates wrapping stateDb).map Prod.snd =
        some (.ok (wrapping.txHash crates)) := by decide +kernel
    obtain ⟨⟨pool', outcome⟩, hr, rfl⟩ := Option.map_eq_some_iff.mp hadd
    exact not_exact_wrapping (hclaim crates _ pool pool' wrapping stateDb _ ⟨[], .refl⟩ hr)
  · intro hclaim
    have hbasic : (Reference.block 1 Hash.zero 0 [wrapping]).validateBasic crates = .ok () := by
      decide +kernel
    exact not_exact_wrapping (hclaim crates _ wrapping hbasic List.mem_cons_self)

end DebitOverflow

end AuraChain
