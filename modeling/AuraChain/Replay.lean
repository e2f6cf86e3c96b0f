import AuraChain.AddPhases
import AuraChain.FailedCommit
import AuraChain.Interleaving

/-! A node whose calls interleave, access by access: transactions come in while
blocks are built, committed and cleared away. The log of a run lists the
transactions in the order of their execution. -/

namespace AuraChain

inductive NodeCall
  | addTransaction (tx : Transaction)
  | produceBlock (header : BlockHeader) (lastCommitQc : Option QuorumCertificate) (maxBytes : Nat)
      (env : Env)

/-- The access of a call that comes next. -/
inductive NodePhase
  | adding (tx : Transaction) (p : AddPhase)
  | building (header : BlockHeader) (lastCommitQc : Option QuorumCertificate) (maxBytes : Nat)
      (env : Env)
  | built (block : Block) (env : Env)
  | removing (txs : List Transaction)
  | removingKey (txHash : Hash) (evicted : Transaction)
  | removingNonce (evicted : Transaction)
  | removingBytes
  | waiting
  | panicked

def NodeCall.phase : NodeCall → NodePhase
  | addTransaction tx => .adding tx .duplicateCheck
  | produceBlock header lastCommitQc maxBytes env => .building header lastCommitQc maxBytes env

structure NodeShared where
  stateDb : StateDB
  pool : SharedPool
  counterGuard : Bool

/-- Writes the counter under the guard of its own reading. -/
def AddPhase.locksCounter : AddPhase → Bool
  | dropBytes _ => true
  | evictBytes _ => true
  | _ => false

def AddPhase.usesCounter : AddPhase → Bool
  | bytesCheck => true
  | insertBytes => true
  | _ => false

namespace NodePhase

/-- The guard of the counter is not given back, and its holder waits for itself. -/
def lockCounter (s : NodeShared) : Option ((NodePhase × NodeShared) × List Transaction) :=
  if s.counterGuard then none else some ((waiting, { s with counterGuard := true }), [])

/-- One access, and what it executes. The engine executes and commits under one
guard. A commit that fails is a panic, and may have written the block by then. -/
def advance (c : Crates) (s : NodeShared) :
    NodePhase → Option ((NodePhase × NodeShared) × List Transaction)
  | adding tx p =>
    if p.locksCounter then lockCounter s
    else if p.usesCounter && s.counterGuard then none
    else (p.advance c tx s.stateDb s.pool).map fun r => ((adding tx r.1, { s with pool := r.2 }), [])
  | building header lastCommitQc maxBytes env =>
    some ((built ⟨header, s.pool.pool.harvest maxBytes, lastCommitQc⟩ env, s), [])
  | built block env =>
    let r := s.stateDb.commitBlock c env block
      (executeTransactionsSpeculative c s.stateDb block.transactions StateOverlay.new)
    let next := match r.2 with
      | .ok _ => removing block.transactions
      | .error _ => panicked
    some ((next, { s with stateDb := r.1 }),
      if (c.serializeBlock block).isSome then block.transactions else [])
  | removing [] => none
  | removing (tx :: txs) =>
    match s.pool.pool.byHash[tx.txHash c]? with
    | none => some ((removing txs, s), [])
    | some evicted => some ((removingKey (tx.txHash c) evicted,
        { s with pool := s.pool.on (·.eraseHash (tx.txHash c)) }), [])
  | removingKey txHash evicted => some ((removingNonce evicted,
      { s with pool := s.pool.on (·.eraseKey ⟨evicted.feePerByte, evicted.nonce, txHash⟩) }), [])
  | removingNonce evicted =>
    if s.pool.senderGuard then none
    else some ((removingBytes, { s with pool := s.pool.on (·.eraseNonce evicted) }), [])
  | removingBytes => lockCounter s
  | waiting => none
  | panicked => none

end NodePhase

namespace StateDB

def nonceAfter (c : Crates) (db : StateDB) (txs : List Transaction) (a : Address) : Nat :=
  (db.getAccount c a).nonce.toNat + txs.countP (fun tx => tx.sender = a)

/-- Each transaction has a nonce above that of its sender's account, which the
account reaches by the end of the block. -/
def InOrder (c : Crates) (db : StateDB) (txs : List Transaction) : Prop :=
  ∀ tx ∈ txs, (db.getAccount c tx.sender).nonce < tx.nonce ∧
    tx.nonce.toNat ≤ db.nonceAfter c txs tx.sender ∧ db.nonceAfter c txs tx.sender < 2 ^ 64

instance (c : Crates) (db : StateDB) (txs : List Transaction) : Decidable (db.InOrder c txs) :=
  inferInstanceAs (Decidable (∀ tx ∈ txs, _))

end StateDB

abbrev Node (ι : Type) := Interleaved ι NodePhase NodeShared

namespace Node

variable {ι : Type}

def start (stateDb : StateDB) (config : MempoolConfig) (calls : ι → NodeCall) : Node ι :=
  ⟨⟨stateDb, ⟨Mempool.new config, false⟩, false⟩, fun i => (calls i).phase⟩

def step [DecidableEq ι] (c : Crates) (node : Node ι) (i : ι) : Option (Node ι × List Transaction) :=
  ((node.phase i).advance c node.shared).map fun r => (node.move i r.1, r.2)

/-- The block that the call commits next has its nonces in order. -/
def commitsInOrder (c : Crates) (node : Node ι) (i : ι) : Prop :=
  match node.phase i with
  | .built block _ => node.shared.stateDb.InOrder c block.transactions
  | _ => True

instance (c : Crates) (node : Node ι) (i : ι) : Decidable (node.commitsInOrder c i) := by
  unfold commitsInOrder
  split <;> infer_instance

/-- What is submitted by the calls of a run. -/
def submitted (calls : ι → NodeCall) : Set Transaction := { tx | ∃ i, calls i = .addTransaction tx }

end Node

namespace Mempool

variable {c : Crates} {submitted : Set Transaction} {pool pool' : Mempool} {tx : Transaction}

/-- The indexes may disagree while calls interleave, but name what was submitted. -/
structure HoldsOnly (c : Crates) (submitted : Set Transaction) (pool : Mempool) : Prop where
  byHash : ∀ (h : Hash) (t : Transaction), pool.byHash[h]? = some t → t.txHash c = h ∧ t ∈ submitted
  index : ∀ key ∈ pool.priorityIndex, ∃ t ∈ submitted, t.priorityKey c = key

theorem HoldsOnly.new (config : MempoolConfig) : (Mempool.new config).HoldsOnly c submitted :=
  ⟨by simp [Mempool.new], by simp [Mempool.new]⟩

theorem HoldsOnly.congr (h : pool.HoldsOnly c submitted) (hb : pool'.byHash = pool.byHash)
    (hi : pool'.priorityIndex = pool.priorityIndex) : pool'.HoldsOnly c submitted :=
  ⟨hb ▸ h.byHash, hi ▸ h.index⟩

theorem HoldsOnly.eraseHash (h : pool.HoldsOnly c submitted) (txHash : Hash) :
    (pool.eraseHash txHash).HoldsOnly c submitted :=
  ⟨fun k t hl => h.byHash k t (Shrinks.erase rfl k t hl), h.index⟩

theorem HoldsOnly.eraseKey (h : pool.HoldsOnly c submitted) (key : PriorityKey) :
    (pool.eraseKey key).HoldsOnly c submitted := by
  refine ⟨h.byHash, fun k hk => h.index k ?_⟩
  exact (Std.ExtTreeSet.mem_erase.mp hk).2

theorem HoldsOnly.addHash (h : pool.HoldsOnly c submitted) (htx : tx ∈ submitted) :
    (pool.addHash c tx).HoldsOnly c submitted := by
  refine ⟨fun k t hl => ?_, h.index⟩
  simp only [Mempool.addHash, OrdMap.lookup_insert] at hl
  split_ifs at hl with hk
  · rw [← Option.some.inj hl]
    exact ⟨hk, htx⟩
  · exact h.byHash k t hl

theorem HoldsOnly.addKey (h : pool.HoldsOnly c submitted) (htx : tx ∈ submitted) :
    (pool.addKey c tx).HoldsOnly c submitted := by
  refine ⟨h.byHash, fun k hk => ?_⟩
  rcases Std.ExtTreeSet.mem_insert.mp hk with hk | hk
  · exact ⟨tx, htx, Std.LawfulEqOrd.eq_of_compare hk⟩
  · exact h.index k hk

theorem HoldsOnly.access (h : pool.HoldsOnly c submitted) (htx : tx ∈ submitted) {guard : Bool}
    {stateDb : StateDB} {p : AddPhase} {r : AddPhase × SharedPool}
    (ha : p.advance c tx stateDb ⟨pool, guard⟩ = some r) : r.2.pool.HoldsOnly c submitted := by
  cases p with
  | duplicateCheck => exact (AddPhase.duplicateCheck_cases ha).1 ▸ h
  | statefulCheck => exact (AddPhase.statefulCheck_cases ha).1 ▸ h
  | nonceCheck =>
    rw [(AddPhase.nonceCheck_cases ha).1]
    exact h.congr rfl rfl
  | countCheck | bytesCheck | lowestKey => exact (AddPhase.roomCheck_cases (by simp) ha).1 ▸ h
  | evictHash txHash =>
    rcases AddPhase.evictHash_cases ha with ⟨hs, -⟩ | ⟨evicted, -, hs, -⟩
    · exact hs ▸ h
    · exact hs ▸ h.eraseHash txHash
  | evictNonce evicted =>
    rw [(AddPhase.evictNonce_cases ha).1]
    exact h.congr rfl rfl
  | insertNonce =>
    rw [(AddPhase.insertNonce_cases ha).1]
    exact h.congr rfl rfl
  | dropHash existing =>
    cases ha
    exact h.eraseHash _
  | dropKey existing =>
    cases ha
    exact h.eraseKey _
  | evictKey txHash evicted =>
    cases ha
    exact h.eraseKey _
  | insertHash =>
    cases ha
    exact h.addHash htx
  | insertKey =>
    cases ha
    exact h.addKey htx
  | dropBytes _ | dropNonce | evictBytes _ | insertBytes =>
    cases ha
    exact h.congr rfl rfl
  | returned _ => cases ha

theorem HoldsOnly.harvest (h : pool.HoldsOnly c submitted)
    (hcol : Set.InjOn (Transaction.txHash c) submitted) (maxBytes : Nat) :
    (∀ tx ∈ pool.harvest maxBytes, tx ∈ submitted) ∧ (pool.harvest maxBytes).Nodup := by
  constructor
  · intro tx htx
    obtain ⟨key, -, hl⟩ := harvestKeys_mem htx
    exact (h.byHash _ tx hl).2
  · refine harvest_nodup_of_keys (c := c) (fun key hk t hl => ?_) maxBytes
    rw [List.mem_reverse, Std.ExtTreeSet.mem_toList] at hk
    obtain ⟨u, hu, rfl⟩ := h.index key hk
    obtain ⟨hhash, ht⟩ := h.byHash _ t hl
    rw [hcol ht hu hhash]

end Mempool

namespace StateDB

variable {c : Crates} {db : StateDB} {env : Env} {block : Block}

/-- The store after the block's execution and its commit, however that ends. -/
def committed (c : Crates) (db : StateDB) (env : Env) (block : Block) : StateDB :=
  (db.commitBlock c env block
    (executeTransactionsSpeculative c db block.transactions StateOverlay.new)).1

theorem committed_nonce (hrt : c.AccountRoundTrip) {blockBytes : Bytes}
    (hs : c.serializeBlock block = some blockBytes) (a : Address) :
    ((db.committed c env block).getAccount c a).nonce = (db.getAccount c a).nonce +
      UInt64.ofNat (block.transactions.countP (fun tx => tx.sender = a)) := by
  have hview := congrFun (view_execute c db block.transactions StateOverlay.new) a
  rw [view_new] at hview
  rw [committed, commitBlock_getAccount_written hrt hs, ← nonce_execute, ← hview]
  rfl

theorem committed_unwritten (hs : c.serializeBlock block = none) (a : Address) :
    (db.committed c env block).getAccount c a = db.getAccount c a := by
  rw [committed, commitBlock, writeBlock_fst, hs, getAccount, getAccount]

theorem commitBlock_nonce (hrt : c.AccountRoundTrip) {db' : StateDB} {root : Hash}
    (h : db.commitBlock c env block
      (executeTransactionsSpeculative c db block.transactions StateOverlay.new) = (db', .ok root))
    (a : Address) : (db'.getAccount c a).nonce = (db.getAccount c a).nonce +
      UInt64.ofNat (block.transactions.countP (fun tx => tx.sender = a)) := by
  obtain ⟨blockBytes, hs, -⟩ := writeBlock_ok (congrArg Prod.snd h)
  have hnonce : ((db.committed c env block).getAccount c a).nonce = (db.getAccount c a).nonce +
      UInt64.ofNat (block.transactions.countP (fun tx => tx.sender = a)) := committed_nonce hrt hs a
  rwa [committed, h] at hnonce

theorem committed_nonce_toNat (hrt : c.AccountRoundTrip) {blockBytes : Bytes}
    (hs : c.serializeBlock block = some blockBytes) {a : Address}
    (hlt : db.nonceAfter c block.transactions a < 2 ^ 64) :
    ((db.committed c env block).getAccount c a).nonce.toNat =
      db.nonceAfter c block.transactions a := by
  unfold nonceAfter at hlt ⊢
  have hcount : block.transactions.countP (fun tx => tx.sender = a) < 2 ^ 64 := by omega
  rw [committed_nonce hrt hs, UInt64.toNat_add, UInt64.toNat_ofNat', Nat.mod_eq_of_lt hcount,
    Nat.mod_eq_of_lt hlt]

/-- A sender of no transaction of the block keeps its nonce, so the bound is
asked of the block's own senders only. -/
theorem committed_nonce_le (hrt : c.AccountRoundTrip) (h : db.InOrder c block.transactions)
    (a : Address) : (db.getAccount c a).nonce ≤ ((db.committed c env block).getAccount c a).nonce := by
  cases hs : c.serializeBlock block with
  | none =>
    rw [committed_unwritten hs]
    exact UInt64.le_refl _
  | some blockBytes =>
    by_cases hex : ∃ tx ∈ block.transactions, tx.sender = a
    · obtain ⟨tx, htx, rfl⟩ := hex
      rw [UInt64.le_iff_toNat_le, committed_nonce_toNat hrt hs (h tx htx).2.2]
      exact Nat.le_add_right ..
    · have hzero : block.transactions.countP (fun tx => tx.sender = a) = 0 :=
        List.countP_eq_zero.mpr fun tx htx hs => hex ⟨tx, htx, of_decide_eq_true hs⟩
      rw [committed_nonce hrt hs, hzero]
      simp

end StateDB

namespace Node

section Runs

variable {ι : Type} {c : Crates} {calls : ι → NodeCall} {node node' : Node ι}
  {log out : List Transaction}

/-- What a call in a phase relies on. -/
def Sound (submitted : Set Transaction) : NodePhase → Prop
  | .adding tx _ => tx ∈ submitted
  | .built block _ => (∀ tx ∈ block.transactions, tx ∈ submitted) ∧ block.transactions.Nodup
  | _ => True

structure NoReplay (c : Crates) (calls : ι → NodeCall) (node : Node ι) (log : List Transaction) :
    Prop where
  pool : node.shared.pool.pool.HoldsOnly c (submitted calls)
  phases : ∀ i, Sound (submitted calls) (node.phase i)
  known : ∀ tx ∈ log, tx ∈ submitted calls
  spent : ∀ tx ∈ log, tx.nonce ≤ (node.shared.stateDb.getAccount c tx.sender).nonce
  once : log.Nodup

theorem NoReplay.start (c : Crates) (stateDb : StateDB) (config : MempoolConfig)
    (calls : ι → NodeCall) : NoReplay c calls (start stateDb config calls) [] where
  pool := .new config
  phases i := by
    show Sound (submitted calls) (calls i).phase
    cases hcall : calls i with
    | addTransaction tx => exact ⟨i, hcall⟩
    | produceBlock header lastCommitQc maxBytes env => trivial
  known := by simp
  spent := by simp
  once := List.nodup_nil

variable [DecidableEq ι]

/-- An access that executes nothing. -/
theorem NoReplay.move (h : NoReplay c calls node log) (i : ι) {phase : NodePhase} {s : NodeShared}
    (hstore : s.stateDb = node.shared.stateDb)
    (hpool : s.pool.pool.HoldsOnly c (submitted calls)) (hphase : Sound (submitted calls) phase) :
    NoReplay c calls (node.move i (phase, s)) (log ++ []) where
  pool := hpool
  phases j := by
    by_cases hj : j = i
    · rwa [hj, Interleaved.move_phase_self]
    · rw [Interleaved.move_phase_ne hj]
      exact h.phases j
  known := by simpa using h.known
  spent := by
    have hshared : (node.move i (phase, s)).shared.stateDb = node.shared.stateDb := hstore
    simpa [hshared] using h.spent
  once := by simpa using h.once

theorem NoReplay.lockCounter (h : NoReplay c calls node log) (i : ι)
    {r : (NodePhase × NodeShared) × List Transaction}
    (hr : NodePhase.lockCounter node.shared = some r) :
    NoReplay c calls (node.move i r.1) (log ++ r.2) := by
  rw [NodePhase.lockCounter] at hr
  split_ifs at hr
  cases hr
  exact h.move i rfl h.pool trivial

/-- A commit is where transactions are executed: what is above its account's nonce
has not been executed before, and is not above it afterwards. -/
theorem NoReplay.commit (hrt : c.AccountRoundTrip) (h : NoReplay c calls node log) {i : ι}
    {block : Block} {env : Env} (hphase : node.phase i = .built block env)
    (horder : node.shared.stateDb.InOrder c block.transactions) {phase : NodePhase}
    (hsound : Sound (submitted calls) phase) :
    NoReplay c calls
      (node.move i (phase, { node.shared with stateDb := node.shared.stateDb.committed c env block }))
      (log ++ if (c.serializeBlock block).isSome then block.transactions else []) := by
  have hbuilt := h.phases i
  rw [hphase] at hbuilt
  obtain ⟨hknown, hdistinct⟩ := hbuilt
  have hmono : ∀ a, (node.shared.stateDb.getAccount c a).nonce ≤
      ((node.shared.stateDb.committed c env block).getAccount c a).nonce :=
    StateDB.committed_nonce_le hrt horder
  have hphases : ∀ j, Sound (submitted calls) ((node.move i (phase,
      { node.shared with stateDb := node.shared.stateDb.committed c env block })).phase j) := by
    intro j
    by_cases hj : j = i
    · rwa [hj, Interleaved.move_phase_self]
    · rw [Interleaved.move_phase_ne hj]
      exact h.phases j
  have hold : ∀ tx ∈ log, tx.nonce ≤
      ((node.shared.stateDb.committed c env block).getAccount c tx.sender).nonce :=
    fun tx htx => UInt64.le_trans (h.spent tx htx) (hmono tx.sender)
  cases hs : c.serializeBlock block with
  | none =>
    simp only [Option.isSome_none, Bool.false_eq_true, if_false, List.append_nil]
    exact ⟨h.pool, hphases, h.known, hold, h.once⟩
  | some blockBytes =>
    simp only [Option.isSome_some, if_true]
    refine ⟨h.pool, hphases, fun tx htx => ?_, fun tx htx => ?_, ?_⟩
    · rcases List.mem_append.mp htx with htx | htx
      · exact h.known tx htx
      · exact hknown tx htx
    · rcases List.mem_append.mp htx with htx | htx
      · exact hold tx htx
      · show tx.nonce ≤ ((node.shared.stateDb.committed c env block).getAccount c tx.sender).nonce
        rw [UInt64.le_iff_toNat_le, StateDB.committed_nonce_toNat hrt hs (horder tx htx).2.2]
        exact (horder tx htx).2.1
    · refine List.nodup_append'.mpr ⟨h.once, hdistinct, fun tx hl htx => ?_⟩
      exact absurd (h.spent tx hl) (UInt64.not_le.mpr (horder tx htx).1)

theorem NoReplay.step (hrt : c.AccountRoundTrip)
    (hcol : Set.InjOn (Transaction.txHash c) (submitted calls)) (h : NoReplay c calls node log)
    {i : ι} (horder : node.commitsInOrder c i) (hs : node.step c i = some (node', out)) :
    NoReplay c calls node' (log ++ out) := by
  obtain ⟨r, hr, he⟩ := Option.map_eq_some_iff.mp hs
  obtain ⟨rfl, rfl⟩ := Prod.mk.inj he
  have hsound := h.phases i
  rw [commitsInOrder] at horder
  cases hphase : node.phase i with
  | adding tx p =>
    rw [hphase] at hr hsound
    rw [NodePhase.advance] at hr
    split_ifs at hr
    · exact h.lockCounter i hr
    · obtain ⟨q, hq, rfl⟩ := Option.map_eq_some_iff.mp hr
      exact h.move i rfl (h.pool.access hsound hq) hsound
  | building header lastCommitQc maxBytes env =>
    rw [hphase] at hr
    cases hr
    exact h.move i rfl h.pool (h.pool.harvest hcol maxBytes)
  | built block env =>
    rw [hphase] at hr horder
    cases hr
    refine h.commit hrt hphase horder ?_
    split <;> trivial
  | removing txs =>
    rw [hphase] at hr
    cases txs with
    | nil => cases hr
    | cons tx txs =>
      rw [NodePhase.advance] at hr
      split at hr
      · cases hr
        exact h.move i rfl h.pool trivial
      · cases hr
        exact h.move i rfl (h.pool.eraseHash _) trivial
  | removingKey txHash evicted =>
    rw [hphase] at hr
    cases hr
    exact h.move i rfl (h.pool.eraseKey _) trivial
  | removingNonce evicted =>
    rw [hphase, NodePhase.advance] at hr
    split_ifs at hr
    cases hr
    exact h.move i rfl (h.pool.congr rfl rfl) trivial
  | removingBytes =>
    rw [hphase] at hr
    exact h.lockCounter i hr
  | waiting =>
    rw [hphase] at hr
    cases hr
  | panicked =>
    rw [hphase] at hr
    cases hr

end Runs

def transfer : Transaction := Reference.transfer 1

def header (height : UInt64) : BlockHeader := Reference.header height Hash.zero 0 [transfer]

def crates : Crates := Reference.crates
  [Reference.genesisBlock [1], ⟨header 1, [transfer], none⟩, ⟨header 2, [transfer], none⟩]

def stateDb : StateDB := Reference.stateDb [1]
  [Reference.genesisBlock [1], ⟨header 1, [transfer], none⟩, ⟨header 2, [transfer], none⟩]

end Node

end AuraChain
