import AuraChain.AddPhases
import AuraChain.Interleaving

/-! Clients that submit transactions for one place at the same time. Two calls
that find the place free both fill it, unless each waits with its nonce check
until the other has written its indexes. -/

namespace AuraChain

namespace Mempool

structure Vacant (c : Crates) (tx : Transaction) (pool : Mempool) : Prop where
  hash : pool.byHash[tx.txHash c]? = none
  slot : pool.slot tx.sender tx.nonce = none

/-- Whatever stands under the hash of the transaction stands in its place. -/
def Contested (c : Crates) (tx : Transaction) (pool : Mempool) : Prop :=
  ∀ t : Transaction, pool.byHash[tx.txHash c]? = some t → t.sender = tx.sender ∧ t.nonce = tx.nonce

variable {c : Crates} {pool pool' : Mempool} {tx : Transaction}

theorem Contested.vacant (h : pool.Contested c tx) (hc : pool.Consistent c)
    (hs : pool.slot tx.sender tx.nonce = none) : pool.Vacant c tx where
  hash := by
    cases hl : pool.byHash[tx.txHash c]? with
    | none => rfl
    | some t =>
      obtain ⟨hsender, hnonce⟩ := h t hl
      have hh := hc.hash _ t hl
      have ht := (hc.slot tx.sender tx.nonce t).mpr ⟨hsender, hnonce, hh.symm ▸ hl⟩
      rw [hs] at ht
      cases ht
  slot := hs

theorem Vacant.shrink (h : pool.Vacant c tx) (hs : pool.Shrinks pool') (hc : pool.Consistent c)
    (hc' : pool'.Consistent c) : pool'.Vacant c tx where
  hash := hs.absent h.hash
  slot := hs.slot_none hc hc' h.slot

end Mempool

namespace AddPhase

/-- Between a passed nonce check and the last index that the call writes. -/
def inside : AddPhase → Bool
  | duplicateCheck | statefulCheck | nonceCheck | insertBytes | returned _ => false
  | dropHash _ | dropKey _ | dropBytes _ | dropNonce => true
  | countCheck | bytesCheck | lowestKey => true
  | evictHash _ | evictKey _ _ | evictNonce _ | evictBytes _ => true
  | insertHash | insertNonce | insertKey => true

/-- The pool as the call leaves it when the removal or the insertion that it is
in the middle of is over. -/
def settled (c : Crates) (tx : Transaction) : AddPhase → Mempool → Mempool
  | dropHash existing, pool => (((pool.eraseHash (existing.txHash c)).eraseKey
      (existing.priorityKey c)).subBytes existing).eraseNonce tx
  | dropKey existing, pool =>
    ((pool.eraseKey (existing.priorityKey c)).subBytes existing).eraseNonce tx
  | dropBytes existing, pool => (pool.subBytes existing).eraseNonce tx
  | dropNonce, pool => pool.eraseNonce tx
  | evictKey txHash evicted, pool => ((pool.eraseKey
      ⟨evicted.feePerByte, evicted.nonce, txHash⟩).eraseNonce evicted).subBytes evicted
  | evictNonce evicted, pool => (pool.eraseNonce evicted).subBytes evicted
  | evictBytes evicted, pool => pool.subBytes evicted
  | insertHash, pool => pool.insertTransaction c tx
  | insertNonce, pool => ((pool.addNonce tx).addKey c tx).addBytes tx
  | insertKey, pool => (pool.addKey c tx).addBytes tx
  | _, pool => pool

def inserting : AddPhase → Bool
  | insertHash | insertNonce | insertKey => true
  | _ => false

def result : AddPhase → Option (Except MempoolError Hash)
  | returned result => some result
  | _ => none

def passesNonceCheck (tx : Transaction) (pool : Mempool) : AddPhase → Bool
  | nonceCheck =>
    match pool.slot tx.sender tx.nonce with
    | none => true
    | some existing => !decide (tx.fee < Mempool.minRequiredFee pool.config existing)
  | _ => false

variable {c : Crates} {tx : Transaction} {stateDb : StateDB} {s : SharedPool} {p : AddPhase}
  {r : AddPhase × SharedPool}

/-- What a call relies on, whatever the calls outside do meanwhile. -/
structure Ready (c : Crates) (tx : Transaction) (p : AddPhase) (pool : Mempool) : Prop where
  contested : p = statefulCheck ∨ p = nonceCheck → pool.Contested c tx
  consistent : p.inside = true → (settled c tx p pool).Consistent c
  vacant : p.inside = true → p.inserting = false → (settled c tx p pool).Vacant c tx

variable {q : AddPhase} {pool pool' : Mempool}

theorem Ready.returned (result : Except MempoolError Hash) : Ready c tx (.returned result) pool where
  contested := by simp
  consistent := by simp [inside]
  vacant := by simp [inside]

theorem Ready.write (h : Ready c tx p pool) (hp : p.inside = true) (hq : q.inside = true)
    (hinserting : q.inserting = p.inserting)
    (hs : settled c tx q pool' = settled c tx p pool) : Ready c tx q pool' where
  contested := by
    rintro (rfl | rfl) <;> cases hq
  consistent _ := hs ▸ h.consistent hp
  vacant _ hi := hs ▸ h.vacant hp (hinserting ▸ hi)

theorem Ready.of_vacant (hc : (settled c tx q pool).Consistent c)
    (hv : (settled c tx q pool).Vacant c tx) (hq : q.inside = true) : Ready c tx q pool where
  contested := by
    rintro (rfl | rfl) <;> cases hq
  consistent _ := hc
  vacant _ _ := hv

theorem Ready.dropHash {existing : Transaction} (hc : pool.Consistent c)
    (hslot : pool.slot tx.sender tx.nonce = some existing) (hcontested : pool.Contested c tx) :
    Ready c tx (.dropHash existing) pool := by
  obtain ⟨hsender, hnonce, hm⟩ := (hc.slot _ _ existing).mp hslot
  have hgone : ∀ a nonce, (settled c tx (.dropHash existing) pool).slot a nonce =
      if existing.sender = a ∧ existing.nonce = nonce then none else pool.slot a nonce := by
    intro a nonce
    rw [settled, Mempool.slot_eraseNonce, hsender, hnonce]
    rfl
  have hc' : (settled c tx (.dropHash existing) pool).Consistent c := hc.erase hm rfl rfl hgone
  have hshrinks : pool.Shrinks (settled c tx (.dropHash existing) pool) := Mempool.Shrinks.erase rfl
  have hcontested' : (settled c tx (.dropHash existing) pool).Contested c tx :=
    fun t ht => hcontested t (hshrinks _ t ht)
  refine .of_vacant hc' (hcontested'.vacant hc' ?_) rfl
  rw [hgone, if_pos ⟨hsender, hnonce⟩]

theorem Ready.roomCheck (h : Ready c tx p pool)
    (hp : p = .countCheck ∨ p = .bytesCheck ∨ p = .lowestKey)
    (hq : q = .bytesCheck ∨ q = .lowestKey ∨ q = .insertHash ∨ (∃ txHash, q = .evictHash txHash) ∨
      ∃ e, q = .returned (.error e)) : Ready c tx q pool := by
  have hc : pool.Consistent c := by
    rcases hp with rfl | rfl | rfl <;> exact h.consistent rfl
  have hv : pool.Vacant c tx := by
    rcases hp with rfl | rfl | rfl <;> exact h.vacant rfl rfl
  rcases hq with rfl | rfl | rfl | ⟨txHash, rfl⟩ | ⟨e, rfl⟩
  · exact .of_vacant hc hv rfl
  · exact .of_vacant hc hv rfl
  · exact {
      contested := by simp
      consistent := fun _ => hc.insertTransaction hv.hash hv.slot
      vacant := by simp [inserting] }
  · exact .of_vacant hc hv rfl
  · exact .returned _

theorem Ready.evictHash {txHash : Hash} {evicted : Transaction}
    (h : Ready c tx (.evictHash txHash) pool) (hl : pool.byHash[txHash]? = some evicted) :
    Ready c tx (.evictKey txHash evicted) (pool.eraseHash txHash) := by
  have hsettled : settled c tx (.evictKey txHash evicted) (pool.eraseHash txHash) =
      (pool.evictTransaction txHash).1 := by
    rw [Mempool.evictTransaction, hl]
    rfl
  have hc := h.consistent rfl
  have hc' := hc.evictTransaction txHash
  have hshrinks : pool.Shrinks (pool.evictTransaction txHash).1 :=
    Mempool.Shrinks.erase (Mempool.evictTransaction_byHash pool txHash)
  refine .of_vacant ?_ ?_ rfl
  · exact hsettled ▸ hc'
  · exact hsettled ▸ (h.vacant rfl rfl).shrink hshrinks hc hc'

/-- A call keeps what it relies on, if it passes the nonce check in a consistent pool. -/
theorem Ready.advance (h : Ready c tx p s.pool) (ha : advance c tx stateDb s p = some r)
    (henter : p.inside = false → r.1.inside = true → s.pool.Consistent c) :
    Ready c tx r.1 r.2.pool := by
  cases p with
  | duplicateCheck =>
    obtain ⟨hs, ⟨hnone, hq⟩ | ⟨e, hq⟩⟩ := duplicateCheck_cases ha
    · rw [hs, hq]
      exact ⟨fun _ t ht => by simp [hnone] at ht, by simp [inside], by simp [inside]⟩
    · exact hq ▸ .returned _
  | statefulCheck =>
    obtain ⟨hs, hq | ⟨e, hq⟩⟩ := statefulCheck_cases ha
    · rw [hs, hq]
      exact ⟨fun _ => h.contested (.inl rfl), by simp [inside], by simp [inside]⟩
    · exact hq ▸ .returned _
  | nonceCheck =>
    have hcontested : (s.pool.withSender tx.sender).Contested c tx := h.contested (.inr rfl)
    obtain ⟨hs, ⟨hslot, hq⟩ | ⟨existing, hslot, ⟨-, hq⟩ | ⟨e, hq⟩⟩⟩ := nonceCheck_cases ha
    · rw [hs, hq]
      have hc := (henter rfl (hq ▸ rfl)).withSender tx.sender
      exact .of_vacant hc (hcontested.vacant hc ((Mempool.slot_withSender ..).trans hslot)) rfl
    · rw [hs, hq]
      have hc := (henter rfl (hq ▸ rfl)).withSender tx.sender
      exact .dropHash hc ((Mempool.slot_withSender ..).trans hslot) hcontested
    · exact hq ▸ .returned _
  | countCheck | bytesCheck | lowestKey =>
    obtain ⟨hs, hq⟩ := roomCheck_cases (by simp) ha
    rw [hs]
    exact h.roomCheck (by simp) hq
  | evictHash txHash =>
    rcases evictHash_cases ha with ⟨hs, hq⟩ | ⟨evicted, hl, hs, hq⟩
    · rw [hs, hq]
      exact h.write rfl rfl rfl rfl
    · rw [hs, hq]
      exact h.evictHash hl
  | evictNonce evicted =>
    obtain ⟨hs, hq⟩ := evictNonce_cases ha
    rw [hs, hq]
    exact h.write rfl rfl rfl rfl
  | insertNonce =>
    obtain ⟨hs, hq⟩ := insertNonce_cases ha
    rw [hs, hq]
    exact h.write rfl rfl rfl rfl
  | dropHash _ | dropKey _ | dropBytes _ | dropNonce | evictKey _ _ | evictBytes _ | insertHash =>
    cases ha
    exact h.write rfl rfl rfl rfl
  | insertKey =>
    cases ha
    exact ⟨by simp, by simp [inside], by simp [inside]⟩
  | insertBytes =>
    cases ha
    exact .returned _
  | returned _ => cases ha

theorem Ready.leave (h : Ready c tx p s.pool) (ha : AddPhase.advance c tx stateDb s p = some r)
    (hp : p.inside = true) (hq : r.1.inside = false) : r.2.pool.Consistent c := by
  cases p with
  | duplicateCheck | statefulCheck | nonceCheck | insertBytes | returned _ => cases hp
  | countCheck | bytesCheck | lowestKey =>
    rw [(roomCheck_cases (by simp) ha).1]
    exact h.consistent rfl
  | evictHash txHash =>
    rcases evictHash_cases ha with ⟨-, hq'⟩ | ⟨_, -, -, hq'⟩ <;> (rw [hq'] at hq; cases hq)
  | evictNonce evicted =>
    rw [(evictNonce_cases ha).2] at hq
    cases hq
  | insertNonce =>
    rw [(insertNonce_cases ha).2] at hq
    cases hq
  | dropHash _ | dropKey _ | dropBytes _ | dropNonce | evictKey _ _ | evictBytes _ | insertHash =>
    cases ha
    cases hq
  | insertKey =>
    cases ha
    exact (h.consistent rfl).congr rfl rfl fun _ _ => rfl

theorem pass_pool (ha : advance c tx stateDb s p = some r) (hp : p.inside = false)
    (hq : r.1.inside = false) : ∃ n, r.2.pool = { s.pool with totalBytes := n } := by
  cases p with
  | duplicateCheck => exact ⟨_, congrArg SharedPool.pool (duplicateCheck_cases ha).1⟩
  | statefulCheck => exact ⟨_, congrArg SharedPool.pool (statefulCheck_cases ha).1⟩
  | nonceCheck =>
    obtain ⟨hs, ⟨-, hq'⟩ | ⟨existing, hslot, -⟩⟩ := nonceCheck_cases ha
    · rw [hq'] at hq
      cases hq
    · exact ⟨_, hs.trans (Mempool.withSender_of_slot hslot)⟩
  | insertBytes =>
    cases ha
    exact ⟨_, rfl⟩
  | returned _ => cases ha
  | dropHash _ | dropKey _ | dropBytes _ | dropNonce | countCheck | bytesCheck | lowestKey
  | evictHash _ | evictKey _ _ | evictNonce _ | evictBytes _ | insertHash | insertNonce
  | insertKey => cases hp

theorem enters (ha : advance c tx stateDb s p = some r) (hp : p.inside = false)
    (hq : r.1.inside = true) : p.passesNonceCheck tx s.pool = true := by
  cases p with
  | duplicateCheck =>
    obtain ⟨-, ⟨-, hq'⟩ | ⟨e, hq'⟩⟩ := duplicateCheck_cases ha <;> (rw [hq'] at hq; cases hq)
  | statefulCheck =>
    obtain ⟨-, hq' | ⟨e, hq'⟩⟩ := statefulCheck_cases ha <;> (rw [hq'] at hq; cases hq)
  | nonceCheck =>
    obtain ⟨-, ⟨hslot, -⟩ | ⟨existing, hslot, ⟨hfee, -⟩ | ⟨e, hq'⟩⟩⟩ := nonceCheck_cases ha
    · simp [passesNonceCheck, hslot]
    · simp [passesNonceCheck, hslot, hfee]
    · rw [hq'] at hq
      cases hq
  | insertBytes =>
    cases ha
    cases hq
  | returned _ => cases ha
  | dropHash _ | dropKey _ | dropBytes _ | dropNonce | countCheck | bytesCheck | lowestKey
  | evictHash _ | evictKey _ _ | evictNonce _ | evictBytes _ | insertHash | insertNonce
  | insertKey => cases hp

theorem Ready.totalBytes (h : Ready c tx p pool) (n : Nat) :
    Ready c tx p { pool with totalBytes := n } := by
  have hsettled : ∃ m, settled c tx p { pool with totalBytes := n } =
      { settled c tx p pool with totalBytes := m } := by
    cases p <;> exact ⟨_, rfl⟩
  obtain ⟨m, hm⟩ := hsettled
  refine ⟨h.contested, fun hp => ?_, fun hp hi => ?_⟩
  · rw [hm]
    exact (h.consistent hp).congr rfl rfl fun _ _ => rfl
  · rw [hm]
    exact ⟨(h.vacant hp hi).hash, (h.vacant hp hi).slot⟩

end AddPhase

namespace ConcurrentAdd

variable {ι : Type} {c : Crates} {tx : ι → Transaction} {stateDb : ι → StateDB}

def client (c : Crates) (tx : ι → Transaction) (stateDb : ι → StateDB) (i : ι) (p : AddPhase)
    (s : SharedPool) : Option (AddPhase × SharedPool) :=
  p.advance c (tx i) (stateDb i) s

def start (pool : Mempool) : Interleaved ι AddPhase SharedPool :=
  ⟨⟨pool, false⟩, fun _ => .duplicateCheck⟩

/-- One call at a time from its nonce check to the last index it writes. -/
def region (c : Crates) {tx : ι → Transaction} (stateDb : ι → StateDB)
    (hplace : ∀ i j, (tx i).sender = (tx j).sender ∧ (tx i).nonce = (tx j).nonce) :
    CriticalRegion (client c tx stateDb) where
  inside := AddPhase.inside
  Quiet s := s.pool.Consistent c
  Ready i p s := p.Ready c (tx i) s.pool
  own ha h henter := h.advance ha henter
  leave ha h hp hq := h.leave ha hp hq
  pass ha hp hq hc := by
    obtain ⟨n, hn⟩ := AddPhase.pass_pool ha hp hq
    rw [hn]
    exact hc.congr rfl rfl fun _ _ => rfl
  other {i j p q r s t} ha h hin := by
    cases hr : r.inside with
    | true =>
      obtain ⟨n, hn⟩ := AddPhase.pass_pool ha (hin hr).1 (hin hr).2
      rw [hn]
      exact h.totalBytes n
    | false =>
      refine ⟨fun hcheck u hu => ?_, by simp [hr], by simp [hr]⟩
      rcases AddPhase.advance_byHash ha hu with hl | rfl
      · exact h.contested hcheck u hl
      · exact hplace i j

/-- A call passes its nonce check only while no other is between its own passed
nonce check and the last index it writes. -/
def Waits (tx : ι → Transaction) (s : Interleaved ι AddPhase SharedPool) (i : ι) : Prop :=
  (s.phase i).passesNonceCheck (tx i) s.shared.pool = true → ∀ j, (s.phase j).inside = false

instance [Fintype ι] (s : Interleaved ι AddPhase SharedPool) (i : ι) : Decidable (Waits tx s i) :=
  inferInstanceAs (Decidable (_ → ∀ j, (s.phase j).inside = false))

structure OnePooled (c : Crates) (tx : ι → Transaction) (pool : Mempool) : Prop where
  byHash : ∀ i j, pool.byHash[(tx i).txHash c]? = some (tx i) →
    pool.byHash[(tx j).txHash c]? = some (tx j) → tx i = tx j
  priorityIndex : ∀ k ∈ pool.priorityIndex, ∀ l ∈ pool.priorityIndex, ∀ i j,
    pool.byHash[k.txHash]? = some (tx i) → pool.byHash[l.txHash]? = some (tx j) → k = l
  harvest : ∀ maxBytes i j, tx i ∈ pool.harvest maxBytes → tx j ∈ pool.harvest maxBytes → tx i = tx j

variable {s : Interleaved ι AddPhase SharedPool} {pool : Mempool}

theorem OnePooled.of_consistent (hc : pool.Consistent c)
    (hplace : ∀ i j, (tx i).sender = (tx j).sender ∧ (tx i).nonce = (tx j).nonce) :
    OnePooled c tx pool := by
  have hone : ∀ i j, pool.byHash[(tx i).txHash c]? = some (tx i) →
      pool.byHash[(tx j).txHash c]? = some (tx j) → tx i = tx j := by
    intro i j hi hj
    have hslot := (hc.slot _ _ (tx i)).mpr ⟨rfl, rfl, hi⟩
    rw [(hplace i j).1, (hplace i j).2, (hc.slot _ _ (tx j)).mpr ⟨rfl, rfl, hj⟩] at hslot
    exact (Option.some.inj hslot).symm
  have hkey : ∀ k ∈ pool.priorityIndex, ∀ i, pool.byHash[k.txHash]? = some (tx i) →
      k = (tx i).priorityKey c ∧ pool.byHash[(tx i).txHash c]? = some (tx i) := by
    intro k hk i hi
    obtain ⟨t, ht, rfl⟩ := (hc.index k).mp hk
    rw [hi, Option.some.injEq] at ht
    exact ⟨ht ▸ rfl, hc.hash _ _ hi ▸ hi⟩
  refine ⟨hone, fun k hk l hl i j hi hj => ?_, fun maxBytes i j hi hj => ?_⟩
  · obtain ⟨hki, hi'⟩ := hkey k hk i hi
    obtain ⟨hlj, hj'⟩ := hkey l hl j hj
    rw [hki, hlj, hone i j hi' hj']
  · exact hone i j (Mempool.harvest_mem hc hi) (Mempool.harvest_mem hc hj)

theorem start_invariant (hc : pool.Consistent c)
    (hplace : ∀ i j, (tx i).sender = (tx j).sender ∧ (tx i).nonce = (tx j).nonce) :
    (region c stateDb hplace).Invariant (start pool) where
  alone := by
    intro i j hi
    cases hi
  quiet _ := hc
  ready _ := ⟨by simp [start], by simp [start, AddPhase.inside], by simp [start, AddPhase.inside]⟩

/-- Clients that wait for each other never fill a place twice: when all calls
have returned, the indexes agree and one transaction at most is pooled. -/
theorem waiting_calls_fill_once [DecidableEq ι] {config : MempoolConfig} {log : List ι}
    (hreach : Mempool.Reachable c config pool)
    (hplace : ∀ i j, (tx i).sender = (tx j).sender ∧ (tx i).nonce = (tx j).nonce)
    (hrun : TracedRun (Interleaved.step (client c tx stateDb)) (Waits tx) (start pool, []) (s, log))
    (hreturned : ∀ i, (s.phase i).result.isSome = true) :
    s.shared.pool.Consistent c ∧ OnePooled c tx s.shared.pool := by
  have hinv : (region c stateDb hplace).Invariant s := by
    refine CriticalRegion.Invariant.run hrun ?_ (start_invariant hreach.exact.consistent hplace)
    intro s i hwaits q t ha hp hq
    exact hwaits (AddPhase.enters ha hp hq)
  have hc : s.shared.pool.Consistent c := by
    refine hinv.quiet fun i => ?_
    have hi := hreturned i
    show (s.phase i).inside = false
    cases hphase : s.phase i <;> simp [hphase, AddPhase.result] at hi
    rfl
  exact ⟨hc, .of_consistent hc hplace⟩

open MempoolRun

def transfers : Bool → Transaction
  | false => transfer 2 200 1
  | true => transfer 2 400 1

theorem waiting_calls_fill_once_replaced : ∃ pool : Mempool, pool.byHash.size = 1 ∧
    pool.Consistent crates ∧ OnePooled crates transfers pool := by
  have hcalls : (runAll (Interleaved.step (client crates transfers fun _ => stateDb))
      (Waits transfers) (start (Mempool.new ⟨10, 10000, 10⟩))
      ([false, true, false, true] ++ List.replicate 7 false ++ List.replicate 11 true)).map
      (fun t => (t.1.shared.pool.byHash.size, (t.1.phase false).result.isSome,
        (t.1.phase true).result.isSome)) = some (1, true, true) := by decide +kernel
  obtain ⟨⟨s, log⟩, hrun, hs⟩ := TracedRun.of_map hcalls
  simp only [Prod.mk.injEq] at hs
  obtain ⟨hsize, hfalse, htrue⟩ := hs
  have hreach : Mempool.Reachable crates ⟨10, 10000, 10⟩ (Mempool.new ⟨10, 10000, 10⟩) := ⟨[], .refl⟩
  exact ⟨s.shared.pool, hsize,
    waiting_calls_fill_once hreach (by decide +kernel) hrun (by simp [hfalse, htrue])⟩

/-- Both calls find the place free before either has filled it. -/
theorem both_fill_the_place : ¬ ∀ (c : Crates) (config : MempoolConfig) (pool : Mempool)
    (tx : Bool → Transaction) (stateDb : Bool → StateDB) (s : Interleaved Bool AddPhase SharedPool)
    (log : List Bool), Mempool.Reachable c config pool →
    (∀ i j, (tx i).sender = (tx j).sender ∧ (tx i).nonce = (tx j).nonce) →
    TracedRun (Interleaved.step (client c tx stateDb)) (fun _ _ => True) (start pool, []) (s, log) →
    (∀ i, (s.phase i).result.isSome = true) →
    s.shared.pool.Consistent c ∧ OnePooled c tx s.shared.pool := by
  intro hclaim
  have hcalls : (runAll (Interleaved.step (client crates transfers fun _ => stateDb))
      (fun _ _ => True) (start (Mempool.new ⟨10, 10000, 10⟩))
      ([false, true, false, true, false, true] ++ List.replicate 6 false ++
        List.replicate 6 true)).map
      (fun t => (t.1.shared.pool.harvest 1000, (t.1.phase false).result.isSome,
        (t.1.phase true).result.isSome)) =
      some ([transfers true, transfers false], true, true) := by decide +kernel
  obtain ⟨⟨s, log⟩, hrun, hs⟩ := TracedRun.of_map hcalls
  simp only [Prod.mk.injEq] at hs
  obtain ⟨hharvest, hfalse, htrue⟩ := hs
  obtain ⟨-, hone⟩ := hclaim crates ⟨10, 10000, 10⟩ _ transfers _ s log ⟨[], .refl⟩
    (by decide +kernel) hrun (by simp [hfalse, htrue])
  have hsame := hone.harvest 1000 false true (by simp [hharvest]) (by simp [hharvest])
  exact absurd hsame (by decide +kernel)

end ConcurrentAdd

end AuraChain
