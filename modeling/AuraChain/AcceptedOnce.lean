import AuraChain.MempoolCapacity
import AuraChain.RpcRun

/-! What a server accepts in its whole life. A pool whose calls return never loses
a transaction, so that nothing makes place for a second one of the same nonce. -/

namespace AuraChain

open LockScope

namespace Mempool

variable {c : Crates} {config : MempoolConfig} {pool pool' : Mempool} {tx : Transaction}
  {stateDb : StateDB}

theorem makeRoom_still (h : pool.Exact c config)
    (hstay : pool.isFull tx = true → ∀ t ∈ pool.pooled, tx.feePerByte ≤ t.feePerByte) {fuel : Nat}
    {r : Mempool × Except MempoolError Unit} (hr : makeRoom tx fuel pool = some r) :
    r.1 = pool ∧ (r.2 = .ok () → pool.isFull tx = false) := by
  cases fuel with
  | zero => cases hr
  | succ fuel =>
    rw [makeRoom] at hr
    split_ifs at hr with hfull
    · have hrefused : r = (pool, .error .poolFull) := by
        cases hmin : pool.priorityIndex.min? with
        | none => simpa [hmin] using hr.symm
        | some key =>
          obtain ⟨⟨t, ht, rfl⟩, -⟩ := h.lowest hmin
          have hfee : tx.feePerByte ≤ (t.priorityKey c).feePerByte := hstay hfull t ht
          simpa [hmin, hfee] using hr.symm
      rw [hrefused]
      exact ⟨rfl, fun hok => by cases hok⟩
    · rw [← Option.some.inj hr]
      exact ⟨rfl, fun _ => Bool.eq_false_iff.mpr hfull⟩

/-- A call that removes nothing either keeps all that is pooled as it is or adds
its transaction in a free place, with room for it. -/
theorem addTransaction_settled (h : pool.Exact c config)
    (hstill : ¬ (PoolCall.addTransaction tx stateDb).removes c pool)
    {r : Mempool × Except MempoolError Hash} (hr : pool.addTransaction c tx stateDb = some r) :
    (∃ e, r.2 = .error e) ∧ r.1.pooled = pool.pooled ∨
      PassesChecks c pool tx stateDb ∧ pool.slot tx.sender tx.nonce = none ∧
        HasRoom config pool.pooled tx ∧
        r = ((pool.withSender tx.sender).insertTransaction c tx, .ok (tx.txHash c)) := by
  rcases addTransaction_cases hr with ⟨-, e, rfl⟩ | ⟨hchecks, hadmit⟩
  · exact .inl ⟨⟨e, rfl⟩, rfl⟩
  · rcases replaceByFee_cases h.consistent tx with
      ⟨hslot, he⟩ | ⟨existing, hslot, ⟨-, he⟩ | ⟨hbump, -⟩⟩
    · have hw := h.withSender tx.sender
      have hstay : (pool.withSender tx.sender).isFull tx = true →
          ∀ t ∈ (pool.withSender tx.sender).pooled, tx.feePerByte ≤ t.feePerByte := by
        intro hfull t ht
        by_contra hcheap
        exact hstill ⟨hchecks, .inr ⟨hslot, hfull, t, ht, UInt64.not_le.mp hcheap⟩⟩
      rcases admitTransaction_cases hadmit with
        ⟨e, herr, rfl⟩ | ⟨-, room, outcome, hmade, ⟨e, -, rfl⟩ | ⟨hok, rfl⟩⟩
      · exact .inl ⟨⟨e, rfl⟩, by rw [he]; rfl⟩
      · rw [he] at hmade
        exact .inl ⟨⟨e, rfl⟩, by rw [(makeRoom_still hw hstay hmade).1]; rfl⟩
      · rw [he] at hmade
        obtain ⟨rfl, hroom⟩ := makeRoom_still hw hstay hmade
        have hnotFull : ¬ (pool.withSender tx.sender).isFull tx = true := by simp [hroom hok]
        exact .inr ⟨hchecks, hslot, not_not.mp fun hn => hnotFull ((hw.isFull_iff tx).mpr hn), rfl⟩
    · rcases admitTransaction_cases hadmit with ⟨e, -, rfl⟩ | ⟨hok, -⟩
      · exact .inl ⟨⟨e, rfl⟩, by rw [he]; rfl⟩
      · rw [he] at hok
        cases hok
    · exact absurd ⟨hchecks, .inl ⟨existing, hslot, hbump⟩⟩ hstill

theorem insertTransaction_pooled (hfresh : tx.txHash c ∉ pool.byHash) {t : Transaction} :
    t ∈ ((pool.withSender tx.sender).insertTransaction c tx).pooled ↔ t = tx ∨ t ∈ pool.pooled := by
  have hnone : (pool.withSender tx.sender).byHash[tx.txHash c]? = none :=
    Std.ExtTreeMap.getElem?_eq_none hfresh
  have hperm : ((pool.withSender tx.sender).insertTransaction c tx).pooled.Perm (tx :: pool.pooled) :=
    OrdMap.contents_insert hnone tx
  rw [hperm.mem_iff, List.mem_cons]

theorem removeCommitted_still {txs : List Transaction} (h : ∀ tx ∈ txs, tx.txHash c ∉ pool.byHash) :
    pool.removeCommitted c txs = pool := by
  induction txs with
  | nil => rfl
  | cons tx txs ih =>
    have hfirst : (pool.evictTransaction (tx.txHash c)).1 = pool :=
      evictTransaction_absent (h tx List.mem_cons_self)
    show (pool.evictTransaction (tx.txHash c)).1.removeCommitted c txs = pool
    rw [hfirst]
    exact ih fun t ht => h t (List.mem_cons_of_mem _ ht)

/-- What returns keeps all that is pooled. -/
theorem Exact.keeps (h : pool.Exact c config) {call : PoolCall}
    (hfree : (call.locks c pool).run [] ≠ .blocked) {out : List (Except MempoolError Hash)}
    (hs : pool.step c call = some (pool', out)) : ∀ t ∈ pool.pooled, t ∈ pool'.pooled := by
  intro t ht
  cases call with
  | addTransaction tx stateDb =>
    obtain ⟨r, hr, heq⟩ := Option.map_eq_some_iff.mp hs
    cases heq
    have hstill := mt (addTransactionLocks_blocked_iff h tx stateDb).mpr hfree
    rcases addTransaction_settled h hstill hr with ⟨-, hsame⟩ | ⟨hchecks, -, -, rfl⟩
    · rwa [hsame]
    · exact (insertTransaction_pooled hchecks.fresh).mpr (.inr ht)
  | harvest maxBytes =>
    cases hs
    exact ht
  | removeCommitted txs =>
    cases hs
    have habsent := mt (removeCommittedLocks_blocked_iff pool txs).mpr hfree
    rw [removeCommitted_still fun tx htx hpooled => habsent ⟨tx, htx, hpooled⟩]
    exact ht
  | evictTransaction txHash =>
    cases hs
    rw [evictTransaction_absent fun hpooled => hfree (evictTransactionLocks_blocked hpooled)]
    exact ht

/-- What is accepted is what needs nothing removed for it. -/
theorem Exact.accepts_iff (h : pool.Exact c config) :
    (¬ (PoolCall.addTransaction tx stateDb).removes c pool ∧
      ∃ pool', pool.addTransaction c tx stateDb = some (pool', .ok (tx.txHash c))) ↔
      PassesChecks c pool tx stateDb ∧ pool.slot tx.sender tx.nonce = none ∧
        HasRoom config pool.pooled tx := by
  constructor
  · rintro ⟨hstill, pool', hadd⟩
    rcases addTransaction_settled h hstill hadd with ⟨⟨e, he⟩, -⟩ | ⟨hchecks, hslot, hroom, -⟩
    · cases he
    · exact ⟨hchecks, hslot, hroom⟩
  · rintro ⟨hchecks, hslot, hroom⟩
    constructor
    · rintro ⟨-, ⟨existing, hexisting, -⟩ | ⟨-, hfull, -⟩⟩
      · rw [hslot] at hexisting
        cases hexisting
      · exact (h.isFull_iff tx).mp hfull hroom
    · obtain ⟨⟨pool', outcome⟩, hadd, -⟩ := addTransaction_spec h.consistent tx stateDb
      have hbump : ∀ existing, pool.slot tx.sender tx.nonce = some existing →
          ¬ tx.fee < minRequiredFee config existing := by simp [hslot]
      rcases addTransaction_outcome h hchecks hbump hadd with ⟨-, rfl⟩ | ⟨hnone, -⟩
      · exact ⟨pool', hadd⟩
      · exact absurd (hroom.sublist (keepers_sublist pool tx)) hnone

/-- Transactions of different places that are all pooled fit in the pool. -/
theorem Reachable.fits (h : Reachable c config pool) {txs : List Transaction}
    (hnodup : txs.Nodup) (hpooled : ∀ tx ∈ txs, tx ∈ pool.pooled) :
    txs.length ≤ config.maxTransactions ∧ bytes txs ≤ config.maxBytes := by
  obtain ⟨rest, hperm, hsublist⟩ := hnodup.subperm hpooled
  have hlen : pool.pooled.length = pool.byHash.size := OrdMap.length_contents _
  have hcount := h.within.transactions
  have hsize := h.within.bytes
  rw [h.exact.bytes] at hsize
  constructor
  · rw [← hperm.length_eq]
    have hle := hsublist.length_le
    omega
  · rw [← bytes_perm hperm]
    exact (bytes_sublist hsublist).trans hsize

end Mempool

/-- The transaction of a request that was announced. -/
def RpcEvent.accepted (c : RpcCrates) : RpcEvent → Option Transaction
  | answered req _ (some _) => (req.transaction c).toOption
  | _ => none

def Transaction.SamePlace (tx tx' : Transaction) : Prop :=
  tx.sender = tx'.sender ∧ tx.nonce = tx'.nonce

instance (tx tx' : Transaction) : Decidable (tx.SamePlace tx') :=
  inferInstanceAs (Decidable (_ ∧ _))

namespace RpcService

def accepted (c : RpcCrates) (log : List RpcEvent) : List Transaction :=
  log.filterMap (RpcEvent.accepted c)

/-- All that was accepted is still pooled while nothing has hung, and is never
accepted a second time. -/
structure Keeps (c : RpcCrates) (config : MempoolConfig) (threads : Nat) (service : RpcService)
    (log : List RpcEvent) : Prop where
  lives : service.Lives c config threads log
  pooled : service.kept = [] → ∀ tx ∈ accepted c log, tx ∈ service.state.mempool.pooled
  distinct : (accepted c log).Pairwise fun tx tx' => ¬ tx.SamePlace tx'
  fits : (accepted c log).length ≤ config.maxTransactions ∧
    Mempool.bytes (accepted c log) ≤ config.maxBytes

variable {c : RpcCrates} {config : MempoolConfig} {threads : Nat} {service service' : RpcService}
  {log out : List RpcEvent}

theorem send_still {state : RpcState} (h : state.mempool.Exact c.crates config)
    {req : JsonRpcRequest} (hreq : RpcMethod.ofName req.method = some .sendTransaction)
    (hstuck : (state.handleRpcLocks c req).stuck [] = none) {tx : Transaction}
    (htx : req.transaction c = .ok tx) :
    ¬ (PoolCall.addTransaction tx state.stateDb).removes c.crates state.mempool := by
  rw [Script.stuck_none_iff, RpcState.handleRpcLocks, hreq] at hstuck
  dsimp only at hstuck
  rw [htx] at hstuck
  exact mt (Mempool.addTransactionLocks_blocked_iff h tx state.stateDb).mpr hstuck

/-- A step accepts one transaction, for a place that is free, or none; and it takes
none from the pool, unless it hangs. -/
def Settles (c : RpcCrates) (service service' : RpcService) (out : List RpcEvent) : Prop :=
  accepted c out = [] ∧ (service'.kept = [] → service.kept = [] ∧
      ∀ t ∈ service.state.mempool.pooled, t ∈ service'.state.mempool.pooled) ∨
    service.kept = [] ∧ service'.kept = [] ∧ ∃ tx, accepted c out = [tx] ∧
      service.state.mempool.slot tx.sender tx.nonce = none ∧
      ∀ t, t ∈ service'.state.mempool.pooled ↔ t = tx ∨ t ∈ service.state.mempool.pooled

theorem Settles.of_hang {left : Mempool} {kept : List (LockId × Mode)} {workers : Nat}
    (hne : kept ≠ []) :
    service.Settles c ⟨{ service.state with mempool := left }, kept, workers⟩ [.hung] :=
  .inl ⟨rfl, fun hnil => absurd hnil hne⟩

theorem Settles.of_same {peers : PeerManager} {stateDb : StateDB} {workers : Nat}
    {out : List RpcEvent} (hout : accepted c out = []) :
    service.Settles c ⟨{ service.state with stateDb, peers }, service.kept, workers⟩ out :=
  .inl ⟨hout, fun hnil => ⟨hnil, fun _ ht => ht⟩⟩

/-- An announcement is made by a server that has not hung. -/
theorem Lives.free_of_announces (h : service'.Lives c config threads (log ++ out))
    (hjammed : service.kept ≠ [] → .hung ∈ log) {e : RpcEvent} (he : e ∈ out)
    (hannounces : e.announces = true) : service.kept = [] := by
  by_contra hne
  have hsilent := (List.pairwise_append.mp h.silent).2.2 _ (hjammed hne) _ he rfl
  rw [hannounces] at hsilent
  cases hsilent

theorem send_settles (hbech32 : c.bech32.WritesAddresses) (h : service.Lives c config threads log)
    (hfree : service.workers ≠ 0) {req : JsonRpcRequest}
    (hreq : RpcMethod.ofName req.method = some .sendTransaction) {left : Mempool}
    (hs : service.request c req left = some (service', out)) : service.Settles c service' out := by
  have hlives := h.send hbech32 hfree hreq hs
  have hhandle : service.state.handleRpc c req = service.state.sendTransaction c req := by
    rw [RpcState.handleRpc, hreq]
  rw [request] at hs
  cases hstuck : (service.state.handleRpcLocks c req).stuck service.kept with
  | some kept =>
    rw [hstuck] at hs
    cases hs
    exact .of_hang (Script.stuck_keeps hstuck).1
  | none =>
    rw [hstuck, hhandle] at hs
    cases hr : service.state.sendTransaction c req with
    | none =>
      rw [hr] at hs
      cases hs
      refine .of_hang fun hnil => ?_
      obtain ⟨reply, hreply⟩ := sendTransaction_some hbech32 (h.free hnil).2 req
      rw [hr] at hreply
      cases hreply
    | some reply =>
      rw [hr] at hs
      cases hs
      obtain ⟨-, ⟨-, hbroadcast, hpool⟩ | ⟨tx, txJson, htx, hadd, -, hbroadcast, -⟩⟩ :=
        RpcState.sendTransaction_cases hr
      · refine .inl ⟨by rw [hbroadcast]; rfl, fun hnil => ⟨hnil, fun t ht => ?_⟩⟩
        change service.kept = [] at hnil
        rw [hnil] at hstuck
        show t ∈ reply.mempool.pooled
        rcases hpool with hsame | ⟨tx, e, htx, hadd⟩
        · rwa [hsame]
        · have he := (h.free hnil).2.exact
          rcases Mempool.addTransaction_settled he (send_still he hreq hstuck htx) hadd with
            ⟨-, hsame⟩ | ⟨-, -, -, hok⟩
          · rwa [hsame]
          · cases congrArg Prod.snd hok
      · have hnil : service.kept = [] :=
          hlives.free_of_announces h.jammed List.mem_cons_self (by rw [hbroadcast]; rfl)
        have haccepted : accepted c [.answered req reply.response reply.broadcast] = [tx] := by
          simp [accepted, RpcEvent.accepted, hbroadcast, htx, Except.toOption]
        rw [hnil] at hstuck
        have he := (h.free hnil).2.exact
        rcases Mempool.addTransaction_settled he (send_still he hreq hstuck htx) hadd with
          ⟨⟨e, hbad⟩, -⟩ | ⟨hchecks, hslot, -, hok⟩
        · cases hbad
        · refine .inr ⟨hnil, hnil, tx, haccepted, hslot, fun t => ?_⟩
          have hpool : reply.mempool =
              (service.state.mempool.withSender tx.sender).insertTransaction c.crates tx :=
            congrArg Prod.fst hok
          show t ∈ reply.mempool.pooled ↔ _
          rw [hpool]
          exact Mempool.insertTransaction_pooled hchecks.fresh

theorem pool_settles (h : service.Lives c config threads log) {call : PoolCall} {left : Mempool}
    (hs : service.callPool c call left = some (service', out)) : service.Settles c service' out := by
  rw [callPool] at hs
  cases hstuck : (call.locks c.crates service.state.mempool).stuck service.kept with
  | some kept =>
    rw [hstuck] at hs
    cases hs
    exact .of_hang (Script.stuck_keeps hstuck).1
  | none =>
    rw [hstuck] at hs
    cases hp : service.state.mempool.step c.crates call with
    | none =>
      rw [hp] at hs
      cases hs
      refine .of_hang fun hnil => ?_
      have hreturns := (h.free hnil).2.exact.returns call
      rw [hp] at hreturns
      cases hreturns
    | some r =>
      obtain ⟨mempool, poolOut⟩ := r
      rw [hp] at hs
      cases hs
      refine .inl ⟨rfl, fun hnil => ⟨hnil, ?_⟩⟩
      change service.kept = [] at hnil
      rw [hnil] at hstuck
      exact (h.free hnil).2.exact.keeps (Script.stuck_none_iff.mp hstuck) hp

theorem step_settles (hbech32 : c.bech32.WritesAddresses) (h : service.Lives c config threads log)
    {call : RpcCall} (hs : service.step c call = some (service', out)) :
    service.Settles c service' out := by
  rcases step_cases hs with ⟨-, rfl, rfl⟩ | ⟨hfree, ⟨req, left, -, hrequest⟩ |
    ⟨call, left, -, hcall⟩ | ⟨-, rfl, rfl⟩⟩ | ⟨stateDb, peers, rfl, rfl⟩
  · exact .of_same rfl
  · by_cases hreq : RpcMethod.ofName req.method = some .sendTransaction
    · exact send_settles hbech32 h hfree hreq hrequest
    · obtain ⟨response, hr, -⟩ := request_reads hbech32 h hreq left
      rw [hr] at hrequest
      cases hrequest
      exact .of_same rfl
  · exact pool_settles h hcall
  · exact .of_same rfl
  · exact .of_same rfl

theorem Keeps.taken (h : service.Keeps c config threads log) (hnil : service.kept = []) {tx : Transaction}
    (htx : tx ∈ accepted c log) : service.state.mempool.slot tx.sender tx.nonce = some tx := by
  have hc := (h.lives.free hnil).2.exact.consistent
  exact (hc.slot _ _ tx).mpr ⟨rfl, rfl, (Mempool.mem_pooled hc).mp (h.pooled hnil tx htx)⟩

theorem Keeps.step (hbech32 : c.bech32.WritesAddresses) (h : service.Keeps c config threads log)
    {call : RpcCall} (hs : service.step c call = some (service', out)) :
    service'.Keeps c config threads (log ++ out) := by
  have hlives := h.lives.step hbech32 hs
  have happend : accepted c (log ++ out) = accepted c log ++ accepted c out := List.filterMap_append
  rcases step_settles hbech32 h.lives hs with ⟨hout, hkeeps⟩ | ⟨hnil, hnil', tx, hout, hslot, hpooled⟩
  · rw [hout, List.append_nil] at happend
    refine ⟨hlives, fun hnil t ht => ?_, by rw [happend]; exact h.distinct, by rw [happend]; exact h.fits⟩
    obtain ⟨hfree, hmem⟩ := hkeeps hnil
    exact hmem t (h.pooled hfree t (happend ▸ ht))
  · rw [hout] at happend
    have hnew : ∀ t ∈ accepted c log, ¬ t.SamePlace tx := by
      rintro t ht ⟨hsender, hnonce⟩
      have htaken := h.taken hnil ht
      rw [hsender, hnonce, hslot] at htaken
      cases htaken
    have hdistinct : (accepted c (log ++ out)).Pairwise fun t t' => ¬ t.SamePlace t' := by
      rw [happend]
      refine List.pairwise_append.mpr ⟨h.distinct, List.pairwise_singleton _ _, fun t ht t' ht' => ?_⟩
      rw [List.mem_singleton.mp ht']
      exact hnew t ht
    have hmem : ∀ t ∈ accepted c (log ++ out), t ∈ service'.state.mempool.pooled := by
      intro t ht
      rw [happend, List.mem_append, List.mem_singleton] at ht
      refine (hpooled t).mpr ?_
      rcases ht with ht | ht
      · exact .inr (h.pooled hnil t ht)
      · exact .inl ht
    have hnodup : (accepted c (log ++ out)).Nodup :=
      hdistinct.imp fun hplace hsame => hplace (by rw [hsame]; exact ⟨rfl, rfl⟩)
    exact ⟨hlives, fun _ => hmem, hdistinct, (hlives.free hnil').2.fits hnodup hmem⟩

theorem Keeps.of_run (hbech32 : c.bech32.WritesAddresses) {state : RpcState}
    (hnew : state.mempool = Mempool.new config)
    (hrun : TracedRun (RpcService.step c) (fun _ _ => True) (new state threads, []) (service, log)) :
    service.Keeps c config threads log := by
  refine TracedRun.invariant (P := fun service log => service.Keeps c config threads log) hrun ?_ ?_
  · exact ⟨lives_of_run hbech32 hnew .refl, fun _ tx htx => (List.not_mem_nil htx).elim, List.Pairwise.nil,
      Nat.zero_le _, Nat.zero_le _⟩
  · exact fun _ _ _ _ _ hP _ hs => hP.step hbech32 hs

/-- The answer to a request that carries a transaction. -/
theorem Keeps.accepts_iff (hbech32 : c.bech32.WritesAddresses) (h : service.Keeps c config threads log)
    {req : JsonRpcRequest} (hreq : RpcMethod.ofName req.method = some .sendTransaction)
    {tx : Transaction} (htx : req.transaction c = .ok tx) (left : Mempool) :
    (∃ last out, service.step c (.request req left) = some (last, out) ∧ accepted c out = [tx]) ↔
      service.workers ≠ 0 ∧ .hung ∉ log ∧
        Mempool.PassesChecks c.crates service.state.mempool tx service.state.stateDb ∧
        service.state.mempool.slot tx.sender tx.nonce = none ∧
        Mempool.HasRoom config service.state.mempool.pooled tx := by
  have hhandle : service.state.handleRpc c req = service.state.sendTransaction c req := by
    rw [RpcState.handleRpc, hreq]
  constructor
  · rintro ⟨last, out, hs, hout⟩
    rcases step_settles hbech32 h.lives hs with ⟨hnone, -⟩ | ⟨hnil, -⟩
    · rw [hnone] at hout
      cases hout
    · have he := (h.lives.free hnil).2.exact
      have hfree : service.workers ≠ 0 := by
        intro hzero
        rw [RpcService.step, if_pos hzero] at hs
        cases hs
        cases hout
      refine ⟨hfree, (h.lives.free hnil).1, he.accepts_iff.mp ?_⟩
      rw [RpcService.step, if_neg hfree, request, hnil] at hs
      cases hstuck : (service.state.handleRpcLocks c req).stuck [] with
      | some kept =>
        rw [hstuck] at hs
        cases hs
        cases hout
      | none =>
        refine ⟨send_still he hreq hstuck htx, ?_⟩
        rw [hstuck, hhandle] at hs
        cases hr : service.state.sendTransaction c req with
        | none =>
          rw [hr] at hs
          cases hs
          cases hout
        | some reply =>
          rw [hr] at hs
          cases hs
          obtain ⟨-, ⟨-, hbroadcast, -⟩ | ⟨tx', txJson, htx', hadd, -⟩⟩ :=
            RpcState.sendTransaction_cases hr
          · rw [hbroadcast] at hout
            cases hout
          · obtain rfl : tx' = tx := Except.ok.inj (htx'.symm.trans htx)
            exact ⟨_, hadd⟩
  · rintro ⟨hfree, hnone, hplace⟩
    have hnil : service.kept = [] := by
      by_contra hne
      exact hnone (h.lives.jammed hne)
    have he := (h.lives.free hnil).2.exact
    obtain ⟨hstill, pool', hadd⟩ := he.accepts_iff.mpr hplace
    obtain ⟨txJson, hjson⟩ := tx.toJson_some hbech32
    have hstuck : (service.state.handleRpcLocks c req).stuck [] = none := by
      rw [Script.stuck_none_iff, RpcState.handleRpcLocks, hreq]
      dsimp only
      rw [htx]
      exact mt (Mempool.addTransactionLocks_blocked_iff he tx _).mp hstill
    rw [RpcService.step, if_neg hfree, request, hnil, hstuck, hhandle, RpcState.sendTransaction, htx]
    dsimp only
    rw [hadd]
    dsimp only
    rw [hjson]
    refine ⟨_, _, rfl, ?_⟩
    simp [accepted, RpcEvent.accepted, htx, Except.toOption]

/-- What a server on a new pool ever accepts fits in the pool, and no two of it have
one sender and nonce. A transaction is accepted if and only if a thread is free and
nothing has hung, it passes the checks, its place is free, and it has room beside all
that is pooled. -/
theorem accepted_once (hbech32 : c.bech32.WritesAddresses) {state : RpcState}
    (hnew : state.mempool = Mempool.new config)
    (hrun : TracedRun (RpcService.step c) (fun _ _ => True) (new state threads, []) (service, log)) :
    ((accepted c log).Pairwise fun tx tx' => ¬ tx.SamePlace tx') ∧
      (accepted c log).length ≤ config.maxTransactions ∧
      Mempool.bytes (accepted c log) ≤ config.maxBytes ∧
      ∀ req left tx, RpcMethod.ofName req.method = some .sendTransaction →
        req.transaction c = .ok tx →
        ((∃ last out, service.step c (.request req left) = some (last, out) ∧
            accepted c out = [tx]) ↔
          service.workers ≠ 0 ∧ .hung ∉ log ∧
            Mempool.PassesChecks c.crates service.state.mempool tx service.state.stateDb ∧
            service.state.mempool.slot tx.sender tx.nonce = none ∧
            Mempool.HasRoom config service.state.mempool.pooled tx) := by
  have hkeeps := Keeps.of_run hbech32 hnew hrun
  exact ⟨hkeeps.distinct, hkeeps.fits.1, hkeeps.fits.2,
    fun req left tx hreq htx => hkeeps.accepts_iff hbech32 hreq htx left⟩

end RpcService

namespace AcceptedOnce

open MempoolRun RpcRun

/-- The last transaction is in the place of the first one and pays too little more. -/
def calls : List RpcCall :=
  [transfer 2 200 1, transfer 3 200 1, transfer 2 210 1].map fun tx =>
    .request (send tx) (Mempool.new config)

theorem accepted_once_low : ∃ (service : RpcService) (log : List RpcEvent),
    TracedRun (RpcService.step rpcCrates) (fun _ _ => True) (.new start 4, []) (service, log) ∧
      RpcService.accepted rpcCrates log = [transfer 2 200 1, transfer 3 200 1] ∧
      Mempool.bytes (RpcService.accepted rpcCrates log) ≤ config.maxBytes := by
  have hcalls : (runAll (RpcService.step rpcCrates) (fun _ _ => True) (.new start 4) calls).map
      (fun t => RpcService.accepted rpcCrates t.2) = some [transfer 2 200 1, transfer 3 200 1] := by
    decide +kernel
  obtain ⟨⟨service, log⟩, hrun, haccepted⟩ := TracedRun.of_map hcalls
  have hnew : start.mempool = Mempool.new config := rfl
  exact ⟨service, log, hrun, haccepted,
    (RpcService.accepted_once Reference.bech32_writesAddresses hnew hrun).2.2.1⟩

end AcceptedOnce

end AuraChain
