import AuraChain.RpcServer

/-! Runs of the RPC server. Requests and the other calls of the pool are tasks of one
runtime, and come one after another. A call of the pool that never returns keeps the
lock of the senders or of the byte counter from all others, for good, and so its
thread from all other tasks, and the data of the pool is left in any state. -/

namespace AuraChain

open LockScope

/-- Of the threads of the runtime `workers` are free. -/
structure RpcService where
  state : RpcState
  kept : List (LockId × Mode)
  workers : Nat

/-- The store and the peers are written by others, and the pool is shared. A task can
block for good for reasons of its own. -/
inductive RpcCall
  | request (req : JsonRpcRequest) (left : Mempool)
  | pool (call : PoolCall) (left : Mempool)
  | block
  | store (stateDb : StateDB)
  | peers (peers : PeerManager)

inductive RpcEvent
  | answered (req : JsonRpcRequest) (response : JsonRpcResponse) (broadcast : Option Json)
  | hung
  | blocked

namespace RpcService

def hang (service : RpcService) (left : Mempool) (kept : List (LockId × Mode)) :
    Option (RpcService × List RpcEvent) :=
  some (⟨{ service.state with mempool := left }, kept, service.workers - 1⟩, [.hung])

def request (c : RpcCrates) (service : RpcService) (req : JsonRpcRequest) (left : Mempool) :
    Option (RpcService × List RpcEvent) :=
  match (service.state.handleRpcLocks c req).stuck service.kept with
  | some kept => service.hang left kept
  | none => match service.state.handleRpc c req with
    | none => service.hang left service.kept
    | some reply =>
      some ({ service with state := { service.state with mempool := reply.mempool } },
        [.answered req reply.response reply.broadcast])

def callPool (c : RpcCrates) (service : RpcService) (call : PoolCall) (left : Mempool) :
    Option (RpcService × List RpcEvent) :=
  match (call.locks c.crates service.state.mempool).stuck service.kept with
  | some kept => service.hang left kept
  | none => match service.state.mempool.step c.crates call with
    | none => service.hang left service.kept
    | some (mempool, _) => some ({ service with state := { service.state with mempool } }, [])

/-- Without a free thread no task goes on. -/
def step (c : RpcCrates) (service : RpcService) : RpcCall → Option (RpcService × List RpcEvent)
  | .request req left =>
    if service.workers = 0 then some (service, []) else service.request c req left
  | .pool call left =>
    if service.workers = 0 then some (service, []) else service.callPool c call left
  | .block =>
    if service.workers = 0 then some (service, [])
    else some ({ service with workers := service.workers - 1 }, [.blocked])
  | .store stateDb => some ({ service with state := { service.state with stateDb } }, [])
  | .peers peers => some ({ service with state := { service.state with peers } }, [])

end RpcService

/-- The locks that a call of the pool holds for longer than one access. -/
def LockId.isKept (l : LockId) : Prop := l = .bySender ∨ l = .totalBytes

section Locks

variable {c : Crates} {pool : Mempool} {tx : Transaction} {stateDb : StateDB}
  {kept : List (LockId × Mode)}

theorem Mempool.evictTransactionLocks_holdsOnly (pool : Mempool) (txHash : Hash) :
    (pool.evictTransactionLocks txHash).holdsOnly LockId.isKept := by
  rw [evictTransactionLocks]
  refine Script.holdsOnly_block fun p hp => ?_
  simp only [List.mem_cons, List.not_mem_nil, or_false] at hp
  rcases hp with rfl | rfl
  · exact Script.holdsOnly_touch _ _
  · split_ifs
    · exact ⟨Script.holdsOnly_touch _ _, Script.holdsOnly_touch _ _,
        ⟨.inl (.inr rfl), Script.holdsOnly_touch _ _⟩, trivial⟩
    · trivial

theorem Mempool.removeCommittedLocks_holdsOnly (pool : Mempool) (txs : List Transaction) :
    (pool.removeCommittedLocks c txs).holdsOnly LockId.isKept := by
  induction txs generalizing pool with
  | nil => trivial
  | cons tx txs ih => exact ⟨pool.evictTransactionLocks_holdsOnly _, ih _, trivial⟩

theorem Mempool.replaceByFeeLocks_holdsOnly (pool : Mempool) (tx : Transaction) :
    (pool.replaceByFeeLocks tx).holdsOnly LockId.isKept := by
  refine ⟨.inl (.inl rfl), ?_⟩
  cases pool.slot tx.sender tx.nonce with
  | none => trivial
  | some existing =>
    dsimp only
    split_ifs
    · trivial
    · exact ⟨Script.holdsOnly_touch _ _, Script.holdsOnly_touch _ _,
        ⟨.inl (.inr rfl), Script.holdsOnly_touch _ _⟩, trivial⟩

theorem Mempool.makeRoomLocks_holdsOnly (tx : Transaction) (fuel : Nat) (pool : Mempool) :
    (makeRoomLocks tx fuel pool).holdsOnly LockId.isKept := by
  induction fuel generalizing pool with
  | zero => trivial
  | succ fuel ih =>
    refine ⟨Script.holdsOnly_touch _ _, ?_, ?_, trivial⟩
    · split_ifs
      · trivial
      · exact Script.holdsOnly_touch _ _
    · split_ifs
      · refine ⟨Script.holdsOnly_touch _ _, ?_, trivial⟩
        cases pool.priorityIndex.min? with
        | none => trivial
        | some key =>
          dsimp only
          split_ifs
          · trivial
          · exact ⟨pool.evictTransactionLocks_holdsOnly _, ih _, trivial⟩
      · trivial

theorem Mempool.addTransactionLocks_holdsOnly (pool : Mempool) (tx : Transaction)
    (stateDb : StateDB) : (pool.addTransactionLocks c tx stateDb).holdsOnly LockId.isKept := by
  rw [addTransactionLocks]
  cases validateStateless c tx with
  | error e => trivial
  | ok _ =>
    refine ⟨Script.holdsOnly_touch _ _, ?_, trivial⟩
    split_ifs
    · trivial
    · refine ⟨Script.holdsOnly_touch _ _, ?_, trivial⟩
      cases validateStateful tx (stateDb.getAccount c tx.sender) with
      | error e => trivial
      | ok _ =>
        refine ⟨pool.replaceByFeeLocks_holdsOnly tx, ?_, trivial⟩
        split
        · trivial
        · refine ⟨makeRoomLocks_holdsOnly tx _ _, ?_, trivial⟩
          split
          · exact ⟨Script.holdsOnly_touch _ _, Script.holdsOnly_touch _ _,
              Script.holdsOnly_touch _ _, Script.holdsOnly_touch _ _, trivial⟩
          · trivial

theorem readStore_run (hkept : ∀ g ∈ kept, g.1.isKept) : readStore.run kept = .done :=
  Script.run_touch (Script.conflicts_none hkept (by simp [LockId.isKept]) _)

theorem Mempool.harvestLocks_run (hkept : ∀ g ∈ kept, g.1.isKept) : harvestLocks.run kept = .done := by
  rw [harvestLocks, Script.run_hold (Script.conflicts_none hkept (by simp [LockId.isKept]) _)]
  refine Script.run_touch ?_
  rw [Script.conflicts_cons_ne (by decide)]
  exact Script.conflicts_none hkept (by simp [LockId.isKept]) _

theorem getBlockByHeightLocks_run (hkept : ∀ g ∈ kept, g.1.isKept) (height : UInt64) :
    (stateDb.getBlockByHeightLocks height).run kept = .done := by
  have hread := readStore_run hkept
  refine Script.run_block_done_iff.mpr fun p hp => ?_
  simp only [List.mem_cons, List.not_mem_nil, or_false] at hp
  rcases hp with rfl | rfl
  · exact hread
  · split_ifs
    · exact hread
    · rfl

/-- What is kept keeps every insertion from its end. -/
theorem Mempool.insertTransactionLocks_ne_done (hne : kept ≠ []) (hkept : ∀ g ∈ kept, g.1.isKept) :
    insertTransactionLocks.run kept ≠ .done := by
  intro hdone
  obtain ⟨⟨l, m⟩, hg⟩ := List.exists_mem_of_ne_nil kept hne
  have hwrite : (Script.touch l .write).run kept = .done := by
    refine Script.run_block_done_iff.mp hdone _ ?_
    rcases hkept _ hg with rfl | rfl <;> simp
  have hfree := (Script.run_hold_done hwrite).1
  have hconflict : conflicts kept l .write = true :=
    List.any_eq_true.mpr ⟨_, hg, by simp⟩
  rw [hfree] at hconflict
  cases hconflict

theorem Mempool.addTransaction_blocked (hne : kept ≠ []) (hkept : ∀ g ∈ kept, g.1.isKept)
    {pool' : Mempool} {txHash : Hash}
    (h : pool.addTransaction c tx stateDb = some (pool', .ok txHash)) :
    (pool.addTransactionLocks c tx stateDb).run kept = .blocked := by
  have hcalm : (pool.addTransactionLocks c tx stateDb).run kept ≠ .panicked :=
    Script.run_ne_panicked (pool.addTransactionLocks_holdsOnly tx stateDb).panicFree
  suffices hdone : (pool.addTransactionLocks c tx stateDb).run kept ≠ .done by
    cases hrun : (pool.addTransactionLocks c tx stateDb).run kept <;> simp_all
  intro hdone
  obtain ⟨-, e, he⟩ | ⟨hchecks, hadmit⟩ := addTransaction_cases h
  · cases congrArg Prod.snd he
  · rw [addTransactionLocks, hchecks.stateless] at hdone
    dsimp only at hdone
    have hadmitLocks := Script.run_block_done_iff.mp hdone _ (List.mem_cons_of_mem _ List.mem_cons_self)
    rw [if_neg hchecks.fresh, hchecks.stateful] at hadmitLocks
    dsimp only at hadmitLocks
    have hlocks := Script.run_block_done_iff.mp hadmitLocks _
      (List.mem_cons_of_mem _ List.mem_cons_self)
    have hroom := Script.run_block_done_iff.mp hlocks _ (List.mem_cons_of_mem _ List.mem_cons_self)
    rw [admitTransaction] at hadmit
    split at hadmit
    · cases hadmit
    · next room hreplace =>
      rw [hreplace] at hroom
      dsimp only at hroom
      have hinsert := Script.run_block_done_iff.mp hroom _ (List.mem_cons_of_mem _ List.mem_cons_self)
      split at hadmit
      · cases hadmit
      · cases hadmit
      · next last hmade =>
        rw [hmade] at hinsert
        exact insertTransactionLocks_ne_done hne hkept hinsert

end Locks

theorem Mempool.addTransaction_ok {c : Crates} {pool pool' : Mempool} {tx : Transaction}
    {stateDb : StateDB} {txHash : Hash}
    (h : pool.addTransaction c tx stateDb = some (pool', .ok txHash)) :
    PassesChecks c pool tx stateDb ∧ txHash = tx.txHash c := by
  obtain ⟨-, e, he⟩ | ⟨hchecks, hadmit⟩ := addTransaction_cases h
  · cases congrArg Prod.snd he
  · obtain ⟨e, -, he⟩ | ⟨-, room, outcome, -, ⟨e, -, he⟩ | ⟨-, he⟩⟩ := admitTransaction_cases hadmit
    · cases congrArg Prod.snd he
    · cases congrArg Prod.snd he
    · exact ⟨hchecks, Except.ok.inj (congrArg Prod.snd he)⟩

/-- The response is to the request and has either a result or an error. -/
structure JsonRpcResponse.Answers (response : JsonRpcResponse) (req : JsonRpcRequest) : Prop where
  id : response.id = req.id
  one : response.result.isSome = response.error.isNone

/-- A message goes out with each transaction that is accepted, and no other. -/
def RpcEvent.Sound (c : RpcCrates) : RpcEvent → Prop
  | hung | blocked => True
  | answered req response none => response.Answers req ∧
      (RpcMethod.ofName req.method = some .sendTransaction → response.result = none)
  | answered req response (some message) => response.Answers req ∧
      RpcMethod.ofName req.method = some .sendTransaction ∧
      ∃ tx txJson, req.transaction c = .ok tx ∧ tx.verify c.crates = .ok () ∧
        tx.toJson c.toJsonCrates = some txJson ∧
        message = RpcState.newTransaction c.hex txJson (tx.txHash c.crates) ∧
        response.result = some (.object [("tx_hash", .hex c.hex (tx.txHash c.crates))])

def RpcEvent.announces : RpcEvent → Bool
  | answered _ _ (some _) => true
  | _ => false

/-- A thread does not come back from it. -/
def RpcEvent.isHeld : RpcEvent → Bool
  | hung | blocked => true
  | answered _ _ _ => false

namespace RpcState

variable {c : RpcCrates} {state : RpcState} {req : JsonRpcRequest} {reply : RpcReply}

theorem success_answers (state : RpcState) (req : JsonRpcRequest) (result : Json) :
    (state.success req result).response.Answers req := ⟨rfl, rfl⟩

/-- Every other request is answered from the state, which stays as it is. -/
theorem handleRpc_reads (hbech32 : c.bech32.WritesAddresses)
    (hreq : RpcMethod.ofName req.method ≠ some .sendTransaction) :
    ∃ response, state.handleRpc c req = some ⟨state.mempool, response, none⟩ ∧
      response.Answers req := by
  rw [handleRpc]
  cases hm : RpcMethod.ofName req.method with
  | none => exact ⟨_, rfl, rfl, rfl⟩
  | some method =>
    cases method with
    | sendTransaction => exact absurd hm hreq
    | getBlockHeight => exact ⟨_, rfl, rfl, rfl⟩
    | getValidators => exact ⟨_, rfl, rfl, rfl⟩
    | getNodeInfo => exact ⟨_, rfl, rfl, rfl⟩
    | getBalance =>
      dsimp only
      cases req.address c <;> exact ⟨_, rfl, rfl, rfl⟩
    | getAccount =>
      dsimp only
      cases req.address c <;> exact ⟨_, rfl, rfl, rfl⟩
    | getBlockByHeight =>
      dsimp only
      cases req.height with
      | none => exact ⟨_, rfl, rfl, rfl⟩
      | some h =>
        dsimp only
        cases state.stateDb.getBlockByHeight c.crates h with
        | none => exact ⟨_, rfl, rfl, rfl⟩
        | some block =>
          obtain ⟨v, hv⟩ := block.toJson_some hbech32
          exact ⟨_, by dsimp only; rw [hv]; rfl, success_answers state req v⟩
    | getBlockByHash =>
      dsimp only
      cases req.hash c with
      | none => exact ⟨_, rfl, rfl, rfl⟩
      | some h =>
        dsimp only
        cases state.stateDb.getBlockByHash c.crates h with
        | none => exact ⟨_, rfl, rfl, rfl⟩
        | some block =>
          obtain ⟨v, hv⟩ := block.toJson_some hbech32
          exact ⟨_, by dsimp only; rw [hv]; rfl, success_answers state req v⟩

theorem sendTransaction_cases (h : state.sendTransaction c req = some reply) :
    reply.response.Answers req ∧
      ((reply.response.result = none ∧ reply.broadcast = none ∧ (reply.mempool = state.mempool ∨
          ∃ tx e, req.transaction c = .ok tx ∧ state.mempool.addTransaction c.crates tx
            state.stateDb = some (reply.mempool, .error e))) ∨
        ∃ tx txJson, req.transaction c = .ok tx ∧
          state.mempool.addTransaction c.crates tx state.stateDb =
            some (reply.mempool, .ok (tx.txHash c.crates)) ∧
          tx.toJson c.toJsonCrates = some txJson ∧
          reply.broadcast = some (newTransaction c.hex txJson (tx.txHash c.crates)) ∧
          reply.response.result = some (.object [("tx_hash", .hex c.hex (tx.txHash c.crates))])) := by
  rw [sendTransaction] at h
  split at h
  · cases h
    exact ⟨⟨rfl, rfl⟩, .inl ⟨rfl, rfl, .inl rfl⟩⟩
  · next tx htx =>
    split at h
    · cases h
    · next mempool e hadd =>
      cases h
      exact ⟨⟨rfl, rfl⟩, .inl ⟨rfl, rfl, .inr ⟨tx, e, htx, hadd⟩⟩⟩
    · next mempool txHash hadd =>
      obtain ⟨txJson, hjson, rfl⟩ := Option.map_eq_some_iff.mp h
      have hhash : txHash = tx.txHash c.crates := (Mempool.addTransaction_ok hadd).2
      subst hhash
      exact ⟨⟨rfl, rfl⟩, .inr ⟨tx, txJson, htx, hadd, hjson, rfl, rfl⟩⟩

end RpcState

namespace RpcService

/-- Until a call hangs nothing is kept and the pool is as its calls make it. From
then on nothing is announced. -/
structure Lives (c : RpcCrates) (config : MempoolConfig) (threads : Nat) (service : RpcService)
    (log : List RpcEvent) : Prop where
  kept : ∀ g ∈ service.kept, g.1.isKept
  free : service.kept = [] →
    .hung ∉ log ∧ Mempool.Reachable c.crates config service.state.mempool
  jammed : service.kept ≠ [] → .hung ∈ log
  sound : ∀ e ∈ log, e.Sound c
  silent : log.Pairwise fun e e' => e = .hung → e'.announces = false
  counts : service.workers + log.countP RpcEvent.isHeld = threads

variable {c : RpcCrates} {config : MempoolConfig} {threads : Nat} {service service' : RpcService}
  {log out : List RpcEvent} {kept : List (LockId × Mode)}

theorem Lives.sound_snoc (h : service.Lives c config threads log) {e : RpcEvent} (he : e.Sound c) :
    ∀ e' ∈ log ++ [e], e'.Sound c := by
  intro e' he'
  rcases List.mem_append.mp he' with he' | he'
  · exact h.sound e' he'
  · rw [List.mem_singleton.mp he']
    exact he

theorem Lives.silent_snoc (h : service.Lives c config threads log) {e : RpcEvent}
    (he : .hung ∈ log → e.announces = false) :
    (log ++ [e]).Pairwise fun e e' => e = .hung → e'.announces = false := by
  refine List.pairwise_append.mpr ⟨h.silent, List.pairwise_singleton _ _, fun e' he' e'' hlast hhung => ?_⟩
  rw [List.mem_singleton.mp hlast]
  exact he (hhung ▸ he')

theorem Lives.counts_held (h : service.Lives c config threads log) (hfree : service.workers ≠ 0)
    {e : RpcEvent} (he : e.isHeld = true) :
    service.workers - 1 + (log ++ [e]).countP RpcEvent.isHeld = threads := by
  have hcounts := h.counts
  rw [List.countP_append, List.countP_singleton, if_pos he]
  omega

theorem Lives.hang (h : service.Lives c config threads log) (hfree : service.workers ≠ 0)
    (left : Mempool) (hne : kept ≠ []) (hkept : ∀ g ∈ kept, g.1.isKept) :
    Lives c config threads ⟨{ service.state with mempool := left }, kept, service.workers - 1⟩
      (log ++ [.hung]) where
  kept := hkept
  free := fun hnil => absurd hnil hne
  jammed := fun _ => by simp
  sound := h.sound_snoc trivial
  silent := h.silent_snoc fun _ => rfl
  counts := h.counts_held hfree rfl

theorem Lives.block (h : service.Lives c config threads log) (hfree : service.workers ≠ 0) :
    Lives c config threads { service with workers := service.workers - 1 } (log ++ [.blocked]) where
  kept := h.kept
  free := fun hnil => ⟨by simp [(h.free hnil).1], (h.free hnil).2⟩
  jammed := fun hne => List.mem_append_left _ (h.jammed hne)
  sound := h.sound_snoc trivial
  silent := h.silent_snoc fun _ => rfl
  counts := h.counts_held hfree rfl

theorem Lives.answered (h : service.Lives c config threads log) {mempool : Mempool}
    (hpool : service.kept = [] → Mempool.Reachable c.crates config mempool) {req : JsonRpcRequest}
    {response : JsonRpcResponse} {broadcast : Option Json}
    (hsound : (RpcEvent.answered req response broadcast).Sound c)
    (hsilent : service.kept ≠ [] → broadcast = none) :
    Lives c config threads { service with state := { service.state with mempool } }
      (log ++ [.answered req response broadcast]) where
  kept := h.kept
  free := fun hnil => ⟨by simp [(h.free hnil).1], hpool hnil⟩
  jammed := fun hne => List.mem_append_left _ (h.jammed hne)
  sound := h.sound_snoc hsound
  silent := by
    refine h.silent_snoc fun hhung => ?_
    rw [hsilent fun hnil => (h.free hnil).1 hhung]
    rfl
  counts := by
    rw [List.countP_append, List.countP_singleton, if_neg (by simp [RpcEvent.isHeld])]
    exact h.counts

/-- What a call of the server does: nothing without a free thread, unless it is another
writer's. -/
theorem step_cases {call : RpcCall} (hs : service.step c call = some (service', out)) :
    (service.workers = 0 ∧ service' = service ∧ out = []) ∨
    (service.workers ≠ 0 ∧
      ((∃ req left, call = .request req left ∧ service.request c req left = some (service', out)) ∨
        (∃ pool left, call = .pool pool left ∧ service.callPool c pool left = some (service', out)) ∨
        (call = .block ∧ service' = { service with workers := service.workers - 1 } ∧
          out = [.blocked]))) ∨
    ∃ stateDb peers, service' = { service with state := { service.state with stateDb, peers } } ∧
      out = [] := by
  cases call with
  | request req left =>
    rw [step] at hs
    split_ifs at hs with hfree
    · cases hs
      exact .inl ⟨hfree, rfl, rfl⟩
    · exact .inr (.inl ⟨hfree, .inl ⟨req, left, rfl, hs⟩⟩)
  | pool call left =>
    rw [step] at hs
    split_ifs at hs with hfree
    · cases hs
      exact .inl ⟨hfree, rfl, rfl⟩
    · exact .inr (.inl ⟨hfree, .inr (.inl ⟨call, left, rfl, hs⟩)⟩)
  | block =>
    rw [step] at hs
    split_ifs at hs with hfree
    · cases hs
      exact .inl ⟨hfree, rfl, rfl⟩
    · cases hs
      exact .inr (.inl ⟨hfree, .inr (.inr ⟨rfl, rfl, rfl⟩)⟩)
  | store stateDb =>
    cases hs
    exact .inr (.inr ⟨_, _, rfl, rfl⟩)
  | peers peers =>
    cases hs
    exact .inr (.inr ⟨_, _, rfl, rfl⟩)

/-- The locks of the other requests are never kept. -/
theorem handleRpcLocks_reads {state : RpcState} {req : JsonRpcRequest}
    (hreq : RpcMethod.ofName req.method ≠ some .sendTransaction) (hkept : ∀ g ∈ kept, g.1.isKept) :
    (state.handleRpcLocks c req).stuck kept = none := by
  have hread := readStore_run hkept
  refine Script.stuck_none_iff.mpr ?_
  suffices hdone : (state.handleRpcLocks c req).run kept = .done by simp [hdone]
  rw [RpcState.handleRpcLocks]
  cases hm : RpcMethod.ofName req.method with
  | none => rfl
  | some method =>
    cases method with
    | sendTransaction => exact absurd hm hreq
    | getBlockByHeight =>
      dsimp only
      cases req.height with
      | none => rfl
      | some h => exact getBlockByHeightLocks_run hkept h
    | getNodeInfo =>
      refine Script.run_block_done_iff.mpr fun p hp => ?_
      simp only [List.mem_cons, List.not_mem_nil, or_false] at hp
      rcases hp with rfl | rfl | rfl
      · exact hread
      · exact Script.run_touch (Script.conflicts_none hkept (by simp [LockId.isKept]) _)
      · exact Script.run_touch (Script.conflicts_none hkept (by simp [LockId.isKept]) _)
    | _ => exact hread

theorem request_reads (hbech32 : c.bech32.WritesAddresses) (h : service.Lives c config threads log)
    {req : JsonRpcRequest} (hreq : RpcMethod.ofName req.method ≠ some .sendTransaction)
    (left : Mempool) : ∃ response, service.request c req left =
      some (service, [.answered req response none]) ∧ response.Answers req := by
  obtain ⟨response, hr, hanswers⟩ := service.state.handleRpc_reads hbech32 hreq
  refine ⟨response, ?_, hanswers⟩
  rw [request, handleRpcLocks_reads hreq h.kept, hr]

theorem handleRpcLocks_holdsOnly {state : RpcState} {req : JsonRpcRequest}
    (hreq : RpcMethod.ofName req.method = some .sendTransaction) :
    (state.handleRpcLocks c req).holdsOnly LockId.isKept := by
  rw [RpcState.handleRpcLocks, hreq]
  dsimp only
  cases req.transaction c with
  | error e => trivial
  | ok tx => exact state.mempool.addTransactionLocks_holdsOnly tx state.stateDb

theorem reachable_add {pool pool' : Mempool} (h : Mempool.Reachable c.crates config pool)
    {tx : Transaction} {stateDb : StateDB} {result : Except MempoolError Hash}
    (hadd : pool.addTransaction c.crates tx stateDb = some (pool', result)) :
    Mempool.Reachable c.crates config pool' := by
  obtain ⟨poolLog, hrun⟩ := h
  have hs : pool.step c.crates (.addTransaction tx stateDb) = some (pool', [result]) := by
    rw [Mempool.step, hadd]
    rfl
  exact ⟨_, hrun.tail ⟨_, _, trivial, hs, rfl⟩⟩

/-- The answer to a transaction that comes in while nothing is kept is never lost
to a pool that does not return or to a value that does not serialize. -/
theorem sendTransaction_some (hbech32 : c.bech32.WritesAddresses) {state : RpcState}
    (h : Mempool.Reachable c.crates config state.mempool) (req : JsonRpcRequest) :
    ∃ reply, state.sendTransaction c req = some reply := by
  rw [RpcState.sendTransaction]
  cases req.transaction c with
  | error e => exact ⟨_, rfl⟩
  | ok tx =>
    obtain ⟨⟨pool, result⟩, hadd, -⟩ :=
      Mempool.addTransaction_spec h.exact.consistent tx state.stateDb
    obtain ⟨txJson, hjson⟩ := tx.toJson_some hbech32
    dsimp only
    rw [hadd]
    cases result with
    | error e => exact ⟨_, rfl⟩
    | ok txHash =>
      dsimp only
      rw [hjson]
      exact ⟨_, rfl⟩

theorem Lives.send (hbech32 : c.bech32.WritesAddresses) (h : service.Lives c config threads log)
    (hfree : service.workers ≠ 0) {req : JsonRpcRequest}
    (hreq : RpcMethod.ofName req.method = some .sendTransaction) {left : Mempool}
    (hs : service.request c req left = some (service', out)) :
    service'.Lives c config threads (log ++ out) := by
  rw [request] at hs
  have honly : (service.state.handleRpcLocks c req).holdsOnly LockId.isKept :=
    handleRpcLocks_holdsOnly hreq
  have hhandle : service.state.handleRpc c req = service.state.sendTransaction c req := by
    rw [RpcState.handleRpc, hreq]
  cases hstuck : (service.state.handleRpcLocks c req).stuck service.kept with
  | some kept =>
    rw [hstuck] at hs
    cases hs
    exact h.hang hfree left (Script.stuck_keeps hstuck).1 (Script.stuck_only honly h.kept hstuck)
  | none =>
    rw [hstuck, hhandle] at hs
    cases hr : service.state.sendTransaction c req with
    | none =>
      rw [hr] at hs
      cases hs
      refine h.hang hfree left (fun hnil => ?_) h.kept
      obtain ⟨reply, hreply⟩ := sendTransaction_some hbech32 (h.free hnil).2 req
      rw [hr] at hreply
      cases hreply
    | some reply =>
      rw [hr] at hs
      cases hs
      obtain ⟨hanswers, ⟨hresult, hbroadcast, hpool⟩ |
        ⟨tx, txJson, htx, hadd, hjson, hbroadcast, hresult⟩⟩ := RpcState.sendTransaction_cases hr
      · rw [hbroadcast]
        refine h.answered (fun hnil => ?_) ⟨hanswers, fun _ => hresult⟩ fun _ => rfl
        rcases hpool with hsame | ⟨tx, e, -, hadd⟩
        · rw [hsame]
          exact (h.free hnil).2
        · exact reachable_add (h.free hnil).2 hadd
      · have hchecks := (Mempool.addTransaction_ok hadd).1
        rw [hbroadcast]
        refine h.answered (fun hnil => reachable_add (h.free hnil).2 hadd)
          ⟨hanswers, hreq, tx, txJson, htx, (validateStateless_ok hchecks.stateless).2.2.2, hjson, rfl,
            hresult⟩ fun hne => ?_
        have hlocks : service.state.handleRpcLocks c req =
            service.state.mempool.addTransactionLocks c.crates tx service.state.stateDb := by
          rw [RpcState.handleRpcLocks, hreq]
          dsimp only
          rw [htx]
        rw [hlocks, Script.stuck_none_iff] at hstuck
        exact absurd (Mempool.addTransaction_blocked hne h.kept hadd) hstuck

theorem Lives.pool (h : service.Lives c config threads log) (hfree : service.workers ≠ 0)
    {call : PoolCall} {left : Mempool} (hs : service.callPool c call left = some (service', out)) :
    service'.Lives c config threads (log ++ out) := by
  rw [callPool] at hs
  cases hstuck : (call.locks c.crates service.state.mempool).stuck service.kept with
  | some kept =>
    rw [hstuck] at hs
    cases hs
    refine h.hang hfree left (Script.stuck_keeps hstuck).1 ?_
    cases call with
    | addTransaction tx stateDb =>
      exact Script.stuck_only (Mempool.addTransactionLocks_holdsOnly _ tx stateDb) h.kept hstuck
    | harvest maxBytes =>
      have hdone := Mempool.harvestLocks_run h.kept
      have hblocked : Mempool.harvestLocks.run service.kept = .blocked := Script.blocked_of_stuck hstuck
      rw [hdone] at hblocked
      cases hblocked
    | removeCommitted txs =>
      exact Script.stuck_only (Mempool.removeCommittedLocks_holdsOnly _ txs) h.kept hstuck
    | evictTransaction txHash =>
      exact Script.stuck_only (Mempool.evictTransactionLocks_holdsOnly _ txHash) h.kept hstuck
  | none =>
    rw [hstuck] at hs
    cases hp : service.state.mempool.step c.crates call with
    | none =>
      rw [hp] at hs
      cases hs
      refine h.hang hfree left (fun hnil => ?_) h.kept
      have hreturns := (h.free hnil).2.exact.returns call
      rw [hp] at hreturns
      cases hreturns
    | some r =>
      obtain ⟨mempool, poolOut⟩ := r
      rw [hp] at hs
      cases hs
      rw [List.append_nil]
      refine ⟨h.kept, fun hnil => ⟨(h.free hnil).1, ?_⟩, h.jammed, h.sound, h.silent, h.counts⟩
      obtain ⟨poolLog, hrun⟩ := (h.free hnil).2
      exact ⟨_, hrun.tail ⟨_, _, trivial, hp, rfl⟩⟩

theorem Lives.step (hbech32 : c.bech32.WritesAddresses) (h : service.Lives c config threads log)
    {call : RpcCall} (hs : service.step c call = some (service', out)) :
    service'.Lives c config threads (log ++ out) := by
  rcases step_cases hs with ⟨-, rfl, rfl⟩ | ⟨hfree, ⟨req, left, rfl, hrequest⟩ |
    ⟨call, left, rfl, hcall⟩ | ⟨rfl, rfl, rfl⟩⟩ | ⟨stateDb, peers, rfl, rfl⟩
  · rwa [List.append_nil]
  · by_cases hreq : RpcMethod.ofName req.method = some .sendTransaction
    · exact h.send hbech32 hfree hreq hrequest
    · obtain ⟨response, hr, hanswers⟩ := request_reads hbech32 h hreq left
      rw [hr] at hrequest
      cases hrequest
      exact h.answered (fun hnil => (h.free hnil).2) ⟨hanswers, fun hsend => absurd hsend hreq⟩
        fun _ => rfl
  · exact h.pool hfree hcall
  · exact h.block hfree
  · rw [List.append_nil]
    exact ⟨h.kept, h.free, h.jammed, h.sound, h.silent, h.counts⟩

/-- A server on a new pool, with so many threads. -/
def new (state : RpcState) (threads : Nat) : RpcService := ⟨state, [], threads⟩

theorem lives_of_run (hbech32 : c.bech32.WritesAddresses) {state : RpcState}
    (hnew : state.mempool = Mempool.new config)
    (hrun : TracedRun (step c) (fun _ _ => True) (new state threads, []) (service, log)) :
    service.Lives c config threads log := by
  refine TracedRun.invariant (P := fun service log => service.Lives c config threads log) hrun ?_ ?_
  · exact ⟨by simp [new], fun _ => ⟨by simp, [], by rw [new, hnew]⟩, by simp [new], by simp,
      List.Pairwise.nil, rfl⟩
  · exact fun _ _ _ _ _ hP _ hs => hP.step hbech32 hs

end RpcService

namespace RpcRun

open MempoolRun

def rpcCrates : RpcCrates := ⟨Reference.jsonCrates, crates, PeerManager.Walk.byId⟩

def config : MempoolConfig := ⟨10, 10000, 10⟩

def start : RpcState := ⟨stateDb, Mempool.new config, PeerManager.new, ascii "aura-testnet"⟩

def send (tx : Transaction) : JsonRpcRequest :=
  ⟨ascii "2.0", .u64 2, ascii "sendTransaction", (tx.toJson Reference.jsonCrates).getD .null⟩

def getBlockHeight : JsonRpcRequest := ⟨ascii "2.0", .u64 1, ascii "getBlockHeight", .null⟩

/-- The second transaction replaces the first one, and the third is another's. -/
def calls : List RpcCall :=
  [transfer 2 200 1, transfer 2 400 1, transfer 3 200 1].map fun tx =>
    .request (send tx) (Mempool.new config)

end RpcRun

end AuraChain
