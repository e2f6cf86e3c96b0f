import AuraChain.Encoding
import AuraChain.HonestProposal
import AuraChain.LevelHash
import AuraChain.MempoolLocks
import AuraChain.ProductionLoop
import AuraChain.StateRestart
import AuraChain.StoreFinality

/-! The daemon of a validator: its block production task, the transactions that
come in meanwhile, and what is left over a restart. The task holds the guards of
the engine as the handlers take them, and ends with a panic where a commit fails. -/

namespace AuraChain

/-- Where the block production task stands. -/
inductive ProductionPhase
  | waiting
  | proposed (proposal : Block)
  | prevoted (prevote : Vote)
  | precommitted (precommit : Vote)
  | blocked
  | panicked

def ProductionPhase.isOver : ProductionPhase → Bool
  | .blocked => true
  | .panicked => true
  | _ => false

/-- The store and the pool of the engine are those of the RPC server. The disk is
what the next process opens. -/
structure Daemon where
  engine : ConsensusEngine
  disk : KeyValueStore
  phase : ProductionPhase

inductive DaemonCall
  | tick (env : Env)
  | proceed (env : Env)
  | sendTransaction (tx : Transaction)
  | sendHangs (mempool : Mempool)
  | restart (env : Env) (keypair : SecretKey) (chainId : Bytes)

inductive DaemonEvent
  | booted
  | newTransaction (tx : Transaction) (hash : Hash)
  | gauges (blockHeight : UInt64) (mempoolTxs : Nat)
  | newHead (height : UInt64) (hash : Hash)
  deriving DecidableEq

namespace Daemon

def genesis (c : Crates) (now : UInt64) (keypair : SecretKey) (chainId : Bytes) : GenesisConfig :=
  let valAddr := Address.fromPubkey c (c.verifyingKey keypair)
  { chainId := chainId
    timestamp := now
    accounts := [⟨valAddr, 100000000000⟩]
    validators := [⟨valAddr, c.verifyingKey keypair, 10000000000⟩]
    initialStateRoot := Hash.zero }

/-- What the store has written when no call of it has failed is on the disk. -/
def saved (engine : ConsensusEngine) (phase : ProductionPhase) : Daemon :=
  ⟨engine, engine.stateDb.kv, phase⟩

def active (c : Crates) (stateDb : StateDB) (keypair : SecretKey) (chainId : Bytes) : Daemon :=
  saved (ConsensusEngine.new c keypair stateDb (Mempool.new MempoolConfig.default) chainId) .waiting

def withPool (daemon : Daemon) (mempool : Mempool) : Daemon :=
  { daemon with engine := { daemon.engine with mempool := mempool } }

/-- The genesis is written over a store that has no block at height zero. -/
def boot (c : Crates) (env : Env) (kv : KeyValueStore) (keypair : SecretKey) (chainId : Bytes) :
    Except StorageError Daemon :=
  let stateDb := StateDB.new c kv
  if stateDb.getLatestHeight = 0 ∧ (stateDb.getBlockByHeight c 0).isNone then
    match stateDb.applyGenesis c env.ioError (genesis c env.now keypair chainId) with
    | (_, .error e) => .error e
    | (stateDb, .ok _) => .ok (active c stateDb keypair chainId)
  else .ok (active c stateDb keypair chainId)

/-- The handlers panic where the commit of the proposed block fails: its writes stay
in the memory of the store, and the disk has none of them. -/
def panics (c : Crates) (env : Env) (daemon : Daemon) (proposedBlock : Option Block) : Daemon :=
  let stateDb := daemon.engine.stateDb
  match proposedBlock with
  | none => { daemon with phase := .panicked }
  | some block =>
    let overlay := executeTransactionsSpeculative c stateDb block.transactions StateOverlay.new
    { daemon with
      engine := { daemon.engine with stateDb := (stateDb.commitBlock c env block overlay).1 }
      phase := .panicked }

/-- The next call of the task. One that blocks has changed the store and the pool
and never returns; one that panics ends the task. -/
def proceed (c : Crates) (env : Env) (daemon : Daemon) : Option (Daemon × List DaemonEvent) :=
  match daemon.phase with
  | .waiting => none
  | .blocked => none
  | .panicked => none
  | .proposed proposal =>
    match daemon.engine.handleProposal c env proposal with
    | .error _ => some (daemon.panics c env (some proposal), [])
    | .ok r =>
      if (daemon.engine.handleProposalLocks c env proposal).run [] = .blocked then
        some (saved r.engine .blocked, [])
      else match r.value with
        | .error _ => some (saved r.engine .waiting, [])
        | .ok prevote => some (saved r.engine (.prevoted prevote), [])
  | .prevoted prevote =>
    match daemon.engine.handlePrevote c env prevote with
    | .error _ => some (daemon.panics c env daemon.engine.proposedBlock, [])
    | .ok r =>
      if (daemon.engine.handlePrevoteLocks c env prevote).run [] = .blocked then
        some (saved r.engine .blocked, [])
      else match r.value with
        | none => some (saved r.engine .waiting, [])
        | some precommit => some (saved r.engine (.precommitted precommit), [])
  | .precommitted precommit =>
    match daemon.engine.handlePrecommit c env precommit with
    | .error _ => some (daemon.panics c env daemon.engine.proposedBlock, [])
    | .ok r =>
      if (daemon.engine.handlePrecommitLocks c env precommit).run [] = .blocked then
        some (saved r.engine .blocked, [])
      else match r.value with
        | none => some (saved r.engine .waiting, [])
        | some qc => some (saved r.engine .waiting,
            [.gauges qc.height r.engine.mempool.byHash.size, .newHead qc.height qc.blockHash])

/-- A send that waits for a lock which it holds itself leaves some pool behind. A
restart may come at any point, after a panic as well. -/
def step (c : Crates) (daemon : Daemon) : DaemonCall → Option (Daemon × List DaemonEvent)
  | .tick env =>
    match daemon.phase with
    | .waiting =>
      match daemon.engine.createProposal c env with
      | .error _ => some ({ daemon with phase := .panicked }, [])
      | .ok r => match r.value with
        | .error _ => some (saved r.engine .waiting, [])
        | .ok proposal => some (saved r.engine (.proposed proposal), [])
    | _ => none
  | .proceed env => daemon.proceed c env
  | .sendTransaction tx =>
    if (daemon.engine.mempool.addTransactionLocks c tx daemon.engine.stateDb).run [] = .blocked then
      none
    else (daemon.engine.mempool.addTransaction c tx daemon.engine.stateDb).map fun r =>
      (daemon.withPool r.1, match r.2 with
        | .ok hash => [.newTransaction tx hash]
        | .error _ => [])
  | .sendHangs mempool => some (daemon.withPool mempool, [])
  | .restart env keypair chainId =>
    match boot c env daemon.disk keypair chainId with
    | .error _ => none
    | .ok daemon => some (daemon, [.booted])

/-- The headers of the blocks that the call makes are among the headers. -/
def known (c : Crates) (headers : Set BlockHeader) (daemon : Daemon) : DaemonCall → Prop
  | .tick env => daemon.engine.knows c headers (.createProposal env)
  | _ => True

def boots (log : List DaemonEvent) : Nat := log.countP (· = .booted)

def isReport : DaemonEvent → Bool
  | .gauges .. => true
  | .newHead .. => true
  | _ => false

/-- The engine is one height ahead of the store until its task is over. A block
that a failed commit has left in memory is not on the disk. -/
structure Extends (c : Crates) (headers : Set BlockHeader) (daemon : Daemon)
    (chain lost : List Block) (started : Nat) : Prop where
  shows : daemon.engine.stateDb.ShowsChain c headers (chain ++ lost)
  disk : (StateDB.new c daemon.disk).ShowsChain c headers chain
  nonempty : chain ≠ []
  length : chain.length ≤ started + 1
  few : lost.length ≤ 1
  panicked : lost ≠ [] → daemon.phase = .panicked
  turn : daemon.phase.isOver = false → chain.length ≤ started
  height : daemon.phase.isOver = false →
    daemon.engine.currentHeight = daemon.engine.stateDb.getLatestHeight + 1
  proposed : ∀ block, daemon.phase = .proposed block → block.header ∈ headers ∧
    block.header.height = daemon.engine.currentHeight ∧
    ∀ prev, chain.getLast? = some prev → block.header.prevHash = prev.hash c
  prevoted : ∀ vote, daemon.phase = .prevoted vote → daemon.engine.completesPrevote c vote = false
  precommitted : ∀ vote, daemon.phase ≠ .precommitted vote

variable {c : Crates} {headers : Set BlockHeader} {daemon daemon' daemon'' : Daemon}
  {chain lost : List Block} {started : Nat} {env : Env} {kv : KeyValueStore} {keypair : SecretKey}
  {chainId : Bytes} {out log log' : List DaemonEvent}

theorem showsChain_new {stateDb : StateDB} (h : stateDb.ShowsChain c headers chain) :
    (StateDB.new c stateDb.kv).ShowsChain c headers chain :=
  ⟨h.holds.congr rfl, h.chained, h.known⟩

theorem Extends.active {stateDb : StateDB} (hshows : stateDb.ShowsChain c headers chain)
    (hne : chain ≠ []) (hlength : chain.length ≤ started) :
    (active c stateDb keypair chainId).Extends c headers chain [] started where
  shows := (List.append_nil chain).symm ▸ hshows
  disk := showsChain_new hshows
  nonempty := hne
  length := Nat.le_succ_of_le hlength
  few := Nat.zero_le 1
  panicked h := absurd rfl h
  turn _ := hlength
  height _ := rfl
  proposed := by simp [Daemon.active, saved]
  prevoted := by simp [Daemon.active, saved]
  precommitted := by simp [Daemon.active, saved]

theorem Extends.nothing_lost (h : daemon.Extends c headers chain lost started)
    (hopen : daemon.phase.isOver = false) : lost = [] := by
  by_contra hne
  rw [h.panicked hne] at hopen
  cases hopen

theorem Extends.shows_open (h : daemon.Extends c headers chain lost started)
    (hopen : daemon.phase.isOver = false) : daemon.engine.stateDb.ShowsChain c headers chain := by
  have hshows := h.shows
  rwa [h.nothing_lost hopen, List.append_nil] at hshows

/-- A call that has committed nothing leaves the task open at the same height. -/
theorem Extends.returned (h : daemon.Extends c headers chain lost started)
    (hopen : daemon.phase.isOver = false) {engine : ConsensusEngine} {phase : ProductionPhase}
    (hdb : engine.stateDb = daemon.engine.stateDb)
    (hheight : engine.currentHeight = daemon.engine.currentHeight)
    (hproposed : ∀ block, phase = .proposed block → block.header ∈ headers ∧
      block.header.height = engine.currentHeight ∧
      ∀ prev, chain.getLast? = some prev → block.header.prevHash = prev.hash c)
    (hprevoted : ∀ vote, phase = .prevoted vote → engine.completesPrevote c vote = false)
    (hprecommitted : ∀ vote, phase ≠ .precommitted vote) :
    (saved engine phase).Extends c headers chain [] started where
  shows := by
    rw [List.append_nil]
    exact hdb ▸ h.shows_open hopen
  disk := showsChain_new (hdb ▸ h.shows_open hopen)
  nonempty := h.nonempty
  length := h.length
  few := Nat.zero_le 1
  panicked hne := absurd rfl hne
  turn _ := h.turn hopen
  height _ := by
    show engine.currentHeight = engine.stateDb.getLatestHeight + 1
    rw [hheight, hdb, h.height hopen]
  proposed := hproposed
  prevoted := hprevoted
  precommitted := hprecommitted

theorem boot_fresh (hrt : c.BlockRoundTrip) (hempty : kv.data = ∅)
    (hboot : boot c env kv keypair chainId = .ok daemon)
    (hknown : ((genesis c env.now keypair chainId).toGenesisBlock c).header ∈ headers) :
    daemon.Extends c headers [(genesis c env.now keypair chainId).toGenesisBlock c] [] 1 := by
  have hnew : (StateDB.new c kv).getLatestHeight = 0 ∧
      ((StateDB.new c kv).getBlockByHeight c 0).isNone = true := by
    simp [StateDB.getLatestHeight, StateDB.getBlockByHeight, KeyValueStore.get, StateDB.new, hempty]
  rw [boot, if_pos hnew] at hboot
  cases hg : (StateDB.new c kv).applyGenesis c env.ioError (genesis c env.now keypair chainId) with
  | mk db res =>
    rw [hg] at hboot
    cases res with
    | error e => cases hboot
    | ok root =>
      cases hboot
      refine .active ?_ (by simp) (by simp)
      have hstart : (StateDB.new c kv).HoldsChain c [] := .empty hempty
      have hok := congrArg Prod.snd hg
      have hdb := congrArg Prod.fst hg
      obtain ⟨blockBytes, hs, -⟩ := StateDB.writeBlock_ok hok
      have hwritten : ((StateDB.new c kv).applyGenesis c env.ioError
          (genesis c env.now keypair chainId)).1.HoldsChain c
            ([] ++ [(genesis c env.now keypair chainId).toGenesisBlock c]) :=
        hstart.writeBlock hrt hs rfl (by simp)
      rw [hdb] at hwritten
      refine ⟨hwritten, LinkedChain.nil.append rfl (by simp), fun b hb => ?_⟩
      rw [List.mem_singleton.mp hb]
      exact hknown

/-- A store with a chain is opened as it is. -/
theorem boot_again (hshows : (StateDB.new c kv).ShowsChain c headers chain) (hne : chain ≠ []) :
    boot c env kv keypair chainId = .ok (active c (StateDB.new c kv) keypair chainId) := by
  have hblock : ((StateDB.new c kv).getBlockByHeight c 0).isNone = false := by
    rw [hshows.holds.getBlockByHeight]
    cases chain with
    | nil => exact absurd rfl hne
    | cons b chain => rfl
  rw [boot, if_neg (by simp [hblock])]

theorem Extends.tick (h : daemon.Extends c headers chain lost started)
    (hknown : daemon.engine.knows c headers (.createProposal env))
    (hs : daemon.step c (.tick env) = some (daemon', out)) :
    out = [] ∧ daemon'.Extends c headers chain [] started := by
  rw [step] at hs
  cases hphase : daemon.phase with
  | waiting =>
    rw [hphase] at hs
    have hopen : daemon.phase.isOver = false := by rw [hphase]; rfl
    cases hr : daemon.engine.createProposal c env with
    | error p =>
      simp only [hr, Option.some.injEq, Prod.mk.injEq] at hs
      obtain ⟨rfl, rfl⟩ := hs
      have hshows := h.shows
      rw [h.nothing_lost hopen] at hshows
      exact ⟨rfl, hshows, h.disk, h.nonempty, h.length, Nat.zero_le 1, fun hne => absurd rfl hne,
        by simp [ProductionPhase.isOver], by simp [ProductionPhase.isOver], by simp, by simp, by simp⟩
    | ok r =>
      simp only [hr] at hs
      rcases ConsensusEngine.createProposal_cases hr with ⟨e, rfl⟩ | ⟨-, block, hheight, -, rfl⟩
      · cases hs
        exact ⟨rfl, h.returned hopen rfl rfl (by simp) (by simp) (by simp)⟩
      · cases hs
        refine ⟨rfl, h.returned hopen rfl rfl (fun b hb => ?_) (by simp) (by simp)⟩
        obtain rfl : block = b := by simpa using hb
        refine ⟨hknown _ block hr rfl, hheight, fun prev hprev => ?_⟩
        obtain ⟨prevBlock, hstored, hblock⟩ := ConsensusEngine.createProposal_prevBlock hr rfl
        rw [h.height hopen, UInt64.add_sub_cancel, (h.shows_open hopen).holds.getLatestBlock, hprev,
          Option.some.injEq] at hstored
        rw [hblock, hstored]
        rfl
  | proposed b => simp [hphase] at hs
  | prevoted v => simp [hphase] at hs
  | precommitted v => simp [hphase] at hs
  | blocked => simp [hphase] at hs
  | panicked => simp [hphase] at hs

/-- A block that is written stands one above the chain, whether or not the disk
takes it. -/
theorem Extends.written (h : daemon.Extends c headers chain lost started) (hrt : c.BlockRoundTrip)
    (hinj : Set.InjOn (BlockHeader.headerHash c) headers) (hroom : started + 1 < 2 ^ 64)
    {block : Block} (hphase : daemon.phase = .proposed block) {blockBytes : Bytes}
    (hs : c.serializeBlock block = some blockBytes) (overlay : StateOverlay) :
    (daemon.engine.stateDb.commitBlock c env block overlay).1.ShowsChain c headers
      (chain ++ [block]) := by
  obtain ⟨hknown, hheight, hlink⟩ := h.proposed block hphase
  have hpos : 0 < chain.length := List.length_pos_iff.mpr h.nonempty
  have hopen : daemon.phase.isOver = false := by rw [hphase]; rfl
  have hshows := h.shows_open hopen
  have hlength := h.turn hopen
  have hlatest := hshows.holds.latest
  have hnext : block.header.height.toNat = chain.length := by
    rw [hheight, h.height hopen, UInt64.toNat_add, UInt64.toNat_one, hlatest,
      Nat.sub_add_cancel hpos]
    exact Nat.mod_eq_of_lt (by omega)
  exact hshows.writeBlock hrt hinj hknown hs hnext hlink

theorem Extends.committed (h : daemon.Extends c headers chain lost started) (hrt : c.BlockRoundTrip)
    (hinj : Set.InjOn (BlockHeader.headerHash c) headers) (hroom : started + 1 < 2 ^ 64)
    {block : Block} (hphase : daemon.phase = .proposed block) {overlay : StateOverlay} {db : StateDB}
    {root : Hash} (hc : daemon.engine.stateDb.commitBlock c env block overlay = (db, .ok root)) :
    db.ShowsChain c headers (chain ++ [block]) := by
  obtain ⟨blockBytes, hs, -⟩ := StateDB.writeBlock_ok (congrArg Prod.snd hc)
  have hwritten : (daemon.engine.stateDb.commitBlock c env block overlay).1.ShowsChain c headers
      (chain ++ [block]) := h.written hrt hinj hroom hphase hs overlay
  rwa [hc] at hwritten

theorem Extends.panics (h : daemon.Extends c headers chain lost started) (hrt : c.BlockRoundTrip)
    (hinj : Set.InjOn (BlockHeader.headerHash c) headers) (hroom : started + 1 < 2 ^ 64)
    {block : Block} (hphase : daemon.phase = .proposed block) :
    ∃ lost', (daemon.panics c env (some block)).Extends c headers chain lost' started := by
  have hopen : daemon.phase.isOver = false := by rw [hphase]; rfl
  have hmemory : ∃ lost' : List Block, lost'.length ≤ 1 ∧
      (daemon.panics c env (some block)).engine.stateDb.ShowsChain c headers (chain ++ lost') := by
    cases hs : c.serializeBlock block with
    | none =>
      have hshows := h.shows_open hopen
      refine ⟨[], Nat.zero_le 1, ?_⟩
      rw [List.append_nil]
      refine ⟨hshows.holds.congr ?_, hshows.chained, hshows.known⟩
      simp only [Daemon.panics, StateDB.commitBlock, StateDB.writeBlock_fst, hs]
    | some blockBytes => exact ⟨[block], le_rfl, h.written hrt hinj hroom hphase hs _⟩
  obtain ⟨lost', hfew, hshows⟩ := hmemory
  exact ⟨lost', hshows, h.disk, h.nonempty, h.length, hfew, fun _ => rfl,
    by simp [Daemon.panics, ProductionPhase.isOver], by simp [Daemon.panics, ProductionPhase.isOver],
    by simp [Daemon.panics], by simp [Daemon.panics], by simp [Daemon.panics]⟩

theorem Extends.proceed (h : daemon.Extends c headers chain lost started) (hrt : c.BlockRoundTrip)
    (hinj : Set.InjOn (BlockHeader.headerHash c) headers) (hroom : started + 1 < 2 ^ 64)
    (hs : daemon.proceed c env = some (daemon', out)) :
    out = [] ∧ ∃ chain' lost', chain <+: chain' ∧ daemon'.Extends c headers chain' lost' started := by
  rw [Daemon.proceed] at hs
  cases hphase : daemon.phase with
  | waiting => simp [hphase] at hs
  | blocked => simp [hphase] at hs
  | panicked => simp [hphase] at hs
  | proposed block =>
    simp only [hphase] at hs
    have hopen : daemon.phase.isOver = false := by rw [hphase]; rfl
    cases hr : daemon.engine.handleProposal c env block with
    | error p =>
      simp only [hr, Option.some.injEq, Prod.mk.injEq] at hs
      obtain ⟨rfl, rfl⟩ := hs
      obtain ⟨lost', hpanicked⟩ : ∃ lost', (daemon.panics c env (some block)).Extends c headers
          chain lost' started := h.panics hrt hinj hroom hphase
      exact ⟨rfl, chain, lost', List.prefix_rfl, hpanicked⟩
    | ok r =>
      simp only [hr] at hs
      rcases ConsensusEngine.handleProposal_outcome hr with ⟨hfree, hdb, hheight⟩ |
        ⟨hblocked, root, hc⟩
      · rw [if_neg hfree] at hs
        cases hv : r.value with
        | error e =>
          simp only [hv, Option.some.injEq, Prod.mk.injEq] at hs
          obtain ⟨rfl, rfl⟩ := hs
          exact ⟨rfl, chain, [], List.prefix_rfl,
            h.returned hopen hdb hheight (by simp) (by simp) (by simp)⟩
        | ok prevote =>
          simp only [hv, Option.some.injEq, Prod.mk.injEq] at hs
          obtain ⟨rfl, rfl⟩ := hs
          refine ⟨rfl, chain, [], List.prefix_rfl,
            h.returned hopen hdb hheight (by simp) (fun vote hvote => ?_) (by simp)⟩
          obtain rfl : prevote = vote := by simpa using hvote
          exact ConsensusEngine.handlePrevote_repeated hr hv
      · rw [if_pos hblocked, Option.some.injEq, Prod.mk.injEq] at hs
        obtain ⟨rfl, rfl⟩ := hs
        have hshows := h.committed hrt hinj hroom hphase hc
        refine ⟨rfl, chain ++ [block], [], List.prefix_append _ _, ?_, showsChain_new hshows, by simp,
          ?_, Nat.zero_le 1, fun hne => absurd rfl hne, by simp [saved, ProductionPhase.isOver],
          by simp [saved, ProductionPhase.isOver], by simp [saved], by simp [saved], by simp [saved]⟩
        · rw [List.append_nil]
          exact hshows
        · rw [List.length_append, List.length_singleton]
          exact Nat.add_le_add_right (h.turn hopen) 1
  | prevoted vote =>
    simp only [hphase] at hs
    have hopen : daemon.phase.isOver = false := by rw [hphase]; rfl
    have hquiet := h.prevoted vote hphase
    have hfree : (daemon.engine.handlePrevoteLocks c env vote).run [] ≠ .blocked := by
      rw [Ne, handlePrevoteLocks_blocked_iff, Call.prevoteEntersCommit, hquiet]
      simp
    simp only [ConsensusEngine.handlePrevote_quiet hquiet env, if_neg hfree, Option.some.injEq,
      Prod.mk.injEq] at hs
    obtain ⟨rfl, rfl⟩ := hs
    exact ⟨rfl, chain, [], List.prefix_rfl,
      h.returned hopen rfl rfl (by simp) (by simp) (by simp)⟩
  | precommitted vote => exact absurd hphase (h.precommitted vote)

theorem Extends.withPool (h : daemon.Extends c headers chain lost started) (mempool : Mempool) :
    (daemon.withPool mempool).Extends c headers chain lost started :=
  ⟨h.shows, h.disk, h.nonempty, h.length, h.few, h.panicked, h.turn, h.height, h.proposed, h.prevoted,
    h.precommitted⟩

theorem step_send {tx : Transaction}
    (hs : daemon.step c (.sendTransaction tx) = some (daemon', out)) :
    ∃ mempool result, daemon.engine.mempool.addTransaction c tx daemon.engine.stateDb =
        some (mempool, result) ∧ daemon' = daemon.withPool mempool ∧
      ∀ e ∈ out, ∃ hash, e = .newTransaction tx hash := by
  rw [step] at hs
  split_ifs at hs
  obtain ⟨⟨mempool, result⟩, hadd, he⟩ := Option.map_eq_some_iff.mp hs
  obtain ⟨rfl, rfl⟩ := Prod.mk.inj he
  refine ⟨mempool, result, hadd, rfl, fun e hm => ?_⟩
  cases result with
  | ok hash => exact ⟨hash, by simpa using hm⟩
  | error e => simp at hm

theorem Extends.restart (h : daemon.Extends c headers chain lost started) {chainId : Bytes}
    (hs : daemon.step c (.restart env keypair chainId) = some (daemon', out)) :
    out = [.booted] ∧ daemon'.Extends c headers chain [] (started + 1) := by
  rw [step, boot_again h.disk h.nonempty] at hs
  cases hs
  exact ⟨rfl, .active h.disk h.nonempty h.length⟩

theorem boots_append (log out : List DaemonEvent) : boots (log ++ out) = boots log + boots out :=
  List.countP_append

theorem Extends.step (h : daemon.Extends c headers chain lost started) (hrt : c.BlockRoundTrip)
    (hinj : Set.InjOn (BlockHeader.headerHash c) headers) (hroom : started + 1 < 2 ^ 64)
    {call : DaemonCall} (hknown : daemon.known c headers call)
    (hs : daemon.step c call = some (daemon', out)) :
    (∀ e ∈ out, isReport e = false) ∧ ∃ chain' lost', chain <+: chain' ∧
      daemon'.Extends c headers chain' lost' (started + boots out) := by
  cases call with
  | tick env =>
    obtain ⟨rfl, hnext⟩ := h.tick hknown hs
    exact ⟨by simp, chain, [], List.prefix_rfl, hnext⟩
  | proceed env =>
    obtain ⟨rfl, chain', lost', hpre, hnext⟩ := h.proceed hrt hinj hroom hs
    exact ⟨by simp, chain', lost', hpre, hnext⟩
  | sendTransaction tx =>
    obtain ⟨mempool, result, -, rfl, hout⟩ := step_send hs
    have hboots : boots out = 0 := by
      refine List.countP_eq_zero.mpr fun e he => ?_
      obtain ⟨hash, rfl⟩ := hout e he
      simp
    refine ⟨fun e he => ?_, chain, lost, List.prefix_rfl, ?_⟩
    · obtain ⟨hash, rfl⟩ := hout e he
      rfl
    · rw [hboots]
      exact h.withPool mempool
  | sendHangs mempool =>
    cases hs
    exact ⟨by simp, chain, lost, List.prefix_rfl, h.withPool mempool⟩
  | restart env keypair chainId =>
    obtain ⟨rfl, hnext⟩ := h.restart hs
    exact ⟨by simp [isReport], chain, [], List.prefix_rfl, hnext⟩

/-- In a run with some restarts each start adds one block at most. -/
theorem Extends.run (h : daemon.Extends c headers chain lost started) (hrt : c.BlockRoundTrip)
    (hinj : Set.InjOn (BlockHeader.headerHash c) headers)
    (hrun : TracedRun (Daemon.step c) (fun daemon call => daemon.known c headers call) (daemon, [])
      (daemon', log)) (hroom : started + boots log + 1 < 2 ^ 64) :
    (∀ e ∈ log, isReport e = false) ∧ ∃ chain' lost', chain <+: chain' ∧
      daemon'.Extends c headers chain' lost' (started + boots log) := by
  refine TracedRun.invariant (P := fun d log => started + boots log + 1 < 2 ^ 64 →
    (∀ e ∈ log, isReport e = false) ∧ ∃ chain' lost', chain <+: chain' ∧
      d.Extends c headers chain' lost' (started + boots log)) hrun ?_ ?_ hroom
  · exact fun _ => ⟨by simp, chain, lost, List.prefix_rfl, h⟩
  · intro d log call d' out hP hcall hs hlog
    rw [boots_append] at hlog
    obtain ⟨hsilent, chain', lost', hpre, hextends⟩ := hP (by omega)
    obtain ⟨hout, chain'', lost'', hpre', hextends'⟩ :=
      hextends.step hrt hinj (by omega) hcall hs
    refine ⟨fun e he => ?_, chain'', lost'', hpre.trans hpre', ?_⟩
    · rcases List.mem_append.mp he with he | he
      · exact hsilent e he
      · exact hout e he
    · rwa [boots_append, ← Nat.add_assoc]

/-- The blocks of the disk are all that was added before, so that the number of
starts may be counted from them on. -/
theorem Extends.recount (h : daemon.Extends c headers chain lost started) :
    daemon.Extends c headers chain lost chain.length :=
  ⟨h.shows, h.disk, h.nonempty, Nat.le_succ _, h.few, h.panicked, fun _ => le_rfl, h.height,
    h.proposed, h.prevoted, h.precommitted⟩

/-- Over its whole life a node keeps one chain on its disk from its genesis on. Each
start adds one block at most, and no block is ever announced. -/
theorem run_chain (hrt : c.BlockRoundTrip) (hinj : Set.InjOn (BlockHeader.headerHash c) headers)
    (hempty : kv.data = ∅) (hboot : boot c env kv keypair chainId = .ok daemon)
    (hknown : ((genesis c env.now keypair chainId).toGenesisBlock c).header ∈ headers)
    (hrun : TracedRun (step c) (fun daemon call => daemon.known c headers call) (daemon, [])
      (daemon', log))
    (hlater : TracedRun (step c) (fun daemon call => daemon.known c headers call) (daemon', [])
      (daemon'', log')) (hroom : boots log + boots log' + 3 < 2 ^ 64) :
    ∃ chain added lost, (StateDB.new c daemon'.disk).ShowsChain c headers
        ((genesis c env.now keypair chainId).toGenesisBlock c :: chain) ∧
      (StateDB.new c daemon''.disk).ShowsChain c headers
        ((genesis c env.now keypair chainId).toGenesisBlock c :: chain ++ added) ∧
      added.length ≤ boots log' + 1 ∧
      daemon''.engine.stateDb.ShowsChain c headers
        ((genesis c env.now keypair chainId).toGenesisBlock c :: chain ++ added ++ lost) ∧
      lost.length ≤ 1 ∧ (lost ≠ [] → daemon''.phase = .panicked) ∧
      ∀ e ∈ log ++ log', isReport e = false := by
  obtain ⟨hsilent, _, lost, ⟨chain, rfl⟩, hextends⟩ :=
    (boot_fresh hrt hempty hboot hknown).run hrt hinj hrun (by omega)
  have hlength := hextends.length
  obtain ⟨hsilent', _, lost', ⟨added, rfl⟩, hextends'⟩ :=
    hextends.recount.run hrt hinj hlater (by omega)
  have hadded := hextends'.length
  refine ⟨chain, added, lost', hextends.disk, hextends'.disk, ?_, hextends'.shows, hextends'.few,
    hextends'.panicked, fun e he => ?_⟩
  · rw [List.length_append] at hadded
    omega
  · rcases List.mem_append.mp he with he | he
    · exact hsilent e he
    · exact hsilent' e he

section Alone

variable {engine : ConsensusEngine} {env' : Env} {v : ValidatorInfo} {prevBlock : Block}
  {stateDb : StateDB}

theorem selectProposer_alone (hpower : 0 < v.votingPower) (height : UInt64) (round : UInt32) :
    selectProposer c height round [v] = some v := by
  have htotal : totalPower [v] = v.votingPower := by simp [totalPower, UInt64.sum]
  have hne : v.votingPower ≠ 0 := (UInt64.ne_of_lt hpower).symm
  have hlt : proposerSeed c height round % v.votingPower < v.votingPower := UInt64.mod_lt _ hpower
  simp [selectProposer, htotal, hne, pickProposer, hlt]

theorem sees_alone (hactive : engine.getActiveValidators c = [v]) (hpower : 0 < v.votingPower)
    {vote : Vote} (hvote : vote.validator = v.address) : engine.sees c [vote] = true := by
  rw [UInt64.lt_iff_toNat_lt, UInt64.toNat_zero] at hpower
  simp [ConsensusEngine.sees, hactive, totalPower, votePower, findValidator, hvote, UInt64.sum,
    isQuorum, UInt64.lt_iff_toNat_lt]
  omega

/-- The sole validator commits its proposal with its own two votes, and the call
that commits is where it blocks. -/
theorem alone_enters_commit {engine : ConsensusEngine} {block : Block}
    (hactive : engine.getActiveValidators c = [v]) (hpower : 0 < v.votingPower)
    (hown : v.address = Address.fromPubkey c (c.verifyingKey engine.keypair))
    (hprevotes : engine.prevotes = ∅) (hprecommits : engine.precommits = ∅)
    (haccepts : engine.accepts c block = true)
    (hstores : engine.stateDb.commitFails c env block = false) :
    (∃ r, engine.handleProposal c env block = .ok r) ∧
      (engine.handleProposalLocks c env block).run [] = .blocked := by
  have hfirst : ∀ vote, recordVote ∅ vote = [vote] := by
    intro vote
    simp [recordVote, hasVoted]
  have hprevote : ConsensusEngine.completesPrevote c
      { engine with proposedBlock := some block, step := .preVote }
      (engine.ownPrevote c (block.hash c)) = true := by
    refine (Bool.and_eq_true _ _).mpr ⟨?_, rfl⟩
    rw [hprevotes, hfirst]
    exact sees_alone hactive hpower hown.symm
  have hprecommit : ConsensusEngine.completesPrecommit c
      { ConsensusEngine.recordPrevote { engine with proposedBlock := some block, step := .preVote }
        (engine.ownPrevote c (block.hash c)) with step := .preCommit }
      (engine.ownPrecommit c (block.hash c)) = true := by
    refine (Bool.and_eq_true _ _).mpr ⟨?_, rfl⟩
    simp only [ConsensusEngine.recordPrevote]
    rw [hprecommits, hfirst]
    exact sees_alone hactive hpower hown.symm
  have haccepted : ¬ ConsensusEngine.refusesProposal c env
      { ConsensusEngine.recordPrevote { engine with proposedBlock := some block, step := .preVote }
        (engine.ownPrevote c (block.hash c)) with step := .preCommit } (block.hash c) := by
    rintro ⟨b, hb, -, hfails⟩
    have hblock : block = b := Option.some.inj hb
    rw [← hblock] at hfails
    exact absurd (hstores.symm.trans hfails) (by simp)
  constructor
  · have hreturns := ConsensusEngine.handlePrevote_ok_iff.mpr
      (show ¬ ConsensusEngine.prevotePanics c env
        { engine with proposedBlock := some block, step := .preVote }
        (engine.ownPrevote c (block.hash c)) from fun h => haccepted h.2.2)
    obtain ⟨inner, hi⟩ := hreturns
    exact ⟨⟨inner.engine, .ok (engine.ownPrevote c (block.hash c)),
      .signed (engine.ownPrevote c (block.hash c)) :: inner.log⟩,
      by simp only [ConsensusEngine.handleProposal, haccepts, if_true, hi]⟩
  · exact handleProposalLocks_blocked_iff.mpr ⟨haccepts, hprevote, hprecommit, haccepted⟩

theorem createProposal_alone (env : Env) (hactive : engine.getActiveValidators c = [v])
    (hpower : 0 < v.votingPower)
    (hown : v.address = Address.fromPubkey c (c.verifyingKey engine.keypair))
    (hvalidator : engine.validatorAddress = v.address)
    (hprev : engine.stateDb.getBlockByHeight c (engine.currentHeight - 1) = some prevBlock) :
    engine.createProposal c env = .ok ⟨{ engine with
        proposedBlock := some (engine.ownProposal c env prevBlock), step := .propose },
      .ok (engine.ownProposal c env prevBlock), []⟩ := by
  have hsigner : Address.fromPubkey c (c.verifyingKey engine.keypair) =
      (engine.proposalHeader c env prevBlock (engine.mempool.harvest (1024 * 1024))).proposer :=
    hown.symm.trans hvalidator.symm
  rw [ConsensusEngine.createProposal]
  simp only [hactive, selectProposer_alone hpower, hvalidator, ne_eq, not_true_eq_false, if_false,
    hprev, BlockHeader.sign, hsigner]
  rfl

/-- Transactions change nothing but the pool. -/
theorem sends_run (hrun : TracedRun (step c) (fun _ call => ∃ tx, call = .sendTransaction tx)
      (active c stateDb keypair chainId, []) (daemon, log)) :
    ∃ pool, Mempool.Reachable c MempoolConfig.default pool ∧
      daemon = saved (ConsensusEngine.new c keypair stateDb pool chainId) .waiting := by
  refine TracedRun.invariant (P := fun d _ => ∃ pool, Mempool.Reachable c MempoolConfig.default pool ∧
    d = saved (ConsensusEngine.new c keypair stateDb pool chainId) .waiting) hrun ?_ ?_
  · exact ⟨_, ⟨[], .refl⟩, rfl⟩
  · rintro d _ _ d' out ⟨pool, ⟨poolLog, hpool⟩, rfl⟩ ⟨tx, rfl⟩ hs
    obtain ⟨pool', result, hadd, rfl, -⟩ := step_send hs
    have hadded : Mempool.step c pool (.addTransaction tx stateDb) = some (pool', [result]) := by
      rw [Mempool.step]
      exact Option.map_eq_some_iff.mpr ⟨_, hadd, rfl⟩
    exact ⟨pool', ⟨_, hpool.tail ⟨_, _, trivial, hadded, rfl⟩⟩, rfl⟩

theorem lone_tick {pool : Mempool} (env : Env)
    (hactive : (ConsensusEngine.new c keypair stateDb pool chainId).getActiveValidators c = [v])
    (hpower : 0 < v.votingPower) (hown : v.address = Address.fromPubkey c (c.verifyingKey keypair))
    (hprev : stateDb.getBlockByHeight c stateDb.getLatestHeight = some prevBlock) :
    ∃ mid : Daemon, step c (saved (.new c keypair stateDb pool chainId) .waiting) (.tick env) =
        some (mid, []) ∧
      mid = saved { ConsensusEngine.new c keypair stateDb pool chainId with
          proposedBlock := some ((ConsensusEngine.new c keypair stateDb pool chainId).ownProposal c
            env prevBlock), step := .propose }
        (.proposed ((ConsensusEngine.new c keypair stateDb pool chainId).ownProposal c env prevBlock))
      := by
  have hstored : (ConsensusEngine.new c keypair stateDb pool chainId).stateDb.getBlockByHeight c
      ((ConsensusEngine.new c keypair stateDb pool chainId).currentHeight - 1) = some prevBlock := by
    show stateDb.getBlockByHeight c (stateDb.getLatestHeight + 1 - 1) = some prevBlock
    rw [UInt64.add_sub_cancel, hprev]
  have hcreated := createProposal_alone env hactive hpower hown hown.symm hstored
  refine ⟨_, ?_, rfl⟩
  simp only [step, saved, hcreated]

/-- A node that starts as the sole validator, whatever is sent to it before its
first proposal, stores that proposal on its chain by a call that never returns. A
send that hangs leaves some of the pool. -/
theorem lone_start_commits (hrt : c.BlockRoundTrip)
    (hinj : Set.InjOn (BlockHeader.headerHash c) headers) (hroom : chain.length + 1 < 2 ^ 64)
    (hshows : stateDb.ShowsChain c headers chain) (hlast : chain.getLast? = some prevBlock)
    (hactive : (active c stateDb keypair chainId).engine.getActiveValidators c = [v])
    (hpower : 0 < v.votingPower) (hown : v.address = Address.fromPubkey c (c.verifyingKey keypair))
    (hrun : TracedRun (step c) (fun _ call => ∃ tx, call = .sendTransaction tx)
      (active c stateDb keypair chainId, []) (daemon, log)) {pool : Mempool}
    (hleft : ∀ (h : Hash) (tx : Transaction), pool.byHash[h]? = some tx →
      daemon.engine.mempool.byHash[h]? = some tx)
    (hknown : ((daemon.withPool pool).engine.ownProposal c env prevBlock).header ∈ headers)
    (hstores : stateDb.commitFails c env'
      ((daemon.withPool pool).engine.ownProposal c env prevBlock) = false) :
    ∃ mid last, (daemon.withPool pool).step c (.tick env) = some (mid, []) ∧
      mid.step c (.proceed env') = some (last, []) ∧ last.phase = .blocked ∧
      (StateDB.new c last.disk).ShowsChain c headers
        (chain ++ [(daemon.withPool pool).engine.ownProposal c env prevBlock]) := by
  obtain ⟨before, hreach, rfl⟩ := sends_run hrun
  have hne : chain ≠ [] := by
    rintro rfl
    cases hlast
  have hverified : ∀ tx ∈ pool.harvest (1024 * 1024), tx.verify c = .ok () := by
    intro tx htx
    obtain ⟨key, -, hl⟩ := Mempool.harvestKeys_mem htx
    exact ConsensusEngine.pooled_verified hreach (hleft _ tx hl)
  have hpool : (saved (ConsensusEngine.new c keypair stateDb before chainId) .waiting).withPool pool =
      saved (ConsensusEngine.new c keypair stateDb pool chainId) .waiting := rfl
  rw [hpool] at hknown hstores ⊢
  set engine := ConsensusEngine.new c keypair stateDb pool chainId
  set block := engine.ownProposal c env prevBlock
  have hprev : stateDb.getBlockByHeight c stateDb.getLatestHeight = some prevBlock := by
    rw [hshows.holds.getLatestBlock, hlast]
  obtain ⟨mid, htick, rfl⟩ := lone_tick env
    (show engine.getActiveValidators c = [v] from hactive) hpower hown hprev
  set proposing : ConsensusEngine := { engine with proposedBlock := some block, step := .propose }
  have haccepts : proposing.accepts c block = true :=
    decide_eq_true ⟨rfl, rfl, Block.validateBasic_ok_iff.mpr ⟨rfl, hverified⟩⟩
  have hstart : (active c stateDb keypair chainId).Extends c headers chain [] chain.length :=
    .active hshows hne le_rfl
  have hopen : (saved engine .waiting).Extends c headers chain [] chain.length :=
    hstart.withPool pool
  have hmid : (saved proposing (.proposed block)).Extends c headers chain [] chain.length := by
    refine hopen.returned rfl rfl rfl (fun b hb => ?_) (by simp) (by simp)
    obtain rfl : block = b := by simpa using hb
    refine ⟨hknown, rfl, fun prev hp => ?_⟩
    rw [hlast, Option.some.injEq] at hp
    rw [← hp]
    rfl
  obtain ⟨⟨r, hr⟩, hblocked⟩ := alone_enters_commit (show proposing.getActiveValidators c = [v] from
    hactive) hpower hown rfl rfl haccepts hstores
  rcases ConsensusEngine.handleProposal_outcome hr with ⟨hfree, -⟩ | ⟨-, root, hc⟩
  · exact absurd hblocked hfree
  · refine ⟨_, saved r.engine .blocked, htick, ?_, rfl,
      showsChain_new (hmid.committed hrt hinj hroom rfl hc)⟩
    show Daemon.proceed c env' (saved proposing (.proposed block)) = _
    simp only [Daemon.proceed, saved, hr, hblocked, if_true]

end Alone

end Daemon

namespace LoneStart

/-- The digest of the reference crates, but for the nodes of state trees: they
hash to zero, so that a root takes few steps. -/
def hash (data : Bytes) : Hash :=
  if Reference.nodePrefix.isPrefixOf data then Hash.zero
  else FixedBytes.ofNat 32 (Reference.digest data)

def crates : Crates := { Reference.crates [] with blake3 := hash }.withBincode

theorem blockRoundTrip : crates.BlockRoundTrip := Crates.withBincode_blockRoundTrip _

def keypair : SecretKey := Reference.secretKey 1

def chainId : Bytes := ascii "aura-testnet"

def genesis : GenesisConfig := Daemon.genesis crates 0 keypair chainId

def stateDb : StateDB := ((StateDB.openInMemory crates).applyGenesis crates none genesis).1

def daemon : Daemon := Daemon.active crates stateDb keypair chainId

def proposal : Block :=
  daemon.engine.ownProposal crates Reference.env (genesis.toGenesisBlock crates)

theorem boots : Daemon.boot crates Reference.env KeyValueStore.openInMemory keypair chainId =
    .ok daemon := rfl

def headers : Set BlockHeader := {(genesis.toGenesisBlock crates).header, proposal.header}

theorem headerHash_injOn : Set.InjOn (BlockHeader.headerHash crates) headers := by
  refine Set.injOn_pair.mpr fun h => absurd h ?_
  decide +kernel

theorem extends_genesis : daemon.Extends crates headers [genesis.toGenesisBlock crates] [] 1 :=
  Daemon.boot_fresh blockRoundTrip rfl boots (Set.mem_insert _ _)

theorem active_validators : daemon.engine.getActiveValidators crates =
    [⟨Address.fromPubkey crates (crates.verifyingKey keypair), crates.verifyingKey keypair,
      10000000000⟩] := by decide +kernel

theorem shows_genesis : stateDb.ShowsChain crates headers [genesis.toGenesisBlock crates] :=
  extends_genesis.shows_open rfl

theorem createProposal_known : daemon.known crates headers (.tick Reference.env) := by
  intro r block hr hb
  obtain ⟨prevBlock, hstored, rfl⟩ := ConsensusEngine.createProposal_prevBlock hr hb
  have hheight : daemon.engine.currentHeight - 1 = stateDb.getLatestHeight :=
    UInt64.add_sub_cancel _ _
  have hdb : daemon.engine.stateDb = stateDb := rfl
  rw [hheight, hdb, shows_genesis.holds.getLatestBlock, List.getLast?_singleton,
    Option.some.injEq] at hstored
  rw [← hstored]
  exact Set.mem_insert_of_mem _ rfl

/-- The first start ends before its proposal is committed. -/
theorem run_chain_restarted : ∃ mid daemon' log, daemon.step crates (.tick Reference.env) =
      some (mid, []) ∧ mid.step crates (.restart Reference.env keypair chainId) = some (daemon', log) ∧
    ∃ added, (StateDB.new crates daemon'.disk).ShowsChain crates headers
      (genesis.toGenesisBlock crates :: added) ∧ added.length ≤ 2 := by
  have hprev : stateDb.getBlockByHeight crates stateDb.getLatestHeight =
      some (genesis.toGenesisBlock crates) := shows_genesis.holds.getLatestBlock
  obtain ⟨mid, hticked, -⟩ := Daemon.lone_tick Reference.env active_validators (by decide) rfl hprev
  have htick : daemon.step crates (.tick Reference.env) = some (mid, []) := hticked
  have hmid := (extends_genesis.tick createProposal_known htick).2
  have hrestart : mid.step crates (.restart Reference.env keypair chainId) =
      some (Daemon.active crates (StateDB.new crates mid.disk) keypair chainId, [.booted]) := by
    rw [Daemon.step, Daemon.boot_again hmid.disk hmid.nonempty]
  have hfirst : TracedStep (Daemon.step crates) (fun d call => d.known crates headers call)
      (daemon, []) (mid, []) := ⟨_, _, createProposal_known, htick, rfl⟩
  have hsecond : TracedStep (Daemon.step crates) (fun d call => d.known crates headers call)
      (mid, []) (Daemon.active crates (StateDB.new crates mid.disk) keypair chainId, [.booted]) :=
    ⟨.restart Reference.env keypair chainId, _, trivial, hrestart, rfl⟩
  obtain ⟨chain, added, -, hfresh, hshows, hlength, -⟩ := Daemon.run_chain blockRoundTrip
    headerHash_injOn rfl boots (Set.mem_insert _ _) .refl
    ((Relation.ReflTransGen.single hfirst).tail hsecond) (by decide)
  have hempty : chain = [] := by
    have hlatest := hfresh.holds.latest
    have hsame := extends_genesis.disk.holds.latest
    rw [hsame] at hlatest
    simpa using hlatest.symm
  rw [hempty] at hshows
  exact ⟨mid, _, _, htick, hrestart, added, hshows, hlength⟩

theorem lone_start_commits_empty : ∃ mid last,
    daemon.step crates (.tick Reference.env) = some (mid, []) ∧
    mid.step crates (.proceed Reference.env) = some (last, []) ∧ last.phase = .blocked ∧
    (StateDB.new crates last.disk).ShowsChain crates headers
      [genesis.toGenesisBlock crates, proposal] := by
  have hstores : stateDb.commitFails crates Reference.env proposal = false := by decide +kernel
  exact Daemon.lone_start_commits blockRoundTrip headerHash_injOn (by simp)
    shows_genesis rfl active_validators (by decide) rfl .refl (fun _ _ hl => hl)
    (Set.mem_insert_of_mem _ rfl) hstores

end LoneStart

end AuraChain
