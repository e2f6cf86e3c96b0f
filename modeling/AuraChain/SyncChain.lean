import AuraChain.StoredChain
import AuraChain.SyncSpec

/-! Runs of the syncer over arbitrary batches, from a genesis block on. Every
prefix of every batch leaves one chain in the store. -/

namespace AuraChain

/-- One chain can be read from the store, from height zero to the latest. -/
structure StateDB.WellLinked (c : Crates) (db : StateDB) : Prop where
  stored : ∀ height, (db.getBlockByHeight c height).isSome = true ↔ height ≤ db.getLatestHeight
  height_eq : ∀ height block, db.getBlockByHeight c height = some block → block.header.height = height
  linked : ∀ height block, 1 ≤ height → db.getBlockByHeight c height = some block →
    ∃ prev, db.getBlockByHeight c (height - 1) = some prev ∧ block.header.prevHash = prev.hash c

structure StateDB.ShowsChain (c : Crates) (headers : Set BlockHeader) (db : StateDB)
    (chain : List Block) : Prop where
  holds : db.HoldsChain c chain
  chained : Block.Linked c chain
  known : ∀ b ∈ chain, b.header ∈ headers

namespace StateDB

variable {c : Crates} {headers : Set BlockHeader} {db : StateDB} {chain : List Block} {block : Block}
  {ioError : Option StorageError} {writes : List (Address × Account)}

theorem writeBlock_size (c : Crates) (ioError : Option StorageError) (db : StateDB)
    (writes : List (Address × Account)) (block : Block) (height : UInt64) :
    db.kv.data.size ≤ (db.writeBlock c ioError writes block height).1.kv.data.size := by
  rw [writeBlock_fst]
  cases c.serializeBlock block with
  | none => exact le_rfl
  | some blockBytes => exact size_le_writtenData

namespace ShowsChain

/-- No two blocks of the chain share a hash with the next one, as their heights
differ and so their headers. -/
theorem writeBlock (h : db.ShowsChain c headers chain) (hrt : c.BlockRoundTrip)
    (hinj : Set.InjOn (BlockHeader.headerHash c) headers) (hknown : block.header ∈ headers)
    {blockBytes : Bytes} (hs : c.serializeBlock block = some blockBytes)
    (hheight : block.header.height.toNat = chain.length)
    (hlink : ∀ prev, chain.getLast? = some prev → block.header.prevHash = prev.hash c) :
    (db.writeBlock c ioError writes block block.header.height).1.ShowsChain c headers
      (chain ++ [block]) := by
  have hfresh : ∀ b ∈ chain, block.hash c ≠ b.hash c := by
    intro b hb he
    have hheader : block.header = b.header := hinj hknown (h.known b hb) he
    have hlt := h.chained.number_lt hb
    simp only [← hheader, hheight] at hlt
    exact Nat.lt_irrefl _ hlt
  refine ⟨h.holds.writeBlock hrt hs hheight hfresh, h.chained.append hheight hlink, ?_⟩
  intro b hb
  rcases List.mem_append.mp hb with hb | hb
  · exact h.known b hb
  · rw [List.mem_singleton.mp hb]
    exact hknown

theorem wellLinked (h : db.ShowsChain c headers chain) (hne : chain ≠ []) : db.WellLinked c := by
  have hpos : 0 < chain.length := List.length_pos_iff.mpr hne
  have hlatest := h.holds.latest
  constructor
  · intro height
    rw [h.holds.getBlockByHeight, UInt64.le_iff_toNat_le, Option.isSome_iff_ne_none, ne_eq,
      List.getElem?_eq_none_iff]
    omega
  · intro height block hb
    rw [h.holds.getBlockByHeight] at hb
    exact UInt64.toNat_inj.mp (h.chained.number_eq hb)
  · intro height block hone hb
    have hsub : (height - 1).toNat + 1 = height.toNat := by
      have hone' : 1 ≤ height.toNat := UInt64.le_iff_toNat_le.mp hone
      rw [UInt64.toNat_sub_of_le _ _ hone]
      exact Nat.sub_add_cancel hone'
    rw [h.holds.getBlockByHeight, ← hsub] at hb
    have hlt := (List.getElem?_eq_some_iff.mp hb).1
    have hprev := List.getElem?_eq_getElem (l := chain) (i := (height - 1).toNat) (by omega)
    rw [h.holds.getBlockByHeight]
    exact ⟨_, hprev, h.chained.parent_eq hprev hb⟩

theorem stored (h : db.ShowsChain c headers chain) (hne : chain ≠ []) :
    (db.getBlockByHeight c db.getLatestHeight).isSome = true :=
  ((h.wellLinked hne).stored _).mpr (UInt64.le_refl _)

end ShowsChain

end StateDB

namespace ChainSyncer

structure SyncCall where
  env : Block → Env
  blocks : List Block

/-- A call emits its result, and a panic ends the run. -/
def syncStep (c : Crates) (db : StateDB) (call : SyncCall) :
    Option (StateDB × List (Except SyncError UInt64)) :=
  match applyBlockBatch c call.env db call.blocks with
  | .ok (db', result) => some (db', [result])
  | .error _ => none

/-- A chain is there as long as the store has room for it. -/
def Synced (c : Crates) (headers : Set BlockHeader) (db : StateDB) : Prop :=
  db.kv.data.size < 2 ^ 64 → ∃ chain, chain ≠ [] ∧ db.ShowsChain c headers chain

variable {c : Crates} {headers : Set BlockHeader} {db : StateDB}

theorem Synced.transition (hrt : c.BlockRoundTrip)
    (hinj : Set.InjOn (BlockHeader.headerHash c) headers) (h : Synced c headers db) {env : Env}
    {block : Block} (hknown : block.header ∈ headers) (hextends : db.Extends c block) :
    Synced c headers (transition c env db block).1 := by
  intro hsize
  have hgrow := db.writeBlock_size c env.ioError
    (env.order (block.transactions.foldl (applyTransaction c db) StateOverlay.new)) block
    block.header.height
  have hfits : db.kv.data.size < 2 ^ 64 := hgrow.trans_lt hsize
  obtain ⟨chain, hne, hchain⟩ := h hfits
  cases hs : c.serializeBlock block with
  | none =>
    refine ⟨chain, hne, hchain.holds.congr ?_, hchain.chained, hchain.known⟩
    rw [ChainSyncer.transition, StateDB.commitBlock, StateDB.writeBlock_fst, hs]
  | some blockBytes =>
    have hpos : 0 < chain.length := List.length_pos_iff.mpr hne
    have hlatest := hchain.holds.latest
    have hroom := hchain.holds.size
    have hheight : block.header.height.toNat = chain.length := by
      rw [hextends.height, UInt64.toNat_add, UInt64.toNat_one, hlatest]
      omega
    refine ⟨chain ++ [block], by simp, hchain.writeBlock hrt hinj hknown hs hheight ?_⟩
    intro prev hprev
    obtain ⟨prev', hprev', hlink⟩ := hextends.linked
    rw [hchain.holds.getLatestBlock, hprev, Option.some.injEq] at hprev'
    rw [hprev', hlink]

theorem Synced.applyGenesis (hrt : c.BlockRoundTrip)
    (hinj : Set.InjOn (BlockHeader.headerHash c) headers) (hempty : db.kv.data = ∅)
    {genesis : GenesisConfig} (hknown : (genesis.toGenesisBlock c).header ∈ headers)
    (hs : (c.serializeBlock (genesis.toGenesisBlock c)).isSome = true)
    (ioError : Option StorageError) : Synced c headers (db.applyGenesis c ioError genesis).1 := by
  intro _
  obtain ⟨blockBytes, hs⟩ := Option.isSome_iff_exists.mp hs
  have hstart : db.ShowsChain c headers [] := ⟨.empty hempty, .nil, by simp⟩
  exact ⟨[genesis.toGenesisBlock c], by simp,
    hstart.writeBlock hrt hinj hknown hs rfl (by simp)⟩

/-- Whatever batches it is given, a syncer that starts from a genesis block keeps
one chain in its store and reports its height. The map of the store counts its
entries in a machine word. -/
theorem sync_keeps_chain (hrt : c.BlockRoundTrip)
    (hinj : Set.InjOn (BlockHeader.headerHash c) headers) {start : StateDB}
    (hempty : start.kv.data = ∅) {genesis : GenesisConfig}
    (hknown : (genesis.toGenesisBlock c).header ∈ headers)
    (hs : (c.serializeBlock (genesis.toGenesisBlock c)).isSome = true)
    {ioError : Option StorageError} {log : List (Except SyncError UInt64)}
    (hrun : TracedRun (syncStep c) (fun _ call => ∀ b ∈ call.blocks, b.header ∈ headers)
      ((start.applyGenesis c ioError genesis).1, []) (db, log))
    (hsize : db.kv.data.size < 2 ^ 64) :
    db.WellLinked c ∧ (∀ height, log.getLast? = some (.ok height) → height = db.getLatestHeight) ∧
      ∀ env blocks p, applyBlockBatch c env db blocks ≠ .error p := by
  have hall : Synced c headers db ∧
      ∀ height, log.getLast? = some (.ok height) → height = db.getLatestHeight := by
    refine TracedRun.invariant (P := fun db log => Synced c headers db ∧
      ∀ height, log.getLast? = some (.ok height) → height = db.getLatestHeight) hrun
      ⟨.applyGenesis hrt hinj hempty hknown hs ioError, by simp⟩ ?_
    intro db log call db' out hP hallowed hstep
    cases hbatch : applyBlockBatch c call.env db call.blocks with
    | error p => simp [syncStep, hbatch] at hstep
    | ok r =>
      simp only [syncStep, hbatch, Option.some.injEq, Prod.mk.injEq] at hstep
      obtain ⟨rfl, rfl⟩ := hstep
      obtain ⟨hsynced, hheight⟩ := applyBlockBatch_invariant (P := Synced c headers) hP.1
        (fun db block hb h hextends => h.transition hrt hinj (hallowed block hb) hextends) hbatch
      exact ⟨hsynced, fun height he => hheight height (by simpa using he)⟩
  obtain ⟨chain, hne, hchain⟩ := hall.1 hsize
  exact ⟨hchain.wellLinked hne, hall.2,
    fun env blocks p => applyBlockBatch_ne_panic hrt (hchain.stored hne) p⟩

end ChainSyncer

namespace SyncChain

def first : Block := Reference.block 1 ((Reference.genesisBlock [1]).hash (Reference.crates [])) 5 []
def second : Block := Reference.block 2 (first.hash (Reference.crates [])) 9 []

def unlinked : Block := Reference.block 2 ((Reference.genesisBlock [1]).hash (Reference.crates [])) 9 []

def blocks : List Block := [Reference.genesisBlock [1], first, second, unlinked]

def crates : Crates := Reference.crates blocks

def headers : List BlockHeader := blocks.map Block.header

def calls : List ChainSyncer.SyncCall :=
  [⟨fun _ => Reference.env, [second, first, first, unlinked, second]⟩, ⟨fun _ => Reference.env, [second]⟩]

instance (call : ChainSyncer.SyncCall) :
    Decidable (∀ b ∈ call.blocks, b.header ∈ {h | h ∈ headers}) :=
  inferInstanceAs (Decidable (∀ b ∈ call.blocks, b.header ∈ headers))

theorem sync_keeps_chain_twice : ∃ (db : StateDB) (log : List (Except SyncError UInt64)),
    log = [.error (.invalidBlockLink 2), .ok 2] ∧ db.WellLinked crates ∧
      (∀ height, log.getLast? = some (.ok height) → height = db.getLatestHeight) ∧
      ∀ env blocks p, ChainSyncer.applyBlockBatch crates env db blocks ≠ .error p := by
  have hinj : Set.InjOn (BlockHeader.headerHash crates) {h | h ∈ headers} := by
    have hlist : ∀ a ∈ headers, ∀ b ∈ headers,
        a.headerHash crates = b.headerHash crates → a = b := by decide +kernel
    exact fun a ha b hb => hlist a ha b hb
  have hend : ((runAll (ChainSyncer.syncStep crates)
      (fun _ call => ∀ b ∈ call.blocks, b.header ∈ {h | h ∈ headers})
      ((StateDB.openInMemory crates).applyGenesis crates none (Reference.genesis [1])).1 calls).map
        fun t => (t.2, decide (t.1.kv.data.size < 2 ^ 64))) =
      some ([.error (.invalidBlockLink 2), .ok 2], true) := by decide +kernel
  obtain ⟨⟨db, log⟩, hrun, hlog⟩ := TracedRun.of_map hend
  obtain ⟨hlog, hsize⟩ := Prod.mk.inj hlog
  have hknown : ((Reference.genesis [1]).toGenesisBlock crates).header ∈ headers := by decide +kernel
  have hserializes : (crates.serializeBlock
      ((Reference.genesis [1]).toGenesisBlock crates)).isSome = true := by decide +kernel
  refine ⟨db, log, hlog, ?_⟩
  exact ChainSyncer.sync_keeps_chain (Reference.blockRoundTrip _) hinj rfl hknown hserializes hrun
    (of_decide_eq_true hsize)

end SyncChain

end AuraChain
