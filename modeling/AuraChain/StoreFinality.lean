import AuraChain.Finality
import AuraChain.SyncChain

/-! A store that an engine and a syncer share. The syncer asks the store for its
height at every call, the engine counts on its own from where it has started. -/

namespace AuraChain

namespace StateDB

/-- What was committed is still there, below a height that never falls. -/
structure Grows (c : Crates) (db db' : StateDB) : Prop where
  latest : db.getLatestHeight ≤ db'.getLatestHeight
  kept : ∀ height block, db.getBlockByHeight c height = some block →
    db'.getBlockByHeight c height = some block

/-- A block that may be written: a new one above all that are stored, or the
latest once more. -/
def Advances (c : Crates) (db : StateDB) (block : Block) : Prop :=
  db.getLatestHeight < block.header.height ∨
    block.header.height = db.getLatestHeight ∧
      db.getBlockByHeight c db.getLatestHeight = some block

instance (c : Crates) (db : StateDB) (block : Block) : Decidable (db.Advances c block) :=
  inferInstanceAs (Decidable (_ ∨ _))

/-- Every indexed hash is that of a stored block of its height. -/
def Filed (c : Crates) (headers : Set BlockHeader) (db : StateDB) : Prop :=
  ∀ (height : UInt64) (hash : Bytes), db.kv.data[heightKey height]? = some hash →
    height ≤ db.getLatestHeight ∧ ∃ block : Block, hash = (block.hash c).bytes ∧
      block.header.height = height ∧ block.header ∈ headers ∧
      db.kv.data[blockKey hash]?.bind c.deserializeBlock = some block

variable {c : Crates} {headers : Set BlockHeader} {db db' db'' : StateDB} {block : Block}
  {ioError : Option StorageError} {writes : List (Address × Account)}

theorem Grows.refl (c : Crates) (db : StateDB) : db.Grows c db :=
  ⟨UInt64.le_refl _, fun _ _ h => h⟩

theorem Grows.trans (h : db.Grows c db') (h' : db'.Grows c db'') : db.Grows c db'' :=
  ⟨UInt64.le_trans h.latest h'.latest, fun height block hb => h'.kept height block (h.kept height block hb)⟩

theorem Filed.empty (hempty : db.kv.data = ∅) : db.Filed c headers := by
  intro height hash hl
  simp [hempty] at hl

theorem Filed.indexed (h : db.Filed c headers) {height : UInt64}
    (hb : db.getBlockByHeight c height = some block) :
    db.kv.data[heightKey height]? = some (block.hash c).bytes ∧ height ≤ db.getLatestHeight ∧
      block.header.height = height ∧ block.header ∈ headers := by
  rw [getBlockByHeight, KeyValueStore.get] at hb
  cases hl : db.kv.data[heightKey height]? with
  | none => simp [hl] at hb
  | some hash =>
    obtain ⟨hle, block', rfl, hheight, hknown, hstored⟩ := h height hash hl
    rw [hl, Option.bind_some, KeyValueStore.get, hstored, Option.some.injEq] at hb
    subst hb
    exact ⟨rfl, hle, hheight, hknown⟩

theorem Filed.congr (h : db.Filed c headers) (hkv : db'.kv = db.kv) :
    db'.Filed c headers ∧ db.Grows c db' := by
  have hlatest : db'.getLatestHeight = db.getLatestHeight := by
    rw [getLatestHeight, getLatestHeight, hkv]
  refine ⟨?_, hlatest ▸ UInt64.le_refl _, fun height b hb => ?_⟩
  · intro height hash hl
    rw [hkv] at hl ⊢
    rw [hlatest]
    exact h height hash hl
  · rw [getBlockByHeight, hkv]
    exact hb

theorem Filed.written_ne (h : db.Filed c headers)
    (hinj : Set.InjOn (BlockHeader.headerHash c) headers) (hknown : block.header ∈ headers)
    {blockBytes : Bytes}
    (hd : db'.kv.data = writtenData c db.kv.data writes (block.hash c) block.header.height blockBytes)
    {height : UInt64} (hne : block.header.height ≠ height) {b : Block}
    (hb : db.getBlockByHeight c height = some b) : db'.getBlockByHeight c height = some b := by
  obtain ⟨hl, -, rfl, hb'⟩ := h.indexed hb
  have hhash : (block.hash c).bytes ≠ (b.hash c).bytes :=
    headerHash_ne_of_height_ne hinj hknown hb' hne
  rw [getBlockByHeight, KeyValueStore.get, hl, Option.bind_some, KeyValueStore.get] at hb
  rw [getBlockByHeight, KeyValueStore.get, hd, writtenData_height_ne hne, hl, Option.bind_some,
    KeyValueStore.get, hd, writtenData_block_ne hhash, hb]

theorem written_self (hrt : c.BlockRoundTrip) {blockBytes : Bytes}
    (hs : c.serializeBlock block = some blockBytes)
    (hd : db'.kv.data = writtenData c db.kv.data writes (block.hash c) block.header.height blockBytes) :
    db'.getLatestHeight = block.header.height ∧
      db'.kv.data[heightKey block.header.height]? = some (block.hash c).bytes ∧
      db'.kv.data[blockKey (block.hash c).bytes]?.bind c.deserializeBlock = some block := by
  refine ⟨?_, ?_, ?_⟩
  · simp [getLatestHeight, KeyValueStore.get, hd, writtenData_latestHeight]
  · rw [hd, writtenData_height]
  · rw [hd, writtenData_block, Option.bind_some, hrt block blockBytes hs]

theorem Advances.le (h : db.Advances c block) : db.getLatestHeight ≤ block.header.height := by
  rcases h with hlt | ⟨he, -⟩
  · exact UInt64.le_of_lt hlt
  · exact he ▸ UInt64.le_refl _

theorem Filed.written (h : db.Filed c headers) (hrt : c.BlockRoundTrip)
    (hinj : Set.InjOn (BlockHeader.headerHash c) headers) (hknown : block.header ∈ headers)
    (hle : db.getLatestHeight ≤ block.header.height) {blockBytes : Bytes}
    (hs : c.serializeBlock block = some blockBytes)
    (hd : db'.kv.data = writtenData c db.kv.data writes (block.hash c) block.header.height blockBytes) :
    db'.Filed c headers := by
  obtain ⟨hlatest, hindex, hstored⟩ := written_self hrt hs hd
  intro height hash hl
  by_cases hh : block.header.height = height
  · subst hh
    rw [hindex, Option.some.injEq] at hl
    subst hl
    exact ⟨hlatest ▸ UInt64.le_refl _, block, rfl, rfl, hknown, hstored⟩
  · rw [hd, writtenData_height_ne hh] at hl
    obtain ⟨hle', b, rfl, rfl, hb, hread⟩ := h height hash hl
    have hhash : (block.hash c).bytes ≠ (b.hash c).bytes :=
      headerHash_ne_of_height_ne hinj hknown hb hh
    refine ⟨hlatest ▸ UInt64.le_trans hle' hle, b, rfl, rfl, hb, ?_⟩
    rw [hd, writtenData_block_ne hhash]
    exact hread

theorem Filed.grows (h : db.Filed c headers) (hrt : c.BlockRoundTrip)
    (hinj : Set.InjOn (BlockHeader.headerHash c) headers) (hknown : block.header ∈ headers)
    (hadvances : db.Advances c block) {blockBytes : Bytes}
    (hs : c.serializeBlock block = some blockBytes)
    (hd : db'.kv.data = writtenData c db.kv.data writes (block.hash c) block.header.height blockBytes) :
    db.Grows c db' := by
  obtain ⟨hlatest, hindex, hstored⟩ := written_self hrt hs hd
  refine ⟨hlatest ▸ hadvances.le, fun height b hb => ?_⟩
  by_cases hh : block.header.height = height
  · subst hh
    rcases hadvances with hlt | ⟨he, hsame⟩
    · exact absurd hlt (UInt64.not_lt.mpr (h.indexed hb).2.1)
    · rw [← he, hb, Option.some.injEq] at hsame
      rw [hsame, getBlockByHeight, KeyValueStore.get, hindex]
      exact hstored
  · exact h.written_ne hinj hknown hd hh hb

theorem Filed.writeBlock (h : db.Filed c headers) (hrt : c.BlockRoundTrip)
    (hinj : Set.InjOn (BlockHeader.headerHash c) headers) (hknown : block.header ∈ headers)
    (hadvances : db.Advances c block) :
    (db.writeBlock c ioError writes block block.header.height).1.Filed c headers ∧
      db.Grows c (db.writeBlock c ioError writes block block.header.height).1 := by
  cases hs : c.serializeBlock block with
  | none =>
    refine h.congr ?_
    rw [writeBlock_fst, hs]
  | some blockBytes =>
    have hd : (db.writeBlock c ioError writes block block.header.height).1.kv.data =
        writtenData c db.kv.data writes (block.hash c) block.header.height blockBytes := by
      rw [writeBlock_fst, hs]
    exact ⟨h.written hrt hinj hknown hadvances.le hs hd, h.grows hrt hinj hknown hadvances hs hd⟩

/-- What a written store reads is the new block or was read before. -/
theorem Filed.read_written (h : db.Filed c headers) (hrt : c.BlockRoundTrip)
    (hinj : Set.InjOn (BlockHeader.headerHash c) headers) (hknown : block.header ∈ headers)
    {blockBytes : Bytes} (hs : c.serializeBlock block = some blockBytes)
    (hd : db'.kv.data = writtenData c db.kv.data writes (block.hash c) block.header.height blockBytes)
    {height : UInt64} {b : Block} (hb : db'.getBlockByHeight c height = some b) :
    height = block.header.height ∧ b = block ∨ db.getBlockByHeight c height = some b := by
  obtain ⟨-, hindex, hstored⟩ := written_self hrt hs hd
  by_cases hh : block.header.height = height
  · subst hh
    rw [getBlockByHeight, KeyValueStore.get, hindex, Option.bind_some, KeyValueStore.get, hstored,
      Option.some.injEq] at hb
    exact .inl ⟨rfl, hb.symm⟩
  · have hindexed : db'.kv.data[heightKey height]? = db.kv.data[heightKey height]? := by
      rw [hd]
      exact writtenData_height_ne hh
    cases hl : db.kv.data[heightKey height]? with
    | none => simp [getBlockByHeight, KeyValueStore.get, hindexed, hl] at hb
    | some hash =>
      obtain ⟨-, old, rfl, -, -, hread⟩ := h height hash hl
      have hold : db.getBlockByHeight c height = some old := by
        rw [getBlockByHeight, KeyValueStore.get, hl, Option.bind_some, KeyValueStore.get, hread]
      have hnew := h.written_ne hinj hknown hd hh hold
      rw [hb, Option.some.injEq] at hnew
      exact .inr (hnew ▸ hold)

theorem Filed.applyGenesis (hempty : db.kv.data = ∅) (hrt : c.BlockRoundTrip)
    (hinj : Set.InjOn (BlockHeader.headerHash c) headers) {genesis : GenesisConfig}
    (hknown : (genesis.toGenesisBlock c).header ∈ headers) :
    (db.applyGenesis c ioError genesis).1.Filed c headers := by
  have hstart : db.Filed c headers := .empty hempty
  have hlatest : db.getLatestHeight = 0 := by simp [getLatestHeight, KeyValueStore.get, hempty]
  cases hs : c.serializeBlock (genesis.toGenesisBlock c) with
  | none =>
    refine (hstart.congr ?_).1
    rw [StateDB.applyGenesis, writeBlock_fst, hs]
  | some blockBytes =>
    have hd : (db.applyGenesis c ioError genesis).1.kv.data =
        writtenData c db.kv.data (genesisWrites c db genesis) ((genesis.toGenesisBlock c).hash c)
          (genesis.toGenesisBlock c).header.height blockBytes := by
      rw [StateDB.applyGenesis, writeBlock_fst, hs]
      rfl
    refine hstart.written hrt hinj hknown ?_ hs hd
    rw [hlatest]
    exact UInt64.le_refl _

end StateDB

namespace ConsensusEngine

def precommitAdvances (c : Crates) (engine : ConsensusEngine) (vote : Vote) : Prop :=
  engine.completesPrecommit c vote = true → ∀ block, engine.proposedBlock = some block →
    block.hash c = vote.blockHash → engine.stateDb.Advances c block

def prevoteAdvances (c : Crates) (engine : ConsensusEngine) (vote : Vote) : Prop :=
  engine.completesPrevote c vote = true →
    precommitAdvances c { engine.recordPrevote vote with step := .preCommit }
      (engine.ownPrecommit c vote.blockHash)

/-- If the call commits a block, that block advances the store. -/
def advances (c : Crates) (engine : ConsensusEngine) : Call → Prop
  | .createProposal _ => True
  | .handleProposal _ block => engine.accepts c block = true →
      prevoteAdvances c { engine with proposedBlock := some block, step := .preVote }
        (engine.ownPrevote c (block.hash c))
  | .handlePrevote _ vote => engine.prevoteAdvances c vote
  | .handlePrecommit _ vote => engine.precommitAdvances c vote
  | .poolChanged _ => True

/-- The header of a block that comes in or is made is one of the headers. -/
def knows (c : Crates) (headers : Set BlockHeader) (engine : ConsensusEngine) : Call → Prop
  | .createProposal env => ∀ r block, engine.createProposal c env = .ok r → r.value = .ok block →
      block.header ∈ headers
  | .handleProposal _ block => block.header ∈ headers
  | _ => True

structure Keeps (c : Crates) (headers : Set BlockHeader) (engine : ConsensusEngine) : Prop where
  filed : engine.stateDb.Filed c headers
  proposal : ∀ block, engine.proposedBlock = some block → block.header ∈ headers

variable {c : Crates} {headers : Set BlockHeader} {env : Env} {engine engine' : ConsensusEngine}
  {vote : Vote} {block : Block}

theorem Keeps.handlePrecommit (h : engine.Keeps c headers) (hrt : c.BlockRoundTrip)
    (hinj : Set.InjOn (BlockHeader.headerHash c) headers) (hadvances : engine.precommitAdvances c vote)
    {r : Reply (Option QuorumCertificate)} (hr : engine.handlePrecommit c env vote = .ok r) :
    r.engine.Keeps c headers ∧ engine.stateDb.Grows c r.engine.stateDb := by
  rcases handlePrecommit_cases hr with ⟨-, rfl⟩ | ⟨hq, committed, hm, rfl⟩
  · exact ⟨⟨h.filed, h.proposal⟩, .refl c _⟩
  · rcases commitMatching_cases hm with ⟨block, db, root, hb, hhash, hc, rfl⟩ | ⟨-, rfl⟩
    · have hdb := congrArg Prod.fst hc
      simp only [StateDB.commitBlock, recordPrecommit] at hdb
      obtain ⟨hfiled, hgrows⟩ : db.Filed c headers ∧ engine.stateDb.Grows c db := by
        rw [← hdb]
        exact h.filed.writeBlock hrt hinj (h.proposal block hb) (hadvances hq block hb hhash)
      exact ⟨⟨hfiled, by simp [ConsensusEngine.advance]⟩, hgrows⟩
    · exact ⟨⟨h.filed, by simp [ConsensusEngine.advance]⟩, .refl c _⟩

theorem Keeps.handlePrevote (h : engine.Keeps c headers) (hrt : c.BlockRoundTrip)
    (hinj : Set.InjOn (BlockHeader.headerHash c) headers) (hadvances : engine.prevoteAdvances c vote)
    {r : Reply (Option Vote)} (hr : engine.handlePrevote c env vote = .ok r) :
    r.engine.Keeps c headers ∧ engine.stateDb.Grows c r.engine.stateDb := by
  rcases handlePrevote_cases hr with ⟨-, rfl⟩ | ⟨hq, inner, hi, rfl⟩
  · exact ⟨⟨h.filed, h.proposal⟩, .refl c _⟩
  · have hmid : Keeps c headers { engine.recordPrevote vote with step := .preCommit } :=
      ⟨h.filed, h.proposal⟩
    exact hmid.handlePrecommit hrt hinj (hadvances hq) hi

theorem Keeps.handleProposal (h : engine.Keeps c headers) (hrt : c.BlockRoundTrip)
    (hinj : Set.InjOn (BlockHeader.headerHash c) headers) (hknown : block.header ∈ headers)
    (hadvances : engine.advances c (.handleProposal env block))
    {r : Reply (Except ConsensusError Vote)} (hr : engine.handleProposal c env block = .ok r) :
    r.engine.Keeps c headers ∧ engine.stateDb.Grows c r.engine.stateDb := by
  rcases handleProposal_cases hr with ⟨-, rfl⟩ | ⟨ha, inner, hi, rfl⟩
  · exact ⟨h, .refl c _⟩
  · have hmid : Keeps c headers { engine with proposedBlock := some block, step := .preVote } := by
      refine ⟨h.filed, fun b hb => ?_⟩
      rw [← Option.some.inj hb]
      exact hknown
    exact hmid.handlePrevote hrt hinj (hadvances ha) hi

theorem Keeps.next (h : engine.Keeps c headers) (hrt : c.BlockRoundTrip)
    (hinj : Set.InjOn (BlockHeader.headerHash c) headers) {call : Call}
    (hknows : engine.knows c headers call) (hadvances : engine.advances c call) {out : List Event}
    (hn : engine.next c call = some (engine', out)) :
    engine'.Keeps c headers ∧ engine.stateDb.Grows c engine'.stateDb := by
  cases next_returns hn with
  | createProposal hr =>
    have hdb := createProposal_stateDb hr
    rw [hdb]
    refine ⟨⟨hdb ▸ h.filed, fun b hb => ?_⟩, .refl c _⟩
    rcases createProposal_cases hr with ⟨e, rfl⟩ | ⟨-, made, -, -, rfl⟩
    · exact h.proposal b hb
    · rw [← Option.some.inj hb]
      exact hknows _ made hr rfl
  | handleProposal hr => exact h.handleProposal hrt hinj hknows hadvances hr
  | handlePrevote hr => exact h.handlePrevote hrt hinj hadvances hr
  | handlePrecommit hr => exact h.handlePrecommit hrt hinj hadvances hr
  | poolChanged mempool => exact ⟨⟨h.filed, h.proposal⟩, .refl c _⟩

end ConsensusEngine

namespace ChainSyncer

/-- A block that extends the chain at its turn is above it: heights do not wrap. -/
def batchAdvances (c : Crates) (env : Block → Env) : StateDB → List Block → Prop
  | _, [] => True
  | db, block :: rest => (db.Extends c block → db.getLatestHeight < block.header.height) ∧
      ∀ db' height, applyBlockBatch c env db [block] = .ok (db', .ok height) →
        batchAdvances c env db' rest

variable {c : Crates} {headers : Set BlockHeader} {env : Block → Env} {db db' : StateDB}
  {block : Block} {blocks : List Block} {result : Except SyncError UInt64}

theorem height_lt_of_extends (h : db.Extends c block) (hne : block.header.height ≠ 0) :
    db.getLatestHeight < block.header.height := by
  have hlt := db.getLatestHeight.toNat_lt
  have hheight := h.height
  have hnat : block.header.height.toNat ≠ 0 := fun he => hne (UInt64.toNat_inj.mp he)
  rw [hheight, UInt64.toNat_add, UInt64.toNat_one] at hnat
  rw [hheight, UInt64.lt_iff_toNat_lt, UInt64.toNat_add, UInt64.toNat_one]
  omega

theorem batchAdvances_of_ne_zero (h : ∀ b ∈ blocks, b.header.height ≠ 0) :
    batchAdvances c env db blocks := by
  induction blocks generalizing db with
  | nil => trivial
  | cons block rest ih =>
    refine ⟨fun he => height_lt_of_extends he (h block List.mem_cons_self), fun db' height _ => ?_⟩
    exact ih fun b hb => h b (List.mem_cons_of_mem block hb)

theorem applyBlockBatch_single_skipped (h : block.header.height ≠ db.getLatestHeight + 1) :
    applyBlockBatch c env db [block] = .ok (db, .ok db.getLatestHeight) := by
  rw [applyBlockBatch, applyBlocks, if_pos h]
  rfl

theorem applyBlockBatch_single_committed (h : db.Extends c block) {root : Hash}
    (ht : transition c (env block) db block = (db', .ok root)) :
    applyBlockBatch c env db [block] = .ok (db', .ok db'.getLatestHeight) := by
  rcases applyBlockBatch_extends env h [] with ⟨_, e, ht', -⟩ | ⟨_, _, ht', hbatch⟩
  · rw [ht] at ht'
    cases ht'
  · rw [ht] at ht'
    cases ht'
    exact hbatch

theorem filed_transition (h : db.Filed c headers) (hrt : c.BlockRoundTrip)
    (hinj : Set.InjOn (BlockHeader.headerHash c) headers) (hknown : block.header ∈ headers)
    (hlt : db.getLatestHeight < block.header.height) (e : Env) :
    (transition c e db block).1.Filed c headers ∧ db.Grows c (transition c e db block).1 :=
  h.writeBlock hrt hinj hknown (.inl hlt)

theorem filed_applyBlockBatch (h : db.Filed c headers) (hrt : c.BlockRoundTrip)
    (hinj : Set.InjOn (BlockHeader.headerHash c) headers) (hknown : ∀ b ∈ blocks, b.header ∈ headers)
    (hadvances : batchAdvances c env db blocks)
    (hr : applyBlockBatch c env db blocks = .ok (db', result)) :
    db'.Filed c headers ∧ db.Grows c db' := by
  induction blocks generalizing db with
  | nil =>
    cases hr
    exact ⟨h, .refl c _⟩
  | cons block rest ih =>
    obtain ⟨hhead, hrest⟩ := hadvances
    have hblock := hknown block List.mem_cons_self
    have hknown' : ∀ b ∈ rest, b.header ∈ headers :=
      fun b hb => hknown b (List.mem_cons_of_mem block hb)
    have hturn := applyBlockBatch_turn c env db block rest
    rw [hr] at hturn
    generalize he : (Except.ok (db', result) : Except Panic _) = r at hturn
    cases hturn with
    | skipped hne => exact ih h hknown' (hrest db _ (applyBlockBatch_single_skipped hne)) he.symm
    | rejected e _ =>
      cases he
      exact ⟨h, .refl c _⟩
    | orphaned _ => cases he
    | failed hextends ht =>
      have hwritten := filed_transition h hrt hinj hblock (hhead hextends) (env block)
      cases he
      rw [ht] at hwritten
      exact hwritten
    | committed hextends ht =>
      have hwritten := filed_transition h hrt hinj hblock (hhead hextends) (env block)
      rw [ht] at hwritten
      have hnext := ih hwritten.1 hknown'
        (hrest _ _ (applyBlockBatch_single_committed hextends ht)) he.symm
      exact ⟨hnext.1, hwritten.2.trans hnext.2⟩

end ChainSyncer

/-- What writes to the shared store, or takes its height from it. -/
inductive WriterCall
  | startEngine (keypair : SecretKey) (mempool : Mempool) (chainId : Bytes)
  | engine (call : Call)
  | applyBlockBatch (call : ChainSyncer.SyncCall)

namespace WriterCall

/-- The store is that of the engine. A panic ends the run. -/
def step (c : Crates) (engine : ConsensusEngine) :
    WriterCall → Option (ConsensusEngine × List Event)
  | .startEngine keypair mempool chainId =>
    some (ConsensusEngine.new c keypair engine.stateDb mempool chainId, [])
  | .engine call => engine.next c call
  | .applyBlockBatch call =>
    match ChainSyncer.applyBlockBatch c call.env engine.stateDb call.blocks with
    | .ok (db, _) => some ({ engine with stateDb := db }, [])
    | .error _ => none

def knows (c : Crates) (headers : Set BlockHeader) (engine : ConsensusEngine) : WriterCall → Prop
  | .startEngine .. => True
  | .engine call => engine.knows c headers call
  | .applyBlockBatch call => ∀ b ∈ call.blocks, b.header ∈ headers

def advances (c : Crates) (engine : ConsensusEngine) : WriterCall → Prop
  | .startEngine .. => True
  | .engine call => engine.advances c call
  | .applyBlockBatch call => ChainSyncer.batchAdvances c call.env engine.stateDb call.blocks

variable {c : Crates} {headers : Set BlockHeader} {engine engine' : ConsensusEngine}

theorem step_keeps (h : engine.Keeps c headers) (hrt : c.BlockRoundTrip)
    (hinj : Set.InjOn (BlockHeader.headerHash c) headers) {call : WriterCall}
    (hknows : call.knows c headers engine) (hadvances : call.advances c engine) {out : List Event}
    (hs : call.step c engine = some (engine', out)) :
    engine'.Keeps c headers ∧ engine.stateDb.Grows c engine'.stateDb := by
  cases call with
  | startEngine keypair mempool chainId =>
    cases hs
    exact ⟨⟨h.filed, by simp [ConsensusEngine.new]⟩, .refl c _⟩
  | engine call => exact h.next hrt hinj hknows hadvances hs
  | applyBlockBatch call =>
    rw [step] at hs
    cases hr : ChainSyncer.applyBlockBatch c call.env engine.stateDb call.blocks with
    | error p => simp [hr] at hs
    | ok r =>
      obtain ⟨db, result⟩ := r
      simp only [hr, Option.some.injEq, Prod.mk.injEq] at hs
      obtain ⟨rfl, -⟩ := hs
      obtain ⟨hfiled, hgrows⟩ := ChainSyncer.filed_applyBlockBatch h.filed hrt hinj hknows hadvances hr
      exact ⟨⟨hfiled, h.proposal⟩, hgrows⟩

/-- As long as every commit advances the store, whichever of the two writers
makes it, the height never falls and no committed block is replaced. -/
theorem committed_stays (hrt : c.BlockRoundTrip)
    (hinj : Set.InjOn (BlockHeader.headerHash c) headers) {db : StateDB} (hempty : db.kv.data = ∅)
    {genesis : GenesisConfig} (hknown : (genesis.toGenesisBlock c).header ∈ headers)
    {ioError : Option StorageError} {keypair : SecretKey} {mempool : Mempool} {chainId : Bytes}
    {s t : ConsensusEngine × List Event}
    (hrun : TracedRun (step c)
      (fun engine call => call.knows c headers engine ∧ call.advances c engine)
      (ConsensusEngine.new c keypair (db.applyGenesis c ioError genesis).1 mempool chainId, []) s)
    (hlater : TracedRun (step c)
      (fun engine call => call.knows c headers engine ∧ call.advances c engine) s t) :
    s.1.stateDb.Grows c t.1.stateDb := by
  have hpair : ∀ {x y : ConsensusEngine × List Event}, TracedRun (step c)
      (fun engine call => call.knows c headers engine ∧ call.advances c engine) x y →
      x.1.Keeps c headers → y.1.Keeps c headers ∧ x.1.stateDb.Grows c y.1.stateDb := by
    intro x y hxy hx
    refine TracedRun.relates (P := fun e => e.Keeps c headers)
      (R := fun e e' => e.stateDb.Grows c e'.stateDb) hxy hx (fun _ => .refl c _)
      (fun _ _ _ => .trans) ?_
    rintro e call e' out he ⟨hknows, hadvances⟩ hs
    exact step_keeps he hrt hinj hknows hadvances hs
  have hstart : ConsensusEngine.Keeps c headers (ConsensusEngine.new c keypair
      (db.applyGenesis c ioError genesis).1 mempool chainId) :=
    ⟨.applyGenesis hempty hrt hinj hknown, by simp [ConsensusEngine.new]⟩
  exact (hpair hlater (hpair hrun hstart).1).2

end WriterCall

namespace StoreFinality

def next : Block := Reference.block 2 (Finality.proposal.hash (Reference.crates [])) 9 []

def blocks : List Block :=
  [Reference.genesisBlock [1], SyncChain.first, SyncChain.second, Finality.proposal, next]

def crates : Crates := Reference.crates blocks

def headers : List BlockHeader := blocks.map Block.header

def start : ConsensusEngine :=
  ConsensusEngine.new crates (Reference.secretKey 1)
    ((StateDB.openInMemory crates).applyGenesis crates none (Reference.genesis [1])).1
    (Mempool.new MempoolConfig.default) (ascii "aura-testnet")

def propose : WriterCall := .engine (.handleProposal Reference.env Finality.proposal)

def sync (blocks : List Block) : WriterCall := .applyBlockBatch ⟨fun _ => Reference.env, blocks⟩

def heights (first second : WriterCall) : Option (UInt64 × UInt64) :=
  (first.step crates start).bind fun r => (second.step crates r.1).map fun r' =>
    (r.1.stateDb.getLatestHeight, r'.1.stateDb.getLatestHeight)

theorem heights_run {first second : WriterCall} {h h' : UInt64}
    (heq : heights first second = some (h, h')) : ∃ e out e' out',
      first.step crates start = some (e, out) ∧ second.step crates e = some (e', out') ∧
        e.stateDb.getLatestHeight = h ∧ e'.stateDb.getLatestHeight = h' := by
  obtain ⟨⟨e, out⟩, hfirst, hrest⟩ := Option.bind_eq_some_iff.mp heq
  obtain ⟨⟨e', out'⟩, hsecond, hpair⟩ := Option.map_eq_some_iff.mp hrest
  obtain ⟨hh, hh'⟩ := Prod.mk.inj hpair
  exact ⟨e, out, e', out', hfirst, hsecond, hh, hh'⟩

theorem committed_stays_twice : ∃ e e' : ConsensusEngine, e.stateDb.getLatestHeight = 1 ∧
    e'.stateDb.getLatestHeight = 2 ∧ e.stateDb.Grows crates e'.stateDb := by
  have heights : heights propose (sync [next]) = some (1, 2) := by decide +kernel
  obtain ⟨e, out, e', out', hfirst, hsecond, hone, htwo⟩ := heights_run heights
  have hinj : Set.InjOn (BlockHeader.headerHash crates) {h | h ∈ headers} := by
    have hlist : ∀ a ∈ headers, ∀ b ∈ headers,
        a.headerHash crates = b.headerHash crates → a = b := by decide +kernel
    exact fun a ha b hb => hlist a ha b hb
  have hproposal : propose.knows crates {h | h ∈ headers} start := by
    show Finality.proposal.header ∈ headers
    decide +kernel
  have hproposes : propose.advances crates start := by
    intro _ _ _ block hblock _
    rw [← Option.some.inj hblock]
    exact .inl (by decide +kernel)
  have hnext : ∀ b ∈ [next], b.header ∈ headers := by decide +kernel
  have hsyncs : (sync [next]).advances crates e :=
    ChainSyncer.batchAdvances_of_ne_zero (by decide +kernel)
  have hknown : ((Reference.genesis [1]).toGenesisBlock crates).header ∈ headers := by decide +kernel
  refine ⟨e, e', hone, htwo, ?_⟩
  exact WriterCall.committed_stays (s := (e, out)) (t := (e', out ++ out'))
    (Reference.blockRoundTrip _) hinj rfl hknown
    (.single ⟨propose, out, ⟨hproposal, hproposes⟩, hfirst, rfl⟩)
    (.single ⟨sync [next], out', ⟨hnext, hsyncs⟩, hsecond, rfl⟩)

/-- After the syncer has committed two blocks, the engine still commits its own
first one. -/
theorem engine_reverts : ¬ ∀ s t : ConsensusEngine × List Event,
    TracedRun (WriterCall.step crates) (fun _ _ => True) (start, []) s →
    TracedRun (WriterCall.step crates) (fun _ _ => True) s t → s.1.stateDb.Grows crates t.1.stateDb := by
  intro hclaim
  have heights : heights (sync [SyncChain.first, SyncChain.second]) propose = some (2, 1) := by
    decide +kernel
  obtain ⟨e, out, e', out', hfirst, hsecond, htwo, hone⟩ := heights_run heights
  have hgrows := hclaim (e, out) (e', out ++ out') (.single ⟨_, out, trivial, hfirst, rfl⟩)
    (.single ⟨_, out', trivial, hsecond, rfl⟩)
  have hle := hgrows.latest
  rw [htwo, hone] at hle
  exact absurd hle (by decide)

end StoreFinality

end AuraChain
