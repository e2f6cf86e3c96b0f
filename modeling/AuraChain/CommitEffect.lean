import AuraChain.FailedCommit

/-! What a commit changes in the store, and what it leaves alone. The index of
heights is read in two steps, so that it is left alone only because no other
height can name the block that is written. -/

namespace AuraChain

def StoreCall.header (c : Crates) : StoreCall → BlockHeader
  | .applyGenesis _ genesis => (genesis.toGenesisBlock c).header
  | .commitBlock _ block _ => block.header

namespace StateDB

/-- The run goes on after a call that fails. -/
def persistentStep (c : Crates) (db : StateDB) (call : StoreCall) : Option (StateDB × List Hash) :=
  some ((db.call c call).1, (db.call c call).2.toOption.toList)

/-- The runs of a store that was opened empty, through calls that write these headers. -/
abbrev WrittenRun (c : Crates) (headers : Set BlockHeader) :=
  TracedRun (persistentStep c) fun _ call => call.header c ∈ headers

theorem WrittenRun.call {c : Crates} {headers : Set BlockHeader} (db : StateDB) {call : StoreCall}
    (h : call.header c ∈ headers) :
    WrittenRun c headers (db, []) ((db.call c call).1, (db.call c call).2.toOption.toList) :=
  .single ⟨call, _, h, rfl, rfl⟩

/-- Every indexed hash is that of a header of its height. -/
def Indexed (c : Crates) (headers : Set BlockHeader) (db : StateDB) : Prop :=
  ∀ (height : UInt64) (hash : Bytes), db.kv.data[heightKey height]? = some hash →
    ∃ header ∈ headers, hash = (header.headerHash c).bytes ∧ header.height = height

/-- The overlay and the block are all that is written. -/
structure WritesExactly (c : Crates) (db : StateDB) (block : Block) (overlay : StateOverlay)
    (db' : StateDB) : Prop where
  overlayAccount : ∀ address account, overlay.accounts[address]? = some account →
    db'.getAccount c address = account
  otherAccount : ∀ address, overlay.accounts[address]? = none →
    db'.getAccount c address = db.getAccount c address
  blockByHeight : db'.getBlockByHeight c block.header.height = some block
  blockByHash : db'.getBlockByHash c (block.hash c) = some block
  otherHeight : ∀ height ≠ block.header.height,
    db'.getBlockByHeight c height = db.getBlockByHeight c height
  otherHash : ∀ hash ≠ block.hash c, db'.getBlockByHash c hash = db.getBlockByHash c hash
  latestHeight : db'.getLatestHeight = block.header.height

variable {c : Crates} {headers : Set BlockHeader} {db db' : StateDB} {block : Block}
  {overlay : StateOverlay} {ioError : Option StorageError} {writes : List (Address × Account)}

theorem Indexed.empty (hempty : db.kv.data = ∅) : db.Indexed c headers := by
  intro height hash hl
  simp [hempty] at hl

theorem Indexed.writeBlock (h : db.Indexed c headers) (hknown : block.header ∈ headers) :
    (db.writeBlock c ioError writes block block.header.height).1.Indexed c headers := by
  rw [writeBlock_fst]
  cases c.serializeBlock block with
  | none => exact h
  | some blockBytes =>
    intro height hash hl
    by_cases hheight : block.header.height = height
    · subst hheight
      rw [writtenData_height, Option.some.injEq] at hl
      exact ⟨block.header, hknown, hl.symm, rfl⟩
    · rw [writtenData_height_ne hheight] at hl
      exact h height hash hl

theorem Indexed.call (h : db.Indexed c headers) {call : StoreCall}
    (hknown : call.header c ∈ headers) : (db.call c call).1.Indexed c headers := by
  cases call with
  | applyGenesis ioError genesis =>
    show (db.writeBlock c ioError (genesisWrites c db genesis) (genesis.toGenesisBlock c)
      (genesis.toGenesisBlock c).header.height).1.Indexed c headers
    exact h.writeBlock hknown
  | commitBlock env block overlay => exact h.writeBlock hknown

theorem Indexed.run {kv : KeyValueStore} (hempty : kv.data = ∅) {log : List Hash}
    (hrun : WrittenRun c headers (new c kv, []) (db, log)) : db.Indexed c headers := by
  refine TracedRun.invariant (P := fun db _ => db.Indexed c headers) hrun (.empty hempty) ?_
  intro db log call db' out h hknown hstep
  obtain ⟨rfl, -⟩ := Prod.mk.inj (Option.some.inj hstep)
  exact h.call hknown

/-- No other height names the block that is written. -/
theorem Indexed.ne_hash (h : db.Indexed c headers)
    (hinj : Set.InjOn (BlockHeader.headerHash c) headers) (hknown : block.header ∈ headers)
    {height : UInt64} (hne : block.header.height ≠ height) {hash : Bytes}
    (hl : db.kv.get (heightKey height) = some hash) : (block.hash c).bytes ≠ hash := by
  obtain ⟨header, hheader, rfl, rfl⟩ := h height hash hl
  exact headerHash_ne_of_height_ne hinj hknown hheader hne

theorem Indexed.getBlockByHeight_other (h : db.Indexed c headers) (hrt : c.BlockRoundTrip)
    (hinj : Set.InjOn (BlockHeader.headerHash c) headers) (hknown : block.header ∈ headers)
    {env : Env} {blockBytes : Bytes} (hs : c.serializeBlock block = some blockBytes)
    {height : UInt64} (hne : block.header.height ≠ height) :
    (db.commitBlock c env block overlay).1.getBlockByHeight c height =
      db.getBlockByHeight c height := by
  rw [commitBlock_getBlockByHeight_of_ne hrt hs hne, getBlockByHeight]
  cases hl : db.kv.get (heightKey height) with
  | none => rfl
  | some hash => rw [Option.bind_some, Option.bind_some, if_neg (h.ne_hash hinj hknown hne hl)]

/-- In whatever order the overlay is walked, a commit that succeeds writes the
overlay and the block and changes no other answer. -/
theorem commitBlock_writes_exactly (hacc : c.AccountRoundTrip) (hrt : c.BlockRoundTrip)
    (hinj : Set.InjOn (BlockHeader.headerHash c) headers) {kv : KeyValueStore} (hempty : kv.data = ∅)
    {log : List Hash} (hrun : WrittenRun c headers (new c kv, []) (db, log)) {env : Env}
    (hknown : block.header ∈ headers) {root : Hash}
    (h : db.commitBlock c env block overlay = (db', .ok root)) :
    db.WritesExactly c block overlay db' := by
  have hok : (db.commitBlock c env block overlay).2 = .ok root := congrArg Prod.snd h
  obtain rfl : (db.commitBlock c env block overlay).1 = db' := congrArg Prod.fst h
  obtain ⟨blockBytes, hs, -⟩ := writeBlock_ok hok
  have haccount : ∀ address, (db.commitBlock c env block overlay).1.getAccount c address =
      overlay.getAccount c address db := commitBlock_getAccount_written hacc hs
  have hindexed := Indexed.run hempty hrun
  refine ⟨?_, ?_, commitBlock_getBlockByHeight_self hrt hs, ?_, ?_, ?_, commitBlock_getLatestHeight hs⟩
  · intro address account ho
    rw [haccount, StateOverlay.getAccount, ho]
  · intro address ho
    rw [haccount, StateOverlay.getAccount, ho]
  · rw [commitBlock_getBlockByHash hrt hs, if_pos rfl]
  · intro height hne
    exact hindexed.getBlockByHeight_other hrt hinj hknown hs hne.symm
  · intro hash hne
    rw [commitBlock_getBlockByHash hrt hs, if_neg hne]

end StateDB

namespace CommitEffect

def crates : Crates := StateRestart.crates

def genesisCall : StoreCall := .applyGenesis none StateRestart.genesis

def db : StateDB := ((StateDB.new crates KeyValueStore.openInMemory).call crates genesisCall).1

def overlay : StateOverlay := StateOverlay.new.setAccount (Reference.address 1) (Account.new 8 1)

def headers : List BlockHeader := [genesisCall.header crates, StateRestart.block.header]

theorem commitBlock_writes_exactly_once : ∃ db' : StateDB, db'.getLatestHeight = 1 ∧
    db.WritesExactly crates StateRestart.block overlay db' := by
  have hinj : Set.InjOn (BlockHeader.headerHash crates) {h | h ∈ headers} := by
    have hlist : ∀ a ∈ headers, ∀ b ∈ headers,
        a.headerHash crates = b.headerHash crates → a = b := by decide +kernel
    exact fun a ha b hb => hlist a ha b hb
  have hgenesis : genesisCall.header crates ∈ {h | h ∈ headers} := List.mem_cons_self
  have hrun := StateDB.WrittenRun.call (StateDB.new crates KeyValueStore.openInMemory) hgenesis
  have hserves : StateDB.commitFails crates Reference.env db StateRestart.block = false := by
    decide +kernel
  obtain ⟨db', root, hcommit⟩ := StateDB.commitBlock_succeeds hserves overlay
  have hexact : db.WritesExactly crates StateRestart.block overlay db' :=
    StateDB.commitBlock_writes_exactly (Reference.accountRoundTrip _) (Reference.blockRoundTrip _)
      hinj rfl hrun (List.mem_cons_of_mem _ List.mem_cons_self) hcommit
  exact ⟨db', hexact.latestHeight, hexact⟩

end CommitEffect

end AuraChain
