import AuraChain.Reference
import AuraChain.StateMirror
import AuraChain.TracedRun

/-! Runs of the state database through its two writing calls, as long as they
succeed. A call emits the root that it returns. -/

namespace AuraChain

inductive StoreCall
  | applyGenesis (ioError : Option StorageError) (genesis : GenesisConfig)
  | commitBlock (env : Env) (block : Block) (overlay : StateOverlay)

namespace StateDB

def call (c : Crates) (db : StateDB) : StoreCall → StateDB × Except StorageError Hash
  | .applyGenesis ioError genesis => db.applyGenesis c ioError genesis
  | .commitBlock env block overlay => db.commitBlock c env block overlay

def step (c : Crates) (db : StateDB) (call : StoreCall) : Option (StateDB × List Hash) :=
  match db.call c call with
  | (db', .ok root) => some (db', [root])
  | (_, .error _) => none

theorem writeBlock_root {c : Crates} {ioError : Option StorageError} {db : StateDB}
    {writes : List (Address × Account)} {block : Block} {height : UInt64} {root : Hash}
    (h : (writeBlock c ioError db writes block height).2 = .ok root) :
    (writeBlock c ioError db writes block height).1.getStateRoot c = root := by
  rw [writeBlock] at h ⊢
  cases hs : c.serializeBlock block with
  | none => simp [hs] at h
  | some blockBytes =>
    cases hk : db.kv.applyBatch ioError
        (writes.map (putAccount c) ++ putBlock (block.hash c) height blockBytes) with
    | mk kv result =>
      cases result with
      | error e => simp [hs, hk] at h
      | ok u => simpa [hs, hk, getStateRoot] using h

theorem Mirrors.call {c : Crates} (hinj : Function.Injective (addressKeyHash c)) {db : StateDB}
    (h : db.Mirrors c) (call : StoreCall) (hr : (db.call c call).2 ≠ .error .bincode) :
    (db.call c call).1.Mirrors c := by
  cases call with
  | applyGenesis ioError genesis => exact h.of_not_bincode hinj hr
  | commitBlock env block overlay => exact h.of_not_bincode hinj hr

theorem call_root {c : Crates} {db : StateDB} {call : StoreCall} {root : Hash}
    (h : (db.call c call).2 = .ok root) : (db.call c call).1.getStateRoot c = root := by
  cases call with
  | applyGenesis ioError genesis => exact writeBlock_root h
  | commitBlock env block overlay => exact writeBlock_root h

/-- After every call of a run the state root is that of a database opened anew
over the same store, and the one that the call returned. -/
theorem stateRoot_survives_restart {c : Crates} (hinj : Function.Injective (addressKeyHash c))
    {kv : KeyValueStore} {db : StateDB} {log : List Hash}
    (hrun : TracedRun (step c) (fun _ _ => True) (new c kv, []) (db, log)) :
    db.getStateRoot c = (new c db.kv).getStateRoot c ∧
      ∀ root ∈ log.getLast?, db.getStateRoot c = root := by
  have hall : db.Mirrors c ∧ ∀ root ∈ log.getLast?, db.getStateRoot c = root := by
    refine TracedRun.invariant
      (P := fun db log => db.Mirrors c ∧ ∀ root ∈ log.getLast?, db.getStateRoot c = root) hrun
      ⟨mirrors_new hinj kv, by simp⟩ ?_
    intro db log call db' out hP _ hstep
    cases hcall : db.call c call with
    | mk next result =>
      cases result with
      | error e => simp [step, hcall] at hstep
      | ok root =>
        simp only [step, hcall, Option.some.injEq, Prod.mk.injEq] at hstep
        obtain ⟨rfl, rfl⟩ := hstep
        have hmirrors := hP.1.call hinj call (by simp [hcall])
        have hroot := call_root (congrArg Prod.snd hcall)
        rw [hcall] at hmirrors hroot
        exact ⟨hmirrors, by simpa using hroot⟩
  exact ⟨hall.1.restart hinj, hall.2⟩

end StateDB

namespace StateRestart

/-- The address of the validator occurs in both lists, and twice in the first. -/
def genesis : GenesisConfig :=
  { Reference.genesis [1] with
    accounts := [⟨Reference.address 1, 7⟩, ⟨Reference.address 2, 5⟩, ⟨Reference.address 1, 9⟩] }

def block : Block := Reference.block 1 Hash.zero 0 []

def crates : Crates := Reference.crates [genesis.toGenesisBlock (Reference.crates []), block]

def calls : List StoreCall :=
  [.applyGenesis none genesis, .commitBlock Reference.env block
    (StateOverlay.new.setAccount (Reference.address 1) (Account.new 8 1))]

theorem stateRoot_survives_restart_twice : ∃ (db : StateDB) (log : List Hash), log.length = 2 ∧
    db.getStateRoot crates = (StateDB.new crates db.kv).getStateRoot crates ∧
      ∀ root ∈ log.getLast?, db.getStateRoot crates = root := by
  have hlength : ((runAll (StateDB.step crates) (fun _ _ => True)
      (StateDB.new crates KeyValueStore.openInMemory) calls).map fun t => t.2.length) = some 2 := by
    decide +kernel
  obtain ⟨⟨db, log⟩, hrun, hlog⟩ := TracedRun.of_map hlength
  exact ⟨db, log, hlog,
    StateDB.stateRoot_survives_restart (Reference.addressKeyHash_injective _) hrun⟩

end StateRestart

end AuraChain
