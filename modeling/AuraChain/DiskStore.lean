import AuraChain.AtomicReplace
import AuraChain.Bincode
import AuraChain.Store
import AuraChain.TracedRun

/-! The key-value store on disk: the path and its temporary sibling, the bincode
form of the map, and the calls that change the map in memory and then write all
of it to the disk. The callers hold the lock of the tree, so that calls do not
overlap. -/

namespace AuraChain

def IsFileName (name : Bytes) : Prop :=
  name ≠ [] ∧ name ≠ ascii "." ∧ name ≠ ascii ".." ∧ 47 ∉ name

instance : DecidablePred IsFileName := fun _ => inferInstanceAs (Decidable (_ ∧ _ ∧ _ ∧ _))

/-- A directory and a name in it. What has no file name cannot be opened as a file. -/
structure PathBuf where
  parent : Bytes
  fileName : Bytes
  named : IsFileName fileName
  deriving DecidableEq

namespace PathBuf

def bytes (path : PathBuf) : Bytes := path.parent ++ 47 :: path.fileName

def splitLastDot : Bytes → Option (Bytes × Bytes)
  | [] => none
  | b :: rest =>
    match splitLastDot rest with
    | some (before, after) => some (b :: before, after)
    | none => if b = 46 then some ([], rest) else none

/-- What stands before and behind the last dot. A dot in front does not count. -/
def rsplitFileAtDot (file : Bytes) : Option Bytes × Option Bytes :=
  match splitLastDot file with
  | none => (none, some file)
  | some ([], _) => (some file, none)
  | some (before, after) => (some before, some after)

def fileStem (path : PathBuf) : Bytes :=
  ((rsplitFileAtDot path.fileName).1.or (rsplitFileAtDot path.fileName).2).getD []

def extension (path : PathBuf) : Option Bytes :=
  (rsplitFileAtDot path.fileName).1.bind fun _ => (rsplitFileAtDot path.fileName).2

theorem splitLastDot_prefix {file before after : Bytes}
    (h : splitLastDot file = some (before, after)) : before <+: file := by
  induction file generalizing before with
  | nil => cases h
  | cons b rest ih =>
    rw [splitLastDot] at h
    cases hrest : splitLastDot rest with
    | none =>
      rw [hrest] at h
      simp only [Option.ite_none_right_eq_some, Option.some.injEq, Prod.mk.injEq] at h
      rw [← h.2.1]
      exact List.nil_prefix
    | some split =>
      rw [hrest] at h
      obtain ⟨rfl, rfl⟩ := Prod.mk.inj (Option.some.inj h)
      exact (List.prefix_cons_inj b).mpr (ih hrest)

theorem fileStem_spec (path : PathBuf) : path.fileStem ≠ [] ∧ path.fileStem <+: path.fileName := by
  rw [fileStem, rsplitFileAtDot]
  cases hsplit : splitLastDot path.fileName with
  | none => exact ⟨path.named.1, List.prefix_rfl⟩
  | some split =>
    obtain ⟨before, after⟩ := split
    cases before with
    | nil => exact ⟨path.named.1, List.prefix_rfl⟩
    | cons b before => exact ⟨List.cons_ne_nil b before, splitLastDot_prefix hsplit⟩

/-- The last extension is replaced, or the first one added. -/
def withExtension (path : PathBuf) (extension : Bytes) (h : extension ≠ [] ∧ 47 ∉ extension) :
    PathBuf where
  parent := path.parent
  fileName := path.fileStem ++ 46 :: extension
  named := by
    obtain ⟨hstem, hstart⟩ := path.fileStem_spec
    have hlength : 3 ≤ (path.fileStem ++ 46 :: extension).length := by
      have hpos := List.length_pos_of_ne_nil hstem
      have hpos' := List.length_pos_of_ne_nil h.1
      rw [List.length_append, List.length_cons]
      omega
    have hshort : ∀ name : Bytes, name.length < 3 → path.fileStem ++ 46 :: extension ≠ name := by
      rintro name hname rfl
      omega
    refine ⟨hshort [] (by decide), hshort (ascii ".") (by decide), hshort (ascii "..") (by decide), ?_⟩
    rw [List.mem_append, List.mem_cons]
    rintro (hmem | hdot | hmem)
    · exact path.named.2.2.2 (hstart.subset hmem)
    · exact absurd hdot (by decide)
    · exact h.2 hmem

def tempPath (path : PathBuf) : PathBuf := path.withExtension (ascii "tmp") (by decide)

end PathBuf

namespace Bincode

def serializePair (p : Bytes × Bytes) : Bytes := serializeVecU8 p.1 ++ serializeVecU8 p.2

def deserializePair : Deserialize (Bytes × Bytes) := do
  let key ← deserializeVecU8
  let value ← deserializeVecU8
  return (key, value)

/-- A map is written in the order of its keys. -/
def serializeMap (data : OrdMap Bytes Bytes) : Bytes := serializeSeq serializePair data.toList

/-- Entries are inserted as they come. -/
def deserializeMap : Deserialize (OrdMap Bytes Bytes) := do
  let entries ← deserializeSeq deserializePair
  return entries.foldl (fun data p => data.insert p.1 p.2) ∅

def MapRoundTrip (data : OrdMap Bytes Bytes) : Prop :=
  deserialize deserializeMap (serializeMap data) = .ok data

theorem serializeMap_ne_nil (data : OrdMap Bytes Bytes) : serializeMap data ≠ [] := by
  have hlen : (serializeLen data.toList.length).length = 8 := by
    simp [serializeLen, serializeU64, littleEndian, bigEndian_length]
  intro h
  rw [serializeMap, serializeSeq] at h
  rw [(List.append_eq_nil_iff.mp h).1] at hlen
  cases hlen

end Bincode

namespace KeyValueStore

def readMap : Option Bytes → Except StorageError (OrdMap Bytes Bytes)
  | none => .ok ∅
  | some buf =>
    if buf.isEmpty then .ok ∅
    else match Bincode.deserialize Bincode.deserializeMap buf with
      | .ok data => .ok data
      | .error _ => .error .bincode

/-- `open`: a file that is missing or empty is an empty store. -/
def openAt (files : Files PathBuf UInt8) (path : PathBuf) : Except StorageError KeyValueStore :=
  (readMap (files path)).map fun data => ⟨data, some path.bytes⟩

def put (kv : KeyValueStore) (ioError : Option StorageError) (key value : Bytes) :
    KeyValueStore × Except StorageError Unit :=
  let kv' := { kv with data := kv.data.insert key value }
  (kv', kv'.persist ioError)

def delete (kv : KeyValueStore) (ioError : Option StorageError) (key : Bytes) :
    KeyValueStore × Except StorageError Unit :=
  let kv' := { kv with data := kv.data.erase key }
  (kv', kv'.persist ioError)

end KeyValueStore

inductive KvCall
  | put (key value : Bytes)
  | delete (key : Bytes)
  | applyBatch (ops : List BatchOp)

def KvCall.run (kv : KeyValueStore) : KvCall → KeyValueStore × Except StorageError Unit
  | .put key value => kv.put none key value
  | .delete key => kv.delete none key
  | .applyBatch ops => kv.applyBatch none ops

/-- Where the calling thread is: outside of `persist`, in it, or behind it. -/
inductive KvPhase
  | idle
  | persisting (call : KvCall) (left : Replacement UInt8)
  | persisted (call : KvCall)

def KvPhase.after (call : KvCall) : Option (Replacement UInt8) → KvPhase
  | some left => .persisting call left
  | none => .persisted call

structure DiskStore where
  kv : KeyValueStore
  disk : Disk PathBuf UInt8
  phase : KvPhase

inductive KvAction
  | call (call : KvCall)
  | syscall (call : Syscall)
  | ret

inductive KvEvent
  | called (call : KvCall)
  | returned (call : KvCall)

namespace DiskStore

/-- A store opened on what is on the disk. -/
def start (files : Files PathBuf UInt8) (kv : KeyValueStore) : DiskStore := ⟨kv, .boot files, .idle⟩

/-- The map in memory is changed and serialized at once, and then the system
calls of `persist` follow one by one. -/
def step (path : PathBuf) (s : DiskStore) (action : KvAction) : Option (DiskStore × List KvEvent) :=
  match s.phase, action with
  | .idle, .call call =>
    let kv := (call.run s.kv).1
    some (⟨kv, s.disk, .persisting call (.truncate (Bincode.serializeMap kv.data))⟩, [.called call])
  | .persisting call left, .syscall sys =>
    (left.next path.tempPath path s.disk sys).map fun r => (⟨s.kv, r.1, .after call r.2⟩, [])
  | .persisted call, .ret => some (⟨s.kv, s.disk, .idle⟩, [.returned call])
  | _, _ => none

/-- The map that a call makes is one that bincode reads back. -/
def allowed (s : DiskStore) : KvAction → Prop
  | .call call => Bincode.MapRoundTrip (call.run s.kv).1.data
  | _ => True

/-- The store after some calls. -/
def replay (kv : KeyValueStore) (calls : List KvCall) : KeyValueStore :=
  calls.foldl (fun kv call => (call.run kv).1) kv

def calls (log : List KvEvent) : List KvCall :=
  log.filterMap fun event => match event with
    | .called call => some call
    | .returned _ => none

/-- The calls that have returned `Ok`. -/
def acked (log : List KvEvent) : List KvCall :=
  log.filterMap fun event => match event with
    | .called _ => none
    | .returned call => some call

end DiskStore

end AuraChain
