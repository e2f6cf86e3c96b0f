import AuraChain.DiskStore

/-! The store across a crash. What is on the disk under the store's own path is
at every moment the map after the calls that have returned, or after one more. -/

namespace AuraChain

namespace DiskStore

variable {path : PathBuf} {kv kv' : KeyValueStore} {disk disk' : Disk PathBuf UInt8}
  {s s' : DiskStore} {log out : List KvEvent} {action : KvAction}

/-- The path holds the store for good. -/
structure Stored (path : PathBuf) (disk : Disk PathBuf UInt8) (kv : KeyValueStore) : Prop where
  synced : disk.Synced path
  opens : KeyValueStore.openAt disk.contents path = .ok kv

theorem Stored.crash (h : Stored path disk kv) {files : Files PathBuf UInt8}
    (hcrash : disk.Crash files) : KeyValueStore.openAt files path = .ok kv := by
  rw [KeyValueStore.openAt, hcrash.eq_contents h.synced]
  exact h.opens

theorem Stored.congr (h : Stored path disk kv) (hsame : disk' path = disk path) :
    Stored path disk' kv where
  synced := by
    rw [Disk.Synced, hsame]
    exact h.synced
  opens := by
    have hcontents : disk'.contents path = disk.contents path := by
      rw [Disk.contents, Disk.contents, hsame]
    rw [KeyValueStore.openAt, hcontents]
    exact h.opens

theorem Stored.boot {files : Files PathBuf UInt8} (h : KeyValueStore.openAt files path = .ok kv) :
    Stored path (.boot files) kv where
  synced := Disk.synced_boot files path
  opens := by rwa [Disk.contents_boot]

theorem Stored.written (hpath : kv.dbPath = some path.bytes)
    (hreads : Bincode.MapRoundTrip kv.data)
    (hfile : disk path = some ⟨Bincode.serializeMap kv.data, true⟩) : Stored path disk kv where
  synced := by
    intro file h
    rw [hfile] at h
    rw [← Option.some.inj h]
  opens := by
    have hbuf : (Bincode.serializeMap kv.data).isEmpty = false :=
      List.isEmpty_eq_false_iff.mpr (Bincode.serializeMap_ne_nil kv.data)
    have hread : KeyValueStore.readMap (disk.contents path) = .ok kv.data := by
      rw [Disk.contents, hfile, Option.map_some, KeyValueStore.readMap, hbuf, hreads]
      rfl
    rw [KeyValueStore.openAt, hread, ← hpath]
    rfl

theorem run_dbPath (kv : KeyValueStore) (call : KvCall) : (call.run kv).1.dbPath = kv.dbPath := by
  cases call <;> rfl

theorem replay_concat (kv : KeyValueStore) (calls : List KvCall) (call : KvCall) :
    replay kv (calls ++ [call]) = (call.run (replay kv calls)).1 := by
  rw [replay, List.foldl_append]
  rfl

/-- Where a call stands, and what the disk shows of it. -/
def InFlight (path : PathBuf) (kv : KeyValueStore) (s : DiskStore) (log : List KvEvent) : Prop :=
  match s.phase with
  | .idle => calls log = acked log ∧ Stored path s.disk s.kv
  | .persisting call left => calls log = acked log ++ [call] ∧
      Stored path s.disk (replay kv (acked log)) ∧ Bincode.MapRoundTrip s.kv.data ∧
      left.Prepared path.tempPath (Bincode.serializeMap s.kv.data) s.disk
  | .persisted call => calls log = acked log ++ [call] ∧ Stored path s.disk s.kv

structure Consistent (path : PathBuf) (kv : KeyValueStore) (s : DiskStore) (log : List KvEvent) :
    Prop where
  dbPath : s.kv.dbPath = some path.bytes
  memory : s.kv = replay kv (calls log)
  inFlight : InFlight path kv s log

theorem calls_append (log out : List KvEvent) : calls (log ++ out) = calls log ++ calls out :=
  List.filterMap_append

theorem acked_append (log out : List KvEvent) : acked (log ++ out) = acked log ++ acked out :=
  List.filterMap_append

/-- What a step does, with its guards. -/
theorem step_cases (h : step path s action = some (s', out)) :
    (∃ call, action = .call call ∧ s.phase = .idle ∧ out = [.called call] ∧
      s' = ⟨(call.run s.kv).1, s.disk,
        .persisting call (.truncate (Bincode.serializeMap (call.run s.kv).1.data))⟩) ∨
    (∃ call left disk' left', s.phase = .persisting call left ∧ out = [] ∧
      (∃ sys, left.next path.tempPath path s.disk sys = some (disk', left')) ∧
      s' = ⟨s.kv, disk', .after call left'⟩) ∨
    (∃ call, s.phase = .persisted call ∧ out = [.returned call] ∧ s' = ⟨s.kv, s.disk, .idle⟩) := by
  unfold step at h
  cases hphase : s.phase with
  | idle =>
    cases action with
    | call call =>
      simp only [hphase, Option.some.injEq, Prod.mk.injEq] at h
      obtain ⟨rfl, rfl⟩ := h
      exact .inl ⟨call, rfl, rfl, rfl, rfl⟩
    | syscall sys => simp [hphase] at h
    | ret => simp [hphase] at h
  | persisting call left =>
    cases action with
    | call call => simp [hphase] at h
    | syscall sys =>
      simp only [hphase, Option.map_eq_some_iff, Prod.mk.injEq] at h
      obtain ⟨⟨disk', left'⟩, hnext, rfl, rfl⟩ := h
      exact .inr (.inl ⟨call, left, disk', left', rfl, rfl, ⟨sys, hnext⟩, rfl⟩)
    | ret => simp [hphase] at h
  | persisted call =>
    cases action with
    | call call => simp [hphase] at h
    | syscall sys => simp [hphase] at h
    | ret =>
      simp only [hphase, Option.some.injEq, Prod.mk.injEq] at h
      obtain ⟨rfl, rfl⟩ := h
      exact .inr (.inr ⟨call, rfl, rfl, rfl⟩)

theorem Consistent.step (h : Consistent path kv s log) (htemp : path.tempPath ≠ path)
    (hallowed : allowed s action) (hstep : step path s action = some (s', out)) :
    Consistent path kv s' (log ++ out) := by
  obtain ⟨hpath, hmemory, hflight⟩ := h
  rw [InFlight] at hflight
  rcases step_cases hstep with ⟨call, rfl, hphase, rfl, rfl⟩ |
    ⟨call, left, disk', left', hphase, rfl, ⟨sys, hnext⟩, rfl⟩ | ⟨call, hphase, rfl, rfl⟩
  · simp only [hphase] at hflight
    obtain ⟨hlog, hstored⟩ := hflight
    have hcalls : calls (log ++ [.called call]) = calls log ++ [call] := calls_append _ _
    have hacked : acked (log ++ [.called call]) = acked log :=
      (acked_append _ _).trans (List.append_nil _)
    refine ⟨(run_dbPath s.kv call).trans hpath, ?_, ?_⟩
    · rw [hcalls, replay_concat, ← hmemory]
    · refine ⟨by rw [hcalls, hacked, hlog], ?_, hallowed, rfl⟩
      rwa [hacked, ← hlog, ← hmemory]
  · simp only [hphase] at hflight
    obtain ⟨hlog, hstored, hreads, hprepared⟩ := hflight
    rw [List.append_nil]
    rcases Replacement.next_cases htemp hprepared hnext with
      ⟨left', rfl, hprepared', hsame⟩ | ⟨rfl, hwritten⟩
    · exact ⟨hpath, hmemory, hlog, hstored.congr hsame, hreads, hprepared'⟩
    · exact ⟨hpath, hmemory, hlog, .written hpath hreads hwritten⟩
  · simp only [hphase] at hflight
    obtain ⟨hlog, hstored⟩ := hflight
    have hcalls : calls (log ++ [.returned call]) = calls log :=
      (calls_append _ _).trans (List.append_nil _)
    have hacked : acked (log ++ [.returned call]) = acked log ++ [call] := acked_append _ _
    refine ⟨hpath, ?_, ?_, hstored⟩
    · rw [hcalls]
      exact hmemory
    · rw [hcalls, hacked, hlog]

end DiskStore

namespace CrashRecovery

/-- What the node opens. -/
def path : PathBuf := ⟨ascii "data", ascii "state.db", by decide +kernel⟩

def empty : KeyValueStore := ⟨∅, some path.bytes⟩

def first : KvCall := .put [1] [2]

def second : KvCall := .put [3] [4]

end CrashRecovery

end AuraChain
