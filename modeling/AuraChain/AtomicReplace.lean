import Mathlib

/-! Replacing a file through a temporary one. A crash keeps what was synced and
may leave anything in the rest, so that the target holds its old content or
the new one, and never a part of it. -/

universe u v

/-- A file as a running process sees it. -/
structure DiskFile (β : Type v) where
  content : List β
  synced : Bool

abbrev Files (π : Type u) (β : Type v) := π → Option (List β)

abbrev Disk (π : Type u) (β : Type v) := π → Option (DiskFile β)

namespace Disk

variable {π : Type u} {β : Type v}

def boot (files : Files π β) : Disk π β := fun path => (files path).map fun content => ⟨content, true⟩

def contents (disk : Disk π β) : Files π β := fun path => (disk path).map DiskFile.content

/-- The files that a crash may leave. A file that is not synced has any content
afterwards, or is gone. -/
def Crash (disk : Disk π β) (files : Files π β) : Prop :=
  ∀ path, (disk path = none → files path = none) ∧
    ∀ file, disk path = some file → file.synced = true → files path = some file.content

def Synced (disk : Disk π β) (path : π) : Prop := ∀ file, disk path = some file → file.synced = true

theorem synced_boot (files : Files π β) (path : π) : (boot files).Synced path := by
  intro file hfile
  obtain ⟨content, -, rfl⟩ := Option.map_eq_some_iff.mp hfile
  rfl

theorem contents_boot (files : Files π β) : (boot files).contents = files := by
  funext path
  rw [contents, boot]
  cases files path <;> rfl

theorem Crash.eq_contents {disk : Disk π β} {files : Files π β} {path : π} (h : disk.Crash files)
    (hsynced : disk.Synced path) : files path = disk.contents path := by
  obtain ⟨habsent, hpresent⟩ := h path
  rw [contents]
  cases hfile : disk path with
  | none => exact habsent hfile
  | some file => exact hpresent file hfile (hsynced file hfile)

variable [DecidableEq π]

def truncate (disk : Disk π β) (path : π) : Disk π β := Function.update disk path (some ⟨[], false⟩)

def append (disk : Disk π β) (path : π) (bytes : List β) : Option (Disk π β) :=
  (disk path).map fun file => Function.update disk path (some ⟨file.content ++ bytes, false⟩)

def syncAll (disk : Disk π β) (path : π) : Option (Disk π β) :=
  (disk path).map fun file => Function.update disk path (some { file with synced := true })

def rename (disk : Disk π β) (source target : π) : Option (Disk π β) :=
  (disk source).map fun file => Function.update (Function.update disk source none) target (some file)

end Disk

/-- What is left to do of a replacement. -/
inductive Replacement (β : Type v)
  | truncate (bytes : List β)
  | write (rest : List β)
  | rename

/-- A write takes as many bytes as the system likes. -/
inductive Syscall
  | openTemp
  | write (count : Nat)
  | syncAll
  | rename

namespace Replacement

variable {π : Type u} {β : Type v} [DecidableEq π] {temp target : π} {disk disk' : Disk π β}
  {bytes : List β} {r : Replacement β} {call : Syscall}

/-- One call of the replacement, and what is then left to do. -/
def next (temp target : π) (disk : Disk π β) :
    Replacement β → Syscall → Option (Disk π β × Option (Replacement β))
  | .truncate bytes, .openTemp => some (disk.truncate temp, some (.write bytes))
  | .write rest, .write count =>
    if 0 < count ∧ count ≤ rest.length then
      (disk.append temp (rest.take count)).map fun disk' => (disk', some (.write (rest.drop count)))
    else none
  | .write [], .syncAll => (disk.syncAll temp).map fun disk' => (disk', some .rename)
  | .rename, .rename => (disk.rename temp target).map fun disk' => (disk', none)
  | _, _ => none

/-- What of the bytes the temporary file holds by now. -/
def Prepared (temp : π) (bytes : List β) (disk : Disk π β) : Replacement β → Prop
  | .truncate rest => rest = bytes
  | .write rest => ∃ file, disk temp = some file ∧ file.content ++ rest = bytes
  | .rename => disk temp = some ⟨bytes, true⟩

/-- Every call but the last leaves the target alone, and the last one gives it
all the bytes at once. -/
theorem next_cases (hne : temp ≠ target) (hprepared : r.Prepared temp bytes disk)
    {left : Option (Replacement β)} (h : r.next temp target disk call = some (disk', left)) :
    (∃ r', left = some r' ∧ r'.Prepared temp bytes disk' ∧ disk' target = disk target) ∨
      left = none ∧ disk' target = some ⟨bytes, true⟩ := by
  have hother : ∀ file, Function.update disk temp file target = disk target :=
    fun file => Function.update_of_ne hne.symm file disk
  cases r with
  | truncate rest =>
    cases call <;> simp only [next, reduceCtorEq, Option.some.injEq, Prod.mk.injEq] at h
    obtain ⟨rfl, rfl⟩ := h
    obtain rfl : rest = bytes := hprepared
    exact .inl ⟨_, rfl, ⟨⟨[], false⟩, Function.update_self _ _ _, rfl⟩, hother _⟩
  | write rest =>
    obtain ⟨file, hfile, hbytes⟩ := hprepared
    cases call with
    | write count =>
      simp only [next, Disk.append, hfile, Option.map_some] at h
      split_ifs at h
      obtain ⟨rfl, rfl⟩ := Prod.mk.inj (Option.some.inj h)
      refine .inl ⟨_, rfl, ⟨_, Function.update_self _ _ _, ?_⟩, hother _⟩
      rw [List.append_assoc, List.take_append_drop, hbytes]
    | syncAll =>
      cases rest with
      | nil =>
        simp only [next, Disk.syncAll, hfile, Option.map_some, Option.some.injEq, Prod.mk.injEq] at h
        obtain ⟨rfl, rfl⟩ := h
        rw [List.append_nil] at hbytes
        subst hbytes
        exact .inl ⟨_, rfl, Function.update_self _ _ _, hother _⟩
      | cons byte rest => simp [next] at h
    | openTemp => simp [next] at h
    | rename => simp [next] at h
  | rename =>
    have hfile : disk temp = some ⟨bytes, true⟩ := hprepared
    cases call <;> simp only [next, Disk.rename, hfile, reduceCtorEq, Option.map_some,
      Option.some.injEq, Prod.mk.injEq] at h
    obtain ⟨rfl, rfl⟩ := h
    exact .inr ⟨rfl, Function.update_self _ _ _⟩

/-- The calls of a replacement that no crash meets. -/
theorem completes (temp target : π) (disk : Disk π β) {bytes : List β} (hbytes : bytes ≠ []) :
    ∃ opened written synced renamed,
      next temp target disk (.truncate bytes) .openTemp = some (opened, some (.write bytes)) ∧
      next temp target opened (.write bytes) (.write bytes.length) = some (written, some (.write [])) ∧
      next temp target written (.write []) .syncAll = some (synced, some .rename) ∧
      next temp target synced .rename .rename = some (renamed, none) := by
  have hcount : 0 < bytes.length ∧ bytes.length ≤ bytes.length :=
    ⟨List.length_pos_of_ne_nil hbytes, le_rfl⟩
  let opened := disk.truncate temp
  let written := Function.update opened temp (some ⟨bytes, false⟩)
  let synced := Function.update written temp (some ⟨bytes, true⟩)
  have hopened : opened temp = some ⟨[], false⟩ := Function.update_self _ _ _
  have hwritten : written temp = some ⟨bytes, false⟩ := Function.update_self _ _ _
  have hsynced : synced temp = some ⟨bytes, true⟩ := Function.update_self _ _ _
  refine ⟨opened, written, synced,
    Function.update (Function.update synced temp none) target (some ⟨bytes, true⟩), rfl, ?_, ?_, ?_⟩
  · rw [next, if_pos hcount, Disk.append, hopened, List.take_length, List.drop_length]
    rfl
  · rw [next, Disk.syncAll, hwritten]
    rfl
  · rw [next, Disk.rename, hsynced]
    rfl

end Replacement
