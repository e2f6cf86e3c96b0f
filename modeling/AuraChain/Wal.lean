import AuraChain.FramedLog
import AuraChain.Word

/-! The write-ahead log. A file is its content, every handle reads and writes
through a cursor of its own, and reading fails at the end of the file only. The
checksum of the crate crc32fast is a parameter. -/

namespace AuraChain

def walMagic : Bytes := ascii "AWAL"

inductive WalError
  | invalidMagic
  deriving DecidableEq

def readExact (n : Nat) (rest : Bytes) : Option (Bytes × Bytes) :=
  if n ≤ rest.length then some (rest.take n, rest.drop n) else none

def setLen (file : Bytes) (len : Nat) : Bytes :=
  file.take len ++ List.replicate (len - file.length) 0

namespace WriteAheadLog

/-- A file that is not there, or is empty, gets the magic. -/
def openFile : Option Bytes → Bytes
  | none => walMagic
  | some file => if file.length = 0 then walMagic else file

variable (crc32 : Bytes → UInt32)

def encodeRecord (record : Bytes) : Bytes :=
  (UInt32.ofNat record.length).toBeBytes ++ (crc32 record).toBeBytes ++ record

def append (file record : Bytes) : Bytes := file ++ encodeRecord crc32 record

/-- One turn of the recovery loop, from the length to the comparison of the
checksums. Each `none` is a `break`. -/
def readRecord (rest : Bytes) : Option (Bytes × Bytes) :=
  match readExact 4 rest with
  | none => none
  | some (lenBuf, rest) =>
    let len := (UInt32.fromBeBytes lenBuf).toNat
    match readExact 4 rest with
    | none => none
    | some (crcBuf, rest) =>
      let expectedCrc := UInt32.fromBeBytes crcBuf
      match readExact len rest with
      | none => none
      | some (payload, rest) => if crc32 payload ≠ expectedCrc then none else some (payload, rest)

def recoverLoop : Nat → Bytes → List Bytes → Nat → List Bytes × Nat
  | 0, _, records, lastValidOffset => (records, lastValidOffset)
  | fuel + 1, rest, records, lastValidOffset =>
    match readRecord crc32 rest with
    | none => (records, lastValidOffset)
    | some (payload, rest) =>
      recoverLoop fuel rest (records ++ [payload]) (lastValidOffset + (8 + payload.length))

/-- The loop ends within as many turns as the file has bytes. -/
def recoverAndTruncate (file : Bytes) : Bytes × Except WalError (List Bytes) :=
  match readExact 4 file with
  | none => (file, .error .invalidMagic)
  | some (magic, rest) =>
    if magic ≠ walMagic then (file, .error .invalidMagic)
    else
      let (records, lastValidOffset) := recoverLoop crc32 file.length rest [] 4
      (setLen file lastValidOffset, .ok records)

/-- The length of the record fits in its header. -/
def fits (record : Bytes) : Prop := record.length < 2 ^ 32

instance (record : Bytes) : Decidable (fits record) :=
  inferInstanceAs (Decidable (record.length < 2 ^ 32))

theorem readExact_append {n : Nat} {l : Bytes} (hn : l.length = n) (rest : Bytes) :
    readExact n (l ++ rest) = some (l, rest) := by
  have hle : n ≤ (l ++ rest).length := by simp [← hn]
  rw [readExact, if_pos hle, List.take_left' hn, List.drop_left' hn]

theorem of_readExact {n : Nat} {s l rest : Bytes} (h : readExact n s = some (l, rest)) :
    l.length = n ∧ s = l ++ rest := by
  rw [readExact] at h
  split_ifs at h with hn
  obtain ⟨rfl, rfl⟩ := Prod.mk.inj (Option.some.inj h)
  exact ⟨List.length_take_of_le hn, (List.take_append_drop n s).symm⟩

theorem length_encodeRecord (record : Bytes) :
    (encodeRecord crc32 record).length = 8 + record.length := by
  simp only [encodeRecord, List.length_append, UInt32.toBeBytes_length]

theorem readRecord_encodeRecord {record : Bytes} (h : fits record) (rest : Bytes) :
    readRecord crc32 (encodeRecord crc32 record ++ rest) = some (record, rest) := by
  have hlen : (UInt32.ofNat record.length).toNat = record.length := UInt32.toNat_ofNat_of_lt h
  rw [readRecord, encodeRecord, List.append_assoc, List.append_assoc,
    readExact_append (UInt32.toBeBytes_length _)]
  simp only [UInt32.fromBeBytes_toBeBytes, hlen]
  rw [readExact_append (UInt32.toBeBytes_length _)]
  simp only [UInt32.fromBeBytes_toBeBytes]
  rw [readExact_append rfl]
  simp

theorem of_readRecord {s record rest : Bytes} (h : readRecord crc32 s = some (record, rest)) :
    fits record ∧ s = encodeRecord crc32 record ++ rest := by
  rw [readRecord] at h
  cases hl : readExact 4 s with
  | none => simp [hl] at h
  | some r =>
    obtain ⟨lenBuf, afterLen⟩ := r
    simp only [hl] at h
    cases hc : readExact 4 afterLen with
    | none => simp [hc] at h
    | some r =>
      obtain ⟨crcBuf, afterCrc⟩ := r
      simp only [hc] at h
      cases hp : readExact (UInt32.fromBeBytes lenBuf).toNat afterCrc with
      | none => simp [hp] at h
      | some r =>
        obtain ⟨payload, tail⟩ := r
        simp only [hp] at h
        split_ifs at h with hcrc
        obtain ⟨rfl, rfl⟩ := Prod.mk.inj (Option.some.inj h)
        obtain ⟨hlenBuf, rfl⟩ := of_readExact hl
        obtain ⟨hcrcBuf, rfl⟩ := of_readExact hc
        obtain ⟨hpayload, rfl⟩ := of_readExact hp
        have hsize : UInt32.ofNat payload.length = UInt32.fromBeBytes lenBuf := by
          rw [hpayload, UInt32.ofNat_toNat]
        have hfits : fits payload := by
          rw [fits, hpayload]
          exact UInt32.toNat_lt _
        refine ⟨hfits, ?_⟩
        rw [encodeRecord, hsize, not_not.mp hcrc, UInt32.toBeBytes_fromBeBytes hlenBuf,
          UInt32.toBeBytes_fromBeBytes hcrcBuf]
        simp only [List.append_assoc]

/-- The records of the log as frames. -/
def framing : Framing Bytes UInt8 where
  valid := fits
  frame := encodeRecord crc32
  read := readRecord crc32
  frame_ne_nil record h := by
    have hlen := congrArg List.length h
    simp [length_encodeRecord] at hlen
  read_frame rest h := readRecord_encodeRecord crc32 h rest
  of_read h := of_readRecord crc32 h

def encodeRecords (records : List Bytes) : Bytes := (framing crc32).encode records

theorem scan_encodeRecords {records : List Bytes} (h : ∀ r ∈ records, fits r) :
    (framing crc32).scan (encodeRecords crc32 records) = records :=
  (framing crc32).scan_encode h

theorem encodeRecords_concat (records : List Bytes) (record : Bytes) :
    encodeRecords crc32 (records ++ [record]) =
      encodeRecords crc32 records ++ encodeRecord crc32 record := by
  have hone : (framing crc32).encode [record] = encodeRecord crc32 record := List.append_nil _
  rw [encodeRecords, encodeRecords, Framing.encode_append, hone]

theorem recoverLoop_eq (fuel : Nat) (rest : Bytes) (records : List Bytes) (offset : Nat) :
    recoverLoop crc32 fuel rest records offset =
      (records ++ (framing crc32).scanFuel fuel rest,
        offset + (encodeRecords crc32 ((framing crc32).scanFuel fuel rest)).length) := by
  induction fuel generalizing rest records offset with
  | zero => simp [recoverLoop, Framing.scanFuel, encodeRecords, Framing.encode]
  | succ fuel ih =>
    have hread : (framing crc32).read rest = readRecord crc32 rest := rfl
    cases h : readRecord crc32 rest with
    | none => simp [recoverLoop, Framing.scanFuel, hread, h, encodeRecords, Framing.encode]
    | some r =>
      obtain ⟨payload, tail⟩ := r
      have hframe : ((framing crc32).frame payload).length = 8 + payload.length :=
        length_encodeRecord crc32 payload
      simp only [recoverLoop, Framing.scanFuel, hread, h, ih, encodeRecords, Framing.encode_cons,
        List.length_append, hframe, List.append_assoc, List.singleton_append]
      rw [Nat.add_assoc]

end WriteAheadLog

end AuraChain
