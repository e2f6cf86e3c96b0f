import AuraChain.Wal

/-! What recovery makes of a file: the scan of its records, and the file cut
behind the last one. -/

namespace AuraChain

namespace WriteAheadLog

variable (crc32 : Bytes → UInt32)

theorem walMagic_length : walMagic.length = 4 := rfl

theorem setLen_append (l rest : Bytes) : setLen (l ++ rest) l.length = l := by
  have hzero : l.length - (l ++ rest).length = 0 := by
    rw [List.length_append]
    omega
  rw [setLen, List.take_left' rfl, hzero, List.replicate_zero, List.append_nil]

theorem readRecords_fits (body : Bytes) : ∀ r ∈ (framing crc32).scan body, fits r :=
  (framing crc32).valid_of_mem_scan

theorem recover_eq (body : Bytes) : recoverAndTruncate crc32 (walMagic ++ body) =
    (walMagic ++ encodeRecords crc32 ((framing crc32).scan body),
      .ok ((framing crc32).scan body)) := by
  have hfuel : body.length ≤ (walMagic ++ body).length := by simp
  have hloop := recoverLoop_eq crc32 (walMagic ++ body).length body [] 4
  rw [(framing crc32).scanFuel_eq_scan hfuel, List.nil_append] at hloop
  obtain ⟨rest, hbody, -⟩ := (framing crc32).scan_split body
  have hcut : setLen (walMagic ++ body)
      (4 + (encodeRecords crc32 ((framing crc32).scan body)).length) =
      walMagic ++ encodeRecords crc32 ((framing crc32).scan body) := by
    have hcut := setLen_append (walMagic ++ encodeRecords crc32 ((framing crc32).scan body)) rest
    rw [List.append_assoc, show encodeRecords crc32 _ ++ rest = body from hbody.symm,
      List.length_append] at hcut
    exact hcut
  rw [recoverAndTruncate, readExact_append walMagic_length]
  simp only [ne_eq, not_true_eq_false, if_false, hloop, hcut]

/-- A file cut short at any byte keeps the records that were written whole. -/
theorem scan_longest {body : Bytes} {records written : List Bytes} (hw : ∀ r ∈ written, fits r)
    (hbody : body <+: encodeRecords crc32 written) (hrecords : records <+: written)
    (hlen : (encodeRecords crc32 records).length ≤ body.length) :
    records <+: (framing crc32).scan body := by
  have hfits : ∀ r ∈ records, fits r := fun r hr => hw r (hrecords.subset hr)
  have hwritten : encodeRecords crc32 records <+: encodeRecords crc32 written := by
    obtain ⟨later, rfl⟩ := hrecords
    rw [encodeRecords, encodeRecords, Framing.encode_append]
    exact List.prefix_append _ _
  exact (framing crc32).prefix_scan hfits (List.prefix_of_prefix_length_le hwritten hbody hlen)

theorem appendAll_eq (records : List Bytes) : records.foldl (append crc32) (openFile none) =
    walMagic ++ encodeRecords crc32 records := by
  induction records using List.reverseRecOn with
  | nil => simp [openFile, encodeRecords, Framing.encode]
  | append_singleton records record ih =>
    rw [List.foldl_append, ih, List.foldl_cons, List.foldl_nil, append, List.append_assoc,
      encodeRecords_concat]

/-- Recovery returns the longest intact prefix of the file and cuts the file
there. Of a log that was cut short these are the records that fit in it. -/
theorem recover_longest_prefix {file : Bytes} (hmagic : walMagic <+: file) :
    ∃ records, (∀ r ∈ records, fits r) ∧
      recoverAndTruncate crc32 file = (walMagic ++ encodeRecords crc32 records, .ok records) ∧
      walMagic ++ encodeRecords crc32 records <+: file ∧
      (∀ r, fits r → ¬ walMagic ++ encodeRecords crc32 (records ++ [r]) <+: file) ∧
      recoverAndTruncate crc32 (walMagic ++ encodeRecords crc32 records) =
        (walMagic ++ encodeRecords crc32 records, .ok records) ∧
      ∀ written : List Bytes, (∀ r ∈ written, fits r) →
        file <+: written.foldl (append crc32) (openFile none) →
        records <+: written ∧ ∀ others, others <+: written →
          (walMagic ++ encodeRecords crc32 others).length ≤ file.length → others <+: records := by
  obtain ⟨body, rfl⟩ := hmagic
  have hfits := readRecords_fits crc32 body
  have hprefix : encodeRecords crc32 ((framing crc32).scan body) <+: body :=
    (framing crc32).encode_scan_isPrefix body
  have hagain := recover_eq crc32 (encodeRecords crc32 ((framing crc32).scan body))
  rw [scan_encodeRecords crc32 hfits] at hagain
  refine ⟨(framing crc32).scan body, hfits, recover_eq crc32 body,
    (List.prefix_append_right_inj _).mpr hprefix, ?_, hagain, ?_⟩
  · intro r hr h
    exact (framing crc32).not_extends hr ((List.prefix_append_right_inj _).mp h)
  · intro written hwritten hfile
    rw [appendAll_eq, List.prefix_append_right_inj] at hfile
    refine ⟨(framing crc32).scan_isPrefix hwritten hfile, fun others hothers hlen => ?_⟩
    rw [List.length_append, List.length_append] at hlen
    exact scan_longest crc32 hwritten hfile hothers (by omega)

end WriteAheadLog

namespace WalRecovery

def shiftBit (crc : UInt32) : UInt32 :=
  if crc &&& 1 = 1 then (crc >>> 1) ^^^ 0xEDB88320 else crc >>> 1

/-- CRC-32 with the polynomial of IEEE 802.3, bit by bit. -/
def crc32 (data : Bytes) : UInt32 :=
  data.foldl (fun crc b => shiftBit^[8] (crc ^^^ b.toUInt32)) 0xFFFFFFFF ^^^ 0xFFFFFFFF

example : crc32 (ascii "123456789") = 0xCBF43926 := by decide +kernel

def entries : List Bytes := [ascii "entry_1", ascii "entry_2"]

/-- The second record has lost its last three bytes. -/
def torn : Bytes :=
  (entries.foldl (WriteAheadLog.append crc32) (WriteAheadLog.openFile none)).take 31

theorem recover_longest_prefix_torn :
    WriteAheadLog.recoverAndTruncate crc32 torn = (torn.take 19, .ok [ascii "entry_1"]) ∧
      [ascii "entry_1"] <+: entries := by
  have hmagic : walMagic <+: torn := by decide +kernel
  have hrun : WriteAheadLog.recoverAndTruncate crc32 torn =
      (torn.take 19, .ok [ascii "entry_1"]) := by decide +kernel
  obtain ⟨records, -, hrecover, -, -, -, hlongest⟩ :=
    WriteAheadLog.recover_longest_prefix crc32 hmagic
  have hrecords : records = [ascii "entry_1"] := by
    rw [hrun, Prod.mk.injEq, Except.ok.injEq] at hrecover
    exact hrecover.2.symm
  have hentries : ∀ r ∈ entries, WriteAheadLog.fits r := by
    intro r hr
    simp only [entries, List.mem_cons, List.not_mem_nil, or_false] at hr
    rcases hr with rfl | rfl <;> decide
  exact ⟨hrun, hrecords ▸ (hlongest entries hentries (List.take_prefix 31 _)).1⟩

end WalRecovery

end AuraChain
