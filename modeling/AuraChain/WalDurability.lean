import AuraChain.TracedRun
import AuraChain.WalRecovery

/-! A log across crashes. A run emits the records whose append has returned.
Bytes that an append has left behind without returning stay in the file, and
only recovery takes them out. -/

namespace AuraChain

structure WalNode where
  file : Option Bytes
  isOpen : Bool

/-- An append fails, or a crash meets it, after `written` of its bytes. -/
inductive WalCall
  | openLog
  | append (record : Bytes)
  | appendFails (record : Bytes) (written : Nat)
  | recoverAndTruncate
  | crash (inFlight : Option (Bytes × Nat))

namespace WalNode

def start : WalNode := ⟨none, false⟩

variable (crc32 : Bytes → UInt32)

def torn (file record : Bytes) (written : Nat) : Bytes :=
  file ++ (WriteAheadLog.encodeRecord crc32 record).take written

def step (node : WalNode) (call : WalCall) : Option (WalNode × List Bytes) :=
  match call, node.file, node.isOpen with
  | .openLog, file, _ => some (⟨some (WriteAheadLog.openFile file), true⟩, [])
  | .append record, some file, true =>
    some (⟨some (WriteAheadLog.append crc32 file record), true⟩, [record])
  | .appendFails record written, some file, true =>
    some (⟨some (torn crc32 file record written), true⟩, [])
  | .recoverAndTruncate, some file, true =>
    some (⟨some (WriteAheadLog.recoverAndTruncate crc32 file).1, true⟩, [])
  | .crash none, file, _ => some (⟨file, false⟩, [])
  | .crash (some (record, written)), some file, true =>
    some (⟨some (torn crc32 file record written), false⟩, [])
  | _, _, _ => none

def Intact (file : Bytes) : Prop :=
  ∃ records, (∀ r ∈ records, WriteAheadLog.fits r) ∧
    file = walMagic ++ WriteAheadLog.encodeRecords crc32 records

def appendsShort : WalCall → Prop
  | .append record => WriteAheadLog.fits record
  | _ => True

def appendsIntact (node : WalNode) : WalCall → Prop
  | .append record => WriteAheadLog.fits record ∧ ∀ file ∈ node.file, Intact crc32 file
  | _ => True

def Recovers (file : Bytes) (acked : List Bytes) : Prop :=
  ∃ records, (WriteAheadLog.recoverAndTruncate crc32 file).2 = .ok records ∧ acked.Sublist records

variable {crc32} {node node' : WalNode} {acked out : List Bytes} {file : Bytes}

theorem Recovers.of_scan {body : Bytes}
    (h : acked.Sublist ((WriteAheadLog.framing crc32).scan body)) :
    Recovers crc32 (walMagic ++ body) acked :=
  ⟨_, congrArg Prod.snd (WriteAheadLog.recover_eq crc32 body), h⟩

/-- What is acknowledged stands in the scan of a file with the magic. -/
def Holds (crc32 : Bytes → UInt32) (file : Bytes) (acked : List Bytes) : Prop :=
  ∃ body, file = walMagic ++ body ∧ acked.Sublist ((WriteAheadLog.framing crc32).scan body)

theorem Holds.openFile (h : Holds crc32 file acked) :
    Holds crc32 (WriteAheadLog.openFile (some file)) acked := by
  obtain ⟨body, rfl, hscan⟩ := h
  have hne : (walMagic ++ body).length ≠ 0 := by simp [WriteAheadLog.walMagic_length]
  exact ⟨body, by rw [WriteAheadLog.openFile, if_neg hne], hscan⟩

theorem Holds.torn (h : Holds crc32 file acked) (record : Bytes) (written : Nat) :
    Holds crc32 (WalNode.torn crc32 file record written) acked := by
  obtain ⟨body, rfl, hscan⟩ := h
  refine ⟨_, by rw [WalNode.torn, List.append_assoc], hscan.trans ?_⟩
  exact ((WriteAheadLog.framing crc32).scan_mono (List.prefix_append _ _)).sublist

theorem Holds.recover (h : Holds crc32 file acked) :
    Holds crc32 (WriteAheadLog.recoverAndTruncate crc32 file).1 acked := by
  obtain ⟨body, rfl, hscan⟩ := h
  have hfits := WriteAheadLog.readRecords_fits crc32 body
  refine ⟨_, congrArg Prod.fst (WriteAheadLog.recover_eq crc32 body), ?_⟩
  rw [WriteAheadLog.scan_encodeRecords crc32 hfits]
  exact hscan

theorem Holds.append {record : Bytes} (h : Holds crc32 file acked) (hfile : Intact crc32 file)
    (hrecord : WriteAheadLog.fits record) :
    Holds crc32 (WriteAheadLog.append crc32 file record) (acked ++ [record]) := by
  obtain ⟨records, hfits, rfl⟩ := hfile
  obtain ⟨body, he, hscan⟩ := h
  have hbody : WriteAheadLog.encodeRecords crc32 records = body := List.append_cancel_left he
  have hwhole := (WriteAheadLog.framing crc32).whole_encode hfits
  have hgrow := ((WriteAheadLog.framing crc32).scan_append_frame hwhole hrecord).1
  refine ⟨_, by rw [WriteAheadLog.append, List.append_assoc], ?_⟩
  rw [← hbody] at hscan
  exact hgrow ▸ hscan.append (List.Sublist.refl [record])

theorem Intact.append {record : Bytes} (h : Intact crc32 file)
    (hrecord : WriteAheadLog.fits record) : Intact crc32 (WriteAheadLog.append crc32 file record) := by
  obtain ⟨records, hfits, rfl⟩ := h
  have hall : ∀ r ∈ records ++ [record], WriteAheadLog.fits r := by
    intro r hr
    rcases List.mem_append.mp hr with hr | hr
    · exact hfits r hr
    · rw [List.mem_singleton.mp hr]
      exact hrecord
  exact ⟨records ++ [record], hall, by
    rw [WriteAheadLog.append, List.append_assoc, WriteAheadLog.encodeRecords_concat]⟩

/-- Recovery makes a file intact, whatever a crash has left in it, and changes
no intact file. -/
theorem intact_iff : Intact crc32 file ↔
    walMagic <+: file ∧ (WriteAheadLog.recoverAndTruncate crc32 file).1 = file := by
  constructor
  · rintro ⟨records, hfits, rfl⟩
    refine ⟨List.prefix_append _ _, ?_⟩
    rw [WriteAheadLog.recover_eq, WriteAheadLog.scan_encodeRecords crc32 hfits]
  · rintro ⟨⟨body, rfl⟩, hsame⟩
    refine ⟨_, WriteAheadLog.readRecords_fits crc32 body, ?_⟩
    rw [WriteAheadLog.recover_eq] at hsame
    exact hsame.symm

instance : Decidable (Intact crc32 file) := decidable_of_iff _ intact_iff.symm

instance : DecidablePred appendsShort := fun call =>
  match call with
  | .openLog => isTrue trivial
  | .append record => inferInstanceAs (Decidable (WriteAheadLog.fits record))
  | .appendFails .. => isTrue trivial
  | .recoverAndTruncate => isTrue trivial
  | .crash _ => isTrue trivial

instance (node : WalNode) (call : WalCall) : Decidable (node.appendsIntact crc32 call) :=
  match call with
  | .openLog => isTrue trivial
  | .append record => inferInstanceAs (Decidable (WriteAheadLog.fits record ∧
      ∀ file ∈ node.file, Intact crc32 file))
  | .appendFails .. => isTrue trivial
  | .recoverAndTruncate => isTrue trivial
  | .crash _ => isTrue trivial

/-- What a call does to the file of the log. -/
inductive Changes (crc32 : Bytes → UInt32) : WalCall → Option Bytes → Option Bytes → List Bytes → Prop
  | openLog (file : Option Bytes) :
      Changes crc32 .openLog file (some (WriteAheadLog.openFile file)) []
  | append (file record : Bytes) :
      Changes crc32 (.append record) (some file) (some (WriteAheadLog.append crc32 file record))
        [record]
  | torn {call : WalCall} (file record : Bytes) (written : Nat) :
      Changes crc32 call (some file) (some (torn crc32 file record written)) []
  | recover (file : Bytes) :
      Changes crc32 .recoverAndTruncate (some file)
        (some (WriteAheadLog.recoverAndTruncate crc32 file).1) []
  | crash (file : Option Bytes) : Changes crc32 (.crash none) file file []

theorem step_changes {call : WalCall} (h : node.step crc32 call = some (node', out)) :
    Changes crc32 call node.file node'.file out := by
  obtain ⟨file, isOpen⟩ := node
  cases call with
  | openLog =>
    simp only [step, Option.some.injEq, Prod.mk.injEq] at h
    obtain ⟨rfl, rfl⟩ := h
    exact .openLog file
  | append record =>
    cases file <;> cases isOpen <;> simp only [step, reduceCtorEq, Option.some.injEq,
      Prod.mk.injEq] at h
    obtain ⟨rfl, rfl⟩ := h
    exact .append _ record
  | appendFails record written =>
    cases file <;> cases isOpen <;> simp only [step, reduceCtorEq, Option.some.injEq,
      Prod.mk.injEq] at h
    obtain ⟨rfl, rfl⟩ := h
    exact .torn _ record written
  | recoverAndTruncate =>
    cases file <;> cases isOpen <;> simp only [step, reduceCtorEq, Option.some.injEq,
      Prod.mk.injEq] at h
    obtain ⟨rfl, rfl⟩ := h
    exact .recover _
  | crash inFlight =>
    cases inFlight with
    | none =>
      simp only [step, Option.some.injEq, Prod.mk.injEq] at h
      obtain ⟨rfl, rfl⟩ := h
      exact .crash file
    | some r =>
      cases file <;> cases isOpen <;> simp only [step, reduceCtorEq, Option.some.injEq,
        Prod.mk.injEq] at h
      obtain ⟨rfl, rfl⟩ := h
      exact .torn _ r.1 r.2

def Keeps (crc32 : Bytes → UInt32) (node : WalNode) (acked : List Bytes) : Prop :=
  match node.file with
  | none => acked = []
  | some file => Holds crc32 file acked

theorem Keeps.step (h : Keeps crc32 node acked) {call : WalCall}
    (hallowed : node.appendsIntact crc32 call) (hstep : node.step crc32 call = some (node', out)) :
    Keeps crc32 node' (acked ++ out) := by
  have hchange := step_changes hstep
  unfold appendsIntact at hallowed
  unfold Keeps at h ⊢
  generalize node.file = before at h hallowed hchange
  generalize node'.file = after at hchange
  cases hchange with
  | openLog =>
    rw [List.append_nil]
    cases before with
    | none =>
      have hnil : acked = [] := h
      exact ⟨[], rfl, by simp [hnil]⟩
    | some file => exact Holds.openFile h
  | append file record => exact Holds.append h (hallowed.2 file rfl) hallowed.1
  | torn file record written =>
    rw [List.append_nil]
    exact Holds.torn h record written
  | recover file =>
    rw [List.append_nil]
    exact Holds.recover h
  | crash =>
    rw [List.append_nil]
    exact h

/-- As long as records are appended to intact files only, recovery returns all
that were acknowledged, in their order. -/
theorem acknowledged_recovered
    (hrun : TracedRun (step crc32) (appendsIntact crc32) (start, []) (node, acked))
    (hfile : node.file = some file) : Recovers crc32 file acked := by
  have hkeeps : Keeps crc32 node acked := by
    refine TracedRun.invariant hrun rfl ?_
    intro node acked call node' out h hallowed hstep
    exact h.step hallowed hstep
  rw [Keeps, hfile] at hkeeps
  obtain ⟨body, rfl, hscan⟩ := hkeeps
  exact .of_scan hscan

end WalNode

namespace WalDurability

open WalNode WalRecovery

def tornAppend : List WalCall :=
  [.openLog, .crash (some (ascii "entry_1", 3)), .openLog]

theorem acknowledged_recovered_twice : ∃ (node : WalNode) (file : Bytes), node.file = some file ∧
    Recovers crc32 file [ascii "entry_2", ascii "entry_3"] := by
  have hfile : (runAll (step crc32) (appendsIntact crc32) start
      (tornAppend ++ [.recoverAndTruncate, .append (ascii "entry_2"),
        .appendFails (ascii "entry_4") 11, .recoverAndTruncate, .append (ascii "entry_3")])).map
      (fun t => (t.2, t.1.file.isSome)) = some ([ascii "entry_2", ascii "entry_3"], true) := by
    decide +kernel
  obtain ⟨⟨node, acked⟩, hrun, hend⟩ := TracedRun.of_map hfile
  obtain ⟨rfl, hsome⟩ := Prod.mk.inj hend
  obtain ⟨file, hnode⟩ := Option.isSome_iff_exists.mp hsome
  exact ⟨node, file, hnode, acknowledged_recovered hrun hnode⟩

/-- Appended without recovery, the second record stands behind the torn one. -/
theorem acknowledged_lost : ¬ ∀ node acked file,
    TracedRun (step crc32) (fun _ => appendsShort) (start, []) (node, acked) →
    node.file = some file → Recovers crc32 file acked := by
  intro hall
  have hrecover : (runAll (step crc32) (fun _ => appendsShort) start
      (tornAppend ++ [.append (ascii "entry_2")])).map
      (fun t => (t.2, t.1.file.map fun file => (WriteAheadLog.recoverAndTruncate crc32 file).2)) =
      some ([ascii "entry_2"], some (.ok [])) := by decide +kernel
  obtain ⟨⟨node, acked⟩, hrun, hend⟩ := TracedRun.of_map hrecover
  obtain ⟨rfl, hrecovered⟩ := Prod.mk.inj hend
  obtain ⟨file, hnode, hnil⟩ := Option.map_eq_some_iff.mp hrecovered
  obtain ⟨records, hrecords, hsub⟩ := hall node _ file hrun hnode
  rw [hnil, Except.ok.injEq] at hrecords
  rw [← hrecords, List.sublist_nil] at hsub
  cases hsub

end WalDurability

end AuraChain
