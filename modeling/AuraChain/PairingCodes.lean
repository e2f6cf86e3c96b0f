import AuraChain.PeerRevocation

/-! The code that keys a client's packets. A client derives its key once, from
the code that it paired with; the host derives a key for every packet, from the
code that it has then. -/

namespace AuraChain

/-- A client at the endpoint has asked with this code, was approved, and its
address has not been rejected since. -/
def Paired (ip : Text) (port : Nat) (otp : Text) (log : List HostEntry) : Prop :=
  ∃ before name between after,
    log = before ++ .pairRequestArrived ip port name otp :: between ++ .approved ip port :: after ∧
    (∀ name' otp', .pairRequestArrived ip port name' otp' ∈ between ++ after → otp' = otp) ∧
    ∀ port', .rejected ip port' ∉ after

def LastCode (otp : Text) : List HostEntry → Prop :=
  Since (fun e => e = .codeSet otp) fun e => ∃ otp', e = .codeSet otp'

def codes (log : List HostEntry) : Set Text :=
  {otp | .codeSet otp ∈ log ∨ ∃ ip port name, .pairRequestArrived ip port name otp ∈ log}

/-- The entry shows what becomes of a data packet of the endpoint. -/
def HostEntry.DataFrom (ip : Text) (port : Nat) : HostEntry → Prop
  | ignored ip' port' | processed ip' port' _ => ip' = ip ∧ port' = port
  | _ => False

/-- The host processes the packets of a client with the key that the client uses. -/
def KeyedAsPaired (j : Jca) (past : List HostEntry) (e : HostEntry) : Prop :=
  ∀ ip port otp, Paired ip port otp past → e.DataFrom ip port →
    e = .processed ip port (codeKey j otp)

def CodeUnchanged (past : List HostEntry) (e : HostEntry) : Prop :=
  ∀ ip port otp, Paired ip port otp past → e.DataFrom ip port → LastCode otp past

/-- No host is started once it has answered a pair request. -/
def StartedBefore (past : List HostEntry) (e : HostEntry) : Prop :=
  e = .started → ∀ ip port name otp, .pairRequestArrived ip port name otp ∉ past

def ApprovedIp (ip : Text) : List HostEntry → Prop :=
  Since (fun e => ∃ port, e = .approved ip port)
    fun e => (∃ port, e = .rejected ip port) ∨ e = .started

theorem Paired.approvedIp {ip : Text} {port : Nat} {otp : Text} {log : List HostEntry}
    (h : Paired ip port otp log) (hstarted : Along StartedBefore log) : ApprovedIp ip log := by
  obtain ⟨before, name, between, after, rfl, -, hkept⟩ := h
  refine ⟨_, _, after, rfl, ⟨port, rfl⟩, ?_⟩
  rintro e he (⟨port', rfl⟩ | rfl)
  · exact hkept port' he
  · obtain ⟨recent, later, rfl⟩ := List.append_of_mem he
    refine hstarted (before ++ .pairRequestArrived ip port name otp :: between ++
      .approved ip port :: recent) .started later (by simp) rfl ip port name otp ?_
    simp

theorem LastCode.mem {otp : Text} {log : List HostEntry} (h : LastCode otp log) :
    .codeSet otp ∈ log := by
  obtain ⟨e, he, rfl⟩ := h.start_mem
  exact he

namespace HostService

variable {j : Jca} {s t : HostService} {e x : HostEvent} {out log : List HostEntry} {ip : Text}
  {port : Nat} {addresses : Set Text}

theorem Effect.code_cases (h : Effect j s e t out) :
    (t.currentHostOtp = s.currentHostOtp ∧ ∀ otp, .codeSet otp ∉ out) ∨
      t.currentHostOtp ≠ [] ∧ ∃ rest, out = .codeSet t.currentHostOtp :: rest ∧
        ∀ otp, .codeSet otp ∉ rest := by
  cases h with
  | start hostOtp prevOtp otp prev hidle hotp => exact .inr ⟨hotp, _, rfl, by simp⟩
  | code e otp prev hotp => exact .inr ⟨hotp, _, rfl, by simp⟩
  | process packet hloop replies out hreplies hout =>
    refine .inl ⟨rfl, fun otp hmem => ?_⟩
    rcases isOutput_of_mem_cons hout hmem with h | h <;> cases h
  | reply e i out hout => exact .inl ⟨rfl, fun otp hmem => hout _ hmem⟩
  | _ => exact .inl ⟨rfl, by simp⟩

theorem Effect.running_cases (h : Effect j s e t out) :
    t.isRunning = s.isRunning ∨
      s.isRunning = false ∧ t.isRunning = true ∧ t.currentHostOtp ≠ [] := by
  cases h with
  | start hostOtp prevOtp otp prev hidle hotp => exact .inr ⟨hidle, rfl, hotp⟩
  | _ => exact .inl rfl

theorem Effect.still_running (h : Effect j s e t out) (hrun : s.isRunning = true) :
    t.isRunning = true := by
  rcases h.running_cases with hsame | ⟨hidle, -⟩
  · rw [hsame, hrun]
  · rw [hrun] at hidle
    cases hidle

theorem Effect.data {x : HostEntry} (h : Effect j s e t out) (hmem : x ∈ out)
    (hdata : x.DataFrom ip port) :
    (∃ rest, out = x :: rest ∧ x ∉ rest) ∧
      (ip ∉ s.approvedClients ∨ x = .processed ip port (codeKey j s.effectiveOtp) ∧
        ∃ packet, s.receiveLoop.packet? = some packet) := by
  cases x with
  | ignored ip' port' =>
    obtain ⟨rfl, rfl⟩ := hdata
    obtain ⟨hout, hunknown⟩ := h.tells hmem
    exact ⟨⟨[], hout, List.not_mem_nil⟩, .inl hunknown⟩
  | processed ip' port' key =>
    obtain ⟨rfl, rfl⟩ := hdata
    obtain ⟨rfl, ⟨packet, hloop⟩, hrest⟩ := h.tells hmem
    exact ⟨hrest, .inr ⟨rfl, packet, congrArg ReceiveLoop.packet? hloop⟩⟩
  | _ => cases hdata

theorem Effect.keepsIp (h : Effect j s e t out) (hclash : ClashFree addresses)
    (hs : s.Within addresses) (hip : ip ∈ addresses) (hmem : ip ∈ s.approvedClients)
    (hno : ∀ x ∈ out, ¬ ((∃ port, x = .rejected ip port) ∨ x = .started)) :
    ip ∈ t.approvedClients := by
  cases h with
  | start => exact absurd (.inr rfl) (hno .started (by simp))
  | record packet hloop => exact Finset.mem_insert_of_mem hmem
  | approveEndpoint i ip' port hjob => exact Finset.mem_insert_of_mem hmem
  | approveIp i ip' port hjob => exact Finset.mem_insert_of_mem hmem
  | rejectEndpoint i ip' port hjob =>
    have hip' : ip' ∈ addresses := hs.jobs _ (List.mem_of_getElem? hjob) ip' rfl
    exact Finset.mem_erase.mpr ⟨hclash ip hip ip' hip' port, hmem⟩
  | rejectIp i ip' port hjob =>
    refine Finset.mem_erase.mpr ⟨?_, hmem⟩
    rintro rfl
    exact hno _ (by simp) (.inl ⟨port, rfl⟩)
  | _ => exact hmem

/-- What the log and the state of a host know of each other. -/
structure Keyed (j : Jca) (addresses : Set Text) (s : HostService) (log : List HostEntry) : Prop where
  within : s.Within addresses
  lastCode : ∀ otp, LastCode otp log ↔ otp = s.currentHostOtp ∧ otp ≠ []
  running : s.isRunning = true → s.currentHostOtp ≠ []
  busy : ∀ packet, s.receiveLoop.packet? = some packet → s.isRunning = true
  requested : ∀ ip port name otp, .pairRequestArrived ip port name otp ∈ log → s.isRunning = true
  startedBefore : Along StartedBefore log
  approved : ∀ ip, ApprovedIp ip log → ip ∈ addresses ∧ ip ∈ s.approvedClients
  keyed : Along (fun past e => ∀ ip port otp, Paired ip port otp past → e.DataFrom ip port →
    ∃ cur, LastCode cur past ∧ e = .processed ip port (codeKey j cur)) log

theorem keyed_new (j : Jca) (addresses : Set Text) : Keyed j addresses new [] where
  within := ⟨by simp [new, ReceiveLoop.packet?], by simp [new]⟩
  lastCode otp := ⟨fun h => absurd h not_since_nil, fun h => absurd h.1 h.2⟩
  running h := by cases h
  busy packet h := by cases h
  requested ip port name otp h := by cases h
  startedBefore := along_nil
  approved ip h := absurd h not_since_nil
  keyed := along_nil

/-- The last code of the log stays the one that the host shows. -/
theorem Effect.lastCode (h : Effect j s e t out)
    (hlog : ∀ otp, LastCode otp log ↔ otp = s.currentHostOtp ∧ otp ≠ []) (otp : Text) :
    LastCode otp (log ++ out) ↔ otp = t.currentHostOtp ∧ otp ≠ [] := by
  rcases h.code_cases with ⟨hsame, hno⟩ | ⟨hset, rest, rfl, hrest⟩
  · rw [hsame, ← hlog]
    constructor
    · intro hlast
      exact (Since.of_append hlast fun x hx he => hno otp (he ▸ hx)).1
    · intro hlast
      refine Since.append_iff.mpr (.inr ⟨hlast, ?_⟩)
      rintro x hx ⟨otp', rfl⟩
      exact hno otp' hx
  · have hcur : LastCode t.currentHostOtp (log ++ .codeSet t.currentHostOtp :: rest) := by
      refine Since.append_iff.mpr (.inl ⟨[], _, rest, rfl, rfl, ?_⟩)
      rintro x hx ⟨otp', rfl⟩
      exact hrest otp' hx
    constructor
    · intro hlast
      cases HostEntry.codeSet.inj (Since.last_unique hlast hcur)
      exact ⟨rfl, hset⟩
    · rintro ⟨rfl, -⟩
      exact hcur

theorem Keyed.step (hclash : ClashFree addresses) (hs : Keyed j addresses s log)
    (hknown : e.Known addresses) (h : Effect j s e t out) : Keyed j addresses t (log ++ out) where
  within := h.within hknown hs.within
  lastCode := h.lastCode hs.lastCode
  running hrun := by
    rcases h.running_cases with hsame | ⟨-, -, hset⟩
    · rcases h.code_cases with ⟨hcode, -⟩ | ⟨hset, -⟩
      · rw [hcode]
        exact hs.running (hsame ▸ hrun)
      · exact hset
    · exact hset
  busy packet hpacket := by
    rcases h.packets hpacket with hold | ⟨-, hrun⟩
    · exact h.still_running (hs.busy packet hold)
    · exact h.still_running hrun
  requested ip port name otp hmem := by
    rcases List.mem_append.mp hmem with hold | hnew
    · exact h.still_running (hs.requested ip port name otp hold)
    · exact h.still_running (h.tells hnew).1
  startedBefore := by
    refine hs.startedBefore.append ?_
    rintro past e recent hsplit rfl ip port name otp hmem
    obtain ⟨hidle, hout⟩ := h.tells (x := .started) (by simp [hsplit])
    rcases List.mem_append.mp hmem with hold | hnew
    · rw [hs.requested ip port name otp hold] at hidle
      cases hidle
    · have hmem : .pairRequestArrived ip port name otp ∈ out := by simp [hsplit, hnew]
      rw [hout] at hmem
      simp at hmem
  approved ip happroved := by
    rcases Since.append_iff.mp happroved with hnew | ⟨hold, hno⟩
    · obtain ⟨_, hmem, port, rfl⟩ := hnew.start_mem
      obtain ⟨i, hjob, hip⟩ := h.tells hmem
      exact ⟨hs.within.jobs _ (List.mem_of_getElem? hjob) ip rfl, hip⟩
    · obtain ⟨hip, hmem⟩ := hs.approved ip hold
      exact ⟨hip, h.keepsIp hclash hs.within hip hmem hno⟩
  keyed := by
    refine hs.keyed.append ?_
    intro past x recent hsplit ip port otp hpaired hdata
    obtain ⟨⟨rest, hout, hrest⟩, hcases⟩ := h.data (by simp [hsplit]) hdata
    obtain rfl := past_eq_nil (hout.symm.trans hsplit) hrest
    rw [List.append_nil] at hpaired ⊢
    rcases hcases with hunknown | ⟨rfl, packet, hpacket⟩
    · exact absurd (hs.approved ip (hpaired.approvedIp hs.startedBefore)).2 hunknown
    · have hcode := hs.running (hs.busy packet hpacket)
      refine ⟨s.currentHostOtp, (hs.lastCode _).mpr ⟨rfl, hcode⟩, ?_⟩
      rw [effectiveOtp, if_pos hcode]

end HostService

/-- A host keys the packets of its clients as they do exactly if they come while
the code that the client has paired with is the last one set. -/
theorem approved_peer_keyed_iff (j : Jca) (addresses : Set Text) (hclash : ClashFree addresses)
    (t : HostService) (log : List HostEntry)
    (h : TracedRun (HostService.step j) (fun _ e => e.Known addresses) (HostService.new, [])
      (t, log)) (hinj : Set.InjOn (codeKey j) (codes log)) :
    Along (KeyedAsPaired j) log ↔ Along CodeUnchanged log := by
  have hkeyed : HostService.Keyed j addresses t log := by
    refine TracedRun.invariant (P := HostService.Keyed j addresses) h
      (HostService.keyed_new j addresses) ?_
    intro s log e t out hs hknown hstep
    exact hs.step hclash hknown (HostService.step_effect hstep)
  constructor
  · intro hall past e recent hsplit ip port otp hpaired hdata
    obtain ⟨cur, hlast, hcur⟩ := hkeyed.keyed past e recent hsplit ip port otp hpaired hdata
    have hkey := hcur.symm.trans (hall past e recent hsplit ip port otp hpaired hdata)
    have hmem : cur ∈ codes log := .inl (by simp [hsplit, hlast.mem])
    have hmem' : otp ∈ codes log := by
      obtain ⟨before, name, between, after, rfl, -, -⟩ := hpaired
      exact .inr ⟨ip, port, name, by simp [hsplit]⟩
    rw [hinj hmem hmem' (HostEntry.processed.inj hkey).2.2] at hlast
    exact hlast
  · intro hall past e recent hsplit ip port otp hpaired hdata
    obtain ⟨cur, hlast, hcur⟩ := hkeyed.keyed past e recent hsplit ip port otp hpaired hdata
    have hotp := hall past e recent hsplit ip port otp hpaired hdata
    rw [hcur, HostEntry.codeSet.inj (Since.last_unique hlast hotp)]

namespace PairingCodes

open PeerRevocation (clientIp packet)

def firstCode : Text := "123456".toList

def approved : List HostEvent :=
  [.startHost (some firstCode) none, PeerRevocation.pairRequest 5000,
    .approvePeer (some clientIp) (some 5000), .runJob 0, .runJob 0]

def paired : List HostEvent := approved ++ [packet 5000, .loopStep]

def approvedLog : List HostEntry :=
  [.codeSet firstCode, .started, .pairRequestArrived clientIp 5000 "Pixel".toList firstCode,
    .approvePeer clientIp 5000, .approved clientIp 5000,
    .sent clientIp 5000 (pairApproved firstCode)]

def pairedLog : List HostEntry := approvedLog ++ [.passed clientIp 5000]

theorem approved_peer_keyed_iff_run :
    Along (KeyedAsPaired Reference.jca)
        (pairedLog ++ [.processed clientIp 5000 (codeKey Reference.jca firstCode)]) ↔
      Along CodeUnchanged
        (pairedLog ++ [.processed clientIp 5000 (codeKey Reference.jca firstCode)]) := by
  have hrun : (runAll (HostService.step Reference.jca) (fun _ e => e.Known {ip | ':' ∉ ip})
      HostService.new (paired ++ [.loopStep])).map Prod.snd =
        some (pairedLog ++ [.processed clientIp 5000 (codeKey Reference.jca firstCode)]) := by
    decide +kernel
  obtain ⟨t, hrun⟩ := TracedRun.of_log hrun
  refine approved_peer_keyed_iff Reference.jca _ clashFree_noColon t _ hrun ?_
  have hcodes : ∀ otp ∈ codes (pairedLog ++
      [.processed clientIp 5000 (codeKey Reference.jca firstCode)]), otp = firstCode := by
    rintro otp (hset | ⟨ip, port, name, hrequest⟩)
    · simpa [pairedLog, approvedLog] using hset
    · simp only [pairedLog, approvedLog, List.mem_append, List.mem_cons, List.not_mem_nil, or_false,
        reduceCtorEq, false_or, HostEntry.pairRequestArrived.injEq] at hrequest
      exact hrequest.2.2.2
  intro otp hotp otp' hotp' _
  rw [hcodes otp hotp, hcodes otp' hotp']

def secondCode : Text := "654321".toList

/-- The code changes between the approval and the packet. -/
theorem rotated_code_locks_out : ¬ ∀ t log, TracedRun (HostService.step Reference.jca)
    (fun _ e => e.Known {ip | ':' ∉ ip}) (HostService.new, []) (t, log) →
    Along (KeyedAsPaired Reference.jca) log := by
  intro hall
  have hrun : (runAll (HostService.step Reference.jca) (fun _ e => e.Known {ip | ':' ∉ ip})
      HostService.new (approved ++ [.updateOtp (some secondCode), packet 5000, .loopStep,
        .loopStep])).map Prod.snd =
        some (approvedLog ++ [.codeSet secondCode, .passed clientIp 5000] ++
          [.processed clientIp 5000 (codeKey Reference.jca secondCode)]) := by decide +kernel
  obtain ⟨t, hrun⟩ := TracedRun.of_log hrun
  have hpaired : Paired clientIp 5000 firstCode
      (approvedLog ++ [.codeSet secondCode, .passed clientIp 5000]) :=
    ⟨[.codeSet firstCode, .started], "Pixel".toList, [.approvePeer clientIp 5000],
      [.sent clientIp 5000 (pairApproved firstCode), .codeSet secondCode, .passed clientIp 5000],
      rfl, by simp, by simp⟩
  have hkeyed := hall t _ hrun (approvedLog ++ [.codeSet secondCode, .passed clientIp 5000])
    (.processed clientIp 5000 (codeKey Reference.jca secondCode)) [] rfl
    clientIp 5000 firstCode hpaired ⟨rfl, rfl⟩
  exact absurd (HostEntry.processed.inj hkeyed).2.2 (by decide +kernel)

end PairingCodes

end AuraChain
