import AuraChain.HostService

/-! What a step of the host can do, with the guards of each branch, so that an
invariant of its runs is a case analysis and never unfolds the step. -/

namespace AuraChain

/-- The number that the host takes for a packet. -/
def SeqSource.hostSeq? : SeqSource → Option UInt64
  | client _ => none
  | synAck => some 0
  | udpReply currentTimeMillis => some currentTimeMillis

/-- The entry shows what the host computes for the network. -/
def HostEntry.isOutput : HostEntry → Prop
  | encrypted call => call.source.hostSeq? = some call.seq
  | sent _ _ _ => True
  | _ => False

theorem isOutput_of_mem_cons {x y : HostEntry} {out : List HostEntry}
    (hout : ∀ e ∈ out, e.isOutput) (hmem : x ∈ y :: out) : x = y ∨ x.isOutput := by
  rcases List.mem_cons.mp hmem with rfl | hmem
  · exact .inl rfl
  · exact .inr (hout x hmem)

def HostJob.isReply : HostJob → Prop
  | udpReply _ _ _ _ => True
  | _ => False

namespace HostService

/-- Everything that a step can do. -/
inductive Effect (j : Jca) (s : HostService) : HostEvent → HostService → List HostEntry → Prop
  | nothing (e : HostEvent) : Effect j s e s []
  | start (hostOtp prevOtp : Option Text) (otp prev : Text) (hidle : s.isRunning = false)
      (hotp : otp ≠ []) :
      Effect j s (.startHost hostOtp prevOtp)
        { s with isRunning := true, currentHostOtp := otp, previousHostOtp := prev
                 approvedClients := ∅ } [.codeSet otp, .started]
  | code (e : HostEvent) (otp prev : Text) (hotp : otp ≠ []) :
      Effect j s e { s with currentHostOtp := otp, previousHostOtp := prev } [.codeSet otp]
  | approvePeer (ip : Text) (clientPort : Option Int) (port : Nat) :
      Effect j s (.approvePeer (some ip) clientPort)
        { s with jobs := s.jobs ++ [.approveEndpoint ip port] } [.approvePeer ip port]
  | rejectPeer (ip : Text) (clientPort : Option Int) (port : Nat) :
      Effect j s (.rejectPeer (some ip) clientPort)
        { s with jobs := s.jobs ++ [.rejectEndpoint ip port] } [.rejectPeer ip port]
  | request (packet : Datagram) (name otp : Text) (hrun : s.isRunning = true)
      (hotp : otp = s.currentHostOtp ∨ otp = s.previousHostOtp) :
      Effect j s (.receive packet) s
        [.pairRequestArrived packet.clientIp packet.clientPort name otp]
  | wrongCode (packet : Datagram) :
      Effect j s (.receive packet) s [.sent packet.clientIp packet.clientPort pairRejected]
  | endpointApproved (packet : Datagram) (hrun : s.isRunning = true)
      (hmem : endpoint packet.clientIp packet.clientPort ∈ s.approvedClients) :
      Effect j s (.receive packet) { s with receiveLoop := .approved packet }
        [.passed packet.clientIp packet.clientPort]
  | endpointUnknown (packet : Datagram) (hrun : s.isRunning = true) :
      Effect j s (.receive packet) { s with receiveLoop := .checkingIp packet } []
  | ipApproved (packet : Datagram) (hloop : s.receiveLoop = .checkingIp packet)
      (hmem : packet.clientIp ∈ s.approvedClients) :
      Effect j s .loopStep { s with receiveLoop := .approved packet }
        [.passed packet.clientIp packet.clientPort]
  | ipUnknown (packet : Datagram) (hloop : s.receiveLoop = .checkingIp packet)
      (hmem : packet.clientIp ∉ s.approvedClients) :
      Effect j s .loopStep { s with receiveLoop := .receiving }
        [.ignored packet.clientIp packet.clientPort]
  | record (packet : Datagram) (hloop : s.receiveLoop = .approved packet) :
      Effect j s .loopStep
        { s with approvedClients :=
                   insert (endpoint packet.clientIp packet.clientPort) s.approvedClients
                 receiveLoop := .processing packet } []
  | process (packet : Datagram) (hloop : s.receiveLoop = .processing packet)
      (replies : List HostJob) (out : List HostEntry) (hreplies : ∀ job ∈ replies, job.isReply)
      (hout : ∀ e ∈ out, e.isOutput) :
      Effect j s .loopStep { s with receiveLoop := .receiving, jobs := s.jobs ++ replies }
        (.processed packet.clientIp packet.clientPort (codeKey j s.effectiveOtp) :: out)
  | approveEndpoint (i : Nat) (ip : Text) (port : Nat)
      (hjob : s.jobs[i]? = some (.approveEndpoint ip port)) :
      Effect j s (.runJob i)
        { s with approvedClients := insert (endpoint ip port) s.approvedClients
                 jobs := s.jobs.set i (.approveIp ip port) } []
  | approveIp (i : Nat) (ip : Text) (port : Nat) (hjob : s.jobs[i]? = some (.approveIp ip port)) :
      Effect j s (.runJob i)
        { s with approvedClients := insert ip s.approvedClients, jobs := s.jobs.eraseIdx i }
        [.approved ip port, .sent ip port (pairApproved s.currentHostOtp)]
  | rejectEndpoint (i : Nat) (ip : Text) (port : Nat)
      (hjob : s.jobs[i]? = some (.rejectEndpoint ip port)) :
      Effect j s (.runJob i)
        { s with approvedClients := s.approvedClients.erase (endpoint ip port)
                 jobs := s.jobs.set i (.rejectIp ip port) } []
  | rejectIp (i : Nat) (ip : Text) (port : Nat) (hjob : s.jobs[i]? = some (.rejectIp ip port)) :
      Effect j s (.runJob i)
        { s with approvedClients := s.approvedClients.erase ip, jobs := s.jobs.eraseIdx i }
        [.rejected ip port, .sent ip port userDeclined]
  | reply (e : HostEvent) (i : Nat) (out : List HostEntry) (hout : ∀ e ∈ out, e.isOutput) :
      Effect j s e { s with jobs := s.jobs.eraseIdx i } out

/-- What an entry tells of the step that shows it. -/
def Tells (j : Jca) (s : HostService) (e : HostEvent) (t : HostService) (out : List HostEntry) :
    HostEntry → Prop
  | .started => s.isRunning = false ∧ out = [.codeSet t.currentHostOtp, .started]
  | .pairRequestArrived ip port name otp =>
    s.isRunning = true ∧ out = [.pairRequestArrived ip port name otp]
  | .approved ip port => ∃ i : Nat, s.jobs[i]? = some (HostJob.approveIp ip port) ∧ ip ∈ t.approvedClients
  | .rejected ip port => ∃ i, e = .runJob i ∧ s.jobs[i]? = some (HostJob.rejectIp ip port) ∧
      t = { s with approvedClients := s.approvedClients.erase ip, jobs := s.jobs.eraseIdx i }
  | .passed ip port => out = [.passed ip port] ∧
      (endpoint ip port ∈ s.approvedClients ∨ ip ∈ s.approvedClients)
  | .ignored ip port => out = [.ignored ip port] ∧ ip ∉ s.approvedClients
  | .processed ip port key => key = codeKey j s.effectiveOtp ∧
      (∃ packet, s.receiveLoop = .processing packet) ∧
      ∃ rest, out = .processed ip port key :: rest ∧ .processed ip port key ∉ rest
  | .encrypted call => call.source.hostSeq? = some call.seq
  | _ => True

variable {j : Jca} {s t : HostService} {e : HostEvent} {out : List HostEntry}

theorem tells_output {x : HostEntry} (h : x.isOutput) : Tells j s e t out x := by
  cases x with
  | encrypted call => exact h
  | sent => trivial
  | _ => cases h

theorem Effect.tells {x : HostEntry} (h : Effect j s e t out) (hmem : x ∈ out) :
    Tells j s e t out x := by
  cases h with
  | nothing => cases hmem
  | start hostOtp prevOtp otp prev hidle hotp =>
    rcases List.mem_pair.mp hmem with rfl | rfl
    · trivial
    · exact ⟨hidle, rfl⟩
  | request packet name otp hrun hotp =>
    obtain rfl := List.mem_singleton.mp hmem
    exact ⟨hrun, rfl⟩
  | endpointApproved packet hrun hkey =>
    obtain rfl := List.mem_singleton.mp hmem
    exact ⟨rfl, .inl hkey⟩
  | ipApproved packet hloop hkey =>
    obtain rfl := List.mem_singleton.mp hmem
    exact ⟨rfl, .inr hkey⟩
  | ipUnknown packet hloop hunknown =>
    obtain rfl := List.mem_singleton.mp hmem
    exact ⟨rfl, hunknown⟩
  | process packet hloop replies out hreplies hout =>
    rcases List.mem_cons.mp hmem with rfl | hmem
    · exact ⟨rfl, ⟨packet, hloop⟩, out, rfl, fun h => hout _ h⟩
    · exact tells_output (hout x hmem)
  | approveIp i ip port hjob =>
    rcases List.mem_pair.mp hmem with rfl | rfl
    · exact ⟨i, hjob, Finset.mem_insert_self _ _⟩
    · trivial
  | rejectIp i ip port hjob =>
    rcases List.mem_pair.mp hmem with rfl | rfl
    · exact ⟨i, rfl, hjob, rfl⟩
    · trivial
  | reply e i out hout => exact tells_output (hout x hmem)
  | code | approvePeer | rejectPeer | wrongCode =>
    obtain rfl := List.mem_singleton.mp hmem
    trivial
  | endpointUnknown | record | approveEndpoint | rejectEndpoint => cases hmem

theorem startHost_effect (hostOtp prevOtp : Option Text) :
    Effect j s (.startHost hostOtp prevOtp) (s.startHost hostOtp prevOtp).1
      (s.startHost hostOtp prevOtp).2 := by
  rw [startHost]
  by_cases hlen : 5 ≤ Text.length16 (hostOtp.getD [])
  · have hotp : hostOtp.getD [] ≠ [] := by
      intro hnil
      rw [hnil] at hlen
      exact absurd hlen (by decide)
    by_cases hrun : s.isRunning = true
    · simp only [if_pos hlen, startHostServer, if_pos hrun]
      exact .code _ _ _ hotp
    · simp only [if_pos hlen, startHostServer, if_neg hrun]
      exact .start hostOtp prevOtp _ _ (Bool.eq_false_iff.mpr hrun) hotp
  · rw [if_neg hlen]
    exact .nothing _

theorem updateOtp_effect (hostOtp : Option Text) :
    Effect j s (.updateOtp hostOtp) (s.updateOtp hostOtp).1 (s.updateOtp hostOtp).2 := by
  rw [updateOtp]
  by_cases hotp : hostOtp.getD [] ≠ []
  · rw [if_pos hotp]
    exact .code _ _ _ hotp
  · rw [if_neg hotp]
    exact .nothing _

theorem launchFor_cases (s : HostService) (clientIp : Option Text) (clientPort : Option Int)
    (job : Text → Nat → HostJob) (entry : Text → Nat → HostEntry) :
    s.launchFor clientIp clientPort job entry = (s, []) ∨
      ∃ ip port, clientIp = some ip ∧ s.launchFor clientIp clientPort job entry =
        ({ s with jobs := s.jobs ++ [job ip port] }, [entry ip port]) := by
  rw [launchFor]
  by_cases h : clientIp.getD [] ≠ [] ∧ 0 < clientPort.getD 0
  · rw [if_pos h]
    cases clientIp with
    | none => exact absurd rfl h.1
    | some ip => exact .inr ⟨ip, _, rfl, rfl⟩
  · rw [if_neg h]
    exact .inl rfl

theorem approvePeer_effect (clientIp : Option Text) (clientPort : Option Int) :
    Effect j s (.approvePeer clientIp clientPort) (s.approvePeer clientIp clientPort).1
      (s.approvePeer clientIp clientPort).2 := by
  rcases s.launchFor_cases clientIp clientPort .approveEndpoint .approvePeer with
    h | ⟨ip, port, rfl, h⟩
  · rw [approvePeer, h]
    exact .nothing _
  · rw [approvePeer, h]
    exact .approvePeer ip clientPort port

theorem rejectPeer_effect (clientIp : Option Text) (clientPort : Option Int) :
    Effect j s (.rejectPeer clientIp clientPort) (s.rejectPeer clientIp clientPort).1
      (s.rejectPeer clientIp clientPort).2 := by
  rcases s.launchFor_cases clientIp clientPort .rejectEndpoint .rejectPeer with
    h | ⟨ip, port, rfl, h⟩
  · rw [rejectPeer, h]
    exact .nothing _
  · rw [rejectPeer, h]
    exact .rejectPeer ip clientPort port

theorem receive_effect (packet : Datagram) (hrun : s.isRunning = true) :
    Effect j s (.receive packet) (s.receive packet).1 (s.receive packet).2 := by
  simp only [receive]
  split_ifs with htag hmem
  · rw [handlePairRequest]
    cases readPairRequest (Text.decode packet.rawData) with
    | none => exact .nothing _
    | some request =>
      obtain ⟨reqOtp, clientDeviceName⟩ := request
      by_cases hotp : reqOtp = s.currentHostOtp ∨ reqOtp = s.previousHostOtp
      · simp only [if_pos hotp]
        exact .request packet _ _ hrun hotp
      · simp only [if_neg hotp]
        exact .wrongCode packet
  · exact .endpointApproved packet hrun hmem
  · exact .endpointUnknown packet hrun

theorem forward_output (j : Jca) (packet : Datagram) (sessionKey : FixedBytes 32)
    (decrypted : Bytes) :
    (∀ job ∈ (forward j packet sessionKey decrypted).1, job.isReply) ∧
      ∀ e ∈ (forward j packet sessionKey decrypted).2, e.isOutput := by
  rw [forward]
  split_ifs with hsyn
  · simp [HostEntry.isOutput, SeqSource.hostSeq?]
  · cases IpPacketParser.parse decrypted with
    | error error => simp
    | ok parsed =>
      cases parsed with
      | none => simp
      | some parsedIp =>
        by_cases hudp : parsedIp.protocol = IpPacketParser.protocolUdp ∧ 0 < parsedIp.destPort
        · simp [hudp, HostJob.isReply]
        · simp [hudp]

theorem processPacket_effect (packet : Datagram) (hloop : s.receiveLoop = .processing packet) :
    Effect j s .loopStep (s.processPacket j packet).1 (s.processPacket j packet).2 := by
  refine .process packet hloop _ _ ?_ ?_
  · split_ifs
    · split
      · exact (forward_output j packet _ _).1
      · simp
    · simp
  · split_ifs
    · split
      · exact (forward_output j packet _ _).2
      · simp
    · simp

theorem loopStep_effect (h : s.loopStep j = some (t, out)) : Effect j s .loopStep t out := by
  rw [loopStep] at h
  cases hloop : s.receiveLoop with
  | receiving => simp [hloop] at h
  | checkingIp packet =>
    by_cases hmem : packet.clientIp ∈ s.approvedClients
    · simp only [hloop, if_pos hmem, Option.some.injEq, Prod.mk.injEq] at h
      obtain ⟨rfl, rfl⟩ := h
      exact .ipApproved packet hloop hmem
    · simp only [hloop, if_neg hmem, Option.some.injEq, Prod.mk.injEq] at h
      obtain ⟨rfl, rfl⟩ := h
      exact .ipUnknown packet hloop hmem
  | approved packet =>
    simp only [hloop, Option.some.injEq, Prod.mk.injEq] at h
    obtain ⟨rfl, rfl⟩ := h
    exact .record packet hloop
  | processing packet =>
    simp only [hloop, Option.some.injEq] at h
    have heffect := processPacket_effect (j := j) packet hloop
    rwa [h] at heffect

theorem runJob_effect {i : Nat} (h : s.runJob i = some (t, out)) : Effect j s (.runJob i) t out := by
  rw [runJob] at h
  cases hjob : s.jobs[i]? with
  | none => simp [hjob] at h
  | some job =>
    cases job with
    | approveEndpoint ip port =>
      simp only [hjob, Option.some.injEq, Prod.mk.injEq] at h
      obtain ⟨rfl, rfl⟩ := h
      exact .approveEndpoint i ip port hjob
    | approveIp ip port =>
      simp only [hjob, Option.some.injEq, Prod.mk.injEq] at h
      obtain ⟨rfl, rfl⟩ := h
      exact .approveIp i ip port hjob
    | rejectEndpoint ip port =>
      simp only [hjob, Option.some.injEq, Prod.mk.injEq] at h
      obtain ⟨rfl, rfl⟩ := h
      exact .rejectEndpoint i ip port hjob
    | rejectIp ip port =>
      simp only [hjob, Option.some.injEq, Prod.mk.injEq] at h
      obtain ⟨rfl, rfl⟩ := h
      exact .rejectIp i ip port hjob
    | udpReply ip port sessionKey parsedIp => simp [hjob] at h

theorem udpResponse_effect {i : Nat} {respPayload : Bytes} {currentTimeMillis : UInt64}
    (h : s.udpResponse j i respPayload currentTimeMillis = some (t, out)) : Effect j s e t out := by
  rw [udpResponse] at h
  cases hjob : s.jobs[i]? with
  | none => simp [hjob] at h
  | some job =>
    cases job with
    | udpReply ip port sessionKey parsedIp =>
      simp only [hjob, Option.some.injEq, Prod.mk.injEq] at h
      obtain ⟨rfl, rfl⟩ := h
      exact .reply e i _ (by simp [HostEntry.isOutput, SeqSource.hostSeq?])
    | _ => simp [hjob] at h

theorem udpLost_effect {i : Nat} (h : s.udpLost i = some (t, out)) : Effect j s e t out := by
  rw [udpLost] at h
  cases hjob : s.jobs[i]? with
  | none => simp [hjob] at h
  | some job =>
    cases job with
    | udpReply ip port sessionKey parsedIp =>
      simp only [hjob, Option.some.injEq, Prod.mk.injEq] at h
      obtain ⟨rfl, rfl⟩ := h
      exact .reply e i [] (by simp)
    | _ => simp [hjob] at h

theorem step_effect (h : s.step j e = some (t, out)) : Effect j s e t out := by
  cases e with
  | startHost hostOtp prevOtp =>
    obtain ⟨rfl, rfl⟩ := Prod.mk.inj (Option.some.inj h)
    exact startHost_effect hostOtp prevOtp
  | updateOtp hostOtp =>
    obtain ⟨rfl, rfl⟩ := Prod.mk.inj (Option.some.inj h)
    exact updateOtp_effect hostOtp
  | approvePeer clientIp clientPort =>
    obtain ⟨rfl, rfl⟩ := Prod.mk.inj (Option.some.inj h)
    exact approvePeer_effect clientIp clientPort
  | rejectPeer clientIp clientPort =>
    obtain ⟨rfl, rfl⟩ := Prod.mk.inj (Option.some.inj h)
    exact rejectPeer_effect clientIp clientPort
  | receive packet =>
    rw [step] at h
    cases hrun : s.isRunning with
    | false => simp [hrun] at h
    | true =>
      cases hloop : s.receiveLoop with
      | receiving =>
        simp only [hrun, hloop, Option.some.injEq] at h
        have heffect := receive_effect (j := j) packet hrun
        rwa [h] at heffect
      | _ => simp [hrun, hloop] at h
  | loopStep => exact loopStep_effect h
  | runJob i => exact runJob_effect h
  | udpResponse i respPayload currentTimeMillis => exact udpResponse_effect h
  | udpLost i => exact udpLost_effect h

end HostService

end AuraChain
