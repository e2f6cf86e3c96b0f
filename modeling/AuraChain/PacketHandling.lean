import AuraChain.HostEffect

/-! What the host does with a packet that it has decrypted: which packets leave for the
internet, which of them are still to be answered, and what is encrypted for a client. -/

namespace AuraChain

open IpPacketParser (ParsedPacket parse buildUdpPacket)

def synTag : Text := "AURA_SYN:".toList

def HostJob.reply? : HostJob → Option (FixedBytes 32 × ParsedPacket)
  | udpReply _ _ sessionKey parsedIp => some (sessionKey, parsedIp)
  | _ => none

/-- The packet has gone to the host to be sent on as a UDP packet. -/
structure Asks (packetBytes : Bytes) (parsedIp : ParsedPacket) : Prop where
  parses : parse packetBytes = .ok (some parsedIp)
  udp : parsedIp.protocol = IpPacketParser.protocolUdp
  port : 0 < parsedIp.destPort

def reconstructed (parsedIp : ParsedPacket) (respPayload : Bytes) : Bytes :=
  buildUdpPacket parsedIp.destIp parsedIp.sourceIp parsedIp.destPort parsedIp.sourcePort
    (respPayload.take 4096)

namespace HostService

def pending (s : HostService) : List (FixedBytes 32 × ParsedPacket) := s.jobs.filterMap HostJob.reply?

/-- The packet that the host is to process, the key, and what it decrypts to. -/
def opened (j : Jca) (s : HostService) : Option (Datagram × FixedBytes 32 × Bytes) :=
  match s.receiveLoop with
  | .processing packet =>
    if 24 ≤ packet.rawData.length then
      (CryptoEngine.decryptPacket j packet.rawData (codeKey j s.effectiveOtp)).map
        fun decrypted => (packet, codeKey j s.effectiveOtp, decrypted)
    else none
  | _ => none

/-- The packets whose coroutines a step launches. -/
def forwards (j : Jca) (s : HostService) : HostEvent → List (FixedBytes 32 × ParsedPacket)
  | .loopStep => match s.opened j with
    | some (packet, sessionKey, decrypted) =>
      (forward j packet sessionKey decrypted).1.filterMap HostJob.reply?
    | none => []
  | _ => []

def answers (s : HostService) : HostEvent → List (FixedBytes 32 × ParsedPacket × Bytes)
  | .udpResponse job respPayload _ => match s.jobs[job]?.bind HostJob.reply? with
    | some (sessionKey, parsedIp) => [(sessionKey, parsedIp, respPayload)]
    | none => []
  | _ => []

def loses (s : HostService) : HostEvent → List (FixedBytes 32 × ParsedPacket)
  | .udpLost job => (s.jobs[job]?.bind HostJob.reply?).toList
  | _ => []

/-- What a step does to the packets that the host has decrypted. -/
inductive Handles (j : Jca) (s : HostService) : HostEvent → HostService → List HostEntry → Prop
  | quiet (e : HostEvent) (t : HostService) (out : List HostEntry) (hforwards : s.forwards j e = [])
      (hanswers : s.answers e = []) (hloses : s.loses e = []) (hpending : t.pending = s.pending)
      (hout : ∀ call, .encrypted call ∉ out) : Handles j s e t out
  | opens (t : HostService) (packet : Datagram) (sessionKey : FixedBytes 32) (decrypted : Bytes)
      (hopened : s.opened j = some (packet, sessionKey, decrypted))
      (hjobs : t.jobs = s.jobs ++ (forward j packet sessionKey decrypted).1) :
      Handles j s .loopStep t (.processed packet.clientIp packet.clientPort sessionKey ::
        (forward j packet sessionKey decrypted).2)
  | answers (job : Nat) (respPayload : Bytes) (currentTimeMillis : UInt64) (t : HostService)
      (clientIp : Text) (clientPort : Nat) (sessionKey : FixedBytes 32) (parsedIp : ParsedPacket)
      (hjob : s.jobs[job]? = some (.udpReply clientIp clientPort sessionKey parsedIp))
      (hjobs : t.jobs = s.jobs.eraseIdx job) :
      Handles j s (.udpResponse job respPayload currentTimeMillis) t
        [.encrypted ⟨.udpReply currentTimeMillis, reconstructed parsedIp respPayload, sessionKey,
            currentTimeMillis⟩,
          .sent clientIp clientPort (CryptoEngine.encryptPacket j
            (reconstructed parsedIp respPayload) sessionKey currentTimeMillis)]
  | loses (job : Nat) (t : HostService) (clientIp : Text) (clientPort : Nat)
      (sessionKey : FixedBytes 32) (parsedIp : ParsedPacket)
      (hjob : s.jobs[job]? = some (.udpReply clientIp clientPort sessionKey parsedIp))
      (hjobs : t.jobs = s.jobs.eraseIdx job) : Handles j s (.udpLost job) t []

variable {j : Jca} {s t : HostService} {e : HostEvent} {out : List HostEntry}

theorem split_at {α : Type} {l : List α} {i : Nat} {a : α} (h : l[i]? = some a) :
    ∃ before after, l = before ++ a :: after ∧ l.eraseIdx i = before ++ after ∧
      ∀ b, l.set i b = before ++ b :: after := by
  obtain ⟨hlt, rfl⟩ := List.getElem?_eq_some_iff.mp h
  refine ⟨l.take i, l.drop (i + 1), ?_, List.eraseIdx_eq_take_drop_succ l i, fun b => ?_⟩
  · rw [← List.drop_eq_getElem_cons hlt, List.take_append_drop]
  · rw [List.set_eq_take_append_cons_drop, if_pos hlt]

/-- A job that is not an answer makes room for one that is not, or goes. -/
theorem pending_set {i : Nat} {job job' : HostJob} (h : s.jobs[i]? = some job)
    (hjob : job.reply? = none) (hjob' : job'.reply? = none) :
    (s.jobs.set i job').filterMap HostJob.reply? = s.pending := by
  obtain ⟨before, after, hjobs, -, hset⟩ := split_at h
  rw [pending, hset, hjobs]
  simp [hjob, hjob']

theorem pending_eraseIdx {i : Nat} {job : HostJob} (h : s.jobs[i]? = some job)
    (hjob : job.reply? = none) : (s.jobs.eraseIdx i).filterMap HostJob.reply? = s.pending := by
  obtain ⟨before, after, hjobs, herase, -⟩ := split_at h
  rw [pending, herase, hjobs]
  simp [hjob]

theorem startHost_handles (hostOtp prevOtp : Option Text) :
    Handles j s (.startHost hostOtp prevOtp) (s.startHost hostOtp prevOtp).1
      (s.startHost hostOtp prevOtp).2 := by
  refine .quiet _ _ _ rfl rfl rfl ?_ fun call => ?_
  · simp only [startHost, startHostServer]
    split_ifs <;> rfl
  · simp only [startHost, startHostServer]
    split_ifs <;> simp

theorem updateOtp_handles (hostOtp : Option Text) :
    Handles j s (.updateOtp hostOtp) (s.updateOtp hostOtp).1 (s.updateOtp hostOtp).2 := by
  refine .quiet _ _ _ rfl rfl rfl ?_ fun call => ?_
  · simp only [updateOtp]
    split_ifs <;> rfl
  · simp only [updateOtp]
    split_ifs <;> simp

theorem launchFor_quiet {clientIp : Option Text} {clientPort : Option Int}
    {job : Text → Nat → HostJob} {entry : Text → Nat → HostEntry}
    (hjob : ∀ ip port, (job ip port).reply? = none)
    (hentry : ∀ ip port call, entry ip port ≠ .encrypted call) :
    (s.launchFor clientIp clientPort job entry).1.pending = s.pending ∧
      ∀ call, .encrypted call ∉ (s.launchFor clientIp clientPort job entry).2 := by
  rcases s.launchFor_cases clientIp clientPort job entry with h | ⟨ip, port, -, h⟩
  · rw [h]
    exact ⟨rfl, fun call => List.not_mem_nil⟩
  · rw [h]
    refine ⟨by simp [pending, hjob], fun call hcall => ?_⟩
    exact hentry ip port call (List.mem_singleton.mp hcall).symm

theorem receive_handles (packet : Datagram) :
    Handles j s (.receive packet) (s.receive packet).1 (s.receive packet).2 := by
  refine .quiet _ _ _ rfl rfl rfl ?_ fun call => ?_
  · simp only [receive]
    split_ifs <;> rfl
  · simp only [receive]
    split_ifs
    · rw [handlePairRequest]
      cases readPairRequest (Text.decode packet.rawData) with
      | none => simp
      | some request =>
        dsimp only
        split_ifs <;> simp
    · simp
    · simp

theorem loopStep_handles (h : s.loopStep j = some (t, out)) : Handles j s .loopStep t out := by
  rw [loopStep] at h
  cases hloop : s.receiveLoop with
  | receiving => simp [hloop] at h
  | checkingIp packet =>
    have hopened : s.opened j = none := by simp [opened, hloop]
    by_cases hmem : packet.clientIp ∈ s.approvedClients
    · simp only [hloop, if_pos hmem, Option.some.injEq, Prod.mk.injEq] at h
      obtain ⟨rfl, rfl⟩ := h
      exact .quiet _ _ _ (by simp [forwards, hopened]) rfl rfl rfl (by simp)
    · simp only [hloop, if_neg hmem, Option.some.injEq, Prod.mk.injEq] at h
      obtain ⟨rfl, rfl⟩ := h
      exact .quiet _ _ _ (by simp [forwards, hopened]) rfl rfl rfl (by simp)
  | approved packet =>
    have hopened : s.opened j = none := by simp [opened, hloop]
    simp only [hloop, Option.some.injEq, Prod.mk.injEq] at h
    obtain ⟨rfl, rfl⟩ := h
    exact .quiet _ _ _ (by simp [forwards, hopened]) rfl rfl rfl (by simp)
  | processing packet =>
    simp only [hloop, Option.some.injEq, processPacket, Prod.mk.injEq] at h
    obtain ⟨rfl, rfl⟩ := h
    by_cases hlen : 24 ≤ packet.rawData.length
    · cases hdecrypt : CryptoEngine.decryptPacket j packet.rawData (codeKey j s.effectiveOtp) with
      | none =>
        have hopened : s.opened j = none := by simp [opened, hloop, hdecrypt]
        simp only [if_pos hlen]
        exact .quiet _ _ _ (by simp [forwards, hopened]) rfl rfl (by simp [pending]) (by simp)
      | some decrypted =>
        have hopened : s.opened j = some (packet, codeKey j s.effectiveOtp, decrypted) := by
          simp [opened, hloop, hlen, hdecrypt]
        simp only [if_pos hlen]
        exact .opens _ packet _ decrypted hopened rfl
    · have hopened : s.opened j = none := by simp [opened, hloop, hlen]
      simp only [if_neg hlen]
      exact .quiet _ _ _ (by simp [forwards, hopened]) rfl rfl (by simp [pending]) (by simp)

theorem runJob_handles {i : Nat} (h : s.runJob i = some (t, out)) : Handles j s (.runJob i) t out := by
  rw [runJob] at h
  cases hjob : s.jobs[i]? with
  | none => simp [hjob] at h
  | some job =>
    cases job with
    | approveEndpoint ip port =>
      simp only [hjob, Option.some.injEq, Prod.mk.injEq] at h
      obtain ⟨rfl, rfl⟩ := h
      exact .quiet _ _ _ rfl rfl rfl (pending_set hjob rfl rfl) (by simp)
    | approveIp ip port =>
      simp only [hjob, Option.some.injEq, Prod.mk.injEq] at h
      obtain ⟨rfl, rfl⟩ := h
      exact .quiet _ _ _ rfl rfl rfl (pending_eraseIdx hjob rfl) (by simp)
    | rejectEndpoint ip port =>
      simp only [hjob, Option.some.injEq, Prod.mk.injEq] at h
      obtain ⟨rfl, rfl⟩ := h
      exact .quiet _ _ _ rfl rfl rfl (pending_set hjob rfl rfl) (by simp)
    | rejectIp ip port =>
      simp only [hjob, Option.some.injEq, Prod.mk.injEq] at h
      obtain ⟨rfl, rfl⟩ := h
      exact .quiet _ _ _ rfl rfl rfl (pending_eraseIdx hjob rfl) (by simp)
    | udpReply ip port sessionKey parsedIp => simp [hjob] at h

theorem udpResponse_handles {i : Nat} {respPayload : Bytes} {currentTimeMillis : UInt64}
    (h : s.udpResponse j i respPayload currentTimeMillis = some (t, out)) :
    Handles j s (.udpResponse i respPayload currentTimeMillis) t out := by
  rw [udpResponse] at h
  cases hjob : s.jobs[i]? with
  | none => simp [hjob] at h
  | some job =>
    cases job with
    | udpReply ip port sessionKey parsedIp =>
      simp only [hjob, Option.some.injEq, Prod.mk.injEq] at h
      obtain ⟨rfl, rfl⟩ := h
      exact .answers i respPayload currentTimeMillis _ ip port sessionKey parsedIp hjob rfl
    | _ => simp [hjob] at h

theorem udpLost_handles {i : Nat} (h : s.udpLost i = some (t, out)) :
    Handles j s (.udpLost i) t out := by
  rw [udpLost] at h
  cases hjob : s.jobs[i]? with
  | none => simp [hjob] at h
  | some job =>
    cases job with
    | udpReply ip port sessionKey parsedIp =>
      simp only [hjob, Option.some.injEq, Prod.mk.injEq] at h
      obtain ⟨rfl, rfl⟩ := h
      exact .loses i _ ip port sessionKey parsedIp hjob rfl
    | _ => simp [hjob] at h

theorem step_handles (h : s.step j e = some (t, out)) : Handles j s e t out := by
  cases e with
  | startHost hostOtp prevOtp =>
    obtain ⟨rfl, rfl⟩ := Prod.mk.inj (Option.some.inj h)
    exact startHost_handles hostOtp prevOtp
  | updateOtp hostOtp =>
    obtain ⟨rfl, rfl⟩ := Prod.mk.inj (Option.some.inj h)
    exact updateOtp_handles hostOtp
  | approvePeer clientIp clientPort =>
    obtain ⟨rfl, rfl⟩ := Prod.mk.inj (Option.some.inj h)
    have hquiet : (s.approvePeer clientIp clientPort).1.pending = s.pending ∧
        ∀ call, .encrypted call ∉ (s.approvePeer clientIp clientPort).2 :=
      launchFor_quiet (fun _ _ => rfl) (by simp)
    exact .quiet _ _ _ rfl rfl rfl hquiet.1 hquiet.2
  | rejectPeer clientIp clientPort =>
    obtain ⟨rfl, rfl⟩ := Prod.mk.inj (Option.some.inj h)
    have hquiet : (s.rejectPeer clientIp clientPort).1.pending = s.pending ∧
        ∀ call, .encrypted call ∉ (s.rejectPeer clientIp clientPort).2 :=
      launchFor_quiet (fun _ _ => rfl) (by simp)
    exact .quiet _ _ _ rfl rfl rfl hquiet.1 hquiet.2
  | receive packet =>
    rw [step] at h
    cases hrun : s.isRunning with
    | false => simp [hrun] at h
    | true =>
      cases hloop : s.receiveLoop with
      | receiving =>
        simp only [hrun, hloop, Option.some.injEq] at h
        have hhandles := receive_handles (j := j) (s := s) packet
        rwa [h] at hhandles
      | _ => simp [hrun, hloop] at h
  | loopStep => exact loopStep_handles h
  | runJob i => exact runJob_handles h
  | udpResponse i respPayload currentTimeMillis => exact udpResponse_handles h
  | udpLost i => exact udpLost_handles h

theorem forward_cases (j : Jca) (packet : Datagram) (sessionKey : FixedBytes 32)
    (decrypted : Bytes) :
    (synTag.isPrefixOf (Text.decode decrypted) = true ∧
        (forward j packet sessionKey decrypted).1 = [] ∧
        ∀ call, .encrypted call ∈ (forward j packet sessionKey decrypted).2 →
          call.sessionKey = sessionKey ∧ call.plaintext = synAck) ∨
      (∃ parsedIp, Asks decrypted parsedIp ∧ forward j packet sessionKey decrypted =
        ([.udpReply packet.clientIp packet.clientPort sessionKey parsedIp], [])) ∨
      forward j packet sessionKey decrypted = ([], []) := by
  rw [forward]
  by_cases hsyn : "AURA_SYN:".toList.isPrefixOf (Text.decode decrypted) = true
  · refine .inl ⟨hsyn, ?_⟩
    rw [if_pos hsyn]
    simp
  · rw [if_neg hsyn]
    cases hparse : parse decrypted with
    | error error => exact .inr (.inr rfl)
    | ok parsed =>
      cases parsed with
      | none => exact .inr (.inr rfl)
      | some parsedIp =>
        by_cases hudp : parsedIp.protocol = IpPacketParser.protocolUdp ∧ 0 < parsedIp.destPort
        · exact .inr (.inl ⟨parsedIp, ⟨hparse, hudp.1, hudp.2⟩, if_pos hudp⟩)
        · exact .inr (.inr (if_neg hudp))

end HostService

end AuraChain
