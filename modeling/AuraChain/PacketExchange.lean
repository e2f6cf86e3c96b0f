import AuraChain.PacketParsing
import AuraChain.PacketRelay
import AuraChain.UdpPacket

/-! One packet of an app and what comes back for it: through the client's tunnel to the
host, out to the internet, and the whole way back. -/

namespace AuraChain

open IpPacketParser (ParsedPacket parse buildUdpPacket)

theorem reconstructed_length_le (parsedIp : ParsedPacket) (respPayload : Bytes) :
    (reconstructed parsedIp respPayload).length ≤ 32744 := by
  have hsrc := parsedIp.destIp.size
  have hdst := parsedIp.sourceIp.size
  simp only [reconstructed, buildUdpPacket, IpPacketParser.putShort, List.length_append,
    List.length_cons, List.length_nil, List.length_take, hsrc, hdst]
  omega

theorem Text.decode_cons {b : UInt8} (h : b < 0x80) (bytes : Bytes) :
    Text.decode (b :: bytes) = Char.ofNat b.toNat :: Text.decode bytes := by
  rw [Text.decode, Text.decodeFrom, Text.decodeByte, Text.decodeFirst, if_pos h]
  rfl

theorem toBeBytes_small {n : UInt64} (h : n.toNat < 2 ^ 62) :
    ∃ b rest, n.toBeBytes = b :: rest ∧ b.toNat < 64 := by
  refine ⟨_, _, rfl, ?_⟩
  rw [UInt8.toNat_ofNat']
  omega

/-- The sequence number stands first in a frame, so that a frame begins like a pair
request only after more packets than a client ever sends. -/
theorem frame_no_request (j : Jca) (plaintext : Bytes) (sessionKey : FixedBytes 32) {seq : UInt64}
    (h : seq.toNat < 2 ^ 62) :
    pairRequestTag.isPrefixOf (Text.decode (CryptoEngine.encryptPacket j plaintext sessionKey seq)) =
      false := by
  obtain ⟨b, rest, hbytes, hb⟩ := toBeBytes_small h
  have hlt : b < 0x80 := by
    rw [UInt8.lt_iff_toNat_lt]
    exact hb.trans (by decide)
  have htag : pairRequestTag = 'A' :: "URA_PAIR_REQ:".toList := by decide +kernel
  have hletter : ∀ k < 64, ('A' == Char.ofNat k) = false := by decide +kernel
  rw [CryptoEngine.encryptPacket, hbytes, List.cons_append, Text.decode_cons hlt, htag,
    List.isPrefixOf_cons_cons, hletter b.toNat hb, Bool.false_and]

theorem Asks.ports_lt {packetBytes : Bytes} {parsedIp : ParsedPacket} (h : Asks packetBytes parsedIp) :
    packetBytes ≠ [] ∧ parsedIp.sourcePort < 2 ^ 16 ∧ parsedIp.destPort < 2 ^ 16 := by
  have hparses := h.parses
  rw [IpPacketParser.parse_eq, Except.ok.injEq] at hparses
  split_ifs at hparses with hfits
  obtain rfl := Option.some.inj hparses
  refine ⟨?_, ?_⟩
  · rintro rfl
    exact absurd hfits.1 (by decide)
  · rw [IpPacketParser.fields, IpPacketParser.ports]
    dsimp only
    split_ifs
    · exact ⟨IpPacketParser.word_lt _ _, IpPacketParser.word_lt _ _⟩
    · exact ⟨by decide, by decide⟩

namespace Relay

/-- A network that makes up nothing: the host receives frames that a client has sent,
from the address of that client, and a client what the host has sent to it. -/
def Carries (j : Jca) (address : Nat → Text × Nat) (s : Relay) : RelayEvent → Prop
  | .mesh (.host (.receive packet)) => ∃ connection, ∃ call ∈ s.calls,
      call.source = .client connection ∧ address connection = (packet.clientIp, packet.clientPort) ∧
      packet.rawData = CryptoEngine.encryptPacket j call.plaintext call.sessionKey call.seq
  | .inbound connection inPacket =>
    ((address connection).1, (address connection).2, inPacket) ∈ s.replies
  | _ => True

def Delivers (j : Jca) (address : Nat → Text × Nat) (s : Relay) (e : RelayEvent) : Prop :=
  s.Unforged j e ∧ s.Carries j address e

variable {j : Jca} {address : Nat → Text × Nat} {s : Relay} {log : List RelayEntry}

theorem host_step {e : HostEvent} {host : HostService} {out : List HostEntry}
    {entries : List RelayEntry} (hallowed : s.Delivers j address (.mesh (.host e)))
    (hstep : s.mesh.host.step j e = some (host, out)) (hentries : s.meshEntries j (.host e) = entries) :
    ∃ t, s.step j (.mesh (.host e)) = some (t, entries) ∧
      (∀ log, TracedStep (Relay.step j) (Relay.Delivers j address) (s, log) (t, log ++ entries)) ∧
      t.mesh = { s.mesh with host } ∧ t.calls = s.calls ++ out.filterMap HostEntry.encryptCall? ∧
      t.replies = s.replies ++ out.filterMap HostEntry.sent? := by
  have hrelay : s.step j (.mesh (.host e)) =
      some (⟨{ s.mesh with host }, s.calls ++ out.filterMap HostEntry.encryptCall?,
        s.replies ++ out.filterMap HostEntry.sent?⟩, entries) := by
    simp [Relay.step, Mesh.step, replied, hstep, hentries]
  exact ⟨_, hrelay, fun log => ⟨.mesh (.host e), entries, hallowed, hrelay, rfl⟩, rfl, rfl, rfl⟩

theorem loopStep_quiet (address : Nat → Text × Nat) (h : s.mesh.host.opened j = none) :
    s.Delivers j address (.mesh (.host .loopStep)) ∧ s.meshEntries j (.host .loopStep) = [] := by
  refine ⟨⟨unforged_none ?_, trivial⟩, ?_⟩
  · rw [openings, h]
    rfl
  · simp [meshEntries, HostService.forwards, HostService.answers, HostService.loses, h]

/-- Only the receive loop has moved, and the map of approved clients. -/
structure Moved (s t : Relay) (receiveLoop : ReceiveLoop) : Prop where
  loop : t.mesh.host.receiveLoop = receiveLoop
  otp : t.mesh.host.effectiveOtp = s.mesh.host.effectiveOtp
  jobs : t.mesh.host.jobs = s.mesh.host.jobs
  connections : t.mesh.connections = s.mesh.connections
  calls : t.calls = s.calls

theorem Moved.trans {t u : Relay} {loop loop' : ReceiveLoop} (h : Moved s t loop)
    (h' : Moved t u loop') : Moved s u loop' :=
  ⟨h'.loop, h'.otp.trans h.otp, h'.jobs.trans h.jobs, h'.connections.trans h.connections,
    h'.calls.trans h.calls⟩

theorem packet_recorded (j : Jca) (address : Nat → Text × Nat) {packet : Datagram}
    (hloop : s.mesh.host.receiveLoop = .approved packet) (log : List RelayEntry) :
    ∃ t, TracedStep (Relay.step j) (Relay.Delivers j address) (s, log) (t, log) ∧
      Moved s t (.processing packet) := by
  have hopened : s.mesh.host.opened j = none := by simp [HostService.opened, hloop]
  obtain ⟨hallowed, hentries⟩ := loopStep_quiet address hopened
  obtain ⟨t, -, hstep, hmesh, hcalls, -⟩ := host_step hallowed
    (by rw [HostService.step, HostService.loopStep, hloop]) hentries
  have hlog := hstep log
  rw [List.append_nil] at hlog
  exact ⟨t, hlog, by rw [hmesh], by rw [hmesh]; rfl, by rw [hmesh], by rw [hmesh],
    hcalls.trans (List.append_nil _)⟩

theorem ip_checked (j : Jca) (address : Nat → Text × Nat) {packet : Datagram}
    (hloop : s.mesh.host.receiveLoop = .checkingIp packet)
    (hip : packet.clientIp ∈ s.mesh.host.approvedClients) (log : List RelayEntry) :
    ∃ t, TracedStep (Relay.step j) (Relay.Delivers j address) (s, log) (t, log) ∧
      Moved s t (.approved packet) := by
  have hopened : s.mesh.host.opened j = none := by simp [HostService.opened, hloop]
  obtain ⟨hallowed, hentries⟩ := loopStep_quiet address hopened
  obtain ⟨t, -, hstep, hmesh, hcalls, -⟩ := host_step hallowed
    (by simp only [HostService.step, HostService.loopStep, hloop, if_pos hip]; rfl) hentries
  have hlog := hstep log
  rw [List.append_nil] at hlog
  exact ⟨t, hlog, by rw [hmesh], by rw [hmesh]; rfl, by rw [hmesh], by rw [hmesh],
    hcalls.trans (List.append_nil _)⟩

/-- A data packet of an approved peer gets past the approval check. -/
theorem packet_passes {packet : Datagram} (hrun : s.mesh.host.isRunning = true)
    (hloop : s.mesh.host.receiveLoop = .receiving)
    (hcarries : s.Carries j address (.mesh (.host (.receive packet))))
    (hdata : pairRequestTag.isPrefixOf (Text.decode packet.rawData) = false)
    (happroved : endpoint packet.clientIp packet.clientPort ∈ s.mesh.host.approvedClients ∨
      packet.clientIp ∈ s.mesh.host.approvedClients) (log : List RelayEntry) :
    ∃ t, TracedRun (Relay.step j) (Relay.Delivers j address) (s, log) (t, log) ∧
      Moved s t (.processing packet) := by
  have hallowed : s.Delivers j address (.mesh (.host (.receive packet))) :=
    ⟨unforged_none rfl, hcarries⟩
  have hentries : s.meshEntries j (.host (.receive packet)) = [] := rfl
  by_cases hendpoint : endpoint packet.clientIp packet.clientPort ∈ s.mesh.host.approvedClients
  · have hreceive : s.mesh.host.step j (.receive packet) =
        some ({ s.mesh.host with receiveLoop := .approved packet },
          [.passed packet.clientIp packet.clientPort]) := by
      simp [HostService.step, HostService.receive, hrun, hloop, hdata, hendpoint]
    obtain ⟨t, -, hstep, hmesh, hcalls, -⟩ := host_step hallowed hreceive hentries
    have hmoved : Moved s t (.approved packet) :=
      ⟨by rw [hmesh], by rw [hmesh]; rfl, by rw [hmesh], by rw [hmesh],
        hcalls.trans (List.append_nil _)⟩
    obtain ⟨u, hrecorded, hmoved'⟩ := packet_recorded j address hmoved.loop log
    have hlog := hstep log
    rw [List.append_nil] at hlog
    exact ⟨u, .head hlog (.single hrecorded), hmoved.trans hmoved'⟩
  · have hip := happroved.resolve_left hendpoint
    have hreceive : s.mesh.host.step j (.receive packet) =
        some ({ s.mesh.host with receiveLoop := .checkingIp packet }, []) := by
      simp [HostService.step, HostService.receive, hrun, hloop, hdata, hendpoint]
    obtain ⟨t, -, hstep, hmesh, hcalls, -⟩ := host_step hallowed hreceive hentries
    have hmoved : Moved s t (.checkingIp packet) :=
      ⟨by rw [hmesh], by rw [hmesh]; rfl, by rw [hmesh], by rw [hmesh],
        hcalls.trans (List.append_nil _)⟩
    obtain ⟨u, hchecked, hmoved'⟩ := ip_checked j address hmoved.loop
      (by rw [hmesh]; exact hip) log
    obtain ⟨v, hrecorded, hmoved''⟩ := packet_recorded j address hmoved'.loop log
    have hlog := hstep log
    rw [List.append_nil] at hlog
    exact ⟨v, .head hlog (.head hchecked (.single hrecorded)),
      (hmoved.trans hmoved').trans hmoved''⟩

/-- A client reads a packet from its TUN device, encrypts it and sends the frame. -/
theorem packet_read (j : Jca) (address : Nat → Text × Nat) {connection : Nat} {conn : ClientConnection} {packetBytes : Bytes}
    (hconn : s.mesh.connections[connection]? = some conn) (hne : packetBytes ≠ [])
    (log : List RelayEntry) :
    ∃ t, TracedStep (Relay.step j) (Relay.Delivers j address) (s, log)
        (t, log ++ [.tunRead connection conn.sessionKey packetBytes]) ∧
      t.mesh.host = s.mesh.host ∧
      ⟨.client connection, packetBytes, conn.sessionKey, conn.seq⟩ ∈ t.calls ∧
      ∃ conn', t.mesh.connections[connection]? = some conn' ∧ conn'.sessionKey = conn.sessionKey := by
  have hlt := (List.getElem?_eq_some_iff.mp hconn).1
  have hmesh : s.mesh.step j (.sendPacket connection packetBytes) =
      some (⟨s.mesh.host,
          s.mesh.connections.set connection ⟨conn.sessionKey, conn.seq + 1⟩⟩,
        [⟨.client connection, packetBytes, conn.sessionKey, conn.seq⟩]) := by
    simp [Mesh.step, hconn, hne]
  have hentries : s.meshEntries j (.sendPacket connection packetBytes) =
      [.tunRead connection conn.sessionKey packetBytes] := by
    simp [meshEntries, hconn, hne]
  have hstep : s.step j (.mesh (.sendPacket connection packetBytes)) =
      some (⟨⟨s.mesh.host, s.mesh.connections.set connection ⟨conn.sessionKey, conn.seq + 1⟩⟩,
          s.calls ++ [⟨.client connection, packetBytes, conn.sessionKey, conn.seq⟩],
          s.replies ++ []⟩,
        [.tunRead connection conn.sessionKey packetBytes]) := by
    rw [Relay.step, hmesh, hentries]
    rfl
  refine ⟨_, ⟨.mesh (.sendPacket connection packetBytes), _, ⟨unforged_none rfl, trivial⟩, hstep, rfl⟩,
    rfl, List.mem_append_right _ (List.mem_singleton_self _),
    ⟨conn.sessionKey, conn.seq + 1⟩, ?_, rfl⟩
  exact List.getElem?_set_self hlt

/-- The host decrypts a packet that asks for something, and sends it on. -/
theorem packet_forwarded (address : Nat → Text × Nat) {packet : Datagram} {sessionKey : FixedBytes 32} {decrypted : Bytes}
    {parsedIp : ParsedPacket}
    (hopened : s.mesh.host.opened j = some (packet, sessionKey, decrypted))
    (hencrypted : s.Encrypted sessionKey decrypted) (hasks : Asks decrypted parsedIp)
    (hsyn : synTag.isPrefixOf (Text.decode decrypted) = false) (log : List RelayEntry) :
    ∃ t, TracedStep (Relay.step j) (Relay.Delivers j address) (s, log)
        (t, log ++ [.forwarded sessionKey parsedIp]) ∧
      t.mesh.connections = s.mesh.connections ∧ t.mesh.host.jobs = s.mesh.host.jobs ++
        [.udpReply packet.clientIp packet.clientPort sessionKey parsedIp] := by
  have hforward : HostService.forward j packet sessionKey decrypted =
      ([.udpReply packet.clientIp packet.clientPort sessionKey parsedIp], []) := by
    rcases HostService.forward_cases j packet sessionKey decrypted with
      ⟨htrue, -, -⟩ | ⟨parsed, hparsed, hforward⟩ | hnone
    · rw [hsyn] at htrue
      cases htrue
    · obtain rfl : parsed = parsedIp :=
        Option.some.inj (Except.ok.inj (hparsed.parses.symm.trans hasks.parses))
      exact hforward
    · rw [HostService.forward, if_neg (by rw [Bool.not_eq_true]; exact hsyn), hasks.parses] at hnone
      simp [hasks.udp, hasks.port] at hnone
  have hunforged := (unforged_some (openings_loopStep hopened)).mpr hencrypted
  have hentries : s.meshEntries j (.host .loopStep) = [.forwarded sessionKey parsedIp] := by
    simp [meshEntries, HostService.forwards, HostService.answers, HostService.loses, hopened, hforward,
      HostJob.reply?]
  cases hloop : s.mesh.host.receiveLoop with
  | processing packet' =>
    obtain ⟨⟨host, out⟩, hprocess⟩ : ∃ r, r = s.mesh.host.processPacket j packet' := ⟨_, rfl⟩
    have hhost : s.mesh.host.step j .loopStep = some (host, out) := by
      simp only [HostService.step, HostService.loopStep, hloop, hprocess]
    have hhandles := HostService.loopStep_handles hhost
    have hallowed : s.Delivers j address (.mesh (.host .loopStep)) := ⟨hunforged, trivial⟩
    obtain ⟨t, -, hstep, hmesh, -, -⟩ := host_step hallowed hhost hentries
    refine ⟨t, hstep log, by rw [hmesh], ?_⟩
    rw [hmesh]
    cases hhandles with
    | quiet _ _ _ hforwards =>
      rw [HostService.forwards, hopened] at hforwards
      simp [hforward, HostJob.reply?] at hforwards
    | opens _ _ _ _ hopened' hjobs =>
      cases Option.some.inj (hopened.symm.trans hopened')
      rw [hforward] at hjobs
      exact hjobs
  | _ => simp [HostService.opened, hloop] at hopened

/-- The frame of a packet gets to the host from an approved address, is let in, opened
and sent on. -/
theorem packet_sent_on (hgcm : j.GcmDecrypts) {connection : Nat} {sessionKey : FixedBytes 32}
    {seq : UInt64} {packetBytes : Bytes} {parsedIp : ParsedPacket}
    (hkey : sessionKey = codeKey j s.mesh.host.effectiveOtp) (hseq : seq.toNat < 2 ^ 62)
    (hrun : s.mesh.host.isRunning = true) (hloop : s.mesh.host.receiveLoop = .receiving)
    (happroved : endpoint (address connection).1 (address connection).2 ∈
        s.mesh.host.approvedClients ∨ (address connection).1 ∈ s.mesh.host.approvedClients)
    (hcall : ⟨.client connection, packetBytes, sessionKey, seq⟩ ∈ s.calls)
    (hasks : Asks packetBytes parsedIp)
    (hsyn : synTag.isPrefixOf (Text.decode packetBytes) = false) (log : List RelayEntry) :
    ∃ t, TracedRun (Relay.step j) (Relay.Delivers j address) (s, log)
        (t, log ++ [.forwarded sessionKey parsedIp]) ∧
      t.mesh.connections = s.mesh.connections ∧ t.mesh.host.jobs = s.mesh.host.jobs ++
        [.udpReply (address connection).1 (address connection).2 sessionKey parsedIp] := by
  obtain ⟨packet, hpacket⟩ : ∃ packet : Datagram, packet = ⟨(address connection).1,
      (address connection).2, CryptoEngine.encryptPacket j packetBytes sessionKey seq⟩ := ⟨_, rfl⟩
  have hdata : pairRequestTag.isPrefixOf (Text.decode packet.rawData) = false := by
    rw [hpacket]
    exact frame_no_request j packetBytes sessionKey hseq
  have hcarries : s.Carries j address (.mesh (.host (.receive packet))) := by
    rw [hpacket]
    exact ⟨connection, _, hcall, rfl, rfl, rfl⟩
  obtain ⟨r, hpasses, hmoved⟩ := packet_passes hrun hloop hcarries hdata
    (by rw [hpacket]; exact happroved) log
  have hopened : r.mesh.host.opened j = some (packet, sessionKey, packetBytes) := by
    have hlen : 24 ≤ packet.rawData.length := by
      rw [hpacket, CryptoEngine.encryptPacket, List.length_append, UInt64.toBeBytes_length,
        hgcm.length]
      omega
    rw [HostService.opened, hmoved.loop]
    simp only [if_pos hlen, hmoved.otp, ← hkey]
    rw [hpacket, CryptoEngine.decryptPacket_encryptPacket hgcm]
    rfl
  have hencrypted : r.Encrypted sessionKey packetBytes := ⟨_, hmoved.calls ▸ hcall, rfl, rfl⟩
  obtain ⟨t, hforwarded, hconnections, hjobs⟩ := packet_forwarded address hopened
    hencrypted hasks hsyn log
  refine ⟨t, hpasses.trans (.single hforwarded), hconnections.trans hmoved.connections, ?_⟩
  rw [hjobs, hmoved.jobs, hpacket]

/-- Whatever comes back, and whatever the clock shows, the host encrypts it and sends it
to where the packet came from. -/
theorem reply_sent {jobs : List HostJob} {clientIp : Text} {clientPort : Nat}
    {sessionKey : FixedBytes 32} {parsedIp : ParsedPacket}
    (hjobs : s.mesh.host.jobs = jobs ++ [.udpReply clientIp clientPort sessionKey parsedIp])
    (j : Jca) (respPayload : Bytes) (currentTimeMillis : UInt64) :
    ∃ t, s.step j (.mesh (.host (.udpResponse jobs.length respPayload currentTimeMillis))) =
        some (t, [.answered sessionKey parsedIp respPayload]) ∧
      t.mesh.connections = s.mesh.connections ∧ t.mesh.host.jobs = jobs ∧
      t.Encrypted sessionKey (reconstructed parsedIp respPayload) ∧
      (clientIp, clientPort, CryptoEngine.encryptPacket j (reconstructed parsedIp respPayload)
        sessionKey currentTimeMillis) ∈ t.replies := by
  have hjob : s.mesh.host.jobs[jobs.length]? =
      some (.udpReply clientIp clientPort sessionKey parsedIp) := by
    rw [hjobs, List.getElem?_concat_length]
  have hhost : s.mesh.host.step j (.udpResponse jobs.length respPayload currentTimeMillis) =
      some ({ s.mesh.host with jobs := s.mesh.host.jobs.eraseIdx jobs.length },
        [.encrypted ⟨.udpReply currentTimeMillis, reconstructed parsedIp respPayload, sessionKey,
            currentTimeMillis⟩,
          .sent clientIp clientPort (CryptoEngine.encryptPacket j
            (reconstructed parsedIp respPayload) sessionKey currentTimeMillis)]) := by
    simp only [HostService.step, HostService.udpResponse, hjob]
    rfl
  have hentries : s.meshEntries j (.host (.udpResponse jobs.length respPayload currentTimeMillis)) =
      [.answered sessionKey parsedIp respPayload] := by
    simp [meshEntries, HostService.forwards, HostService.answers, HostService.loses, hjob,
      HostJob.reply?]
  have hallowed : s.Delivers j (fun _ => (clientIp, clientPort))
      (.mesh (.host (.udpResponse jobs.length respPayload currentTimeMillis))) :=
    ⟨unforged_none rfl, trivial⟩
  obtain ⟨t, hstep, -, hmesh, hcalls, hreplies⟩ := host_step hallowed hhost hentries
  refine ⟨t, hstep, by rw [hmesh], ?_, ⟨_, hcalls ▸ List.mem_append_right _ List.mem_cons_self, rfl,
    rfl⟩, hreplies ▸ List.mem_append_right _ List.mem_cons_self⟩
  rw [hmesh]
  show s.mesh.host.jobs.eraseIdx jobs.length = jobs
  rw [hjobs, List.eraseIdx_append_of_length_le (Nat.le_refl _), Nat.sub_self]
  simp

/-- The frame of the answer gets to the client and is opened there. -/
theorem packet_written (hgcm : j.GcmDecrypts) {connection : Nat} {conn : ClientConnection}
    {plaintext : Bytes} {seq : UInt64} (hconn : s.mesh.connections[connection]? = some conn)
    (hencrypted : s.Encrypted conn.sessionKey plaintext) (hlen : plaintext.length ≤ 32744)
    (hsent : ((address connection).1, (address connection).2,
      CryptoEngine.encryptPacket j plaintext conn.sessionKey seq) ∈ s.replies) :
    TracedStep (Relay.step j) (Relay.Delivers j address) (s, [])
      (s, [.tunWritten connection conn.sessionKey plaintext]) := by
  have hframe : (CryptoEngine.encryptPacket j plaintext conn.sessionKey seq).length =
      plaintext.length + 24 := by
    rw [CryptoEngine.encryptPacket, List.length_append, UInt64.toBeBytes_length, hgcm.length]
    omega
  have htake : (CryptoEngine.encryptPacket j plaintext conn.sessionKey seq).take 32768 =
      CryptoEngine.encryptPacket j plaintext conn.sessionKey seq :=
    List.take_of_length_le (by omega)
  have hdelivered : s.openings j (.inbound connection
      (CryptoEngine.encryptPacket j plaintext conn.sessionKey seq)) =
      some (conn.sessionKey, plaintext) := by
    rw [openings, delivered, hconn, Option.bind_some, htake, if_pos (by omega),
      CryptoEngine.decryptPacket_encryptPacket hgcm]
    rfl
  refine ⟨.inbound connection (CryptoEngine.encryptPacket j plaintext conn.sessionKey seq), _,
    ⟨(unforged_some hdelivered).mpr hencrypted, hsent⟩, ?_, rfl⟩
  rw [openings] at hdelivered
  simp only [Relay.step, hdelivered]

end Relay

/-- From any state in which the host waits for packets and knows the client's code and
its address, a packet that an app sends out can go all the way over a network that only
delivers what was sent: the host sends on what the packet asks for, whatever comes back
it sends to the client, and the app gets it from where it had sent to. What others have
asked for meanwhile is still to be answered. -/
theorem query_answered (j : Jca) (hgcm : j.GcmDecrypts) (address : Nat → Text × Nat) (s : Relay)
    (connection : Nat) (conn : ClientConnection) (packetBytes : Bytes) (parsedIp : ParsedPacket)
    (hconn : s.mesh.connections[connection]? = some conn)
    (hkey : conn.sessionKey = codeKey j s.mesh.host.effectiveOtp)
    (hseq : conn.seq.toNat < 2 ^ 62)
    (hrun : s.mesh.host.isRunning = true) (hloop : s.mesh.host.receiveLoop = .receiving)
    (happroved : endpoint (address connection).1 (address connection).2 ∈
        s.mesh.host.approvedClients ∨ (address connection).1 ∈ s.mesh.host.approvedClients)
    (hasks : Asks packetBytes parsedIp)
    (hsyn : synTag.isPrefixOf (Text.decode packetBytes) = false) :
    ∃ r job, TracedRun (Relay.step j) (Relay.Delivers j address) (s, [])
        (r, [.tunRead connection conn.sessionKey packetBytes, .forwarded conn.sessionKey parsedIp]) ∧
      ∀ respPayload currentTimeMillis, ∃ r' t,
        r.step j (.mesh (.host (.udpResponse job respPayload currentTimeMillis))) =
          some (r', [.answered conn.sessionKey parsedIp respPayload]) ∧
        TracedStep (Relay.step j) (Relay.Delivers j address) (r', [])
          (t, [.tunWritten connection conn.sessionKey (reconstructed parsedIp respPayload)]) ∧
        t.mesh.host.jobs = s.mesh.host.jobs ∧
        parse (reconstructed parsedIp respPayload) = .ok (some ⟨4, IpPacketParser.protocolUdp,
          parsedIp.destIp, parsedIp.sourceIp, parsedIp.destPort, parsedIp.sourcePort,
          respPayload.take 4096, reconstructed parsedIp respPayload⟩) := by
  obtain ⟨hne, hsrc, hdst⟩ := hasks.ports_lt
  obtain ⟨q, hread, hhost, hcall, conn', hconn', hkey'⟩ :=
    Relay.packet_read j address hconn hne []
  obtain ⟨r, hforwarded, hconnections, hjobs⟩ := Relay.packet_sent_on (s := q) hgcm
    (by rw [hhost]; exact hkey) hseq (by rw [hhost]; exact hrun) (by rw [hhost]; exact hloop)
    (by rw [hhost]; exact happroved) hcall hasks hsyn
    [.tunRead connection conn.sessionKey packetBytes]
  refine ⟨r, q.mesh.host.jobs.length, .head hread hforwarded, fun respPayload currentTimeMillis => ?_⟩
  obtain ⟨r', hanswered, hconnections', hjobs', hencrypted, hsent⟩ :=
    Relay.reply_sent hjobs j respPayload currentTimeMillis
  have hconn'' : r'.mesh.connections[connection]? = some conn' := by
    rw [hconnections', hconnections]
    exact hconn'
  rw [← hkey'] at hencrypted hsent
  have hwritten := Relay.packet_written hgcm hconn'' hencrypted
    (reconstructed_length_le parsedIp respPayload) hsent
  rw [hkey'] at hwritten
  refine ⟨r', r', hanswered, hwritten, ?_, IpPacketParser.parse_buildUdpPacket _ hdst hsrc⟩
  rw [hjobs', hhost]

namespace PacketExchange

open PacketRelay

def relay : Relay :=
  ⟨⟨⟨true, PacketNonces.otp, PacketNonces.otp, {PacketNonces.clientIp}, .receiving, []⟩,
    [⟨key, 1⟩]⟩, [], []⟩

def address : Nat → Text × Nat := fun _ => (PacketNonces.clientIp, 5000)

theorem query_answered_dns :
    ∃ r job, TracedRun (Relay.step Reference.jca) (Relay.Delivers Reference.jca address) (relay, [])
        (r, [.tunRead 0 key query, .forwarded key parsedIp]) ∧
      ∃ r' t, r.step Reference.jca (.mesh (.host (.udpResponse job [8] 1700000000000))) =
          some (r', [.answered key parsedIp [8]]) ∧
        TracedStep (Relay.step Reference.jca) (Relay.Delivers Reference.jca address) (r', [])
          (t, [.tunWritten 0 key (reconstructed parsedIp [8])]) ∧ t.mesh.host.jobs = [] := by
  obtain ⟨r, job, hrun, hanswers⟩ := query_answered Reference.jca Reference.gcmDecrypts address relay 0
    ⟨key, 1⟩ query parsedIp rfl rfl (by decide) rfl rfl (.inr (Finset.mem_singleton_self _)) asks_query
    (by decide +kernel)
  obtain ⟨r', t, hanswered, hwritten, hjobs, -⟩ := hanswers [8] 1700000000000
  exact ⟨r, job, hrun, r', t, hanswered, hwritten, hjobs⟩

end PacketExchange

end AuraChain
