import AuraChain.PacketHandling
import AuraChain.PacketNonces
import AuraChain.PastLog

/-! Packets of the clients' apps on their way through the host and back. The network
delivers any datagram to anyone, as often as it may; the only thing it cannot do is to
make a frame that opens under a key with which nobody has encrypted its content. -/

namespace AuraChain

open IpPacketParser (ParsedPacket parse buildUdpPacket)

/-- What goes in and out at the ends of the tunnel: the TUN devices of the clients,
and the sockets that the host opens for a packet. -/
inductive RelayEntry
  | tunRead (connection : Nat) (sessionKey : FixedBytes 32) (packetBytes : Bytes)
  | forwarded (sessionKey : FixedBytes 32) (parsedIp : ParsedPacket)
  | answered (sessionKey : FixedBytes 32) (parsedIp : ParsedPacket) (respPayload : Bytes)
  /-- Nothing comes back for the packet, or it cannot be sent. -/
  | lost (sessionKey : FixedBytes 32) (parsedIp : ParsedPacket)
  | tunWritten (connection : Nat) (sessionKey : FixedBytes 32) (decryptedPlaintext : Bytes)
  deriving DecidableEq

/-- `calls` is what the host and the clients have encrypted so far, and `replies`
what the host has sent, each to an address. -/
structure Relay where
  mesh : Mesh
  calls : List EncryptCall
  replies : List (Text × Nat × Bytes)

inductive RelayEvent
  | mesh (e : MeshEvent)
  /-- A client receives a datagram, whoever has sent it. -/
  | inbound (connection : Nat) (inPacket : Bytes)

/-- Where a plaintext of the tunnel can come from: a TUN device, the host's answer to
a SYN, or what came back for a packet that was itself such a plaintext. -/
inductive Relayed (log : List RelayEntry) (sessionKey : FixedBytes 32) : Bytes → Prop
  | read {connection : Nat} {packetBytes : Bytes}
      (hread : .tunRead connection sessionKey packetBytes ∈ log) : Relayed log sessionKey packetBytes
  | ack {decrypted : Bytes} (hfrom : Relayed log sessionKey decrypted)
      (hsyn : synTag.isPrefixOf (Text.decode decrypted) = true) : Relayed log sessionKey synAck
  | answer {decrypted respPayload : Bytes} {parsedIp : ParsedPacket}
      (hfrom : Relayed log sessionKey decrypted) (hasks : Asks decrypted parsedIp)
      (hforwarded : .forwarded sessionKey parsedIp ∈ log)
      (hanswered : .answered sessionKey parsedIp respPayload ∈ log) :
      Relayed log sessionKey (reconstructed parsedIp respPayload)

theorem Relayed.append {log : List RelayEntry} {sessionKey : FixedBytes 32} {plaintext : Bytes}
    (h : Relayed log sessionKey plaintext) (out : List RelayEntry) :
    Relayed (log ++ out) sessionKey plaintext := by
  induction h with
  | read hread => exact .read (List.mem_append_left out hread)
  | ack _ hsyn ih => exact .ack ih hsyn
  | answer _ hasks hforwarded hanswered ih =>
    exact .answer ih hasks (List.mem_append_left out hforwarded) (List.mem_append_left out hanswered)

def RelayEntry.forwarded? : RelayEntry → Option (FixedBytes 32 × ParsedPacket)
  | forwarded sessionKey parsedIp => some (sessionKey, parsedIp)
  | _ => none

/-- A packet that is no longer to be answered. -/
def RelayEntry.settled? : RelayEntry → Option (FixedBytes 32 × ParsedPacket)
  | answered sessionKey parsedIp _ => some (sessionKey, parsedIp)
  | lost sessionKey parsedIp => some (sessionKey, parsedIp)
  | _ => none

def HostEntry.sent? : HostEntry → Option (Text × Nat × Bytes)
  | sent clientIp clientPort data => some (clientIp, clientPort, data)
  | _ => none

namespace Relay

def new : Relay := ⟨Mesh.new, [], []⟩

def meshEntries (j : Jca) (s : Relay) : MeshEvent → List RelayEntry
  | .host e => ((s.mesh.host.forwards j e).map fun (sessionKey, parsedIp) =>
        .forwarded sessionKey parsedIp) ++
      ((s.mesh.host.answers e).map fun (sessionKey, parsedIp, respPayload) =>
        .answered sessionKey parsedIp respPayload) ++
      (s.mesh.host.loses e).map fun (sessionKey, parsedIp) => .lost sessionKey parsedIp
  | .connect _ => []
  | .sendPacket connection packetBytes => match s.mesh.connections[connection]? with
    | some conn =>
      if packetBytes = [] then [] else [.tunRead connection conn.sessionKey packetBytes]
    | none => []

def replied (j : Jca) (s : Relay) : MeshEvent → List (Text × Nat × Bytes)
  | .host e => match s.mesh.host.step j e with
    | some (_, out) => out.filterMap HostEntry.sent?
    | none => []
  | _ => []

/-- What a datagram decrypts to at a client, with the client's key. -/
def delivered (j : Jca) (s : Relay) (connection : Nat) (inPacket : Bytes) :
    Option (FixedBytes 32 × Bytes) :=
  s.mesh.connections[connection]?.bind fun conn =>
    let frameBytes := inPacket.take 32768
    if 24 ≤ frameBytes.length then
      (CryptoEngine.decryptPacket j frameBytes conn.sessionKey).map (conn.sessionKey, ·)
    else none

def step (j : Jca) (s : Relay) : RelayEvent → Option (Relay × List RelayEntry)
  | .mesh e => (s.mesh.step j e).map fun (mesh, calls) =>
      (⟨mesh, s.calls ++ calls, s.replies ++ s.replied j e⟩, s.meshEntries j e)
  | .inbound connection inPacket => match s.delivered j connection inPacket with
    | some (sessionKey, decryptedPlaintext) =>
      some (s, [.tunWritten connection sessionKey decryptedPlaintext])
    | none => some (s, [])

def Encrypted (s : Relay) (sessionKey : FixedBytes 32) (plaintext : Bytes) : Prop :=
  ∃ call ∈ s.calls, call.sessionKey = sessionKey ∧ call.plaintext = plaintext

/-- The frame that an event opens: the key, and what it decrypts to. -/
def openings (j : Jca) (s : Relay) : RelayEvent → Option (FixedBytes 32 × Bytes)
  | .mesh (.host .loopStep) => (s.mesh.host.opened j).map Prod.snd
  | .inbound connection inPacket => s.delivered j connection inPacket
  | _ => none

/-- What the tag of AES-GCM promises: a frame that opens under a key holds what a
party has encrypted under it. -/
def Unforged (j : Jca) (s : Relay) (e : RelayEvent) : Prop :=
  ∀ x ∈ s.openings j e, s.Encrypted x.1 x.2

/-- What an entry tells of those before it. -/
def Traced (past : List RelayEntry) : RelayEntry → Prop
  | .tunRead _ _ _ => True
  | .forwarded sessionKey parsedIp => ∃ decrypted, Relayed past sessionKey decrypted ∧
      Asks decrypted parsedIp
  | .answered sessionKey parsedIp _ => .forwarded sessionKey parsedIp ∈ past
  | .lost sessionKey parsedIp => .forwarded sessionKey parsedIp ∈ past
  | .tunWritten _ sessionKey decryptedPlaintext => Relayed past sessionKey decryptedPlaintext

structure Inv (s : Relay) (log : List RelayEntry) : Prop where
  calls : ∀ call ∈ s.calls, Relayed log call.sessionKey call.plaintext
  along : Along Traced log
  account : (log.filterMap RelayEntry.forwarded?).Perm
    (log.filterMap RelayEntry.settled? ++ s.mesh.host.pending)

variable {j : Jca} {s : Relay} {log : List RelayEntry} {sessionKey : FixedBytes 32}
  {plaintext : Bytes} {parsedIp : ParsedPacket} {replies : List (Text × Nat × Bytes)}

theorem unforged_none {e : RelayEvent} (h : s.openings j e = none) : s.Unforged j e := by
  intro x hx
  rw [h] at hx
  cases hx

theorem unforged_some {e : RelayEvent} (h : s.openings j e = some (sessionKey, plaintext)) :
    s.Unforged j e ↔ s.Encrypted sessionKey plaintext := by
  rw [Unforged, h]
  simp

theorem openings_loopStep {packet : Datagram}
    (h : s.mesh.host.opened j = some (packet, sessionKey, plaintext)) :
    s.openings j (.mesh (.host .loopStep)) = some (sessionKey, plaintext) := by
  rw [openings, h]
  rfl

theorem inv_new : Inv new [] where
  calls call h := by cases h
  along := along_nil
  account := .nil

theorem Inv.encrypted (h : s.Inv log) (he : s.Encrypted sessionKey plaintext) :
    Relayed log sessionKey plaintext := by
  obtain ⟨call, hcall, rfl, rfl⟩ := he
  exact h.calls call hcall

theorem mem_forwarded (h : .forwarded sessionKey parsedIp ∈ log) (halong : Along Traced log) :
    ∃ decrypted, Relayed log sessionKey decrypted ∧ Asks decrypted parsedIp := by
  obtain ⟨past, recent, rfl⟩ := List.append_of_mem h
  obtain ⟨decrypted, hfrom, hasks⟩ := halong past _ recent rfl
  exact ⟨decrypted, hfrom.append _, hasks⟩

theorem Inv.pending_forwarded (h : s.Inv log) (hp : (sessionKey, parsedIp) ∈ s.mesh.host.pending) :
    .forwarded sessionKey parsedIp ∈ log := by
  have hmem := h.account.mem_iff.mpr (List.mem_append_right _ hp)
  obtain ⟨entry, hentry, hforwarded⟩ := List.mem_filterMap.mp hmem
  cases entry with
  | forwarded key parsed =>
    cases hforwarded
    exact hentry
  | _ => cases hforwarded

theorem Inv.grow (h : s.Inv log) {mesh : Mesh} {calls : List EncryptCall} {out : List RelayEntry}
    (hcalls : ∀ call ∈ calls, Relayed (log ++ out) call.sessionKey call.plaintext)
    (halong : Along Traced (log ++ out))
    (haccount : (s.mesh.host.pending ++ out.filterMap RelayEntry.forwarded?).Perm
      (out.filterMap RelayEntry.settled? ++ mesh.host.pending)) :
    Inv ⟨mesh, s.calls ++ calls, replies⟩ (log ++ out) where
  calls call hcall := by
    rcases List.mem_append.mp hcall with hcall | hcall
    · exact (h.calls call hcall).append out
    · exact hcalls call hcall
  along := halong
  account := by
    rw [List.filterMap_append, List.filterMap_append]
    refine (h.account.append_right _).trans ?_
    rw [List.append_assoc, List.append_assoc]
    exact haccount.append_left _

theorem Inv.quiet (h : s.Inv log) {mesh : Mesh} (hpending : mesh.host.pending = s.mesh.host.pending) :
    Inv ⟨mesh, s.calls ++ [], replies⟩ (log ++ []) := by
  refine h.grow (by simp) ?_ ?_
  · rw [List.append_nil]
    exact h.along
  · rw [hpending]
    simp

/-- The host opens a frame and does with its content what the content asks for. -/
theorem Inv.opens (h : s.Inv log) {packet : Datagram} {host : HostService}
    (hopened : s.mesh.host.opened j = some (packet, sessionKey, plaintext))
    (hfrom : Relayed log sessionKey plaintext)
    (hjobs : host.jobs = s.mesh.host.jobs ++ (HostService.forward j packet sessionKey plaintext).1) :
    Inv ⟨{ s.mesh with host }, s.calls ++
        (HostService.forward j packet sessionKey plaintext).2.filterMap HostEntry.encryptCall?,
        replies⟩
      (log ++ s.meshEntries j (.host .loopStep)) := by
  have hanswers : s.mesh.host.answers .loopStep = [] := rfl
  have hloses : s.mesh.host.loses .loopStep = [] := rfl
  have hforwards : s.mesh.host.forwards j .loopStep =
      (HostService.forward j packet sessionKey plaintext).1.filterMap HostJob.reply? := by
    simp only [HostService.forwards, hopened]
  rw [meshEntries, hforwards, hanswers, hloses]
  rcases HostService.forward_cases j packet sessionKey plaintext with
    ⟨hsyn, hnone, hack⟩ | ⟨parsedIp, hasks, hforward⟩ | hforward
  · rw [hnone, List.append_nil] at hjobs
    rw [hnone]
    refine h.grow (fun call hcall => ?_) (h.along.append (by simp)) (by simp [HostService.pending, hjobs])
    obtain ⟨entry, hentry, hencrypted⟩ := List.mem_filterMap.mp hcall
    cases entry with
    | encrypted call' =>
      cases hencrypted
      obtain ⟨hkey, hplaintext⟩ := hack call hentry
      rw [hkey, hplaintext]
      exact .ack (hfrom.append _) hsyn
    | _ => cases hencrypted
  · rw [hforward] at hjobs ⊢
    refine h.grow (by simp) (h.along.snoc ⟨plaintext, hfrom, hasks⟩) ?_
    simp [HostService.pending, hjobs, List.filterMap_cons, HostJob.reply?, RelayEntry.forwarded?,
      RelayEntry.settled?]
  · rw [hforward, List.append_nil] at hjobs
    rw [hforward]
    have hpending : host.pending = s.mesh.host.pending := by simp [HostService.pending, hjobs]
    exact h.quiet hpending

theorem pending_settled {job : Nat} {clientIp : Text} {clientPort : Nat} {host host' : HostService}
    (hjob : host.jobs[job]? = some (.udpReply clientIp clientPort sessionKey parsedIp))
    (hjobs : host'.jobs = host.jobs.eraseIdx job) :
    host.pending.Perm ((sessionKey, parsedIp) :: host'.pending) := by
  obtain ⟨before, after, hbefore, herase, -⟩ := HostService.split_at hjob
  have hpending : host.pending = before.filterMap HostJob.reply? ++
      (sessionKey, parsedIp) :: after.filterMap HostJob.reply? := by
    rw [HostService.pending, hbefore, List.filterMap_append]
    rfl
  rw [hpending, HostService.pending, hjobs, herase, List.filterMap_append]
  exact List.perm_middle

/-- What comes back for a packet is encrypted for the client, and the job ends. -/
theorem Inv.answers (h : s.Inv log) {job : Nat} {respPayload : Bytes} {currentTimeMillis : UInt64}
    {clientIp : Text} {clientPort : Nat} {host : HostService}
    (hjob : s.mesh.host.jobs[job]? = some (.udpReply clientIp clientPort sessionKey parsedIp))
    (hjobs : host.jobs = s.mesh.host.jobs.eraseIdx job) :
    Inv ⟨{ s.mesh with host }, s.calls ++ [⟨.udpReply currentTimeMillis,
        reconstructed parsedIp respPayload, sessionKey, currentTimeMillis⟩], replies⟩
      (log ++ [.answered sessionKey parsedIp respPayload]) := by
  have hpending := pending_settled hjob hjobs
  have hforwarded : .forwarded sessionKey parsedIp ∈ log :=
    h.pending_forwarded (hpending.mem_iff.mpr List.mem_cons_self)
  obtain ⟨decrypted, hfrom, hasks⟩ := mem_forwarded hforwarded h.along
  refine h.grow (fun call hcall => ?_) (h.along.snoc hforwarded) ?_
  · rw [List.mem_singleton.mp hcall]
    exact .answer (hfrom.append _) hasks (List.mem_append_left _ hforwarded)
      (List.mem_append_right _ (List.mem_singleton_self _))
  · show (s.mesh.host.pending ++ []).Perm ((sessionKey, parsedIp) :: host.pending)
    rwa [List.append_nil]

theorem Inv.loses (h : s.Inv log) {job : Nat} {clientIp : Text} {clientPort : Nat}
    {host : HostService}
    (hjob : s.mesh.host.jobs[job]? = some (.udpReply clientIp clientPort sessionKey parsedIp))
    (hjobs : host.jobs = s.mesh.host.jobs.eraseIdx job) :
    Inv ⟨{ s.mesh with host }, s.calls ++ [], replies⟩ (log ++ [.lost sessionKey parsedIp]) := by
  have hpending := pending_settled hjob hjobs
  have hforwarded : .forwarded sessionKey parsedIp ∈ log :=
    h.pending_forwarded (hpending.mem_iff.mpr List.mem_cons_self)
  refine h.grow (by simp) (h.along.snoc hforwarded) ?_
  show (s.mesh.host.pending ++ []).Perm ((sessionKey, parsedIp) :: host.pending)
  rwa [List.append_nil]

theorem Inv.hostStep (h : s.Inv log) {e : HostEvent} {host : HostService} {out : List HostEntry}
    (hunforged : s.Unforged j (.mesh (.host e))) (hstep : s.mesh.host.step j e = some (host, out)) :
    Inv ⟨{ s.mesh with host }, s.calls ++ out.filterMap HostEntry.encryptCall?, replies⟩
      (log ++ s.meshEntries j (.host e)) := by
  have hhandles := HostService.step_handles hstep
  cases hhandles with
  | quiet _ _ _ hforwards hanswers hloses hpending hout =>
    have hcalls : out.filterMap HostEntry.encryptCall? = [] := by
      refine List.filterMap_eq_nil_iff.mpr fun entry hentry => ?_
      cases entry with
      | encrypted call => exact absurd hentry (hout call)
      | _ => rfl
    rw [hcalls, meshEntries, hforwards, hanswers, hloses]
    exact h.quiet hpending
  | opens _ packet sessionKey decrypted hopened hjobs =>
    have hfrom := h.encrypted ((unforged_some (openings_loopStep hopened)).mp hunforged)
    exact h.opens hopened hfrom hjobs
  | answers job respPayload currentTimeMillis _ clientIp clientPort sessionKey parsedIp hjob hjobs =>
    have hentries : s.meshEntries j (.host (.udpResponse job respPayload currentTimeMillis)) =
        [.answered sessionKey parsedIp respPayload] := by
      simp [meshEntries, HostService.forwards, HostService.answers, HostService.loses, hjob,
        HostJob.reply?]
    rw [hentries]
    exact h.answers hjob hjobs
  | loses job _ clientIp clientPort sessionKey parsedIp hjob hjobs =>
    have hentries : s.meshEntries j (.host (.udpLost job)) = [.lost sessionKey parsedIp] := by
      simp [meshEntries, HostService.forwards, HostService.answers, HostService.loses, hjob,
        HostJob.reply?]
    rw [hentries]
    exact h.loses hjob hjobs

theorem Inv.step (h : s.Inv log) {e : RelayEvent} {t : Relay} {out : List RelayEntry}
    (hunforged : s.Unforged j e) (hstep : s.step j e = some (t, out)) : t.Inv (log ++ out) := by
  cases e with
  | mesh e =>
    obtain ⟨⟨mesh, calls⟩, hmesh, heq⟩ := Option.map_eq_some_iff.mp hstep
    cases heq
    cases e with
    | host e =>
      rw [Mesh.step] at hmesh
      cases hhost : s.mesh.host.step j e with
      | none => simp [hhost] at hmesh
      | some r =>
        obtain ⟨host, entries⟩ := r
        simp only [hhost, Option.some.injEq, Prod.mk.injEq] at hmesh
        obtain ⟨rfl, rfl⟩ := hmesh
        exact h.hostStep hunforged hhost
    | connect pairCode =>
      obtain ⟨rfl, rfl⟩ := Prod.mk.inj (Option.some.inj hmesh)
      refine h.quiet ?_
      rw [Mesh.connect]
      split_ifs <;> rfl
    | sendPacket connection packetBytes =>
      rw [Mesh.step] at hmesh
      cases hconn : s.mesh.connections[connection]? with
      | none => simp [hconn] at hmesh
      | some conn =>
        by_cases hempty : packetBytes = []
        · simp only [hconn, if_pos hempty, Option.some.injEq, Prod.mk.injEq] at hmesh
          obtain ⟨rfl, rfl⟩ := hmesh
          simp only [meshEntries, hconn, if_pos hempty]
          exact h.quiet rfl
        · simp only [hconn, if_neg hempty, Option.some.injEq, Prod.mk.injEq] at hmesh
          obtain ⟨rfl, rfl⟩ := hmesh
          simp only [meshEntries, hconn, if_neg hempty]
          refine h.grow (fun call hcall => ?_) (h.along.snoc trivial) ?_
          · rw [List.mem_singleton.mp hcall]
            exact .read (List.mem_append_right _ (List.mem_singleton_self _))
          · simp [List.filterMap_cons, RelayEntry.forwarded?, RelayEntry.settled?]
  | inbound connection inPacket =>
    rw [Relay.step] at hstep
    cases hdelivered : s.delivered j connection inPacket with
    | none =>
      simp only [hdelivered, Option.some.injEq, Prod.mk.injEq] at hstep
      obtain ⟨rfl, rfl⟩ := hstep
      rwa [List.append_nil]
    | some x =>
      obtain ⟨sessionKey, decryptedPlaintext⟩ := x
      simp only [hdelivered, Option.some.injEq, Prod.mk.injEq] at hstep
      obtain ⟨rfl, rfl⟩ := hstep
      have hopens : s.openings j (.inbound connection inPacket) =
          some (sessionKey, decryptedPlaintext) := hdelivered
      have hfrom := h.encrypted ((unforged_some hopens).mp hunforged)
      have hgrow : Inv ⟨s.mesh, s.calls ++ [], s.replies⟩
          (log ++ [.tunWritten connection sessionKey decryptedPlaintext]) :=
        h.grow (by simp) (h.along.snoc hfrom)
          (by simp [List.filterMap_cons, RelayEntry.forwarded?, RelayEntry.settled?])
      rwa [List.append_nil] at hgrow

end Relay

/-- Everything that a client writes to its TUN device, and everything that the host
sends on, comes from packets that were read from one; and each packet that was sent
on is answered once, given up once, or still to be answered. -/
theorem packets_relayed (j : Jca) (t : Relay) (log : List RelayEntry)
    (h : TracedRun (Relay.step j) (Relay.Unforged j) (Relay.new, []) (t, log)) :
    Along Relay.Traced log ∧ (log.filterMap RelayEntry.forwarded?).Perm
      (log.filterMap RelayEntry.settled? ++ t.mesh.host.pending) := by
  have hinv : t.Inv log := TracedRun.invariant (P := Relay.Inv) h Relay.inv_new
    fun s log e t out hs hunforged hstep => hs.step hunforged hstep
  exact ⟨hinv.along, hinv.account⟩

namespace PacketRelay

/-- A UDP packet from 10.8.0.2:5353 to 1.1.1.1:53. -/
def query : Bytes :=
  [0x45, 0, 0, 29, 0, 0, 0x40, 0, 64, 17, 0, 0, 10, 8, 0, 2, 1, 1, 1, 1, 0x14, 0xE9, 0, 53, 0, 9, 0, 0, 7]

def parsedIp : ParsedPacket :=
  ⟨4, 17, ⟨[10, 8, 0, 2], rfl⟩, ⟨[1, 1, 1, 1], rfl⟩, 5353, 53, [7], query⟩

theorem asks_query : Asks query parsedIp where
  parses := rfl
  udp := rfl
  port := by decide

def key : FixedBytes 32 := codeKey Reference.jca PacketNonces.otp

def frame : Bytes := CryptoEngine.encryptPacket Reference.jca query key 1

/-- The client's own frame comes back to it. -/
def events : List RelayEvent :=
  [.mesh (.host (.startHost (some PacketNonces.otp) none)),
    .mesh (.host (.approvePeer (some PacketNonces.clientIp) (some 5000))),
    .mesh (.host (.runJob 0)), .mesh (.host (.runJob 0)), .mesh (.connect PacketNonces.otp),
    .mesh (.sendPacket 0 query), .mesh (.host (.receive ⟨PacketNonces.clientIp, 5000, frame⟩)),
    .mesh (.host .loopStep), .mesh (.host .loopStep), .inbound 0 frame]

def log : List RelayEntry :=
  [.tunRead 0 key query, .forwarded key parsedIp, .tunWritten 0 key query]

instance (j : Jca) (s : Relay) (e : RelayEvent) : Decidable (s.Unforged j e) :=
  inferInstanceAs (Decidable (∀ x ∈ s.openings j e, ∃ call ∈ s.calls,
    call.sessionKey = x.1 ∧ call.plaintext = x.2))

/-- A client writes to its TUN device what it has read there itself. -/
theorem packets_relayed_reflected : ∃ t : Relay, Along Relay.Traced log ∧
    (log.filterMap RelayEntry.forwarded?).Perm
      (log.filterMap RelayEntry.settled? ++ t.mesh.host.pending) := by
  have hrun : (runAll (Relay.step Reference.jca) (Relay.Unforged Reference.jca) Relay.new
      events).map Prod.snd = some log := by decide +kernel
  obtain ⟨t, hrun⟩ := TracedRun.of_log hrun
  exact ⟨t, packets_relayed Reference.jca t log hrun⟩

end PacketRelay

end AuraChain
