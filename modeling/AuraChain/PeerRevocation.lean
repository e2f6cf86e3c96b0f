import AuraChain.HostEffect
import AuraChain.PastLog

/-! Rejecting a peer. A peer stays able to pass the approval check as long as
any of its keys is in the map, or a packet or a coroutine that has yet to write
one is under way. -/

namespace AuraChain

/-- The keys under which the packets of an address pass. -/
def AdmitsIp (ip key : Text) : Prop := key = ip ∨ ∃ port, key = endpoint ip port

/-- No address reads like an endpoint of another one. -/
def ClashFree (addresses : Set Text) : Prop :=
  ∀ ip ∈ addresses, ∀ ip' ∈ addresses, ∀ port, ip ≠ endpoint ip' port

theorem endpoint_injective {ip ip' : Text} {port port' : Nat}
    (h : endpoint ip port = endpoint ip' port') : ip = ip' := by
  have hdigits : ∀ n, ':' ∉ Nat.toDigits 10 n := by
    intro n hn
    exact absurd (Nat.isDigit_of_mem_toDigits (by decide) (by decide) hn) (by decide)
  have hsplit : (endpoint ip port).splitOn ':' = (endpoint ip' port').splitOn ':' := by rw [h]
  rw [endpoint, endpoint, List.splitOn_append_cons_self, List.splitOn_append_cons_self,
    List.splitOn_eq_singleton (hdigits port), List.splitOn_eq_singleton (hdigits port')] at hsplit
  have hparts := (List.append_inj' hsplit rfl).1
  calc ip = [':'].intercalate (ip.splitOn ':') := (List.intercalate_splitOn ':').symm
    _ = [':'].intercalate (ip'.splitOn ':') := by rw [hparts]
    _ = ip' := List.intercalate_splitOn ':'

theorem admitsIp_unique {addresses : Set Text} (hclash : ClashFree addresses) {ip ip' key : Text}
    (hip : ip ∈ addresses) (hip' : ip' ∈ addresses) (h : AdmitsIp ip key) (h' : AdmitsIp ip' key) :
    ip = ip' := by
  rcases h with rfl | ⟨port, rfl⟩
  · rcases h' with rfl | ⟨port', he⟩
    · rfl
    · exact absurd he (hclash key hip ip' hip' port')
  · rcases h' with he | ⟨port', he⟩
    · exact absurd he.symm (hclash ip' hip' ip hip port)
    · exact endpoint_injective he

theorem clashFree_noColon : ClashFree {ip | ':' ∉ ip} := by
  rintro ip hip ip' - port rfl
  exact hip (by simp [endpoint])

def HostJob.peer : HostJob → Option Text
  | approveEndpoint ip _ | approveIp ip _ | rejectEndpoint ip _ | rejectIp ip _ => some ip
  | udpReply _ _ _ _ => none

def HostJob.approves : HostJob → Option Text
  | approveEndpoint ip _ | approveIp ip _ => some ip
  | _ => none

def HostEvent.Known (addresses : Set Text) : HostEvent → Prop
  | approvePeer clientIp _ | rejectPeer clientIp _ => ∀ ip, clientIp = some ip → ip ∈ addresses
  | receive packet => packet.clientIp ∈ addresses
  | _ => True

def ReceiveLoop.packet? : ReceiveLoop → Option Datagram
  | receiving => none
  | checkingIp packet | approved packet | processing packet => some packet

namespace HostService

/-- A packet or a coroutine of the address has yet to write a key. -/
def WillWrite (s : HostService) (ip : Text) : Prop :=
  (∃ packet, s.receiveLoop = .approved packet ∧ packet.clientIp = ip) ∨
    ∃ job ∈ s.jobs, job.approves = some ip

/-- A packet of the address passes the check, at once or later. -/
def MayPass (s : HostService) (ip : Text) : Prop :=
  (∃ key ∈ s.approvedClients, AdmitsIp ip key) ∨ s.WillWrite ip

/-- The last key of the address, but for the address itself, is gone. -/
structure NothingLeft (s : HostService) (ip : Text) : Prop where
  endpoints : ∀ port, endpoint ip port ∉ s.approvedClients
  writers : ¬ s.WillWrite ip

structure Within (addresses : Set Text) (s : HostService) : Prop where
  packet : ∀ packet, s.receiveLoop.packet? = some packet → packet.clientIp ∈ addresses
  jobs : ∀ job ∈ s.jobs, ∀ ip, job.peer = some ip → ip ∈ addresses

/-- A rejection takes out the last key of its peer. -/
def RejectsFully (s : HostService) : HostEvent → Prop
  | .runJob i => ∀ ip port, s.jobs[i]? = some (.rejectIp ip port) → s.NothingLeft ip
  | _ => True

variable {j : Jca} {s t : HostService} {e : HostEvent} {out log : List HostEntry} {ip key : Text}
  {packet : Datagram} {job : HostJob} {addresses : Set Text}

theorem Effect.keys (h : Effect j s e t out) (hkey : key ∈ t.approvedClients) :
    key ∈ s.approvedClients ∨ ∃ ip, AdmitsIp ip key ∧ s.WillWrite ip := by
  cases h with
  | start => exact absurd hkey (Finset.notMem_empty key)
  | record packet hloop =>
    rcases Finset.mem_insert.mp hkey with rfl | hkey
    · exact .inr ⟨packet.clientIp, .inr ⟨_, rfl⟩, .inl ⟨packet, hloop, rfl⟩⟩
    · exact .inl hkey
  | approveEndpoint i ip port hjob =>
    rcases Finset.mem_insert.mp hkey with rfl | hkey
    · exact .inr ⟨ip, .inr ⟨port, rfl⟩, .inr ⟨_, List.mem_of_getElem? hjob, rfl⟩⟩
    · exact .inl hkey
  | approveIp i ip port hjob =>
    rcases Finset.mem_insert.mp hkey with rfl | hkey
    · exact .inr ⟨key, .inl rfl, .inr ⟨_, List.mem_of_getElem? hjob, rfl⟩⟩
    · exact .inl hkey
  | rejectEndpoint i ip port hjob => exact .inl (Finset.mem_of_mem_erase hkey)
  | rejectIp i ip port hjob => exact .inl (Finset.mem_of_mem_erase hkey)
  | _ => exact .inl hkey

theorem Effect.approvedPacket (h : Effect j s e t out) (hloop : t.receiveLoop = .approved packet) :
    s.receiveLoop = .approved packet ∨ ∃ key ∈ s.approvedClients, AdmitsIp packet.clientIp key := by
  cases h with
  | endpointApproved packet' hrun hmem =>
    cases hloop
    exact .inr ⟨_, hmem, .inr ⟨_, rfl⟩⟩
  | ipApproved packet' hchecking hmem =>
    cases hloop
    exact .inr ⟨_, hmem, .inl rfl⟩
  | endpointUnknown | ipUnknown | record | process => cases hloop
  | _ => exact .inl hloop

theorem Effect.packets (h : Effect j s e t out) (hpacket : t.receiveLoop.packet? = some packet) :
    s.receiveLoop.packet? = some packet ∨ e = .receive packet ∧ s.isRunning = true := by
  cases h with
  | endpointApproved packet' hrun hmem =>
    cases hpacket
    exact .inr ⟨rfl, hrun⟩
  | endpointUnknown packet' hrun =>
    cases hpacket
    exact .inr ⟨rfl, hrun⟩
  | ipApproved packet' hloop hmem =>
    cases hpacket
    exact .inl (congrArg ReceiveLoop.packet? hloop)
  | record packet' hloop =>
    cases hpacket
    exact .inl (congrArg ReceiveLoop.packet? hloop)
  | ipUnknown | process => cases hpacket
  | _ => exact .inl hpacket

theorem Effect.jobs (h : Effect j s e t out) (hjob : job ∈ t.jobs) (hpeer : job.peer = some ip) :
    (∃ job' ∈ s.jobs, job'.peer = some ip ∧ job'.approves = job.approves) ∨
      (∃ clientPort port, e = .approvePeer (some ip) clientPort ∧ out = [.approvePeer ip port]) ∨
      ∃ clientPort, e = .rejectPeer (some ip) clientPort ∧ job.approves = none := by
  cases h with
  | approvePeer ip' clientPort port =>
    rcases List.mem_append.mp hjob with hjob | hjob
    · exact .inl ⟨job, hjob, hpeer, rfl⟩
    · obtain rfl := List.mem_singleton.mp hjob
      cases hpeer
      exact .inr (.inl ⟨clientPort, port, rfl, rfl⟩)
  | rejectPeer ip' clientPort port =>
    rcases List.mem_append.mp hjob with hjob | hjob
    · exact .inl ⟨job, hjob, hpeer, rfl⟩
    · obtain rfl := List.mem_singleton.mp hjob
      cases hpeer
      exact .inr (.inr ⟨clientPort, rfl, rfl⟩)
  | process packet hloop replies out hreplies hout =>
    rcases List.mem_append.mp hjob with hjob | hjob
    · exact .inl ⟨job, hjob, hpeer, rfl⟩
    · have hreply := hreplies job hjob
      cases job with
      | udpReply => cases hpeer
      | _ => cases hreply
  | approveEndpoint i ip' port hold =>
    rcases List.mem_or_eq_of_mem_set hjob with hjob | rfl
    · exact .inl ⟨job, hjob, hpeer, rfl⟩
    · exact .inl ⟨_, List.mem_of_getElem? hold, hpeer, rfl⟩
  | rejectEndpoint i ip' port hold =>
    rcases List.mem_or_eq_of_mem_set hjob with hjob | rfl
    · exact .inl ⟨job, hjob, hpeer, rfl⟩
    · exact .inl ⟨_, List.mem_of_getElem? hold, hpeer, rfl⟩
  | approveIp i ip' port hold => exact .inl ⟨job, List.mem_of_mem_eraseIdx hjob, hpeer, rfl⟩
  | rejectIp i ip' port hold => exact .inl ⟨job, List.mem_of_mem_eraseIdx hjob, hpeer, rfl⟩
  | reply e i out hout => exact .inl ⟨job, List.mem_of_mem_eraseIdx hjob, hpeer, rfl⟩
  | _ => exact .inl ⟨job, hjob, hpeer, rfl⟩

theorem peer_of_approves (h : job.approves = some ip) : job.peer = some ip := by
  cases job with
  | approveEndpoint | approveIp => exact h
  | _ => cases h

theorem Within.writer (hs : s.Within addresses) (h : s.WillWrite ip) : ip ∈ addresses := by
  rcases h with ⟨packet, hloop, rfl⟩ | ⟨job, hjob, happroves⟩
  · exact hs.packet packet (congrArg ReceiveLoop.packet? hloop)
  · exact hs.jobs job hjob ip (peer_of_approves happroves)

theorem Effect.within (h : Effect j s e t out) (hknown : e.Known addresses)
    (hs : s.Within addresses) : t.Within addresses where
  packet packet hpacket := by
    rcases h.packets hpacket with hold | ⟨rfl, -⟩
    · exact hs.packet packet hold
    · exact hknown
  jobs job hjob ip hpeer := by
    rcases h.jobs hjob hpeer with ⟨job', hjob', hpeer', -⟩ | ⟨_, _, rfl, -⟩ | ⟨_, rfl, -⟩
    · exact hs.jobs job' hjob' ip hpeer'
    · exact hknown ip rfl
    · exact hknown ip rfl

theorem Effect.mayPass (h : Effect j s e t out) (hclash : ClashFree addresses)
    (hs : s.Within addresses) (hip : ip ∈ addresses) (hno : ∀ port, .approvePeer ip port ∉ out)
    (hpass : t.MayPass ip) : s.MayPass ip := by
  rcases hpass with ⟨key, hkey, hadmits⟩ | ⟨packet, hloop, rfl⟩ | ⟨job, hjob, happroves⟩
  · rcases h.keys hkey with hold | ⟨ip', hadmits', hwrite⟩
    · exact .inl ⟨key, hold, hadmits⟩
    · have heq : ip' = ip := admitsIp_unique hclash (hs.writer hwrite) hip hadmits' hadmits
      exact .inr (heq ▸ hwrite)
  · rcases h.approvedPacket hloop with hold | hfound
    · exact .inr (.inl ⟨packet, hold, rfl⟩)
    · exact .inl hfound
  · rcases h.jobs hjob (peer_of_approves happroves) with
      ⟨job', hjob', -, hsame⟩ | ⟨_, port, -, rfl⟩ | ⟨_, -, hnone⟩
    · exact .inr (.inr ⟨job', hjob', hsame.trans happroves⟩)
    · exact absurd (List.mem_singleton_self _) (hno port)
    · rw [hnone] at happroves
      cases happroves

theorem mayPass_of_key {port : Nat}
    (h : endpoint ip port ∈ s.approvedClients ∨ ip ∈ s.approvedClients) : s.MayPass ip := by
  rcases h with h | h
  · exact .inl ⟨_, h, .inr ⟨port, rfl⟩⟩
  · exact .inl ⟨_, h, .inl rfl⟩

theorem NothingLeft.not_mayPass (h : s.NothingLeft ip) (i : Nat) :
    ¬ MayPass { s with approvedClients := s.approvedClients.erase ip
                       jobs := s.jobs.eraseIdx i } ip := by
  rintro (⟨key, hkey, hadmits⟩ | ⟨packet, hloop, rfl⟩ | ⟨job, hjob, happroves⟩)
  · obtain ⟨hne, hkey⟩ := Finset.mem_erase.mp hkey
    rcases hadmits with rfl | ⟨port, rfl⟩
    · exact hne rfl
    · exact h.endpoints port hkey
  · exact h.writers (.inl ⟨packet, hloop, rfl⟩)
  · exact h.writers (.inr ⟨job, List.mem_of_mem_eraseIdx hjob, happroves⟩)

end HostService

def CutOff (ip : Text) : List HostEntry → Prop :=
  Since (fun e => ∃ port, e = .rejected ip port) fun e => ∃ port, e = .approvePeer ip port

/-- Where each rejection takes out all that is left of the peer, no packet of it
passes the approval check before it is approved anew. -/
theorem rejected_peer_cut_off (j : Jca) (addresses : Set Text) (hclash : ClashFree addresses)
    (t : HostService) (log : List HostEntry)
    (h : TracedRun (HostService.step j) (fun s e => e.Known addresses ∧ s.RejectsFully e)
      (HostService.new, []) (t, log)) :
    Along (fun past e => ∀ ip port, CutOff ip past → e ≠ .passed ip port) log := by
  have hinv : t.Within addresses ∧ (∀ ip, CutOff ip log → ip ∈ addresses ∧ ¬ t.MayPass ip) ∧
      Along (fun past e => ∀ ip port, CutOff ip past → e ≠ .passed ip port) log := by
    refine TracedRun.invariant (P := fun s log => s.Within addresses ∧
      (∀ ip, CutOff ip log → ip ∈ addresses ∧ ¬ s.MayPass ip) ∧
      Along (fun past e => ∀ ip port, CutOff ip past → e ≠ .passed ip port) log) h ?_ ?_
    · exact ⟨⟨by simp [HostService.new, ReceiveLoop.packet?], by simp [HostService.new]⟩,
        fun ip hcut => absurd hcut not_since_nil, along_nil⟩
    · rintro s log e t out ⟨hwithin, hcut, halong⟩ ⟨hknown, hrejects⟩ hstep
      have heffect := HostService.step_effect hstep
      refine ⟨heffect.within hknown hwithin, fun ip hnow => ?_, halong.append ?_⟩
      · rcases Since.append_iff.mp hnow with hnew | ⟨hold, hno⟩
        · obtain ⟨_, hmem, port, rfl⟩ := hnew.start_mem
          obtain ⟨i, rfl, hjob, rfl⟩ := heffect.tells hmem
          exact ⟨hwithin.jobs _ (List.mem_of_getElem? hjob) ip rfl,
            (hrejects ip port hjob).not_mayPass i⟩
        · obtain ⟨hip, hnot⟩ := hcut ip hold
          refine ⟨hip, fun hpass => hnot (heffect.mayPass hclash hwithin hip ?_ hpass)⟩
          exact fun port hmem => hno _ hmem ⟨port, rfl⟩
      · rintro past e recent hsplit ip port hold rfl
        have hmem : .passed ip port ∈ out := by simp [hsplit]
        obtain ⟨hout, hkey⟩ := heffect.tells hmem
        have hpast : past = [] := past_eq_nil (hout.symm.trans hsplit) List.not_mem_nil
        rw [hpast, List.append_nil] at hold
        exact (hcut ip hold).2 (HostService.mayPass_of_key hkey)
  exact hinv.2.2

def portOf (ip key : Text) : Nat := Nat.ofDigitChars 10 (key.drop (ip.length + 1)) 0

theorem portOf_endpoint (ip : Text) (port : Nat) : portOf ip (endpoint ip port) = port := by
  have hdrop : (endpoint ip port).drop (ip.length + 1) = Nat.toDigits 10 port := by
    rw [endpoint, ← List.singleton_append, ← List.append_assoc]
    exact List.drop_left' (by simp)
  rw [portOf, hdrop, Nat.ofDigitChars_toDigits (by decide) (by decide)]

namespace HostService

def willWrite (s : HostService) (ip : Text) : Bool :=
  (match s.receiveLoop with
    | .approved packet => decide (packet.clientIp = ip)
    | _ => false) || s.jobs.any fun job => decide (job.approves = some ip)

theorem willWrite_iff (s : HostService) (ip : Text) : s.willWrite ip = true ↔ s.WillWrite ip := by
  rw [willWrite, WillWrite, Bool.or_eq_true, List.any_eq_true]
  cases s.receiveLoop with
  | approved packet => simp
  | _ => simp

theorem nothingLeft_iff (s : HostService) (ip : Text) : s.NothingLeft ip ↔
    (∀ key ∈ s.approvedClients, key ≠ endpoint ip (portOf ip key)) ∧ s.willWrite ip = false := by
  rw [← Bool.not_eq_true, willWrite_iff]
  constructor
  · exact fun h => ⟨fun key hkey he => h.endpoints _ (he ▸ hkey), h.writers⟩
  · rintro ⟨hkeys, hwriters⟩
    exact ⟨fun port hkey => hkeys _ hkey (by rw [portOf_endpoint]), hwriters⟩

instance (s : HostService) (ip : Text) : Decidable (s.NothingLeft ip) :=
  decidable_of_iff _ (s.nothingLeft_iff ip).symm

instance (s : HostService) (e : HostEvent) : Decidable (s.RejectsFully e) :=
  match e with
  | .runJob i =>
    match hjob : s.jobs[i]? with
    | some (.rejectIp ip port) =>
      decidable_of_iff (s.NothingLeft ip)
        ⟨fun h ip' port' he => by rw [hjob] at he; cases he; exact h, fun h => h ip port hjob⟩
    | none | some (.approveEndpoint _ _) | some (.approveIp _ _) | some (.rejectEndpoint _ _)
    | some (.udpReply _ _ _ _) => .isTrue fun ip port he => by rw [hjob] at he; cases he
  | .startHost _ _ | .updateOtp _ | .approvePeer _ _ | .rejectPeer _ _ | .receive _ | .loopStep
  | .udpResponse _ _ _ | .udpLost _ => .isTrue trivial

end HostService

instance (e : HostEvent) : Decidable (e.Known {ip | ':' ∉ ip}) :=
  match e with
  | .approvePeer none _ | .rejectPeer none _ => .isTrue (by rintro ip ⟨⟩)
  | .approvePeer (some ip) _ | .rejectPeer (some ip) _ =>
    decidable_of_iff (':' ∉ ip) ⟨fun h ip' he => Option.some.inj he ▸ h, fun h => h ip rfl⟩
  | .receive packet => inferInstanceAs (Decidable (':' ∉ packet.clientIp))
  | .startHost _ _ | .updateOtp _ | .loopStep | .runJob _ | .udpResponse _ _ _
  | .udpLost _ => .isTrue trivial

namespace PeerRevocation

def clientIp : Text := "10.0.0.2".toList

def pairRequest (clientPort : Nat) : HostEvent :=
  .receive ⟨clientIp, clientPort, Text.encode "AURA_PAIR_REQ:123456:Pixel".toList⟩

def packet (clientPort : Nat) : HostEvent := .receive ⟨clientIp, clientPort, [1, 2, 3]⟩

def events : List HostEvent :=
  [.startHost (some "123456".toList) none, pairRequest 5000,
    .approvePeer (some clientIp) (some 5000), .runJob 0, .runJob 0, packet 5000, .loopStep,
    .loopStep, .rejectPeer (some clientIp) (some 5000), .runJob 0, .runJob 0, packet 5000, .loopStep]

theorem rejected_peer_cut_off_run : ∃ t past, TracedRun (HostService.step Reference.jca)
      (fun s e => e.Known {ip | ':' ∉ ip} ∧ s.RejectsFully e) (HostService.new, [])
      (t, past ++ [.ignored clientIp 5000]) ∧
    Along (fun past e => ∀ ip port, CutOff ip past → e ≠ .passed ip port)
      (past ++ [.ignored clientIp 5000]) := by
  have hrun : (runAll (HostService.step Reference.jca)
      (fun s e => e.Known {ip | ':' ∉ ip} ∧ s.RejectsFully e) HostService.new events).map
        (fun r => r.2.getLast?) = some (some (.ignored clientIp 5000)) := by decide +kernel
  obtain ⟨⟨t, log⟩, hrun, hlast⟩ := TracedRun.of_map hrun
  obtain ⟨past, rfl⟩ := List.getLast?_eq_some_iff.mp hlast
  exact ⟨t, past, hrun, rejected_peer_cut_off Reference.jca _ clashFree_noColon t _ hrun⟩

/-- The same client sends from a second port before it is rejected. -/
def twoPorts : List HostEvent :=
  [.startHost (some "123456".toList) none, pairRequest 5000,
    .approvePeer (some clientIp) (some 5000), .runJob 0, .runJob 0, packet 6000, .loopStep,
    .loopStep, .loopStep, .rejectPeer (some clientIp) (some 5000), .runJob 0, .runJob 0, packet 6000]

theorem rejected_peer_passes : ¬ ∀ t log, TracedRun (HostService.step Reference.jca)
    (fun _ _ => True) (HostService.new, []) (t, log) →
    Along (fun past e => ∀ ip port, CutOff ip past → e ≠ .passed ip port) log := by
  intro hall
  have hrun : (runAll (HostService.step Reference.jca) (fun _ _ => True) HostService.new
      twoPorts).map (fun r => r.2.drop 9) = some [.rejected clientIp 5000,
        .sent clientIp 5000 userDeclined, .passed clientIp 6000] := by decide +kernel
  obtain ⟨⟨t, log⟩, hrun, hrecent⟩ := TracedRun.of_map hrun
  have hlog : log = (log.take 9 ++ [.rejected clientIp 5000, .sent clientIp 5000 userDeclined]) ++
      [.passed clientIp 6000] := by
    rw [List.append_assoc]
    exact (List.take_append_drop 9 log).symm.trans (congrArg (log.take 9 ++ ·) hrecent)
  refine hall t log hrun _ _ [] hlog clientIp 6000 ?_ rfl
  exact ⟨log.take 9, _, _, rfl, ⟨5000, rfl⟩, by simp⟩

end PeerRevocation

end AuraChain
