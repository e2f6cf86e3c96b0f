import AuraChain.PacketExchange
import AuraChain.PairingCodes

/-! A client that asks to be let in. It repeats its request up to six times and takes
the first answer that decides. The host tells it that its user has approved or declined,
or that the code is wrong. -/

namespace AuraChain

def approvedTag : Text := "AURA_PAIR_APPROVED:".toList
def rejectedTag : Text := "AURA_PAIR_REJECTED:".toList

/-- What an attempt ends with. The loop does not begin one when its scope is cancelled. -/
inductive Received
  | datagram (hostAddress : Text) (data : Bytes)
  | timeout
  | failed (message : Option Text)
  | cancelled

inductive PairResult
  | connected (hostAddress : Text)
  | rejected
  | noAnswer
  | failed (message : Option Text)
  deriving DecidableEq

namespace PairClient

def maxAttempts : Nat := 6

/-- The end that the client comes to, unless it has to ask again. -/
def verdict : Received → Option PairResult
  | .datagram hostAddress data =>
    let respText := Text.decode (data.take 2048)
    if approvedTag.isPrefixOf respText then some (.connected hostAddress)
    else if rejectedTag.isPrefixOf respText then some .rejected
    else none
  | .timeout => none
  | .failed message => some (.failed message)
  | .cancelled => some .noAnswer

/-- `none` while the client waits. -/
def awaitApproval : Nat → List Received → Option PairResult
  | 0, _ => some .noAnswer
  | _ + 1, [] => none
  | attempts + 1, r :: received => match verdict r with
    | some result => some result
    | none => awaitApproval attempts received

/-- The first that decides, if it comes in time. -/
theorem awaitApproval_eq_some_iff {attempts : Nat} {received : List Received} {result : PairResult} :
    awaitApproval attempts received = some result ↔
      (∃ before r after, received = before ++ r :: after ∧ before.length < attempts ∧
          (∀ x ∈ before, verdict x = none) ∧ verdict r = some result) ∨
        attempts ≤ received.length ∧ (∀ x ∈ received.take attempts, verdict x = none) ∧
          result = .noAnswer := by
  induction attempts generalizing received with
  | zero => simp [awaitApproval, eq_comm]
  | succ attempts ih =>
    cases received with
    | nil => simp [awaitApproval]
    | cons x received =>
      cases hx : verdict x with
      | some first =>
        simp only [awaitApproval, hx, Option.some.injEq]
        constructor
        · rintro rfl
          exact .inl ⟨[], x, received, rfl, Nat.succ_pos _, by simp, hx⟩
        · rintro (⟨before, r, after, hsplit, -, hbefore, hr⟩ | ⟨-, hnone, -⟩)
          · cases before with
            | nil =>
              cases hsplit
              exact Option.some.inj (hx.symm.trans hr)
            | cons y before =>
              obtain ⟨rfl, -⟩ := List.cons.inj hsplit
              have hnone := hbefore x List.mem_cons_self
              rw [hx] at hnone
              cases hnone
          · have hfirst := hnone x (by simp)
            rw [hx] at hfirst
            cases hfirst
      | none =>
        simp only [awaitApproval, hx]
        rw [ih]
        constructor
        · rintro (⟨before, r, after, rfl, hlt, hbefore, hr⟩ | ⟨hle, hnone, rfl⟩)
          · exact .inl ⟨x :: before, r, after, rfl, Nat.succ_lt_succ hlt,
              List.forall_mem_cons.mpr ⟨hx, hbefore⟩, hr⟩
          · refine .inr ⟨Nat.succ_le_succ hle, ?_, rfl⟩
            rw [List.take_succ_cons]
            exact List.forall_mem_cons.mpr ⟨hx, hnone⟩
        · rintro (⟨before, r, after, hsplit, hlt, hbefore, hr⟩ | ⟨hle, hnone, rfl⟩)
          · cases before with
            | nil =>
              cases hsplit
              rw [hx] at hr
              cases hr
            | cons y before =>
              obtain ⟨rfl, rfl⟩ := List.cons.inj hsplit
              exact .inl ⟨before, r, after, rfl, Nat.lt_of_succ_lt_succ hlt,
                (List.forall_mem_cons.mp hbefore).2, hr⟩
          · rw [List.take_succ_cons] at hnone
            exact .inr ⟨Nat.le_of_succ_le_succ hle, (List.forall_mem_cons.mp hnone).2, rfl⟩

theorem length_encode_le (text : Text) : (Text.encode text).length ≤ 4 * text.length := by
  induction text with
  | nil => simp [Text.encode]
  | cons ch text ih =>
    have hch : (String.utf8EncodeChar ch).length ≤ 4 := by
      rw [String.length_utf8EncodeChar]
      exact Char.utf8Size_le_four ch
    have hcons : Text.encode (ch :: text) = String.utf8EncodeChar ch ++ Text.encode text := rfl
    rw [hcons, List.length_append, List.length_cons]
    omega

/-- A tag that the host sends is what the client reads first. -/
theorem decode_tagged {tag : Text} (hascii : (tag.all fun ch => decide (ch.toNat < 0x80)) = true)
    (hlen : tag.length ≤ 512) (rest : Text) :
    ∃ text, Text.decode ((Text.encode (tag ++ rest)).take 2048) = tag ++ text := by
  have happend : Text.encode (tag ++ rest) = Text.encode tag ++ Text.encode rest := by
    simp [Text.encode]
  have hbytes : (Text.encode tag).length ≤ 2048 := by
    have hle := length_encode_le tag
    omega
  refine ⟨Text.decode ((Text.encode rest).take (2048 - (Text.encode tag).length)), ?_⟩
  rw [happend, List.take_append, List.take_of_length_le hbytes, Text.decode_ascii
    fun ch hch => of_decide_eq_true (List.all_eq_true.mp hascii ch hch)]

theorem verdict_approved (hostAddress otp : Text) :
    verdict (.datagram hostAddress (pairApproved otp)) = some (.connected hostAddress) := by
  have hascii : (approvedTag.all fun ch => decide (ch.toNat < 0x80)) = true := by decide +kernel
  obtain ⟨text, htext⟩ := decode_tagged hascii (by decide) (otp ++ ":HOST_OK".toList)
  have hdata : pairApproved otp = Text.encode (approvedTag ++ (otp ++ ":HOST_OK".toList)) :=
    congrArg Text.encode (List.append_assoc approvedTag otp _)
  have hprefix : approvedTag.isPrefixOf (Text.decode ((pairApproved otp).take 2048)) = true := by
    rw [hdata, htext]
    exact List.isPrefixOf_iff_prefix.mpr (List.prefix_append _ _)
  simp [verdict, hprefix]

theorem verdict_datagram {r : Received} {result : PairResult} (h : verdict r = some result)
    (hresult : result = .rejected ∨ ∃ hostAddress, result = .connected hostAddress) :
    ∃ hostAddress data, r = .datagram hostAddress data := by
  cases r with
  | datagram hostAddress data => exact ⟨hostAddress, data, rfl⟩
  | timeout => cases h
  | failed message =>
    cases h
    rcases hresult with hresult | ⟨hostAddress, hresult⟩ <;> cases hresult
  | cancelled =>
    cases h
    rcases hresult with hresult | ⟨hostAddress, hresult⟩ <;> cases hresult

theorem verdict_rejected (hostAddress : Text) {data : Bytes}
    (h : data = pairRejected ∨ data = userDeclined) :
    verdict (.datagram hostAddress data) = some .rejected := by
  obtain ⟨rest, hdata⟩ : ∃ rest, data = Text.encode (rejectedTag ++ rest) := by
    rcases h with rfl | rfl
    · exact ⟨"INVALID_CODE".toList, by decide +kernel⟩
    · exact ⟨"USER_DECLINED".toList, by decide +kernel⟩
  have hascii : (rejectedTag.all fun ch => decide (ch.toNat < 0x80)) = true := by decide +kernel
  obtain ⟨text, htext⟩ := decode_tagged hascii (by decide) rest
  have hrejected : rejectedTag.isPrefixOf (rejectedTag ++ text) = true :=
    List.isPrefixOf_iff_prefix.mpr (List.prefix_append _ _)
  have hnot : approvedTag.isPrefixOf (rejectedTag ++ text) = false := by
    have happroved : approvedTag = "AURA_PAIR_".toList ++ 'A' :: "PPROVED:".toList := by decide +kernel
    have htag : rejectedTag = "AURA_PAIR_".toList ++ 'R' :: "EJECTED:".toList := by decide +kernel
    rw [happroved, htag, List.append_assoc, ← Bool.not_eq_true, List.isPrefixOf_iff_prefix,
      List.prefix_append_right_inj, List.cons_append, List.cons_prefix_cons]
    exact fun hletter => absurd hletter.1 (by decide)
  rw [verdict, hdata, htext]
  simp [hnot, hrejected]

/-- A frame is no answer: its sequence number comes first. -/
theorem verdict_frame (j : Jca) (hostAddress : Text) (plaintext : Bytes) (sessionKey : FixedBytes 32)
    {seq : UInt64} (h : seq.toNat < 2 ^ 62) :
    verdict (.datagram hostAddress (CryptoEngine.encryptPacket j plaintext sessionKey seq)) = none := by
  obtain ⟨b, rest, hbytes, hb⟩ := toBeBytes_small h
  have hlt : b < 0x80 := by
    rw [UInt8.lt_iff_toNat_lt]
    exact hb.trans (by decide)
  have hletter : ∀ k < 64, ('A' == Char.ofNat k) = false := by decide +kernel
  have happroved : approvedTag = 'A' :: "URA_PAIR_APPROVED:".toList := by decide +kernel
  have hrejected : rejectedTag = 'A' :: "URA_PAIR_REJECTED:".toList := by decide +kernel
  rw [verdict, CryptoEngine.encryptPacket, hbytes, List.cons_append, List.take_succ_cons,
    Text.decode_cons hlt, happroved, hrejected]
  simp [List.isPrefixOf_cons_cons, hletter b.toNat hb]

end PairClient

namespace HostService

/-- The clock of the host has counted fewer than 2^62 milliseconds. -/
def ClockSmall (_ : HostService) : HostEvent → Prop
  | .udpResponse _ _ currentTimeMillis => currentTimeMillis.toNat < 2 ^ 62
  | _ => True

variable {j : Jca} {s t : HostService} {e : HostEvent} {out log : List HostEntry} {ip : Text}
  {port : Nat} {data : Bytes}

/-- What a host sends: an answer to a request for pairing, or a frame. -/
inductive Sends (j : Jca) (s : HostService) (ip : Text) (port : Nat) (out : List HostEntry) :
    Bytes → Prop
  | wrongCode : Sends j s ip port out pairRejected
  | approved (otp : Text) (hjob : .approveIp ip port ∈ s.jobs) :
      Sends j s ip port out (pairApproved otp)
  | rejected (hrejected : .rejected ip port ∈ out) : Sends j s ip port out userDeclined
  | frame (plaintext : Bytes) (sessionKey : FixedBytes 32) (seq : UInt64) (hseq : seq.toNat < 2 ^ 62) :
      Sends j s ip port out (CryptoEngine.encryptPacket j plaintext sessionKey seq)

theorem startHost_sends (hostOtp prevOtp : Option Text) :
    .sent ip port data ∉ (s.startHost hostOtp prevOtp).2 := by
  simp only [startHost, startHostServer]
  split_ifs <;> simp

theorem updateOtp_sends (hostOtp : Option Text) : .sent ip port data ∉ (s.updateOtp hostOtp).2 := by
  simp only [updateOtp]
  split_ifs <;> simp

theorem launchFor_sends {clientIp : Option Text} {clientPort : Option Int}
    {job : Text → Nat → HostJob} {entry : Text → Nat → HostEntry}
    (hentry : ∀ ip port ip' port' data, entry ip port ≠ .sent ip' port' data) :
    .sent ip port data ∉ (s.launchFor clientIp clientPort job entry).2 := by
  rcases s.launchFor_cases clientIp clientPort job entry with h | ⟨ip', port', -, h⟩
  · rw [h]
    exact List.not_mem_nil
  · rw [h]
    exact fun hmem => hentry ip' port' ip port data (List.mem_singleton.mp hmem).symm

theorem receive_sends {packet : Datagram} (hmem : .sent ip port data ∈ (s.receive packet).2) :
    data = pairRejected := by
  simp only [receive] at hmem
  split_ifs at hmem with htag hknown
  · rw [handlePairRequest] at hmem
    cases hread : readPairRequest (Text.decode packet.rawData) with
    | none => simp [hread] at hmem
    | some request =>
      simp only [hread] at hmem
      split_ifs at hmem
      · simp at hmem
      · simp only [List.mem_singleton, HostEntry.sent.injEq] at hmem
        exact hmem.2.2
  · simp at hmem
  · simp at hmem

theorem forward_sends {packet : Datagram} {sessionKey : FixedBytes 32} {decrypted : Bytes}
    (hmem : .sent ip port data ∈ (forward j packet sessionKey decrypted).2) :
    data = CryptoEngine.encryptPacket j synAck sessionKey 0 := by
  rw [forward] at hmem
  split_ifs at hmem
  · simp only [List.mem_cons, reduceCtorEq, HostEntry.sent.injEq, List.not_mem_nil, or_false,
      false_or] at hmem
    exact hmem.2.2
  · cases hparse : IpPacketParser.parse decrypted with
    | error error => simp [hparse] at hmem
    | ok parsed =>
      cases parsed with
      | none => simp [hparse] at hmem
      | some parsedIp =>
        simp only [hparse] at hmem
        split_ifs at hmem <;> simp at hmem

theorem loopStep_sends (h : s.loopStep j = some (t, out)) (hmem : .sent ip port data ∈ out) :
    ∃ sessionKey, data = CryptoEngine.encryptPacket j synAck sessionKey 0 := by
  rw [loopStep] at h
  cases hloop : s.receiveLoop with
  | receiving => simp [hloop] at h
  | checkingIp packet =>
    simp only [hloop] at h
    split_ifs at h
    all_goals
      obtain ⟨-, rfl⟩ := Prod.mk.inj (Option.some.inj h)
      simp at hmem
  | approved packet =>
    simp only [hloop] at h
    obtain ⟨-, rfl⟩ := Prod.mk.inj (Option.some.inj h)
    cases hmem
  | processing packet =>
    simp only [hloop, processPacket] at h
    obtain ⟨-, rfl⟩ := Prod.mk.inj (Option.some.inj h)
    have hrest := (List.mem_cons.mp hmem).resolve_left (by simp)
    split_ifs at hrest with hlen
    · cases hdecrypt : CryptoEngine.decryptPacket j packet.rawData (codeKey j s.effectiveOtp) with
      | none => simp [hdecrypt] at hrest
      | some decrypted =>
        simp only [hdecrypt] at hrest
        exact ⟨_, forward_sends hrest⟩
    · cases hrest

theorem runJob_sends {i : Nat} (h : s.runJob i = some (t, out)) (hmem : .sent ip port data ∈ out) :
    Sends j s ip port out data := by
  rw [runJob] at h
  cases hjob : s.jobs[i]? with
  | none => simp [hjob] at h
  | some job =>
    cases job with
    | approveEndpoint ip' port' =>
      simp only [hjob, Option.some.injEq, Prod.mk.injEq] at h
      obtain ⟨-, rfl⟩ := h
      cases hmem
    | approveIp ip' port' =>
      simp only [hjob, Option.some.injEq, Prod.mk.injEq] at h
      obtain ⟨-, rfl⟩ := h
      rcases List.mem_pair.mp hmem with hmem | hmem
      · cases hmem
      · cases hmem
        exact .approved _ (List.mem_of_getElem? hjob)
    | rejectEndpoint ip' port' =>
      simp only [hjob, Option.some.injEq, Prod.mk.injEq] at h
      obtain ⟨-, rfl⟩ := h
      cases hmem
    | rejectIp ip' port' =>
      simp only [hjob, Option.some.injEq, Prod.mk.injEq] at h
      obtain ⟨-, rfl⟩ := h
      rcases List.mem_pair.mp hmem with hmem | hmem
      · cases hmem
      · cases hmem
        exact .rejected List.mem_cons_self
    | udpReply ip' port' sessionKey parsedIp => simp [hjob] at h

theorem step_sends (h : s.step j e = some (t, out)) (hclock : ClockSmall s e)
    (hmem : .sent ip port data ∈ out) : Sends j s ip port out data := by
  cases e with
  | startHost hostOtp prevOtp =>
    have hout : (s.startHost hostOtp prevOtp).2 = out := (Prod.mk.inj (Option.some.inj h)).2
    rw [← hout] at hmem
    exact absurd hmem (startHost_sends hostOtp prevOtp)
  | updateOtp hostOtp =>
    have hout : (s.updateOtp hostOtp).2 = out := (Prod.mk.inj (Option.some.inj h)).2
    rw [← hout] at hmem
    exact absurd hmem (updateOtp_sends hostOtp)
  | approvePeer clientIp clientPort =>
    have hout : (s.approvePeer clientIp clientPort).2 = out := (Prod.mk.inj (Option.some.inj h)).2
    rw [← hout] at hmem
    exact absurd hmem (launchFor_sends fun _ _ _ _ _ => HostEntry.noConfusion)
  | rejectPeer clientIp clientPort =>
    have hout : (s.rejectPeer clientIp clientPort).2 = out := (Prod.mk.inj (Option.some.inj h)).2
    rw [← hout] at hmem
    exact absurd hmem (launchFor_sends fun _ _ _ _ _ => HostEntry.noConfusion)
  | receive packet =>
    rw [step] at h
    cases hrun : s.isRunning with
    | false => simp [hrun] at h
    | true =>
      cases hloop : s.receiveLoop with
      | receiving =>
        simp only [hrun, hloop, Option.some.injEq] at h
        have hreceived : .sent ip port data ∈ (s.receive packet).2 := by
          rw [h]
          exact hmem
        rw [receive_sends hreceived]
        exact .wrongCode
      | _ => simp [hrun, hloop] at h
  | loopStep =>
    obtain ⟨sessionKey, rfl⟩ := loopStep_sends h hmem
    exact .frame _ _ 0 (by decide)
  | runJob i => exact runJob_sends h hmem
  | udpResponse i respPayload currentTimeMillis =>
    have hresponse : s.udpResponse j i respPayload currentTimeMillis = some (t, out) := h
    rw [udpResponse] at hresponse
    cases hjob : s.jobs[i]? with
    | none => simp [hjob] at hresponse
    | some job =>
      cases job with
      | udpReply ip' port' sessionKey parsedIp =>
        simp only [hjob, Option.some.injEq, Prod.mk.injEq] at hresponse
        obtain ⟨-, rfl⟩ := hresponse
        rcases List.mem_pair.mp hmem with hmem | hmem
        · cases hmem
        · cases hmem
          exact .frame _ _ _ hclock
      | _ => simp [hjob] at hresponse
  | udpLost i =>
    have hlost : s.udpLost i = some (t, out) := h
    rw [udpLost] at hlost
    cases hjob : s.jobs[i]? with
    | none => simp [hjob] at hlost
    | some job =>
      cases job with
      | udpReply ip' port' sessionKey parsedIp =>
        simp only [hjob, Option.some.injEq, Prod.mk.injEq] at hlost
        obtain ⟨-, rfl⟩ := hlost
        cases hmem
      | _ => simp [hjob] at hlost

/-- What a client makes of a datagram from the host: it is let in only by the user. -/
def Consents (log : List HostEntry) (ip : Text) (port : Nat) (data : Bytes) : Prop :=
  ∀ hostAddress result, PairClient.verdict (.datagram hostAddress data) = some result →
    (result = .connected hostAddress ∧ ∃ port', .approvePeer ip port' ∈ log) ∨
      result = .rejected ∧ (.sent ip port pairRejected ∈ log ∨ .rejected ip port ∈ log)

structure Consented (s : HostService) (log : List HostEntry) : Prop where
  jobs : ∀ ip, ∀ job ∈ s.jobs, job.approves = some ip → ∃ port, .approvePeer ip port ∈ log
  sent : ∀ ip port data, .sent ip port data ∈ log → Consents log ip port data

theorem Consents.append (h : Consents log ip port data) (out : List HostEntry) :
    Consents (log ++ out) ip port data := by
  intro hostAddress result hresult
  rcases h hostAddress result hresult with
    ⟨hconnected, port', happroved⟩ | ⟨hrejected, hsent | hsent⟩
  · exact .inl ⟨hconnected, port', List.mem_append_left out happroved⟩
  · exact .inr ⟨hrejected, .inl (List.mem_append_left out hsent)⟩
  · exact .inr ⟨hrejected, .inr (List.mem_append_left out hsent)⟩

theorem Consented.sends (hs : s.Consented log) (h : Sends j s ip port out data)
    (hmem : .sent ip port data ∈ out) : Consents (log ++ out) ip port data := by
  intro hostAddress result hresult
  cases h with
  | wrongCode =>
    rw [PairClient.verdict_rejected hostAddress (.inl rfl)] at hresult
    exact .inr ⟨(Option.some.inj hresult).symm, .inl (List.mem_append_right log hmem)⟩
  | approved otp hjob =>
    rw [PairClient.verdict_approved] at hresult
    obtain ⟨port', happroved⟩ := hs.jobs ip _ hjob rfl
    exact .inl ⟨(Option.some.inj hresult).symm, port', List.mem_append_left out happroved⟩
  | rejected hrejected =>
    rw [PairClient.verdict_rejected hostAddress (.inr rfl)] at hresult
    exact .inr ⟨(Option.some.inj hresult).symm, .inr (List.mem_append_right log hrejected)⟩
  | frame plaintext sessionKey seq hseq =>
    rw [PairClient.verdict_frame j hostAddress plaintext sessionKey hseq] at hresult
    cases hresult

theorem Consented.step (hs : s.Consented log) (hclock : ClockSmall s e)
    (h : s.step j e = some (t, out)) : t.Consented (log ++ out) where
  jobs ip job hjob happroves := by
    rcases (step_effect h).jobs hjob (peer_of_approves happroves) with
      ⟨job', hjob', -, hsame⟩ | ⟨clientPort, port, -, rfl⟩ | ⟨clientPort, -, hnone⟩
    · obtain ⟨port, happroved⟩ := hs.jobs ip job' hjob' (hsame.trans happroves)
      exact ⟨port, List.mem_append_left out happroved⟩
    · exact ⟨port, List.mem_append_right log (List.mem_singleton_self _)⟩
    · rw [hnone] at happroves
      cases happroves
  sent ip port data hmem := by
    rcases List.mem_append.mp hmem with hmem | hmem
    · exact (hs.sent ip port data hmem).append out
    · exact hs.sends (step_sends h hclock hmem) hmem

theorem consented_run (h : TracedRun (HostService.step j) ClockSmall (HostService.new, []) (t, log)) :
    t.Consented log :=
  TracedRun.invariant (P := Consented) h ⟨by simp [new], by simp⟩
    fun _ _ _ _ _ hs hclock hstep => hs.step hclock hstep

end HostService

/-- A client that hears only its host is connected if the user of the host has let its
address in, and rejected if the code was wrong or the user has said so, frames deciding
nothing; and an approval connects it when it comes within the six attempts and nothing
has decided before. -/
theorem connects_with_consent (j : Jca) (t : HostService) (log : List HostEntry)
    (h : TracedRun (HostService.step j) HostService.ClockSmall (HostService.new, []) (t, log))
    (ip : Text) (port : Nat) (received : List Received)
    (hfrom : ∀ hostAddress data, .datagram hostAddress data ∈ received →
      .sent ip port data ∈ log) :
    (∀ hostAddress, PairClient.awaitApproval PairClient.maxAttempts received =
        some (.connected hostAddress) → ∃ port', .approvePeer ip port' ∈ log) ∧
      (PairClient.awaitApproval PairClient.maxAttempts received = some .rejected →
        .sent ip port pairRejected ∈ log ∨ .rejected ip port ∈ log) ∧
      (∀ hostAddress plaintext sessionKey (seq : UInt64), seq.toNat < 2 ^ 62 → PairClient.verdict
        (.datagram hostAddress (CryptoEngine.encryptPacket j plaintext sessionKey seq)) = none) ∧
      ∀ before hostAddress otp after,
        received = before ++ .datagram hostAddress (pairApproved otp) :: after →
        before.length < PairClient.maxAttempts → (∀ r ∈ before, PairClient.verdict r = none) →
        PairClient.awaitApproval PairClient.maxAttempts received = some (.connected hostAddress) := by
  have hconsented := HostService.consented_run h
  refine ⟨fun hostAddress hconnected => ?_, fun hrejected => ?_, fun hostAddress plaintext sessionKey
    seq hseq => PairClient.verdict_frame j hostAddress plaintext sessionKey hseq, ?_⟩
  · rcases PairClient.awaitApproval_eq_some_iff.mp hconnected with
      ⟨before, r, after, rfl, -, -, hr⟩ | ⟨-, -, hnone⟩
    · obtain ⟨address, data, rfl⟩ := PairClient.verdict_datagram hr (.inr ⟨hostAddress, rfl⟩)
      rcases hconsented.sent ip port data (hfrom address data (by simp)) address _ hr with
        ⟨-, happroved⟩ | ⟨hresult, -⟩
      · exact happroved
      · cases hresult
    · cases hnone
  · rcases PairClient.awaitApproval_eq_some_iff.mp hrejected with
      ⟨before, r, after, rfl, -, -, hr⟩ | ⟨-, -, hnone⟩
    · obtain ⟨hostAddress, data, rfl⟩ := PairClient.verdict_datagram hr (.inl rfl)
      rcases hconsented.sent ip port data (hfrom hostAddress data (by simp)) hostAddress _ hr with
        ⟨hresult, -⟩ | ⟨-, hsent⟩
      · cases hresult
      · exact hsent
    · cases hnone
  · rintro before hostAddress otp after rfl hlt hbefore
    exact PairClient.awaitApproval_eq_some_iff.mpr
      (.inl ⟨before, _, after, rfl, hlt, hbefore, PairClient.verdict_approved hostAddress otp⟩)

namespace PairingConsent

instance (s : HostService) (e : HostEvent) : Decidable (HostService.ClockSmall s e) :=
  match e with
  | .udpResponse _ _ currentTimeMillis => inferInstanceAs (Decidable (currentTimeMillis.toNat < 2 ^ 62))
  | .startHost .. | .updateOtp .. | .approvePeer .. | .rejectPeer .. | .receive .. | .loopStep
  | .runJob .. | .udpLost .. => .isTrue trivial

def hostAddress : Text := "192.168.43.1".toList

def received : List Received :=
  [.timeout, .datagram hostAddress (pairApproved PairingCodes.firstCode)]

theorem connects_with_consent_second :
    PairClient.awaitApproval PairClient.maxAttempts received = some (.connected hostAddress) ∧
      ∃ port', .approvePeer PeerRevocation.clientIp port' ∈ PairingCodes.pairedLog := by
  have hrun : (runAll (HostService.step Reference.jca) HostService.ClockSmall HostService.new
      PairingCodes.paired).map Prod.snd = some PairingCodes.pairedLog := by decide +kernel
  obtain ⟨t, hrun⟩ := TracedRun.of_log hrun
  have hfrom : ∀ address data, .datagram address data ∈ received →
      .sent PeerRevocation.clientIp 5000 data ∈ PairingCodes.pairedLog := by
    intro address data hmem
    rcases List.mem_pair.mp hmem with hmem | hmem
    · cases hmem
    · cases hmem
      simp [PairingCodes.pairedLog, PairingCodes.approvedLog]
  obtain ⟨hconsent, -, -, hconnects⟩ := connects_with_consent Reference.jca t _ hrun
    PeerRevocation.clientIp 5000 received hfrom
  have hconnected := hconnects [.timeout] hostAddress PairingCodes.firstCode [] rfl (by decide)
    (by simp [PairClient.verdict])
  exact ⟨hconnected, hconsent hostAddress hconnected⟩

end PairingConsent

end AuraChain
