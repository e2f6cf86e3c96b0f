import AuraChain.HostEffect
import AuraChain.LinkedChain

/-! The sequence numbers, and with them the IVs, of all packets that a host and
its clients encrypt. Every connection of a client counts from one; the host has
a constant for the answer to a SYN, and its clock for the answers from outside. -/

namespace AuraChain

structure ClientConnection where
  sessionKey : FixedBytes 32
  seq : UInt64

structure Mesh where
  host : HostService
  connections : List ClientConnection

inductive MeshEvent
  | host (e : HostEvent)
  /-- A client, perhaps one that was connected before, is let in with its code. -/
  | connect (pairCode : Text)
  | sendPacket (connection : Nat) (packetBytes : Bytes)

def HostEntry.encryptCall? : HostEntry → Option EncryptCall
  | encrypted call => some call
  | _ => none

namespace Mesh

def new : Mesh := ⟨HostService.new, []⟩

def connect (j : Jca) (s : Mesh) (pairCode : Text) : Mesh :=
  if Text.length16 pairCode < 5 then s
  else { s with connections := s.connections ++ [⟨codeKey j pairCode, 1⟩] }

def step (j : Jca) (s : Mesh) : MeshEvent → Option (Mesh × List EncryptCall)
  | .host e =>
    match s.host.step j e with
    | some (host, out) => some ({ s with host }, out.filterMap HostEntry.encryptCall?)
    | none => none
  | .connect pairCode => some (s.connect j pairCode, [])
  | .sendPacket i packetBytes =>
    match s.connections[i]? with
    | some conn =>
      if packetBytes = [] then some (s, [])
      else some ({ s with connections := s.connections.set i { conn with seq := conn.seq + 1 } },
        [⟨.client i, packetBytes, conn.sessionKey, conn.seq⟩])
    | none => none

end Mesh

def callsUnder (key : FixedBytes 32) (log : List EncryptCall) : List EncryptCall :=
  log.filter fun call => call.sessionKey = key

def callsOf (i : Nat) (log : List EncryptCall) : List EncryptCall :=
  log.filter fun call => call.source = .client i

def clientCalls (calls : List EncryptCall) : List EncryptCall :=
  calls.filter fun call => call.source.hostSeq?.isNone

def hostSeqs (calls : List EncryptCall) : List UInt64 :=
  calls.filterMap fun call => call.source.hostSeq?

/-- One connection sends, and fewer packets than there are numbers; the numbers
that the host takes are different, and beyond those of the connection. -/
structure NoncesApart (calls : List EncryptCall) : Prop where
  oneConnection : ∀ call ∈ calls, ∀ call' ∈ calls, ∀ i i', call.source = .client i →
    call'.source = .client i' → i = i'
  few : (clientCalls calls).length ≤ 2 ^ 64
  hostSeqs : (hostSeqs calls).Nodup
  apart : ∀ n ∈ AuraChain.hostSeqs calls, (clientCalls calls).length ≤ (n - 1).toNat

/-- The numbers of a connection that has sent `n` packets. -/
def countUp (n : Nat) : List UInt64 := (List.range n).map fun k => 1 + UInt64.ofNat k

theorem countUp_succ (n : Nat) : countUp (n + 1) = countUp n ++ [1 + UInt64.ofNat n] := by
  simp [countUp, List.range_succ]

theorem one_add_ofNat_inj {k l : Nat} (hk : k < 2 ^ 64) (hl : l < 2 ^ 64) :
    1 + UInt64.ofNat k = 1 + UInt64.ofNat l ↔ k = l := by
  constructor
  · intro h
    have hof : UInt64.ofNat k = UInt64.ofNat l := add_left_cancel h
    have hnat := congrArg UInt64.toNat hof
    rwa [UInt64.toNat_ofNat_of_lt' hk, UInt64.toNat_ofNat_of_lt' hl] at hnat
  · rintro rfl
    rfl

theorem countUp_nodup_iff (n : Nat) : (countUp n).Nodup ↔ n ≤ 2 ^ 64 := by
  rw [countUp, List.nodup_map_iff_inj_on List.nodup_range]
  constructor
  · intro hinj
    by_contra hmany
    have hwrap : 1 + UInt64.ofNat 0 = 1 + UInt64.ofNat (2 ^ 64) := by decide
    have hzero := hinj 0 (List.mem_range.mpr (by omega)) (2 ^ 64) (List.mem_range.mpr (by omega))
      hwrap
    omega
  · intro hfew k hk l hl h
    have hk := List.mem_range.mp hk
    have hl := List.mem_range.mp hl
    exact (one_add_ofNat_inj (by omega) (by omega)).mp h

theorem mem_countUp_iff {n : Nat} (hn : n ≤ 2 ^ 64) (x : UInt64) :
    x ∈ countUp n ↔ (x - 1).toNat < n := by
  rw [countUp, List.mem_map]
  constructor
  · rintro ⟨k, hk, rfl⟩
    have hk := List.mem_range.mp hk
    have hfits : k < 2 ^ 64 := by omega
    have hof : 1 + UInt64.ofNat k - 1 = UInt64.ofNat k := add_sub_cancel_left 1 _
    rwa [hof, UInt64.toNat_ofNat_of_lt' hfits]
  · intro hlt
    refine ⟨(x - 1).toNat, List.mem_range.mpr hlt, ?_⟩
    rw [UInt64.ofNat_toNat]
    exact add_sub_cancel 1 x

namespace Mesh

structure Counted (s : Mesh) (log : List EncryptCall) : Prop where
  seqs : ∀ i, (callsOf i log).map EncryptCall.seq = countUp (callsOf i log).length
  next : ∀ i conn, s.connections[i]? = some conn →
    conn.seq = 1 + UInt64.ofNat (callsOf i log).length
  key : ∀ i conn, s.connections[i]? = some conn → ∀ call ∈ callsOf i log,
    call.sessionKey = conn.sessionKey
  known : ∀ i, callsOf i log ≠ [] → i < s.connections.length
  host : ∀ call ∈ log, ∀ n, call.source.hostSeq? = some n → call.seq = n

theorem counted_new : Counted new [] where
  seqs i := rfl
  next i conn h := by simp [new] at h
  key i conn h := by simp [new] at h
  known i h := absurd rfl h
  host call h := by cases h

theorem callsOf_append (i : Nat) (log out : List EncryptCall) :
    callsOf i (log ++ out) = callsOf i log ++ callsOf i out := List.filter_append ..

theorem encryptCall_host {j : Jca} {s t : HostService} {e : HostEvent} {out : List HostEntry}
    (h : s.step j e = some (t, out)) {call : EncryptCall}
    (hmem : call ∈ out.filterMap HostEntry.encryptCall?) :
    call.source.hostSeq? = some call.seq := by
  obtain ⟨entry, hentry, hcall⟩ := List.mem_filterMap.mp hmem
  obtain rfl : entry = .encrypted call := by
    cases entry with
    | encrypted call' =>
      cases hcall
      rfl
    | _ => cases hcall
  exact (HostService.step_effect h).tells hentry

theorem callsOf_host {out : List EncryptCall}
    (hout : ∀ call ∈ out, call.source.hostSeq? = some call.seq) (i : Nat) : callsOf i out = [] := by
  refine List.filter_eq_nil_iff.mpr fun call hcall hsource => ?_
  have hseq := hout call hcall
  rw [of_decide_eq_true hsource] at hseq
  cases hseq

variable {j : Jca} {s t : Mesh} {log : List EncryptCall}

theorem Counted.host_step (hs : s.Counted log) {host : HostService} {out : List EncryptCall}
    (hout : ∀ call ∈ out, call.source.hostSeq? = some call.seq) :
    Counted { s with host } (log ++ out) := by
  have hsame : ∀ i, callsOf i (log ++ out) = callsOf i log := by
    intro i
    rw [callsOf_append, callsOf_host hout, List.append_nil]
  refine ⟨fun i => ?_, fun i conn hi => ?_, fun i conn hi => ?_, fun i hne => ?_, ?_⟩
  · rw [hsame]
    exact hs.seqs i
  · rw [hsame]
    exact hs.next i conn hi
  · rw [hsame]
    exact hs.key i conn hi
  · rw [hsame] at hne
    exact hs.known i hne
  · intro call hcall n hn
    rcases List.mem_append.mp hcall with hcall | hcall
    · exact hs.host call hcall n hn
    · exact Option.some.inj ((hout call hcall).symm.trans hn)

theorem Counted.connect (hs : s.Counted log) (pairCode : Text) : (s.connect j pairCode).Counted log := by
  rw [Mesh.connect]
  split_ifs with hshort
  · exact hs
  · have hnew : callsOf s.connections.length log = [] := by
      by_contra hne
      exact absurd (hs.known _ hne) (Nat.lt_irrefl _)
    refine ⟨hs.seqs, fun i conn hi => ?_, fun i conn hi => ?_, fun i hne => ?_, hs.host⟩
    · rcases LinkedChain.getElem?_concat_iff.mp hi with hi | ⟨rfl, rfl⟩
      · exact hs.next i conn hi
      · rw [hnew]
        rfl
    · rcases LinkedChain.getElem?_concat_iff.mp hi with hi | ⟨rfl, rfl⟩
      · exact hs.key i conn hi
      · rw [hnew]
        simp
    · have hlt := hs.known i hne
      simp only [List.length_append, List.length_singleton]
      omega

theorem callsOf_client_self {i : Nat} {call : EncryptCall} (h : call.source = .client i) :
    callsOf i (log ++ [call]) = callsOf i log ++ [call] := by
  rw [callsOf_append]
  simp [callsOf, h]

theorem callsOf_client_of_ne {i k : Nat} {call : EncryptCall} (h : call.source = .client i)
    (hne : i ≠ k) : callsOf k (log ++ [call]) = callsOf k log := by
  rw [callsOf_append]
  simp [callsOf, h, hne]

theorem Counted.send (hs : s.Counted log) {i : Nat} {conn : ClientConnection}
    (hi : s.connections[i]? = some conn) (packetBytes : Bytes) :
    Counted { s with connections := s.connections.set i { conn with seq := conn.seq + 1 } }
      (log ++ [⟨.client i, packetBytes, conn.sessionKey, conn.seq⟩]) := by
  have hlt : i < s.connections.length := (List.getElem?_eq_some_iff.mp hi).1
  refine ⟨fun k => ?_, fun k conn' hk => ?_, fun k conn' hk => ?_, fun k hne => ?_, ?_⟩
  · by_cases hik : i = k
    · subst hik
      rw [callsOf_client_self rfl, List.map_append, hs.seqs, List.length_append,
        List.length_singleton, countUp_succ, List.map_singleton, hs.next i conn hi]
    · rw [callsOf_client_of_ne rfl hik]
      exact hs.seqs k
  · by_cases hik : i = k
    · subst hik
      rw [List.getElem?_set_self hlt] at hk
      cases hk
      rw [callsOf_client_self rfl, List.length_append, List.length_singleton, hs.next i conn hi]
      simp [add_assoc]
    · rw [List.getElem?_set_ne hik] at hk
      rw [callsOf_client_of_ne rfl hik]
      exact hs.next k conn' hk
  · by_cases hik : i = k
    · subst hik
      rw [List.getElem?_set_self hlt] at hk
      cases hk
      intro call hcall
      rw [callsOf_client_self rfl] at hcall
      rcases List.mem_append.mp hcall with hcall | hcall
      · exact hs.key i conn hi call hcall
      · rw [List.mem_singleton.mp hcall]
    · rw [List.getElem?_set_ne hik] at hk
      rw [callsOf_client_of_ne rfl hik]
      exact hs.key k conn' hk
  · rw [List.length_set]
    by_cases hik : i = k
    · exact hik ▸ hlt
    · rw [callsOf_client_of_ne rfl hik] at hne
      exact hs.known k hne
  · intro call hcall n hn
    rcases List.mem_append.mp hcall with hcall | hcall
    · exact hs.host call hcall n hn
    · rw [List.mem_singleton.mp hcall] at hn
      cases hn

theorem counted_run (h : TracedRun (Mesh.step j) (fun _ _ => True) (Mesh.new, []) (t, log)) :
    t.Counted log := by
  refine TracedRun.invariant (P := Counted) h counted_new ?_
  intro s log e t out hs _ hstep
  cases e with
  | host e =>
    rw [Mesh.step] at hstep
    cases hhost : s.host.step j e with
    | none => simp [hhost] at hstep
    | some r =>
      obtain ⟨host, entries⟩ := r
      simp only [hhost, Option.some.injEq, Prod.mk.injEq] at hstep
      obtain ⟨rfl, rfl⟩ := hstep
      exact hs.host_step fun call hcall => encryptCall_host hhost hcall
  | connect pairCode =>
    obtain ⟨rfl, rfl⟩ := Prod.mk.inj (Option.some.inj hstep)
    rw [List.append_nil]
    exact hs.connect pairCode
  | sendPacket i packetBytes =>
    rw [Mesh.step] at hstep
    cases hi : s.connections[i]? with
    | none => simp [hi] at hstep
    | some conn =>
      by_cases hempty : packetBytes = []
      · simp only [hi, if_pos hempty, Option.some.injEq, Prod.mk.injEq] at hstep
        obtain ⟨rfl, rfl⟩ := hstep
        rwa [List.append_nil]
      · simp only [hi, if_neg hempty, Option.some.injEq, Prod.mk.injEq] at hstep
        obtain ⟨rfl, rfl⟩ := hstep
        exact hs.send hi packetBytes

end Mesh

theorem hostSeq?_eq_none {source : SeqSource} :
    source.hostSeq? = none ↔ ∃ i, source = .client i := by
  cases source <;> simp [SeqSource.hostSeq?]

theorem seqs_perm {calls : List EncryptCall}
    (hhost : ∀ call ∈ calls, ∀ n, call.source.hostSeq? = some n → call.seq = n) :
    (calls.map EncryptCall.seq).Perm
      ((clientCalls calls).map EncryptCall.seq ++ hostSeqs calls) := by
  induction calls with
  | nil => exact .nil
  | cons call calls ih =>
    obtain ⟨hcall, hcalls⟩ := List.forall_mem_cons.mp hhost
    have hrest := ih hcalls
    cases hseq : call.source.hostSeq? with
    | none =>
      have hclient : clientCalls (call :: calls) = call :: clientCalls calls := by
        simp [clientCalls, hseq]
      have hhosts : hostSeqs (call :: calls) = hostSeqs calls := by simp [hostSeqs, hseq]
      rw [hclient, hhosts]
      exact hrest.cons _
    | some n =>
      have hclient : clientCalls (call :: calls) = clientCalls calls := by
        simp [clientCalls, hseq]
      have hhosts : hostSeqs (call :: calls) = n :: hostSeqs calls := by simp [hostSeqs, hseq]
      rw [hclient, hhosts, List.map_cons, hcall n hseq]
      exact (hrest.cons n).trans List.perm_middle.symm

section counted

variable {s : Mesh} {log : List EncryptCall} {key : FixedBytes 32} {call : EncryptCall} {i : Nat}

theorem mem_callsOf : call ∈ callsOf i log ↔ call ∈ log ∧ call.source = .client i := by
  simp [callsOf]

theorem mem_callsUnder : call ∈ callsUnder key log ↔ call ∈ log ∧ call.sessionKey = key := by
  simp [callsUnder]

theorem callsOf_callsUnder (hs : s.Counted log) (hcall : call ∈ callsUnder key log)
    (hsource : call.source = .client i) : callsOf i (callsUnder key log) = callsOf i log := by
  obtain ⟨hmem, hkey⟩ := mem_callsUnder.mp hcall
  have hof : call ∈ callsOf i log := mem_callsOf.mpr ⟨hmem, hsource⟩
  obtain ⟨conn, hconn⟩ : ∃ conn, s.connections[i]? = some conn :=
    ⟨_, List.getElem?_eq_getElem (hs.known i (List.ne_nil_of_mem hof))⟩
  rw [callsOf, callsUnder, List.filter_filter, callsOf]
  refine List.filter_congr fun call' hcall' => ?_
  by_cases hsource' : call'.source = .client i
  · have hkey' := hs.key i conn hconn call' (mem_callsOf.mpr ⟨hcall', hsource'⟩)
    rw [hs.key i conn hconn call hof] at hkey
    simp [hsource', hkey', hkey]
  · simp [hsource']

theorem first_seq (hs : s.Counted log) (hcall : call ∈ callsUnder key log)
    (hsource : call.source = .client i) :
    ∃ call' ∈ callsUnder key log, call'.source = .client i ∧ call'.seq = 1 := by
  have hof : call ∈ callsOf i log := mem_callsOf.mpr ⟨(mem_callsUnder.mp hcall).1, hsource⟩
  have hone : (1 : UInt64) ∈ (callsOf i log).map EncryptCall.seq := by
    rw [hs.seqs i, countUp]
    exact List.mem_map.mpr ⟨0, List.mem_range.mpr (List.length_pos_of_mem hof), rfl⟩
  obtain ⟨call', hcall', hseq⟩ := List.mem_map.mp hone
  rw [← callsOf_callsUnder hs hcall hsource] at hcall'
  obtain ⟨hunder, hsource'⟩ := mem_callsOf.mp hcall'
  exact ⟨call', hunder, hsource', hseq⟩

theorem oneConnection_of_nodup (hs : s.Counted log)
    (hnodup : ((callsUnder key log).map EncryptCall.seq).Nodup) :
    ∀ call ∈ callsUnder key log, ∀ call' ∈ callsUnder key log, ∀ i i', call.source = .client i →
      call'.source = .client i' → i = i' := by
  intro call hcall call' hcall' i i' hsource hsource'
  obtain ⟨first, hfirst, hof, hseq⟩ := first_seq hs hcall hsource
  obtain ⟨first', hfirst', hof', hseq'⟩ := first_seq hs hcall' hsource'
  have heq := List.inj_on_of_nodup_map hnodup hfirst hfirst' (hseq.trans hseq'.symm)
  rw [heq, hof'] at hof
  exact (SeqSource.client.inj hof).symm

theorem clientSeqs_eq (hs : s.Counted log)
    (hone : ∀ call ∈ callsUnder key log, ∀ call' ∈ callsUnder key log, ∀ i i',
      call.source = .client i → call'.source = .client i' → i = i') :
    (clientCalls (callsUnder key log)).map EncryptCall.seq =
      countUp (clientCalls (callsUnder key log)).length := by
  cases hcalls : clientCalls (callsUnder key log) with
  | nil => rfl
  | cons call calls =>
    have hmem : call ∈ clientCalls (callsUnder key log) := by
      rw [hcalls]
      exact List.mem_cons_self
    obtain ⟨hcall, hnone⟩ := List.mem_filter.mp hmem
    obtain ⟨i, hsource⟩ := hostSeq?_eq_none.mp (Option.isNone_iff_eq_none.mp hnone)
    have hfilter : clientCalls (callsUnder key log) = callsOf i log := by
      rw [← callsOf_callsUnder hs hcall hsource]
      refine List.filter_congr fun call' hcall' => ?_
      cases hsource' : call'.source with
      | client i' =>
        rw [hone call hcall call' hcall' i i' hsource hsource']
        simp [SeqSource.hostSeq?]
      | _ => simp [SeqSource.hostSeq?]
    rw [← hcalls, hfilter]
    exact hs.seqs i

end counted

/-- No number is taken twice under a key exactly if one connection sends under it
and the host's numbers stay clear of the connection's and of each other. -/
theorem packet_seqs_distinct_iff (j : Jca) (otp : Text) (t : Mesh) (log : List EncryptCall)
    (h : TracedRun (Mesh.step j) (fun _ _ => True) (Mesh.new, []) (t, log)) :
    ((callsUnder (codeKey j otp) log).map EncryptCall.seq).Nodup ↔
      NoncesApart (callsUnder (codeKey j otp) log) := by
  have hs := Mesh.counted_run h
  have hhost : ∀ call ∈ callsUnder (codeKey j otp) log, ∀ n, call.source.hostSeq? = some n →
      call.seq = n := fun call hcall => hs.host call (mem_callsUnder.mp hcall).1
  have hperm := seqs_perm hhost
  constructor
  · intro hnodup
    have hone := oneConnection_of_nodup hs hnodup
    obtain ⟨hclients, hhosts, hdisjoint⟩ := List.nodup_append.mp (hperm.nodup_iff.mp hnodup)
    rw [clientSeqs_eq hs hone] at hclients hdisjoint
    have hfew := (countUp_nodup_iff _).mp hclients
    refine ⟨hone, hfew, hhosts, fun n hn => ?_⟩
    by_contra hlt
    exact hdisjoint n ((mem_countUp_iff hfew n).mpr (by omega)) n hn rfl
  · intro hapart
    refine hperm.nodup_iff.mpr (List.nodup_append.mpr ?_)
    rw [clientSeqs_eq hs hapart.oneConnection]
    refine ⟨(countUp_nodup_iff _).mpr hapart.few, hapart.hostSeqs, ?_⟩
    rintro n hn m hm rfl
    have hlt := (mem_countUp_iff hapart.few n).mp hn
    have hle := hapart.apart n hm
    omega

theorem ivs_nodup_iff (calls : List EncryptCall) :
    (calls.map fun call => CryptoEngine.packetIv call.seq).Nodup ↔
      (calls.map EncryptCall.seq).Nodup := by
  rw [← List.nodup_map_iff CryptoEngine.packetIv_injective, List.map_map]
  rfl

namespace PacketNonces

def otp : Text := "123456".toList

def clientIp : Text := "10.0.0.2".toList

def synPacket : Bytes :=
  CryptoEngine.encryptPacket Reference.jca (Text.encode "AURA_SYN:".toList)
    (codeKey Reference.jca otp) 1

def events : List MeshEvent :=
  [.host (.startHost (some otp) none), .host (.approvePeer (some clientIp) (some 5000)),
    .host (.runJob 0), .host (.runJob 0), .connect otp, .sendPacket 0 [69], .sendPacket 0 [70],
    .host (.receive ⟨clientIp, 5000, synPacket⟩), .host .loopStep, .host .loopStep]

def calls : List EncryptCall :=
  [⟨.client 0, [69], codeKey Reference.jca otp, 1⟩, ⟨.client 0, [70], codeKey Reference.jca otp, 2⟩,
    ⟨.synAck, synAck, codeKey Reference.jca otp, 0⟩]

theorem packet_seqs_distinct_iff_run :
    ((callsUnder (codeKey Reference.jca otp) calls).map EncryptCall.seq).Nodup := by
  have hrun : (runAll (Mesh.step Reference.jca) (fun _ _ => True) Mesh.new events).map Prod.snd =
      some calls := by decide +kernel
  obtain ⟨t, hrun⟩ := TracedRun.of_log hrun
  have hunder : callsUnder (codeKey Reference.jca otp) calls = calls := by decide +kernel
  refine (packet_seqs_distinct_iff Reference.jca otp t calls hrun).mpr ?_
  have hclients : (clientCalls calls).length = 2 := by decide +kernel
  have hhosts : hostSeqs calls = [0] := by decide +kernel
  have hlast : ((0 : UInt64) - 1).toNat = 2 ^ 64 - 1 := by decide
  have hzero : ∀ call ∈ calls, ∀ i, call.source = .client i → i = 0 := by
    intro call hcall i hi
    simp only [calls, List.mem_cons, List.not_mem_nil, or_false] at hcall
    rcases hcall with rfl | rfl | rfl
    · exact (SeqSource.client.inj hi).symm
    · exact (SeqSource.client.inj hi).symm
    · cases hi
  rw [hunder]
  refine ⟨fun call hcall call' hcall' i i' hi hi' => ?_, by omega, by rw [hhosts]; decide,
    fun n hn => ?_⟩
  · rw [hzero call hcall i hi, hzero call' hcall' i' hi']
  · rw [hhosts] at hn
    rw [List.mem_singleton.mp hn, hclients, hlast]
    omega

/-- A client asks to be let in, the user approves it, and it connects. -/
def pairing : List MeshEvent :=
  [.host (.receive ⟨clientIp, 5000, Text.encode "AURA_PAIR_REQ:123456:Pixel".toList⟩),
    .host (.approvePeer (some clientIp) (some 5000)), .host (.runJob 0), .host (.runJob 0),
    .connect otp]

/-- The client connects again with the same code. -/
theorem reconnect_repeats_seq : ¬ ∀ t log,
    TracedRun (Mesh.step Reference.jca) (fun _ _ => True) (Mesh.new, []) (t, log) →
    ((callsUnder (codeKey Reference.jca otp) log).map EncryptCall.seq).Nodup := by
  intro hall
  have hrun : (runAll (Mesh.step Reference.jca) (fun _ _ => True) Mesh.new
      (.host (.startHost (some otp) none) :: pairing ++ .sendPacket 0 [69] ::
        pairing ++ [.sendPacket 1 [69]])).map
        (fun r => (callsUnder (codeKey Reference.jca otp) r.2).map EncryptCall.seq) =
      some [1, 1] := by decide +kernel
  obtain ⟨⟨t, log⟩, hrun, hseqs⟩ := TracedRun.of_map hrun
  have hnodup := hall t log hrun
  rw [hseqs] at hnodup
  exact absurd hnodup (by decide)

end PacketNonces

end AuraChain
