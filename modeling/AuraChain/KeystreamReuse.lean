import AuraChain.TracedRun
import AuraChain.TunnelReplay
import AuraChain.TunnelStream

/-! Runs of the SOCKS5 client. Its connections share the session key, and each
of them makes two ciphers that count from zero. The log of a run keeps the key
and the number under which every frame was encrypted. -/

namespace AuraChain

structure EncryptedFrame where
  sessionKey : FixedBytes 32
  seq : UInt64
  frame : Bytes

/-- What the keystream of a frame is derived from. -/
def EncryptedFrame.keystream (f : EncryptedFrame) : FixedBytes 32 × UInt64 := (f.sessionKey, f.seq)

structure Connection where
  streamId : UInt32
  localCipher : TunnelCipher

structure SocksClient where
  sessionKey : FixedBytes 32
  streamCounter : UInt32
  connections : List Connection

inductive ClientEvent
  /-- A browser connects with these bytes, and the exit node is reached or not. -/
  | accept (request : Bytes) (hostReached : Bool)
  | chunk (connection : Nat) (chunk : Chunk)

namespace SocksClient

def new (sessionKey : FixedBytes 32) : SocksClient := ⟨sessionKey, 1, []⟩

def encrypted (c : Crates) (cipher : TunnelCipher) (frame : TunnelFrame) : EncryptedFrame :=
  ⟨cipher.sessionKey, cipher.txSeq, (cipher.encrypt c frame.toBytes).2⟩

def step (c : Crates) (s : SocksClient) :
    ClientEvent → Option (SocksClient × List EncryptedFrame)
  | .accept request hostReached =>
    match socksRequest request with
    | .error _ => some (s, [])
    | .ok (host, port, _) =>
      if hostReached then
        let cipher := TunnelCipher.new s.sessionKey
        let streamId := s.streamCounter
        let localCipher := TunnelCipher.new s.sessionKey
        some ({ s with streamCounter := s.streamCounter + 1
                       connections := s.connections ++ [⟨streamId, localCipher⟩] },
          [encrypted c cipher (.connectTcp streamId host port)])
      else some (s, [])
  | .chunk i chunk =>
    match s.connections[i]? with
    | none => none
    | some conn =>
      let frame := dataFrame conn.streamId chunk
      let localCipher := (conn.localCipher.encrypt c frame.toBytes).1
      some ({ s with connections := s.connections.set i { conn with localCipher } },
        [encrypted c conn.localCipher frame])

def sends : ClientEvent → Bool
  | .accept request hostReached => (socksRequest request).toOption.isSome && hostReached
  | .chunk _ _ => true

variable {c : Crates} {s t : SocksClient} {e : ClientEvent} {out log : List EncryptedFrame}

theorem step_cases (h : step c s e = some (t, out)) :
    (sends e = false ∧ t = s ∧ out = []) ∨
    (sends e = true ∧ (∃ f, out = [f] ∧ f.keystream = (s.sessionKey, 0)) ∧
      t.sessionKey = s.sessionKey ∧
      ∃ streamId, t.connections = s.connections ++ [⟨streamId, TunnelCipher.new s.sessionKey⟩]) ∨
    (sends e = true ∧ t.sessionKey = s.sessionKey ∧ ∃ conn ∈ s.connections, ∃ f, out = [f] ∧
      f.keystream = (conn.localCipher.sessionKey, conn.localCipher.txSeq)) := by
  cases e with
  | accept request hostReached =>
    rw [step] at h
    cases hr : socksRequest request with
    | error error =>
      simp only [hr, Option.some.injEq, Prod.mk.injEq] at h
      exact .inl ⟨by simp [sends, hr, Except.toOption], h.1.symm, h.2.symm⟩
    | ok r =>
      obtain ⟨host, port, rest⟩ := r
      cases hostReached with
      | false =>
        simp only [hr, Bool.false_eq_true, if_false, Option.some.injEq, Prod.mk.injEq] at h
        exact .inl ⟨by simp [sends], h.1.symm, h.2.symm⟩
      | true =>
        simp only [hr, if_true, Option.some.injEq, Prod.mk.injEq] at h
        obtain ⟨rfl, rfl⟩ := h
        exact .inr (.inl ⟨by simp [sends, hr, Except.toOption], ⟨_, rfl, rfl⟩, rfl, _, rfl⟩)
  | chunk i chunk =>
    rw [step] at h
    cases hi : s.connections[i]? with
    | none => simp [hi] at h
    | some conn =>
      simp only [hi, Option.some.injEq, Prod.mk.injEq] at h
      obtain ⟨rfl, rfl⟩ := h
      exact .inr (.inr ⟨rfl, rfl, conn, List.mem_of_getElem? hi, _, rfl, rfl⟩)

/-- The first frame has number zero, and whatever is encrypted next has it too. -/
structure Restarts (sessionKey : FixedBytes 32) (s : SocksClient) (log : List EncryptedFrame) :
    Prop where
  key : s.sessionKey = sessionKey
  none_sent : log = [] → s.connections = []
  one_sent : ∀ f, log = [f] → f.keystream = (sessionKey, 0) ∧
    ∀ conn ∈ s.connections, conn.localCipher = TunnelCipher.new sessionKey
  more_sent : 2 ≤ log.length → ¬ (log.map EncryptedFrame.keystream).Nodup

theorem restarts_new (sessionKey : FixedBytes 32) : Restarts sessionKey (new sessionKey) [] where
  key := rfl
  none_sent _ := rfl
  one_sent f hf := by cases hf
  more_sent h := by simp at h

theorem restarts_second {sessionKey : FixedBytes 32} {f : EncryptedFrame}
    (hs : Restarts sessionKey s log) (hf : log.length = 1 → f.keystream = (sessionKey, 0))
    (hlen : 2 ≤ (log ++ [f]).length) : ¬ ((log ++ [f]).map EncryptedFrame.keystream).Nodup := by
  intro hnodup
  rw [List.map_append] at hnodup
  by_cases hmore : 2 ≤ log.length
  · exact hs.more_sent hmore hnodup.of_append_left
  · have hone : log.length = 1 := by
      rw [List.length_append, List.length_singleton] at hlen
      omega
    obtain ⟨g, rfl⟩ := List.length_eq_one_iff.mp hone
    have hg := (hs.one_sent g rfl).1
    simp [hg, hf hone] at hnodup

theorem restarts_step {sessionKey : FixedBytes 32} (hs : Restarts sessionKey s log)
    (h : step c s e = some (t, out)) : Restarts sessionKey t (log ++ out) := by
  rcases step_cases h with ⟨-, rfl, rfl⟩ | ⟨-, ⟨f, rfl, hf⟩, hkey, streamId, hconns⟩ |
    ⟨-, hkey, conn, hmem, f, rfl, hf⟩
  · rwa [List.append_nil]
  · rw [hs.key] at hf hkey hconns
    refine ⟨hkey, by simp, ?_, restarts_second hs fun _ => hf⟩
    intro g hg
    have hempty : log = [] := by
      cases log with
      | nil => rfl
      | cons a log => simp at hg
    subst hempty
    obtain rfl : f = g := by simpa using hg
    refine ⟨hf, fun conn hconn => ?_⟩
    rw [hconns, hs.none_sent rfl, List.nil_append, List.mem_singleton] at hconn
    rw [hconn]
  · refine ⟨hkey.trans hs.key, by simp, ?_, restarts_second hs fun hone => ?_⟩
    · intro g hg
      have hempty : log = [] := by
        cases log with
        | nil => rfl
        | cons a log => simp at hg
      rw [hs.none_sent hempty] at hmem
      cases hmem
    · obtain ⟨g, rfl⟩ := List.length_eq_one_iff.mp hone
      rw [hf, (hs.one_sent g rfl).2 conn hmem]
      rfl

theorem length_out (h : step c s e = some (t, out)) :
    out.length = if sends e then 1 else 0 := by
  rcases step_cases h with ⟨hsends, -, rfl⟩ | ⟨hsends, ⟨f, rfl, -⟩, -⟩ |
    ⟨hsends, -, conn, -, f, rfl, -⟩
  · simp [hsends]
  · simp [hsends]
  · simp [hsends]

abbrev run (c : Crates) (s : SocksClient) (events : List ClientEvent) :
    Option (SocksClient × List EncryptedFrame) :=
  runAll (step c) (fun _ _ => True) s events

theorem run_length {events : List ClientEvent} (h : run c s events = some (t, log)) :
    log.length = (events.filter sends).length := by
  induction events generalizing s log with
  | nil =>
    simp only [run, runAll, Option.some.injEq, Prod.mk.injEq] at h
    simp [← h.2]
  | cons e events ih =>
    cases he : step c s e with
    | none => simp [run, runAll, he] at h
    | some r =>
      obtain ⟨u, out⟩ := r
      cases hr : run c u events with
      | none => simp [run, runAll, he, hr] at h
      | some r =>
        obtain ⟨u', rest⟩ := r
        simp only [run, runAll, if_true, he, hr, Option.some.injEq, Prod.mk.injEq] at h
        obtain ⟨rfl, rfl⟩ := h
        have hout := length_out he
        cases hsends : sends e with
        | false =>
          rw [List.filter_cons_of_neg (by simp [hsends]), List.length_append, hout, ih hr]
          simp [hsends]
        | true =>
          rw [List.filter_cons_of_pos hsends, List.length_append, hout, ih hr]
          simp [hsends]
          omega

end SocksClient

/-- Keystreams of one session key stay distinct exactly as long as there is one
frame only. -/
theorem keystreams_distinct_iff (c : Crates) (sessionKey : FixedBytes 32)
    (events : List ClientEvent) (t : SocksClient) (log : List EncryptedFrame)
    (h : (SocksClient.new sessionKey).run c events = some (t, log)) :
    (log.map EncryptedFrame.keystream).Nodup ↔ (events.filter SocksClient.sends).length ≤ 1 := by
  have hrestarts := (TracedRun.of_runAll h).invariant (P := SocksClient.Restarts sessionKey)
    (SocksClient.restarts_new sessionKey) fun _ _ _ _ _ hs _ hstep =>
      SocksClient.restarts_step hs hstep
  rw [← SocksClient.run_length h]
  constructor
  · intro hnodup
    by_contra hmore
    exact hrestarts.more_sent (by omega) hnodup
  · intro hle
    cases log with
    | nil => simp
    | cons f log =>
      obtain rfl : log = [] := by
        rw [List.length_cons] at hle
        exact List.length_eq_zero_iff.mp (by omega)
      simp

/-- SOCKS5 without authentication, then CONNECT 127.0.0.1:443. -/
def sampleRequest : Bytes := [5, 1, 0, 5, 1, 0, 1, 127, 0, 0, 1, 1, 187]

theorem keystreams_distinct_run :
    ((SocksClient.new sampleKey).run (Reference.crates [])
      [.accept [4, 1] true, .accept sampleRequest true]).map
        (fun r => decide (r.2.map EncryptedFrame.keystream).Nodup) = some true := by
  cases h : (SocksClient.new sampleKey).run (Reference.crates [])
      [.accept [4, 1] true, .accept sampleRequest true] with
  | none => exact absurd h (by decide +kernel)
  | some r =>
    have hnodup := (keystreams_distinct_iff _ _ _ r.1 r.2 h).mpr (by decide +kernel)
    rw [Option.map_some, decide_eq_true hnodup]

theorem keystream_reused :
    ((SocksClient.new sampleKey).run (Reference.crates [])
      [.accept sampleRequest true, .chunk 0 sampleChunk]).map
        (fun r => r.2.map EncryptedFrame.keystream) = some [(sampleKey, 0), (sampleKey, 0)] ∧
      ¬ [(sampleKey, (0 : UInt64)), (sampleKey, 0)].Nodup := by
  decide +kernel

end AuraChain
