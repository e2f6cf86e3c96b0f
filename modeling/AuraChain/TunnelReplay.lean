import AuraChain.Reference
import AuraChain.ReplayWindow
import AuraChain.TunnelCipher

/-! Runs of the receiving cipher on frames of any origin, and on the frames of
one sender behind a link that loses, repeats and reorders them. -/

namespace AuraChain

open ReplayWindow

namespace TunnelCipher

def receive (c : Crates) (self : TunnelCipher) (frames : List Bytes) : TunnelCipher :=
  frames.foldl (fun self frame => (self.decrypt c frame).1) self

def isOk (result : Except CipherError Bytes) : Bool :=
  match result with
  | .ok _ => true
  | .error _ => false

/-- The frames that `decrypt` answers with `Ok`, in order. -/
def accepted (c : Crates) : TunnelCipher → List Bytes → List Bytes
  | _, [] => []
  | self, frame :: frames =>
    let rest := accepted c (self.decrypt c frame).1 frames
    if isOk (self.decrypt c frame).2 then frame :: rest else rest

def encryptAll (c : Crates) : TunnelCipher → List Bytes → List Bytes
  | _, [] => []
  | self, plaintext :: plaintexts =>
    (self.encrypt c plaintext).2 :: encryptAll c (self.encrypt c plaintext).1 plaintexts

end TunnelCipher

def seqNumbers (frames : List Bytes) : List ℕ :=
  (frames.filter fun frame => 40 ≤ frame.length).map fun frame => (frameSeq frame).toNat

/-- The number without a successor is not sent. -/
def BelowMax (frames : List Bytes) : Prop :=
  ∀ frame ∈ frames, 40 ≤ frame.length → frameSeq frame ≠ UInt64.ofNat (2 ^ 64 - 1)

instance (frames : List Bytes) : Decidable (BelowMax frames) :=
  inferInstanceAs (Decidable (∀ frame ∈ frames, _))

theorem toNat_succ_lt {seq : UInt64} (h : seq ≠ UInt64.ofNat (2 ^ 64 - 1)) :
    seq.toNat + 1 < 2 ^ 64 := by
  have hlt := seq.toNat_lt
  have hne : seq.toNat ≠ 2 ^ 64 - 1 := by
    intro he
    apply h
    rw [← he, UInt64.ofNat_toNat]
  omega

namespace TunnelCipher

variable {c : Crates} {cipher : TunnelCipher} {frame : Bytes} {frames : List Bytes}

theorem receive_sessionKey (c : Crates) (cipher : TunnelCipher) (frames : List Bytes) :
    (cipher.receive c frames).sessionKey = cipher.sessionKey := by
  induction frames generalizing cipher with
  | nil => rfl
  | cons frame frames ih =>
    rw [receive, List.foldl_cons, ← receive, ih, decrypt_sessionKey]

/-- The window of the code is the window over the numbers delivered so far. -/
theorem receive_window (h : BelowMax frames) :
    (cipher.receive c frames).rxSeq.toNat = window cipher.rxSeq.toNat (seqNumbers frames) := by
  induction frames generalizing cipher with
  | nil => rfl
  | cons frame frames ih =>
    obtain ⟨hframe, hframes⟩ := List.forall_mem_cons.mp h
    rw [receive, List.foldl_cons, ← receive, ih hframes]
    by_cases hlen : 40 ≤ frame.length
    · rw [decrypt_window hlen (toNat_succ_lt (hframe hlen)), seqNumbers, seqNumbers,
        List.filter_cons_of_pos (by simpa using hlen), List.map_cons, window_cons]
    · rw [decrypt_short (Nat.lt_of_not_le hlen), seqNumbers, seqNumbers,
        List.filter_cons_of_neg (by simpa using hlen)]

theorem accepted_sublist (h : BelowMax frames) :
    ((cipher.accepted c frames).map fun frame => (frameSeq frame).toNat).Sublist
      (records cipher.rxSeq.toNat (seqNumbers frames)) := by
  induction frames generalizing cipher with
  | nil => exact .slnil
  | cons frame frames ih =>
    obtain ⟨hframe, hframes⟩ := List.forall_mem_cons.mp h
    have hrest := @ih (cipher.decrypt c frame).1 hframes
    by_cases hlen : 40 ≤ frame.length
    · have hnumbers : seqNumbers (frame :: frames) =
          (frameSeq frame).toNat :: seqNumbers frames := by
        rw [seqNumbers, List.filter_cons_of_pos (by simpa using hlen), List.map_cons, seqNumbers]
      rw [decrypt_window hlen (toNat_succ_lt (hframe hlen))] at hrest
      rw [hnumbers, records]
      by_cases hseq : cipher.rxSeq.toNat ≤ (frameSeq frame).toNat
      · rw [max_eq_right (by omega)] at hrest
        rw [if_pos hseq, accepted]
        by_cases hok : isOk (cipher.decrypt c frame).2
        · simpa [hok] using hrest
        · simpa [hok] using hrest.cons _
      · have hlt : frameSeq frame < cipher.rxSeq :=
          UInt64.lt_iff_toNat_lt.mpr (Nat.lt_of_not_le hseq)
        rw [max_eq_left (by omega)] at hrest
        rw [if_neg hseq, accepted]
        simpa [decrypt_replay hlen hlt, isOk] using hrest
    · rw [decrypt_short (Nat.lt_of_not_le hlen)] at hrest
      rw [seqNumbers, List.filter_cons_of_neg (by simpa using hlen), ← seqNumbers, accepted]
      simpa [decrypt_short (Nat.lt_of_not_le hlen), isOk] using hrest

theorem encryptAll_getElem? (c : Crates) (cipher : TunnelCipher) (plaintexts : List Bytes) (i : ℕ) :
    (cipher.encryptAll c plaintexts)[i]? =
      plaintexts[i]?.map (sealed c cipher.sessionKey (cipher.txSeq + UInt64.ofNat i)) := by
  induction plaintexts generalizing cipher i with
  | nil => simp [encryptAll]
  | cons plaintext plaintexts ih =>
    cases i with
    | zero => simp [encryptAll, encrypt_eq]
    | succ i =>
      have hseq : cipher.txSeq + 1 + UInt64.ofNat i = cipher.txSeq + UInt64.ofNat (i + 1) := by
        rw [UInt64.ofNat_add, UInt64.add_assoc, UInt64.add_comm 1]
        rfl
      rw [encryptAll, List.getElem?_cons_succ, ih, List.getElem?_cons_succ, encrypt_eq]
      simp only [hseq]

theorem length_encryptAll (c : Crates) (cipher : TunnelCipher) (plaintexts : List Bytes) :
    (cipher.encryptAll c plaintexts).length = plaintexts.length := by
  induction plaintexts generalizing cipher with
  | nil => rfl
  | cons plaintext plaintexts ih => rw [encryptAll, List.length_cons, ih, List.length_cons]

end TunnelCipher

theorem accepted_seqs_increasing (c : Crates) (sessionKey : FixedBytes 32) (frames : List Bytes)
    (h : BelowMax frames) :
    (((TunnelCipher.new sessionKey).accepted c frames).map frameSeq).Pairwise (· < ·) ∧
      ((TunnelCipher.new sessionKey).accepted c frames).Nodup := by
  have hsublist : (((TunnelCipher.new sessionKey).accepted c frames).map
      fun frame => (frameSeq frame).toNat).Sublist
        (records (TunnelCipher.new sessionKey).rxSeq.toNat (seqNumbers frames)) :=
    TunnelCipher.accepted_sublist h
  have hnat := (records_pairwise _ _).sublist hsublist
  have hlt := List.pairwise_map.mp hnat
  refine ⟨List.pairwise_map.mpr (hlt.imp fun hab => UInt64.lt_iff_toNat_lt.mpr hab), ?_⟩
  refine hlt.imp fun hab he => ?_
  rw [he] at hab
  exact lt_irrefl _ hab

/-- The `i`th of the frames that one fresh cipher made. -/
def linkFrame (c : Crates) (sessionKey : FixedBytes 32) (plaintexts : List Bytes)
    (i : Fin plaintexts.length) : Bytes :=
  ((TunnelCipher.new sessionKey).encryptAll c plaintexts).get
    (i.cast (TunnelCipher.length_encryptAll _ _ _).symm)

section link

variable {c : Crates} {sessionKey : FixedBytes 32} {plaintexts : List Bytes}

theorem linkFrame_eq (i : Fin plaintexts.length) : linkFrame c sessionKey plaintexts i =
    sealed c sessionKey (UInt64.ofNat i) (plaintexts.get i) := by
  have h := TunnelCipher.encryptAll_getElem? c (TunnelCipher.new sessionKey) plaintexts i
  have hlen : i.val < ((TunnelCipher.new sessionKey).encryptAll c plaintexts).length := by
    rw [TunnelCipher.length_encryptAll]
    exact i.isLt
  rw [List.getElem?_eq_getElem hlen, List.getElem?_eq_getElem i.isLt, Option.map_some] at h
  have hzero : (TunnelCipher.new sessionKey).txSeq + UInt64.ofNat i = UInt64.ofNat i :=
    UInt64.zero_add _
  rw [hzero] at h
  exact Option.some.inj h

theorem toNat_linkSeq (hlen : plaintexts.length < 2 ^ 64) (i : Fin plaintexts.length) :
    (frameSeq (linkFrame c sessionKey plaintexts i)).toNat = i := by
  have hi : i.val < 2 ^ 64 := i.isLt.trans hlen
  rw [linkFrame_eq, frameSeq_sealed, UInt64.toNat_ofNat_of_lt' hi]

theorem le_length_linkFrame (i : Fin plaintexts.length) :
    40 ≤ (linkFrame c sessionKey plaintexts i).length := by
  rw [linkFrame_eq, length_sealed]
  omega

theorem belowMax_link (hlen : plaintexts.length < 2 ^ 64) (before : List (Fin plaintexts.length)) :
    BelowMax (before.map (linkFrame c sessionKey plaintexts)) := by
  intro frame hframe _ he
  obtain ⟨i, -, rfl⟩ := List.mem_map.mp hframe
  have hi : (frameSeq (linkFrame c sessionKey plaintexts i)).toNat = i := toNat_linkSeq hlen i
  have hmax : (UInt64.ofNat (2 ^ 64 - 1)).toNat = 2 ^ 64 - 1 := by decide
  rw [he, hmax] at hi
  have hlt := i.isLt
  omega

theorem seqNumbers_link (hlen : plaintexts.length < 2 ^ 64) (before : List (Fin plaintexts.length)) :
    seqNumbers (before.map (linkFrame c sessionKey plaintexts)) = before.map Fin.val := by
  have hall : ∀ frame ∈ before.map (linkFrame c sessionKey plaintexts),
      decide (40 ≤ frame.length) = true := by
    intro frame hframe
    obtain ⟨i, -, rfl⟩ := List.mem_map.mp hframe
    exact decide_eq_true (le_length_linkFrame i)
  rw [seqNumbers, List.filter_eq_self.mpr hall, List.map_map]
  exact List.map_congr_left fun i _ => toNat_linkSeq hlen i

theorem link_window_le (hlen : plaintexts.length < 2 ^ 64) (before : List (Fin plaintexts.length))
    (i : Fin plaintexts.length) :
    (((TunnelCipher.new sessionKey).receive c
      (before.map (linkFrame c sessionKey plaintexts))).rxSeq ≤
        frameSeq (linkFrame c sessionKey plaintexts i)) ↔ ∀ j ∈ before, j < i := by
  have hzero : (TunnelCipher.new sessionKey).rxSeq.toNat = 0 := rfl
  rw [UInt64.le_iff_toNat_le, toNat_linkSeq hlen,
    TunnelCipher.receive_window (belowMax_link hlen before), seqNumbers_link hlen, window_le_iff,
    hzero]
  simp

end link

/-- After any deliveries of frames of one sender, lost, repeated or out of order,
a frame above all of them is opened and any other frame is refused. -/
theorem lossy_link_delivers (c : Crates) (sessionKey : FixedBytes 32) (plaintexts : List Bytes)
    (hlen : plaintexts.length < 2 ^ 64) (before : List (Fin plaintexts.length))
    (i : Fin plaintexts.length) :
    let receiver := (TunnelCipher.new sessionKey).receive c
      (before.map (linkFrame c sessionKey plaintexts))
    let answer := receiver.decrypt c (linkFrame c sessionKey plaintexts i)
    ((∀ j ∈ before, j < i) → answer.2 = .ok (plaintexts.get i)) ∧
      (¬ (∀ j ∈ before, j < i) →
        answer = (receiver, .error (.replayDetected receiver.rxSeq (UInt64.ofNat i)))) := by
  intro receiver answer
  have hwindow : receiver.rxSeq ≤ frameSeq (linkFrame c sessionKey plaintexts i) ↔
      ∀ j ∈ before, j < i := link_window_le hlen before i
  have hkey : receiver.sessionKey = sessionKey := TunnelCipher.receive_sessionKey c _ _
  have hseq : frameSeq (linkFrame c sessionKey plaintexts i) = UInt64.ofNat i := by
    rw [linkFrame_eq, frameSeq_sealed]
  rw [hseq] at hwindow
  refine ⟨fun habove => ?_, fun hnot => ?_⟩
  · have hopen : receiver.decrypt c
        (sealed c receiver.sessionKey (UInt64.ofNat i) (plaintexts.get i)) =
          ({ receiver with rxSeq := UInt64.ofNat i + 1 }, .ok (plaintexts.get i)) :=
      TunnelCipher.decrypt_sealed (hwindow.mpr habove)
    rw [hkey, ← linkFrame_eq] at hopen
    show (receiver.decrypt c (linkFrame c sessionKey plaintexts i)).2 = _
    rw [hopen]
  · have hlt : frameSeq (linkFrame c sessionKey plaintexts i) < receiver.rxSeq := by
      rw [hseq]
      exact UInt64.not_le.mp fun hle => hnot (hwindow.mp hle)
    have hreplay := TunnelCipher.decrypt_replay (c := c) (le_length_linkFrame i) hlt
    rw [hseq] at hreplay
    exact hreplay

def sampleKey : FixedBytes 32 := Reference.secretKey 66

def sampleFrame (seq : UInt64) : Bytes := sealed (Reference.crates []) sampleKey seq [72, 105]

/-- Anyone can write it: the largest number and a tag of zeros. -/
def forgedFrame : Bytes := List.replicate 8 255 ++ List.replicate 32 0

theorem accepted_seqs_increasing_run :
    (((TunnelCipher.new sampleKey).accepted (Reference.crates [])
        [sampleFrame 0, sampleFrame 0, sampleFrame 3]).map frameSeq).Pairwise (· < ·) ∧
      ((TunnelCipher.new sampleKey).accepted (Reference.crates [])
        [sampleFrame 0, sampleFrame 0, sampleFrame 3]).Nodup :=
  accepted_seqs_increasing _ _ _ (by decide +kernel)

theorem frame_accepted_twice :
    (TunnelCipher.new sampleKey).accepted (Reference.crates [])
        [sampleFrame 0, forgedFrame, sampleFrame 0] = [sampleFrame 0, sampleFrame 0] ∧
      ¬ ((TunnelCipher.new sampleKey).accepted (Reference.crates [])
        [sampleFrame 0, forgedFrame, sampleFrame 0]).Nodup := by
  decide +kernel

theorem lossy_link_delivers_run :
    let plaintexts : List Bytes := [[72], [105], [33]]
    let receiver := (TunnelCipher.new sampleKey).receive (Reference.crates [])
      ([(1 : Fin 3)].map (linkFrame (Reference.crates []) sampleKey plaintexts))
    (receiver.decrypt (Reference.crates [])
        (linkFrame (Reference.crates []) sampleKey plaintexts 2)).2 = .ok [33] ∧
      receiver.decrypt (Reference.crates [])
        (linkFrame (Reference.crates []) sampleKey plaintexts 0) =
          (receiver, .error (.replayDetected receiver.rxSeq 0)) :=
  ⟨(lossy_link_delivers (Reference.crates []) sampleKey [[72], [105], [33]] (by decide)
      [(1 : Fin 3)] (2 : Fin 3)).1 (by decide),
    (lossy_link_delivers (Reference.crates []) sampleKey [[72], [105], [33]] (by decide)
      [(1 : Fin 3)] (0 : Fin 3)).2 (by decide)⟩

end AuraChain
