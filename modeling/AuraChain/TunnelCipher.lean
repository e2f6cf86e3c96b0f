import AuraChain.Merkle

/-! The cipher of the tunnel: a keystream and a tag derived from the session key
and the sequence number of the frame. -/

namespace AuraChain

def domainAeadStream : Bytes := ascii "AURA_TUNNEL_STREAM_v1"
def domainAeadTag : Bytes := ascii "AURA_TUNNEL_TAG_v1"

inductive CipherError
  | tagMismatch
  | replayDetected (expected got : UInt64)
  | payloadTooLarge
  deriving DecidableEq

structure TunnelCipher where
  sessionKey : FixedBytes 32
  txSeq : UInt64
  rxSeq : UInt64
  deriving DecidableEq

def streamKey (c : Crates) (sessionKey : FixedBytes 32) (seq : UInt64) : Hash :=
  c.hashWithDomain domainAeadStream (sessionKey.bytes ++ seq.toBeBytes)

def authTag (c : Crates) (sessionKey : FixedBytes 32) (seq : UInt64) (ciphertext : Bytes) : Hash :=
  c.hashWithDomain domainAeadTag (sessionKey.bytes ++ seq.toBeBytes ++ ciphertext)

def xorKeystream (keyBytes : Hash) (data : Bytes) : Bytes :=
  data.mapIdx fun i b => b ^^^ keyBytes.bytes.getD (i % 32) 0

namespace TunnelCipher

def new (sessionKey : FixedBytes 32) : TunnelCipher := ⟨sessionKey, 0, 0⟩

def encrypt (c : Crates) (self : TunnelCipher) (plaintext : Bytes) : TunnelCipher × Bytes :=
  let seq := self.txSeq
  let ciphertext := xorKeystream (streamKey c self.sessionKey seq) plaintext
  let tag := authTag c self.sessionKey seq ciphertext
  ({ self with txSeq := self.txSeq + 1 }, seq.toBeBytes ++ tag.bytes ++ ciphertext)

/-- The window moves before the tag is checked. -/
def decrypt (c : Crates) (self : TunnelCipher) (frame : Bytes) :
    TunnelCipher × Except CipherError Bytes :=
  if frame.length < 40 then (self, .error .tagMismatch)
  else
    let seq := UInt64.fromBeBytes (frame.take 8)
    if seq < self.rxSeq then (self, .error (.replayDetected self.rxSeq seq))
    else
      let self := { self with rxSeq := seq + 1 }
      let tagBytes := (frame.drop 8).take 32
      let ciphertext := frame.drop 40
      if (authTag c self.sessionKey seq ciphertext).bytes ≠ tagBytes then
        (self, .error .tagMismatch)
      else (self, .ok (xorKeystream (streamKey c self.sessionKey seq) ciphertext))

end TunnelCipher

def frameSeq (frame : Bytes) : UInt64 := UInt64.fromBeBytes (frame.take 8)

def sealed (c : Crates) (sessionKey : FixedBytes 32) (seq : UInt64) (plaintext : Bytes) : Bytes :=
  seq.toBeBytes ++ (authTag c sessionKey seq (xorKeystream (streamKey c sessionKey seq) plaintext)).bytes ++
    xorKeystream (streamKey c sessionKey seq) plaintext

theorem xorKeystream_involutive (keyBytes : Hash) : Function.Involutive (xorKeystream keyBytes) := by
  intro data
  apply List.ext_getElem
  · simp [xorKeystream]
  · intro i h h'
    simp only [xorKeystream, List.getElem_mapIdx, UInt8.xor_assoc, UInt8.xor_self, UInt8.xor_zero]

@[simp] theorem xorKeystream_length (keyBytes : Hash) (data : Bytes) :
    (xorKeystream keyBytes data).length = data.length := List.length_mapIdx

section sealed

variable (c : Crates) (sessionKey : FixedBytes 32) (seq : UInt64) (plaintext : Bytes)

theorem length_sealed : (sealed c sessionKey seq plaintext).length = 40 + plaintext.length := by
  simp only [sealed, List.length_append, UInt64.toBeBytes_length, FixedBytes.size,
    xorKeystream_length]

theorem take_sealed : (sealed c sessionKey seq plaintext).take 8 = seq.toBeBytes := by
  rw [sealed, List.append_assoc]
  exact List.take_left' (UInt64.toBeBytes_length seq)

theorem drop_sealed : (sealed c sessionKey seq plaintext).drop 8 =
    (authTag c sessionKey seq (xorKeystream (streamKey c sessionKey seq) plaintext)).bytes ++
      xorKeystream (streamKey c sessionKey seq) plaintext := by
  rw [sealed, List.append_assoc]
  exact List.drop_left' (UInt64.toBeBytes_length seq)

theorem tag_sealed : ((sealed c sessionKey seq plaintext).drop 8).take 32 =
    (authTag c sessionKey seq (xorKeystream (streamKey c sessionKey seq) plaintext)).bytes := by
  rw [drop_sealed]
  exact List.take_left' (FixedBytes.size _)

theorem ciphertext_sealed : (sealed c sessionKey seq plaintext).drop 40 =
    xorKeystream (streamKey c sessionKey seq) plaintext := by
  have h : (sealed c sessionKey seq plaintext).drop 40 =
      ((sealed c sessionKey seq plaintext).drop 8).drop 32 := by
    rw [List.drop_drop]
  rw [h, drop_sealed]
  exact List.drop_left' (FixedBytes.size _)

theorem frameSeq_sealed : frameSeq (sealed c sessionKey seq plaintext) = seq := by
  rw [frameSeq, take_sealed, UInt64.fromBeBytes_toBeBytes]

end sealed

namespace TunnelCipher

variable {c : Crates} {cipher : TunnelCipher} {frame : Bytes}

theorem encrypt_eq (c : Crates) (cipher : TunnelCipher) (plaintext : Bytes) :
    cipher.encrypt c plaintext = ({ cipher with txSeq := cipher.txSeq + 1 },
      sealed c cipher.sessionKey cipher.txSeq plaintext) := rfl

theorem decrypt_short (h : frame.length < 40) :
    cipher.decrypt c frame = (cipher, .error .tagMismatch) := by
  rw [decrypt, if_pos h]

theorem decrypt_replay (hlen : 40 ≤ frame.length) (h : frameSeq frame < cipher.rxSeq) :
    cipher.decrypt c frame =
      (cipher, .error (.replayDetected cipher.rxSeq (frameSeq frame))) := by
  rw [frameSeq] at h
  simp only [decrypt, if_neg hlen.not_gt, if_pos h, frameSeq]

/-- A frame at or above the window moves it, whether its tag is right or not. -/
theorem decrypt_fresh_fst (hlen : 40 ≤ frame.length) (h : cipher.rxSeq ≤ frameSeq frame) :
    (cipher.decrypt c frame).1 = { cipher with rxSeq := frameSeq frame + 1 } := by
  rw [frameSeq] at h
  simp only [decrypt, if_neg hlen.not_gt, if_neg (UInt64.not_lt.mpr h), frameSeq]
  split_ifs <;> rfl

theorem decrypt_sealed {seq : UInt64} {plaintext : Bytes} (h : cipher.rxSeq ≤ seq) :
    cipher.decrypt c (sealed c cipher.sessionKey seq plaintext) =
      ({ cipher with rxSeq := seq + 1 }, .ok plaintext) := by
  have hlen : ¬ (sealed c cipher.sessionKey seq plaintext).length < 40 := by
    rw [length_sealed]
    omega
  have hxor := xorKeystream_involutive (streamKey c cipher.sessionKey seq) plaintext
  simp only [decrypt, if_neg hlen, take_sealed, UInt64.fromBeBytes_toBeBytes,
    if_neg (UInt64.not_lt.mpr h), tag_sealed, ciphertext_sealed, ne_eq, not_true_eq_false,
    if_false, hxor]

/-- Only a frame at or above the window is accepted. -/
theorem decrypt_ok {plaintext : Bytes} (h : (cipher.decrypt c frame).2 = .ok plaintext) :
    40 ≤ frame.length ∧ cipher.rxSeq ≤ frameSeq frame := by
  by_cases hlen : frame.length < 40
  · simp [decrypt_short hlen] at h
  · refine ⟨Nat.le_of_not_lt hlen, ?_⟩
    by_contra hseq
    simp [decrypt_replay (Nat.le_of_not_lt hlen) (UInt64.not_le.mp hseq)] at h

theorem decrypt_sessionKey (c : Crates) (cipher : TunnelCipher) (frame : Bytes) :
    (cipher.decrypt c frame).1.sessionKey = cipher.sessionKey := by
  by_cases hlen : frame.length < 40
  · rw [decrypt_short hlen]
  · by_cases hseq : frameSeq frame < cipher.rxSeq
    · rw [decrypt_replay (Nat.le_of_not_lt hlen) hseq]
    · rw [decrypt_fresh_fst (Nat.le_of_not_lt hlen) (UInt64.not_lt.mp hseq)]

/-- The window follows the largest number seen, as long as the number has a
successor. -/
theorem decrypt_window (hlen : 40 ≤ frame.length) (hmax : (frameSeq frame).toNat + 1 < 2 ^ 64) :
    (cipher.decrypt c frame).1.rxSeq.toNat =
      max cipher.rxSeq.toNat ((frameSeq frame).toNat + 1) := by
  by_cases hseq : frameSeq frame < cipher.rxSeq
  · have hlt := UInt64.lt_iff_toNat_lt.mp hseq
    rw [decrypt_replay hlen hseq, max_eq_left hlt]
  · have hle := UInt64.le_iff_toNat_le.mp (UInt64.not_lt.mp hseq)
    have hsucc : (frameSeq frame + 1).toNat = (frameSeq frame).toNat + 1 := by
      rw [UInt64.toNat_add, UInt64.toNat_one, Nat.mod_eq_of_lt hmax]
    rw [decrypt_fresh_fst hlen (UInt64.not_lt.mp hseq), hsucc, max_eq_right (by omega)]

end TunnelCipher

end AuraChain
