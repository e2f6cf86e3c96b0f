import AuraChain.TunnelReplay

/-! What a frame without a valid tag does to the receiver. It is never opened,
but it moves the window, behind which genuine frames count as replayed. -/

namespace AuraChain

def maxSeq : UInt64 := UInt64.ofNat (2 ^ 64 - 1)

namespace TunnelCipher

/-- Too short, or the tag is not the one of its number and ciphertext. -/
def Unauthenticated (c : Crates) (cipher : TunnelCipher) (frame : Bytes) : Prop :=
  frame.length < 40 ∨
    (authTag c cipher.sessionKey (frameSeq frame) (frame.drop 40)).bytes ≠ (frame.drop 8).take 32

def Accepts (c : Crates) (cipher : TunnelCipher) (frame : Bytes) : Prop :=
  ∃ plaintext, (cipher.decrypt c frame).2 = .ok plaintext

/-- What can still be read is what could be read before. -/
def KeepsGenuine (c : Crates) (cipher : TunnelCipher) (frame : Bytes) : Prop :=
  ∀ genuine, cipher.Accepts c genuine → (cipher.decrypt c frame).1.Accepts c genuine

structure NoEffect (c : Crates) (cipher : TunnelCipher) (frame : Bytes) : Prop where
  error : (cipher.decrypt c frame).2 = .error .tagMismatch
  unchanged : (cipher.decrypt c frame).1 = cipher
  genuine : cipher.KeepsGenuine c frame

variable {c : Crates} {cipher : TunnelCipher} {frame : Bytes}

theorem decrypt_fresh_snd (hlen : 40 ≤ frame.length) (h : cipher.rxSeq ≤ frameSeq frame) :
    (cipher.decrypt c frame).2 =
      if (authTag c cipher.sessionKey (frameSeq frame) (frame.drop 40)).bytes ≠
          (frame.drop 8).take 32 then .error .tagMismatch
      else .ok (xorKeystream (streamKey c cipher.sessionKey (frameSeq frame)) (frame.drop 40)) := by
  rw [frameSeq] at h
  simp only [decrypt, if_neg hlen.not_gt, if_neg (UInt64.not_lt.mpr h), frameSeq]
  exact apply_ite Prod.snd _ _ _

theorem accepts_iff : cipher.Accepts c frame ↔
    ¬ cipher.Unauthenticated c frame ∧ cipher.rxSeq ≤ frameSeq frame := by
  constructor
  · rintro ⟨plaintext, hok⟩
    obtain ⟨hlen, hseq⟩ := decrypt_ok hok
    rw [decrypt_fresh_snd hlen hseq] at hok
    refine ⟨fun h => ?_, hseq⟩
    rcases h with hshort | htag
    · omega
    · rw [if_pos htag] at hok
      cases hok
  · rintro ⟨h, hseq⟩
    obtain ⟨hlen, htag⟩ := not_or.mp h
    exact ⟨_, (decrypt_fresh_snd (Nat.le_of_not_lt hlen) hseq).trans (if_neg htag)⟩

theorem accepts_sealed (c : Crates) (cipher : TunnelCipher) (seq : UInt64) (plaintext : Bytes) :
    cipher.Accepts c (sealed c cipher.sessionKey seq plaintext) ↔ cipher.rxSeq ≤ seq := by
  constructor
  · intro h
    have hseq := (accepts_iff.mp h).2
    rwa [frameSeq_sealed] at hseq
  · intro h
    exact ⟨plaintext, congrArg Prod.snd (decrypt_sealed h)⟩

theorem succ_le_iff {a b : UInt64} (h : a ≠ maxSeq) : a + 1 ≤ b ↔ a < b := by
  have hsucc : (a + 1).toNat = a.toNat + 1 := by
    rw [UInt64.toNat_add, UInt64.toNat_one, Nat.mod_eq_of_lt (toNat_succ_lt h)]
  rw [UInt64.le_iff_toNat_le, UInt64.lt_iff_toNat_lt, hsucc]
  exact Iff.rfl

/-- The three answers to a frame without a valid tag. -/
theorem decrypt_unauthenticated (h : cipher.Unauthenticated c frame) :
    (frame.length < 40 ∧ cipher.decrypt c frame = (cipher, .error .tagMismatch)) ∨
    (40 ≤ frame.length ∧ frameSeq frame < cipher.rxSeq ∧ cipher.decrypt c frame =
      (cipher, .error (.replayDetected cipher.rxSeq (frameSeq frame)))) ∨
    (40 ≤ frame.length ∧ cipher.rxSeq ≤ frameSeq frame ∧ cipher.decrypt c frame =
      ({ cipher with rxSeq := frameSeq frame + 1 }, .error .tagMismatch)) := by
  by_cases hlen : frame.length < 40
  · exact .inl ⟨hlen, decrypt_short hlen⟩
  · have hlen' := Nat.le_of_not_lt hlen
    have htag := h.resolve_left hlen
    by_cases hseq : frameSeq frame < cipher.rxSeq
    · exact .inr (.inl ⟨hlen', hseq, decrypt_replay hlen' hseq⟩)
    · have hseq' := UInt64.not_lt.mp hseq
      refine .inr (.inr ⟨hlen', hseq', Prod.ext (decrypt_fresh_fst hlen' hseq') ?_⟩)
      rw [decrypt_fresh_snd hlen' hseq', if_pos htag]

theorem Accepts.mono {cipher' : TunnelCipher} (h : cipher.Accepts c frame)
    (hkey : cipher'.sessionKey = cipher.sessionKey) (hrx : cipher'.rxSeq ≤ cipher.rxSeq) :
    cipher'.Accepts c frame := by
  rw [accepts_iff, Unauthenticated] at h ⊢
  rw [hkey]
  exact ⟨h.1, UInt64.le_trans hrx h.2⟩

/-- A frame of full length costs the genuine frames from the window up to its
own number, unless the number has no successor. -/
theorem keepsGenuine_iff (h : cipher.Unauthenticated c frame) : cipher.KeepsGenuine c frame ↔
    frame.length < 40 ∨ frameSeq frame < cipher.rxSeq ∨ frameSeq frame = maxSeq := by
  rcases decrypt_unauthenticated h with ⟨hlen, hd⟩ | ⟨-, hseq, hd⟩ | ⟨hlen, hseq, hd⟩
  · refine iff_of_true (fun genuine hg => ?_) (.inl hlen)
    rwa [hd]
  · refine iff_of_true (fun genuine hg => ?_) (.inr (.inl hseq))
    rwa [hd]
  · rw [KeepsGenuine, hd]
    constructor
    · intro hkeeps
      refine .inr (.inr ?_)
      by_contra hmax
      have hlost := hkeeps _ ((accepts_sealed c cipher (frameSeq frame) []).mpr hseq)
      have hle : frameSeq frame + 1 ≤ frameSeq frame :=
        (accepts_sealed c { cipher with rxSeq := frameSeq frame + 1 } (frameSeq frame) []).mp hlost
      exact UInt64.lt_irrefl _ ((succ_le_iff hmax).mp hle)
    · rintro (hshort | hold | hmax) genuine hg
      · omega
      · exact absurd hseq (UInt64.not_le.mpr hold)
      · refine hg.mono rfl ?_
        rw [hmax]
        exact UInt64.zero_le

end TunnelCipher

open TunnelCipher

/-- A frame without a valid tag has no effect exactly when it is too short for
its number to be read, or when its number wraps the window to where it was. -/
theorem unauthenticated_ignored_iff (c : Crates) (cipher : TunnelCipher) (frame : Bytes)
    (h : cipher.Unauthenticated c frame) : cipher.NoEffect c frame ↔
      frame.length < 40 ∨ frameSeq frame = maxSeq ∧ cipher.rxSeq = 0 := by
  constructor
  · rintro ⟨herror, hunchanged, hgenuine⟩
    rcases decrypt_unauthenticated h with ⟨hlen, -⟩ | ⟨-, -, hd⟩ | ⟨hlen, hseq, hd⟩
    · exact .inl hlen
    · rw [hd] at herror
      cases herror
    · have hkeeps := (keepsGenuine_iff h).mp hgenuine
      have hmax : frameSeq frame = maxSeq := by
        rcases hkeeps with hshort | hold | hmax
        · omega
        · exact absurd hseq (UInt64.not_le.mpr hold)
        · exact hmax
      rw [hd, hmax] at hunchanged
      exact .inr ⟨hmax, (congrArg rxSeq hunchanged).symm⟩
  · intro hcond
    have hdecrypt : cipher.decrypt c frame = (cipher, .error .tagMismatch) := by
      rcases decrypt_unauthenticated h with ⟨-, hd⟩ | ⟨hlen, hseq, -⟩ | ⟨hlen, -, hd⟩
      · exact hd
      · rcases hcond with hshort | ⟨-, hzero⟩
        · omega
        · rw [hzero] at hseq
          exact absurd hseq UInt64.not_lt_zero
      · rcases hcond with hshort | ⟨hmax, hzero⟩
        · omega
        · have hwrap : frameSeq frame + 1 = cipher.rxSeq := by
            rw [hmax, hzero]
            rfl
          rw [hd, hwrap]
    refine ⟨congrArg Prod.snd hdecrypt, congrArg Prod.fst hdecrypt, fun genuine hg => ?_⟩
    rwa [hdecrypt]

namespace ForgedFrames

theorem unauthenticated_ignored_short :
    (TunnelCipher.new sampleKey).NoEffect (Reference.crates []) (List.replicate 39 0) :=
  (unauthenticated_ignored_iff _ _ _ (.inl (by decide))).mpr (.inl (by decide))

def zeroFrame : Bytes := List.replicate 40 0

/-- Forty zeros are answered with an error, and the first frame of the sender is
then taken for a replay. -/
theorem zero_frame_counts : ¬ ∀ (c : Crates) (cipher : TunnelCipher) (frame : Bytes),
    cipher.Unauthenticated c frame → cipher.NoEffect c frame := by
  intro hclaim
  have htag : (TunnelCipher.new sampleKey).Unauthenticated (Reference.crates []) zeroFrame :=
    .inr (by decide +kernel)
  have hunchanged := (hclaim _ _ _ htag).unchanged
  exact absurd (congrArg rxSeq hunchanged) (by decide +kernel)

end ForgedFrames

end AuraChain
