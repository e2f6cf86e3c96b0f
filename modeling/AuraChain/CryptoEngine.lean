import AuraChain.KotlinText
import AuraChain.Types

/-! The keys and the frames of the Android app. SHA-256 and AES-GCM are the
platform's. A sequence number is a Kotlin `Long`, here its 64 bits. -/

namespace AuraChain

structure Jca where
  sha256 : Bytes → FixedBytes 32
  /-- Key, IV and plaintext; the tag stands at the end of the ciphertext. -/
  gcmEncrypt : FixedBytes 32 → Bytes → Bytes → Bytes
  gcmDecrypt : FixedBytes 32 → Bytes → Bytes → Option Bytes

/-- What AES-GCM promises of a key and an IV. -/
structure Jca.GcmDecrypts (j : Jca) : Prop where
  length : ∀ key iv plaintext, (j.gcmEncrypt key iv plaintext).length = plaintext.length + 16
  decrypt : ∀ key iv plaintext, j.gcmDecrypt key iv (j.gcmEncrypt key iv plaintext) = some plaintext

namespace CryptoEngine

def deriveSessionKey (j : Jca) (clientEphemeral hostEphemeral : Bytes) : FixedBytes 32 :=
  j.sha256 (clientEphemeral ++ hostEphemeral)

def packetIv (seq : UInt64) : Bytes := seq.toBeBytes ++ List.replicate 4 0

def encryptPacket (j : Jca) (plaintext : Bytes) (sessionKey : FixedBytes 32) (seq : UInt64) : Bytes :=
  seq.toBeBytes ++ j.gcmEncrypt sessionKey (packetIv seq) plaintext

/-- `none` is an exception: a frame that is too short, or a tag that is wrong. -/
def decryptPacket (j : Jca) (frame : Bytes) (sessionKey : FixedBytes 32) : Option Bytes :=
  if frame.length < 24 then none
  else
    let seq := UInt64.fromBeBytes (frame.take 8)
    j.gcmDecrypt sessionKey (packetIv seq) (frame.drop 8)

theorem packetIv_injective : Function.Injective packetIv := by
  intro seq seq' h
  have hlen : seq.toBeBytes.length = seq'.toBeBytes.length := by simp
  exact UInt64.toBeBytes_injective (List.append_inj_left h hlen)

theorem decryptPacket_encryptPacket {j : Jca} (hgcm : j.GcmDecrypts) (plaintext : Bytes)
    (sessionKey : FixedBytes 32) (seq : UInt64) :
    decryptPacket j (encryptPacket j plaintext sessionKey seq) sessionKey = some plaintext := by
  have hlen : ¬ (encryptPacket j plaintext sessionKey seq).length < 24 := by
    rw [encryptPacket, List.length_append, UInt64.toBeBytes_length, hgcm.length]
    omega
  have htake : (encryptPacket j plaintext sessionKey seq).take 8 = seq.toBeBytes :=
    List.take_left' (UInt64.toBeBytes_length seq)
  have hdrop : (encryptPacket j plaintext sessionKey seq).drop 8 =
      j.gcmEncrypt sessionKey (packetIv seq) plaintext :=
    List.drop_left' (UInt64.toBeBytes_length seq)
  rw [decryptPacket, if_neg hlen, htake, hdrop, UInt64.fromBeBytes_toBeBytes]
  exact hgcm.decrypt sessionKey (packetIv seq) plaintext

end CryptoEngine

namespace Reference

def gcmTag (key : FixedBytes 32) (iv plaintext : Bytes) : Bytes :=
  bigEndian 16 (ofBigEndian (key.bytes ++ iv ++ plaintext))

/-- Computable stand-ins that keep what is documented of the platform's. -/
def jca : Jca where
  sha256 data := FixedBytes.ofNat 32 (ofBigEndian data)
  gcmEncrypt key iv plaintext := plaintext ++ gcmTag key iv plaintext
  gcmDecrypt key iv ciphertext :=
    let plaintext := ciphertext.take (ciphertext.length - 16)
    if ciphertext = plaintext ++ gcmTag key iv plaintext then some plaintext else none

theorem gcmDecrypts : jca.GcmDecrypts where
  length key iv plaintext := by
    simp [jca, gcmTag]
  decrypt key iv plaintext := by
    have htag : (gcmTag key iv plaintext).length = 16 := bigEndian_length 16 _
    have htake : (plaintext ++ gcmTag key iv plaintext).take
        ((plaintext ++ gcmTag key iv plaintext).length - 16) = plaintext := by
      rw [List.length_append, htag, Nat.add_sub_cancel, List.take_left]
    simp only [jca, htake, if_true]

end Reference

end AuraChain
