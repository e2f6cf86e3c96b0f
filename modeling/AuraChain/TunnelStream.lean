import AuraChain.Encoding
import AuraChain.Reference
import AuraChain.TunnelCipher
import AuraChain.Wal

/-! The tunnel from the SOCKS5 client to the exit node. The client sends one
frame with the target and one frame for each chunk that it reads from the
browser, each behind its length. The exit node reads them with one cipher. -/

namespace AuraChain

open Bincode

inductive SocksError
  | unexpectedEof
  | unsupportedVersion
  | onlyConnect
  | invalidUtf8
  | unsupportedAddressType
  deriving DecidableEq

/-- A target as the request can carry it. -/
structure SocksTarget where
  host : Bytes
  port : UInt16
  isUtf8 : IsUtf8 host
  length_le : host.length ≤ 255
  deriving DecidableEq

/-- What one read of the 16384 byte buffer returns before the end. -/
structure Chunk where
  bytes : Bytes
  ne_nil : bytes ≠ []
  length_le : bytes.length ≤ 16384
  deriving DecidableEq

def socksRead (n : Nat) (rest : Bytes) : Except SocksError (Bytes × Bytes) :=
  match readExact n rest with
  | none => .error .unexpectedEof
  | some r => .ok r

def dottedQuad (ip : Bytes) : Bytes :=
  utf8 (toString (ip.getD 0 0).toNat ++ "." ++ toString (ip.getD 1 0).toNat ++ "." ++
    toString (ip.getD 2 0).toNat ++ "." ++ toString (ip.getD 3 0).toNat)

/-- The target host: an address as text, or a domain name behind the byte that
holds its length. -/
def socksHost (atyp : UInt8) (rest : Bytes) : Except SocksError (Bytes × Bytes) :=
  if atyp = 0x01 then do
    let (ip, rest) ← socksRead 4 rest
    return (dottedQuad ip, rest)
  else if atyp = 0x03 then do
    let (len, rest) ← socksRead 1 rest
    let (domain, rest) ← socksRead (len.getD 0 0).toNat rest
    match fromUtf8 domain with
    | none => .error .invalidUtf8
    | some host => return (host, rest)
  else .error .unsupportedAddressType

def socksRequest (input : Bytes) : Except SocksError (Bytes × UInt16 × Bytes) := do
  let (header, rest) ← socksRead 2 input
  if header.getD 0 0 ≠ 0x05 then .error .unsupportedVersion
  else
    let (_, rest) ← socksRead (header.getD 1 0).toNat rest
    let (reqHeader, rest) ← socksRead 4 rest
    if reqHeader.getD 1 0 ≠ 0x01 then .error .onlyConnect
    else
      let (host, rest) ← socksHost (reqHeader.getD 3 0) rest
      let (port, rest) ← socksRead 2 rest
      return (host, UInt16.ofNat (ofBigEndian port), rest)

def wireFrame (enc : Bytes) : Bytes := (UInt32.ofNat enc.length).toBeBytes ++ enc

def connectTcpFrame (streamId : UInt32) (target : SocksTarget) : TunnelFrame :=
  .connectTcp streamId target.host target.port

def dataFrame (streamId : UInt32) (chunk : Chunk) : TunnelFrame := .data streamId chunk.bytes

def forwardChunks (c : Crates) (streamId : UInt32) : TunnelCipher → List Chunk → List Bytes
  | _, [] => []
  | localCipher, chunk :: chunks =>
    let (localCipher, enc) := localCipher.encrypt c (dataFrame streamId chunk).toBytes
    enc :: forwardChunks c streamId localCipher chunks

/-- Everything that a connection sends. The forwarding loop makes a cipher of
its own. -/
def handleSocks5Connection (c : Crates) (sessionKey : FixedBytes 32) (streamId : UInt32)
    (target : SocksTarget) (chunks : List Chunk) : List Bytes :=
  let cipher := TunnelCipher.new sessionKey
  let (_, enc) := cipher.encrypt c (connectTcpFrame streamId target).toBytes
  let localCipher := TunnelCipher.new sessionKey
  enc :: forwardChunks c streamId localCipher chunks

inductive TunnelEnd
  | closed
  | unexpectedEof
  | cipher (error : CipherError)
  | bincode (error : BincodeError)
  deriving DecidableEq

/-- The frames that the exit node reads and how the session ends. -/
def tunnelLoop (c : Crates) : Nat → TunnelCipher → Bytes → List TunnelFrame × TunnelEnd
  | 0, _, _ => ([], .closed)
  | fuel + 1, cipher, stream =>
    match readExact 4 stream with
    | none => ([], .closed)
    | some (lenBuf, rest) =>
      let frameLen := (UInt32.fromBeBytes lenBuf).toNat
      match readExact frameLen rest with
      | none => ([], .unexpectedEof)
      | some (encFrame, rest) =>
        match cipher.decrypt c encFrame with
        | (_, .error e) => ([], .cipher e)
        | (cipher, .ok plainBytes) =>
          match TunnelFrame.fromBytes plainBytes with
          | .error e => ([], .bincode e)
          | .ok frame =>
            let (frames, outcome) := tunnelLoop c fuel cipher rest
            (frame :: frames, outcome)

/-- Each turn of the loop takes four bytes or ends it. -/
def handleTunnelClient (c : Crates) (cipher : TunnelCipher) (stream : Bytes) :
    List TunnelFrame × TunnelEnd :=
  tunnelLoop c stream.length cipher stream

def openFrames (c : Crates) : TunnelCipher → List Bytes → List TunnelFrame × TunnelEnd
  | _, [] => ([], .closed)
  | cipher, encFrame :: encFrames =>
    match cipher.decrypt c encFrame with
    | (_, .error e) => ([], .cipher e)
    | (cipher, .ok plainBytes) =>
      match TunnelFrame.fromBytes plainBytes with
      | .error e => ([], .bincode e)
      | .ok frame =>
        let (frames, outcome) := openFrames c cipher encFrames
        (frame :: frames, outcome)

section wire

variable {c : Crates} {cipher : TunnelCipher}

theorem tunnelLoop_wireFrame {enc : Bytes} (hlen : enc.length < 2 ^ 32) (fuel : Nat) (rest : Bytes) :
    tunnelLoop c (fuel + 1) cipher (wireFrame enc ++ rest) =
      match cipher.decrypt c enc with
      | (_, .error e) => ([], .cipher e)
      | (cipher, .ok plainBytes) =>
        match TunnelFrame.fromBytes plainBytes with
        | .error e => ([], .bincode e)
        | .ok frame =>
          let (frames, outcome) := tunnelLoop c fuel cipher rest
          (frame :: frames, outcome) := by
  have hlen : (UInt32.ofNat enc.length).toNat = enc.length := UInt32.toNat_ofNat_of_lt hlen
  rw [tunnelLoop, wireFrame, List.append_assoc,
    WriteAheadLog.readExact_append (UInt32.toBeBytes_length _)]
  simp only [UInt32.fromBeBytes_toBeBytes, hlen]
  rw [WriteAheadLog.readExact_append rfl]

theorem tunnelLoop_wire {encFrames : List Bytes} (hlen : ∀ enc ∈ encFrames, enc.length < 2 ^ 32)
    {fuel : Nat} (hfuel : encFrames.length ≤ fuel) :
    tunnelLoop c fuel cipher (encFrames.flatMap wireFrame) = openFrames c cipher encFrames := by
  induction encFrames generalizing cipher fuel with
  | nil =>
    cases fuel with
    | zero => rfl
    | succ fuel => rfl
  | cons enc encFrames ih =>
    obtain ⟨henc, hrest⟩ := List.forall_mem_cons.mp hlen
    obtain ⟨fuel, rfl⟩ : ∃ n, fuel = n + 1 := ⟨fuel - 1, by simp at hfuel; omega⟩
    have hfuel' : encFrames.length ≤ fuel := by simpa using hfuel
    rw [List.flatMap_cons, tunnelLoop_wireFrame henc, openFrames]
    rcases cipher.decrypt c enc with ⟨cipher', answer⟩
    cases answer with
    | error e => rfl
    | ok plainBytes =>
      simp only
      cases TunnelFrame.fromBytes plainBytes with
      | error e => rfl
      | ok frame => simp only [ih hrest hfuel']

theorem length_wire (encFrames : List Bytes) :
    encFrames.length ≤ (encFrames.flatMap wireFrame).length := by
  induction encFrames with
  | nil => exact Nat.zero_le _
  | cons enc encFrames ih =>
    rw [List.flatMap_cons, List.length_append, wireFrame, List.length_append,
      UInt32.toBeBytes_length, List.length_cons]
    omega

theorem handleTunnelClient_wire {encFrames : List Bytes}
    (hlen : ∀ enc ∈ encFrames, enc.length < 2 ^ 32) :
    handleTunnelClient c cipher (encFrames.flatMap wireFrame) = openFrames c cipher encFrames :=
  tunnelLoop_wire hlen (length_wire encFrames)

theorem openFrames_sealed {seq : UInt64} {frame : TunnelFrame} (hseq : cipher.rxSeq ≤ seq)
    (hframe : frame.Representable) (encFrames : List Bytes) :
    openFrames c cipher (sealed c cipher.sessionKey seq frame.toBytes :: encFrames) =
      (frame :: (openFrames c { cipher with rxSeq := seq + 1 } encFrames).1,
        (openFrames c { cipher with rxSeq := seq + 1 } encFrames).2) := by
  have hread : TunnelFrame.fromBytes frame.toBytes = .ok frame :=
    (TunnelFrame.reads hframe).parse_exact
  rw [openFrames, TunnelCipher.decrypt_sealed hseq]
  simp only [hread]

theorem openFrames_replay {seq : UInt64} {plaintext : Bytes} (hseq : seq < cipher.rxSeq)
    (sessionKey : FixedBytes 32) (encFrames : List Bytes) :
    openFrames c cipher (sealed c sessionKey seq plaintext :: encFrames) =
      ([], .cipher (.replayDetected cipher.rxSeq seq)) := by
  have hlen : 40 ≤ (sealed c sessionKey seq plaintext).length := by
    rw [length_sealed]
    omega
  have hlt : frameSeq (sealed c sessionKey seq plaintext) < cipher.rxSeq := by
    rwa [frameSeq_sealed]
  rw [openFrames, TunnelCipher.decrypt_replay hlen hlt, frameSeq_sealed]

end wire

section frames

variable {c : Crates} (sessionKey : FixedBytes 32) (streamId : UInt32) (target : SocksTarget)

theorem forwardChunks_cons (c : Crates) (localCipher : TunnelCipher) (chunk : Chunk)
    (chunks : List Chunk) : forwardChunks c streamId localCipher (chunk :: chunks) =
      sealed c localCipher.sessionKey localCipher.txSeq (dataFrame streamId chunk).toBytes ::
        forwardChunks c streamId { localCipher with txSeq := localCipher.txSeq + 1 } chunks := rfl

theorem handleSocks5Connection_eq (c : Crates) (chunks : List Chunk) :
    handleSocks5Connection c sessionKey streamId target chunks =
      sealed c sessionKey 0 (connectTcpFrame streamId target).toBytes ::
        forwardChunks c streamId (TunnelCipher.new sessionKey) chunks := rfl

theorem connectTcpFrame_representable : (connectTcpFrame streamId target).Representable := by
  have hlen := target.length_le
  exact ⟨target.isUtf8, by omega⟩

theorem length_serializeU32 (n : UInt32) : (serializeU32 n).length = 4 :=
  Reference.littleEndian_length 4 _

theorem length_serializeLen (n : Nat) : (serializeLen n).length = 8 :=
  Reference.littleEndian_length 8 _

theorem length_connectTcpFrame : (connectTcpFrame streamId target).toBytes.length ≤ 273 := by
  have hlen := target.length_le
  have hport : (serializeU16 target.port).length = 2 := Reference.littleEndian_length 2 _
  simp only [TunnelFrame.toBytes, connectTcpFrame, TunnelFrame.serialize, serializeVariant,
    serializeString, serializeBytes, List.length_append, length_serializeU32, length_serializeLen,
    hport]
  omega

theorem length_dataFrame (chunk : Chunk) : (dataFrame streamId chunk).toBytes.length ≤ 16400 := by
  have hlen := chunk.length_le
  simp only [TunnelFrame.toBytes, dataFrame, TunnelFrame.serialize, serializeVariant,
    ← serializeBytes_eq_vecU8, serializeBytes, List.length_append, length_serializeU32,
    length_serializeLen]
  omega

theorem length_forwardChunks (localCipher : TunnelCipher) (chunks : List Chunk) :
    ∀ enc ∈ forwardChunks c streamId localCipher chunks, enc.length < 2 ^ 32 := by
  induction chunks generalizing localCipher with
  | nil => simp [forwardChunks]
  | cons chunk chunks ih =>
    have hdata := length_dataFrame streamId chunk
    rw [forwardChunks_cons]
    refine List.forall_mem_cons.mpr ⟨?_, ih _⟩
    rw [length_sealed]
    omega

theorem length_handleSocks5Connection (chunks : List Chunk) :
    ∀ enc ∈ handleSocks5Connection c sessionKey streamId target chunks, enc.length < 2 ^ 32 := by
  have hconnect := length_connectTcpFrame streamId target
  rw [handleSocks5Connection_eq]
  refine List.forall_mem_cons.mpr ⟨?_, length_forwardChunks streamId _ chunks⟩
  rw [length_sealed]
  omega

end frames

/-- The exit node reads the target, and it reads nothing after it: the first
chunk comes under the number of the target again. -/
theorem tunnel_session (c : Crates) (sessionKey : FixedBytes 32) (streamId : UInt32)
    (target : SocksTarget) (chunks : List Chunk) :
    handleTunnelClient c (TunnelCipher.new sessionKey)
        ((handleSocks5Connection c sessionKey streamId target chunks).flatMap wireFrame) =
      ([connectTcpFrame streamId target],
        if chunks = [] then .closed else .cipher (.replayDetected 1 0)) := by
  rw [handleTunnelClient_wire (length_handleSocks5Connection sessionKey streamId target chunks)]
  have hfresh : (TunnelCipher.new sessionKey).rxSeq ≤ 0 := UInt64.le_refl 0
  refine (openFrames_sealed hfresh (connectTcpFrame_representable streamId target)
    (forwardChunks c streamId (TunnelCipher.new sessionKey) chunks)).trans ?_
  cases chunks with
  | nil => rfl
  | cons chunk chunks =>
    have hpassed : (0 : UInt64) < 0 + 1 := by decide
    rw [forwardChunks_cons, openFrames_replay hpassed, if_neg (List.cons_ne_nil _ _)]
    rfl

theorem tunnel_agrees_iff (c : Crates) (sessionKey : FixedBytes 32) (streamId : UInt32)
    (target : SocksTarget) (chunks : List Chunk) :
    handleTunnelClient c (TunnelCipher.new sessionKey)
        ((handleSocks5Connection c sessionKey streamId target chunks).flatMap wireFrame) =
      (connectTcpFrame streamId target :: chunks.map (dataFrame streamId), .closed) ↔
    chunks = [] := by
  rw [tunnel_session]
  cases chunks with
  | nil => simp
  | cons chunk chunks => simp

def sampleTarget : SocksTarget := ⟨ascii "youtube.com", 443, ⟨"youtube.com", by decide⟩, by decide⟩

def sampleChunk : Chunk := ⟨ascii "GET /", by decide, by decide⟩

theorem tunnel_loses_chunk :
    handleTunnelClient (Reference.crates []) (TunnelCipher.new (Reference.secretKey 66))
        ((handleSocks5Connection (Reference.crates []) (Reference.secretKey 66) 1 sampleTarget
          [sampleChunk]).flatMap wireFrame) ≠
      (connectTcpFrame 1 sampleTarget :: [sampleChunk].map (dataFrame 1), .closed) := by
  rw [tunnel_session]
  simp

end AuraChain
