import AuraChain.CryptoEngine
import AuraChain.IpPacket
import AuraChain.TracedRun

/-! The exit node of the Android app. The commands of its service, the receive
loop and the coroutines that approve, reject and answer run beside each other;
every access to the map of approved clients is a step of its own. -/

namespace AuraChain

structure Datagram where
  clientIp : Text
  clientPort : Nat
  rawData : Bytes

inductive HostJob
  | approveEndpoint (clientIp : Text) (clientPort : Nat)
  | approveIp (clientIp : Text) (clientPort : Nat)
  | rejectEndpoint (clientIp : Text) (clientPort : Nat)
  | rejectIp (clientIp : Text) (clientPort : Nat)
  | udpReply (clientIp : Text) (clientPort : Nat) (sessionKey : FixedBytes 32)
      (parsedIp : IpPacketParser.ParsedPacket)

inductive ReceiveLoop
  | receiving
  /-- The map has no entry of the packet's endpoint. -/
  | checkingIp (packet : Datagram)
  | approved (packet : Datagram)
  | processing (packet : Datagram)

structure HostService where
  isRunning : Bool
  currentHostOtp : Text
  previousHostOtp : Text
  approvedClients : Finset Text
  receiveLoop : ReceiveLoop
  jobs : List HostJob

inductive HostEvent
  | startHost (hostOtp prevOtp : Option Text)
  | updateOtp (hostOtp : Option Text)
  | approvePeer (clientIp : Option Text) (clientPort : Option Int)
  | rejectPeer (clientIp : Option Text) (clientPort : Option Int)
  | receive (packet : Datagram)
  | loopStep
  | runJob (job : Nat)
  /-- The answer to a forwarded UDP packet, and the clock when it is encrypted. -/
  | udpResponse (job : Nat) (respPayload : Bytes) (currentTimeMillis : UInt64)
  /-- A forwarded UDP packet cannot be sent, or nothing comes back in three seconds. -/
  | udpLost (job : Nat)

/-- Where the sequence number of an encrypted packet comes from. -/
inductive SeqSource
  | client (connection : Nat)
  | synAck
  | udpReply (currentTimeMillis : UInt64)
  deriving DecidableEq

structure EncryptCall where
  source : SeqSource
  plaintext : Bytes
  sessionKey : FixedBytes 32
  seq : UInt64
  deriving DecidableEq

inductive HostEntry
  | started
  | codeSet (otp : Text)
  | pairRequestArrived (clientIp : Text) (clientPort : Nat) (clientDeviceName otpCode : Text)
  | approvePeer (clientIp : Text) (clientPort : Nat)
  | rejectPeer (clientIp : Text) (clientPort : Nat)
  | approved (clientIp : Text) (clientPort : Nat)
  | rejected (clientIp : Text) (clientPort : Nat)
  /-- The packet passes the approval check, or it is dropped there. -/
  | passed (clientIp : Text) (clientPort : Nat)
  | ignored (clientIp : Text) (clientPort : Nat)
  | processed (clientIp : Text) (clientPort : Nat) (sessionKey : FixedBytes 32)
  | encrypted (call : EncryptCall)
  | sent (clientIp : Text) (clientPort : Nat) (data : Bytes)
  deriving DecidableEq

def endpoint (clientIp : Text) (clientPort : Nat) : Text :=
  clientIp ++ ':' :: Nat.toDigits 10 clientPort

def secureSalt : Bytes := Text.encode "AURA_SECURE_SALT".toList

def pairRequestTag : Text := "AURA_PAIR_REQ:".toList

def readPairRequest (text : Text) : Option (Text × Text) :=
  match text.splitOn ':' with
  | _ :: otp :: clientDeviceName :: _ => some (Text.trim otp, Text.trim clientDeviceName)
  | _ => none

def pairRejected : Bytes := Text.encode "AURA_PAIR_REJECTED:INVALID_CODE".toList
def userDeclined : Bytes := Text.encode "AURA_PAIR_REJECTED:USER_DECLINED".toList
def synAck : Bytes := Text.encode "AURA_ACK:ESTABLISHED".toList

def pairApproved (currentHostOtp : Text) : Bytes :=
  Text.encode ("AURA_PAIR_APPROVED:".toList ++ currentHostOtp ++ ":HOST_OK".toList)

/-- The key of everybody who has paired with the code. -/
def codeKey (j : Jca) (otp : Text) : FixedBytes 32 :=
  CryptoEngine.deriveSessionKey j (Text.encode otp) secureSalt

namespace HostService

def new : HostService := ⟨false, [], [], ∅, .receiving, []⟩

def startHostServer (s : HostService) : HostService × List HostEntry :=
  if s.isRunning then (s, [])
  else ({ s with isRunning := true, approvedClients := ∅ }, [.started])

def startHost (s : HostService) (hostOtp prevOtp : Option Text) : HostService × List HostEntry :=
  let otp := hostOtp.getD []
  if 5 ≤ Text.length16 otp then
    let s' := { s with currentHostOtp := otp, previousHostOtp := prevOtp.getD otp }
    (s'.startHostServer.1, .codeSet otp :: s'.startHostServer.2)
  else (s, [])

def updateOtp (s : HostService) (hostOtp : Option Text) : HostService × List HostEntry :=
  let newOtp := hostOtp.getD []
  if newOtp ≠ [] then
    ({ s with previousHostOtp := s.currentHostOtp, currentHostOtp := newOtp }, [.codeSet newOtp])
  else (s, [])

/-- The commands that approve and reject only launch a coroutine. -/
def launchFor (s : HostService) (clientIp : Option Text) (clientPort : Option Int)
    (job : Text → Nat → HostJob) (entry : Text → Nat → HostEntry) : HostService × List HostEntry :=
  let ip := clientIp.getD []
  let port := clientPort.getD 0
  if ip ≠ [] ∧ 0 < port then
    ({ s with jobs := s.jobs ++ [job ip port.toNat] }, [entry ip port.toNat])
  else (s, [])

def approvePeer (s : HostService) (clientIp : Option Text) (clientPort : Option Int) :
    HostService × List HostEntry :=
  s.launchFor clientIp clientPort .approveEndpoint .approvePeer

def rejectPeer (s : HostService) (clientIp : Option Text) (clientPort : Option Int) :
    HostService × List HostEntry :=
  s.launchFor clientIp clientPort .rejectEndpoint .rejectPeer

def handlePairRequest (s : HostService) (packet : Datagram) (text : Text) : List HostEntry :=
  match readPairRequest text with
  | some (reqOtp, clientDeviceName) =>
    if reqOtp = s.currentHostOtp ∨ reqOtp = s.previousHostOtp then
      [.pairRequestArrived packet.clientIp packet.clientPort clientDeviceName reqOtp]
    else [.sent packet.clientIp packet.clientPort pairRejected]
  | none => []

def receive (s : HostService) (packet : Datagram) : HostService × List HostEntry :=
  let text := Text.decode packet.rawData
  if pairRequestTag.isPrefixOf text then (s, s.handlePairRequest packet text)
  else if endpoint packet.clientIp packet.clientPort ∈ s.approvedClients then
    ({ s with receiveLoop := .approved packet }, [.passed packet.clientIp packet.clientPort])
  else ({ s with receiveLoop := .checkingIp packet }, [])

def effectiveOtp (s : HostService) : Text :=
  if s.currentHostOtp ≠ [] then s.currentHostOtp else s.previousHostOtp

/-- What the host does with a packet that it has decrypted: the coroutines that
it launches, and what it sends. -/
def forward (j : Jca) (packet : Datagram) (sessionKey : FixedBytes 32) (decrypted : Bytes) :
    List HostJob × List HostEntry :=
  if "AURA_SYN:".toList.isPrefixOf (Text.decode decrypted) then
    ([], [.encrypted ⟨.synAck, synAck, sessionKey, 0⟩,
      .sent packet.clientIp packet.clientPort (CryptoEngine.encryptPacket j synAck sessionKey 0)])
  else
    match IpPacketParser.parse decrypted with
    | .ok (some parsedIp) =>
      if parsedIp.protocol = IpPacketParser.protocolUdp ∧ 0 < parsedIp.destPort then
        ([.udpReply packet.clientIp packet.clientPort sessionKey parsedIp], [])
      else ([], [])
    | _ => ([], [])

def processPacket (j : Jca) (s : HostService) (packet : Datagram) : HostService × List HostEntry :=
  let sessionKey := codeKey j s.effectiveOtp
  let result :=
    if 24 ≤ packet.rawData.length then
      match CryptoEngine.decryptPacket j packet.rawData sessionKey with
      | some decrypted => forward j packet sessionKey decrypted
      | none => ([], [])
    else ([], [])
  ({ s with receiveLoop := .receiving, jobs := s.jobs ++ result.1 },
    .processed packet.clientIp packet.clientPort sessionKey :: result.2)

def loopStep (j : Jca) (s : HostService) : Option (HostService × List HostEntry) :=
  match s.receiveLoop with
  | .receiving => none
  | .checkingIp packet =>
    if packet.clientIp ∈ s.approvedClients then
      some ({ s with receiveLoop := .approved packet }, [.passed packet.clientIp packet.clientPort])
    else some ({ s with receiveLoop := .receiving }, [.ignored packet.clientIp packet.clientPort])
  | .approved packet =>
    some ({ s with approvedClients :=
                     insert (endpoint packet.clientIp packet.clientPort) s.approvedClients
                   receiveLoop := .processing packet }, [])
  | .processing packet => some (s.processPacket j packet)

def runJob (s : HostService) (job : Nat) : Option (HostService × List HostEntry) :=
  match s.jobs[job]? with
  | some (.approveEndpoint clientIp clientPort) =>
    some ({ s with approvedClients := insert (endpoint clientIp clientPort) s.approvedClients
                   jobs := s.jobs.set job (.approveIp clientIp clientPort) }, [])
  | some (.approveIp clientIp clientPort) =>
    some ({ s with approvedClients := insert clientIp s.approvedClients
                   jobs := s.jobs.eraseIdx job },
      [.approved clientIp clientPort, .sent clientIp clientPort (pairApproved s.currentHostOtp)])
  | some (.rejectEndpoint clientIp clientPort) =>
    some ({ s with approvedClients := s.approvedClients.erase (endpoint clientIp clientPort)
                   jobs := s.jobs.set job (.rejectIp clientIp clientPort) }, [])
  | some (.rejectIp clientIp clientPort) =>
    some ({ s with approvedClients := s.approvedClients.erase clientIp
                   jobs := s.jobs.eraseIdx job },
      [.rejected clientIp clientPort, .sent clientIp clientPort userDeclined])
  | _ => none

def udpResponse (j : Jca) (s : HostService) (job : Nat) (respPayload : Bytes)
    (currentTimeMillis : UInt64) : Option (HostService × List HostEntry) :=
  match s.jobs[job]? with
  | some (.udpReply clientIp clientPort sessionKey parsedIp) =>
    let reconstructed := IpPacketParser.buildUdpPacket parsedIp.destIp parsedIp.sourceIp
      parsedIp.destPort parsedIp.sourcePort (respPayload.take 4096)
    some ({ s with jobs := s.jobs.eraseIdx job },
      [.encrypted ⟨.udpReply currentTimeMillis, reconstructed, sessionKey, currentTimeMillis⟩,
        .sent clientIp clientPort
          (CryptoEngine.encryptPacket j reconstructed sessionKey currentTimeMillis)])
  | _ => none

def udpLost (s : HostService) (job : Nat) : Option (HostService × List HostEntry) :=
  match s.jobs[job]? with
  | some (.udpReply ..) => some ({ s with jobs := s.jobs.eraseIdx job }, [])
  | _ => none

def step (j : Jca) (s : HostService) : HostEvent → Option (HostService × List HostEntry)
  | .startHost hostOtp prevOtp => some (s.startHost hostOtp prevOtp)
  | .updateOtp hostOtp => some (s.updateOtp hostOtp)
  | .approvePeer clientIp clientPort => some (s.approvePeer clientIp clientPort)
  | .rejectPeer clientIp clientPort => some (s.rejectPeer clientIp clientPort)
  | .receive packet =>
    match s.isRunning, s.receiveLoop with
    | true, .receiving => some (s.receive packet)
    | _, _ => none
  | .loopStep => s.loopStep j
  | .runJob job => s.runJob job
  | .udpResponse job respPayload currentTimeMillis =>
    s.udpResponse j job respPayload currentTimeMillis
  | .udpLost job => s.udpLost job

end HostService

end AuraChain
