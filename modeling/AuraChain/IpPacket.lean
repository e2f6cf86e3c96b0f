import AuraChain.Types

/-! The packets that the Android app reads from and writes to its TUN device.
Every read of a byte can go past the end of the array. -/

namespace AuraChain

inductive KotlinException
  | indexOutOfBounds
  deriving DecidableEq

abbrev Inet4Address := FixedBytes 4

namespace IpPacketParser

def protocolTcp : Nat := 6
def protocolUdp : Nat := 17

structure ParsedPacket where
  version : Nat
  protocol : Nat
  sourceIp : Inet4Address
  destIp : Inet4Address
  sourcePort : Nat
  destPort : Nat
  payload : Bytes
  rawPacket : Bytes
  deriving DecidableEq

def byteAt (packet : Bytes) (i : Nat) : Except KotlinException UInt8 :=
  match packet[i]? with
  | some b => .ok b
  | none => .error .indexOutOfBounds

def shortAt (packet : Bytes) (i : Nat) : Except KotlinException Nat := do
  let high ← byteAt packet i
  let low ← byteAt packet (i + 1)
  return high.toNat <<< 8 ||| low.toNat

def inet4At (packet : Bytes) (i : Nat) : Except KotlinException Inet4Address := do
  let a ← byteAt packet i
  let b ← byteAt packet (i + 1)
  let c ← byteAt packet (i + 2)
  let d ← byteAt packet (i + 3)
  return ⟨[a, b, c, d], rfl⟩

/-- The ports of a TCP or UDP packet, and where its payload begins. -/
def transportHeader (packet : Bytes) (protocol ihl : Nat) :
    Except KotlinException (Nat × Nat × Nat) :=
  if protocol = protocolTcp ∧ ihl + 20 ≤ packet.length then do
    let srcPort ← shortAt packet ihl
    let dstPort ← shortAt packet (ihl + 2)
    let dataOffset ← byteAt packet (ihl + 12)
    return (srcPort, dstPort, ihl + ((dataOffset.toNat &&& 0xF0) >>> 4) * 4)
  else if protocol = protocolUdp ∧ ihl + 8 ≤ packet.length then do
    let srcPort ← shortAt packet ihl
    let dstPort ← shortAt packet (ihl + 2)
    return (srcPort, dstPort, ihl + 8)
  else return (0, 0, ihl)

def parse (packet : Bytes) : Except KotlinException (Option ParsedPacket) :=
  if packet.length < 20 then return none
  else do
    let versionAndIhl ← byteAt packet 0
    let version := versionAndIhl.toNat >>> 4
    if version ≠ 4 then return none
    else
      let ihl := (versionAndIhl.toNat &&& 0x0F) * 4
      if packet.length < ihl then return none
      else
        let protocol ← byteAt packet 9
        let srcIp ← inet4At packet 12
        let dstIp ← inet4At packet 16
        let (srcPort, dstPort, payloadOffset) ← transportHeader packet protocol.toNat ihl
        let payloadSize := packet.length - payloadOffset
        let payload :=
          if 0 < payloadSize ∧ payloadOffset + payloadSize ≤ packet.length then
            (packet.drop payloadOffset).take payloadSize
          else List.replicate payloadSize 0
        return some ⟨version, protocol.toNat, srcIp, dstIp, srcPort, dstPort, payload, packet⟩

/-- A 16-bit word, big endian; what does not fit is cut off. -/
def putShort (n : Nat) : Bytes := [UInt8.ofNat (n >>> 8), UInt8.ofNat n]

/-- The carries of the sum are added to it until there are none. -/
def foldCarries (sum : Nat) : Nat :=
  if 0 < sum >>> 16 then foldCarries ((sum &&& 0xFFFF) + (sum >>> 16)) else sum
termination_by sum
decreasing_by
  have hand : sum &&& 0xFFFF = sum % 2 ^ 16 := Nat.and_two_pow_sub_one_eq_mod sum 16
  omega

def sumWords : Bytes → Nat
  | [] => 0
  | [b] => b.toNat <<< 8
  | b :: b' :: data => (b.toNat <<< 8 ||| b'.toNat) + sumWords data

def calculateChecksum (data : Bytes) (offset length : Nat) : Nat :=
  0xFFFF - foldCarries (sumWords ((data.drop offset).take length))

def buildUdpPacket (srcIp dstIp : Inet4Address) (srcPort dstPort : Nat) (payload : Bytes) : Bytes :=
  let totalLength := 20 + 8 + payload.length
  let beforeChecksum := [0x45, 0x00] ++ putShort totalLength ++ putShort 0x0000 ++ putShort 0x4000 ++
    [64, UInt8.ofNat protocolUdp]
  let addresses := srcIp.bytes ++ dstIp.bytes
  let ipChecksum := calculateChecksum (beforeChecksum ++ putShort 0 ++ addresses) 0 20
  beforeChecksum ++ putShort ipChecksum ++ addresses ++ putShort srcPort ++ putShort dstPort ++
    putShort (8 + payload.length) ++ putShort 0 ++ payload

end IpPacketParser

end AuraChain
