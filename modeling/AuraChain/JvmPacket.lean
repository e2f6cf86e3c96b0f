import AuraChain.IpPacket
import AuraChain.JavaBytes
import AuraChain.OnesComplement

/-! The parser and the builder of packets on signed bytes and a byte buffer, as
the app runs them. They do what the model over unsigned bytes does; what is
built has a valid header checksum and parses back. -/

namespace AuraChain

namespace IpPacketParser

theorem word_lt (b b' : UInt8) : b.toNat <<< 8 ||| b'.toNat < 2 ^ 16 := by
  have hb := b.toNat_lt
  have hb' : b'.toNat < 2 ^ 16 := Nat.lt_of_lt_of_le b'.toNat_lt (by decide)
  have hshift : b.toNat <<< 8 < 2 ^ 16 := by
    rw [Nat.shiftLeft_eq]
    omega
  exact Nat.or_lt_two_pow hshift hb'

theorem sumWords_le (data : Bytes) : sumWords data ≤ 0xFFFF * data.length := by
  induction data using sumWords.induct with
  | case1 => exact Nat.zero_le _
  | case2 b =>
    have hb := b.toNat_lt
    rw [sumWords, Nat.shiftLeft_eq, List.length_singleton]
    omega
  | case3 b b' data ih =>
    have hword := word_lt b b'
    rw [sumWords, List.length_cons, List.length_cons]
    omega

theorem foldCarries_lt (sum : Nat) : foldCarries sum < 2 ^ 16 := by
  induction sum using foldCarries.induct with
  | case1 sum hcarry ih =>
    rw [foldCarries, if_pos hcarry]
    exact ih
  | case2 sum hcarry =>
    rw [foldCarries, if_neg hcarry]
    rw [Nat.shiftRight_eq_div_pow] at hcarry
    omega

namespace Jvm

structure Inet4Address where
  address : Java.Bytes
  size : address.length = 4
  deriving DecidableEq

structure ParsedPacket where
  version : Int32
  protocol : Int32
  sourceIp : Inet4Address
  destIp : Inet4Address
  sourcePort : Int32
  destPort : Int32
  payload : Java.Bytes
  rawPacket : Java.Bytes
  deriving DecidableEq

def shortAt (packet : Java.Bytes) (i : Nat) : Except Java.Exception Int32 := do
  let high ← Java.get packet i
  let low ← Java.get packet (i + 1)
  return Java.unsigned high <<< 8 ||| Java.unsigned low

def inet4At (packet : Java.Bytes) (i : Nat) : Except Java.Exception Inet4Address := do
  let a ← Java.get packet i
  let b ← Java.get packet (i + 1)
  let c ← Java.get packet (i + 2)
  let d ← Java.get packet (i + 3)
  return ⟨[a, b, c, d], rfl⟩

def transportHeader (packet : Java.Bytes) (protocol : Int32) (ihl : Nat) :
    Except Java.Exception (Int32 × Int32 × Nat) :=
  if protocol = 6 ∧ ihl + 20 ≤ packet.length then do
    let srcPort ← shortAt packet ihl
    let dstPort ← shortAt packet (ihl + 2)
    let dataOffset ← Java.get packet (ihl + 12)
    return (srcPort, dstPort, ihl + (((dataOffset.toInt32 &&& 0xF0) >>> 4) * 4).toNatClampNeg)
  else if protocol = 17 ∧ ihl + 8 ≤ packet.length then do
    let srcPort ← shortAt packet ihl
    let dstPort ← shortAt packet (ihl + 2)
    return (srcPort, dstPort, ihl + 8)
  else return (0, 0, ihl)

def parse (packet : Java.Bytes) : Except Java.Exception (Option ParsedPacket) :=
  if packet.length < 20 then return none
  else do
    let first ← Java.get packet 0
    let versionAndIhl := Java.unsigned first
    let version := versionAndIhl >>> 4
    if version ≠ 4 then return none
    else
      let ihl := ((versionAndIhl &&& 0x0F) * 4).toNatClampNeg
      if packet.length < ihl then return none
      else
        let protocolByte ← Java.get packet 9
        let protocol := Java.unsigned protocolByte
        let srcIp ← inet4At packet 12
        let dstIp ← inet4At packet 16
        let (srcPort, dstPort, payloadOffset) ← transportHeader packet protocol ihl
        let payloadSize := packet.length - payloadOffset
        let payload :=
          if 0 < payloadSize ∧ payloadOffset + payloadSize ≤ packet.length then
            (packet.drop payloadOffset).take payloadSize
          else List.replicate payloadSize 0
        return some ⟨version, protocol, srcIp, dstIp, srcPort, dstPort, payload, packet⟩

/-- The loop over the words, and the odd byte after it. -/
def sumWords (data : Java.Bytes) (stop i : Nat) (sum : Int32) : Except Java.Exception Int32 :=
  if i + 1 < stop then do
    let word ← shortAt data i
    sumWords data stop (i + 2) (sum + word)
  else if i < stop then do
    let high ← Java.get data i
    return sum + Java.unsigned high <<< 8
  else return sum
termination_by stop - i

def foldCarries (sum : Int32) : Int32 :=
  if (0 : Int32) < sum >>> 16 then foldCarries ((sum &&& (0xFFFF : Int32)) + sum >>> 16) else sum
termination_by sum.toNatClampNeg
decreasing_by
  rename_i hcarry
  obtain ⟨n, hn, hpos, rfl⟩ := Java.eq_ofNat_of_carry hcarry
  have hlt := Java.fold_lt hpos
  rw [Java.fold_ofNat hn, Int32.toNatClampNeg_ofNat_of_lt (by omega),
    Int32.toNatClampNeg_ofNat_of_lt hn]
  exact hlt

def calculateChecksum (data : Java.Bytes) (offset length : Nat) : Except Java.Exception Int32 := do
  let sum ← sumWords data (offset + length) offset 0
  return ~~~ foldCarries sum &&& (0xFFFF : Int32)

def buildUdpPacket (srcIp dstIp : Inet4Address) (srcPort dstPort : Int32) (payload : Java.Bytes) :
    Except Java.Exception Java.Bytes := do
  let totalLength : Int32 := 20 + 8 + Int32.ofNat payload.length
  let packet ← Java.ByteBuffer.allocate totalLength
  let packet ← packet.put 0x45
  let packet ← packet.put 0x00
  let packet ← packet.putShort totalLength.toInt16
  let packet ← packet.putShort 0x0000
  let packet ← packet.putShort 0x4000
  let packet ← packet.put 64
  let packet ← packet.put 17
  let packet ← packet.putShort 0
  let packet ← packet.putAll srcIp.address
  let packet ← packet.putAll dstIp.address
  let ipChecksum ← calculateChecksum packet.array 0 20
  let packet ← packet.putShortAt 10 ipChecksum.toInt16
  let packet ← packet.setPosition 20
  let packet ← packet.putShort srcPort.toInt16
  let packet ← packet.putShort dstPort.toInt16
  let packet ← packet.putShort (8 + Int32.ofNat payload.length).toInt16
  let packet ← packet.putShort 0
  let packet ← packet.putAll payload
  return packet.array

/-- The bytes, read as numbers from 0 to 255. -/
def octets (data : Java.Bytes) : Bytes := data.map Int8.toUInt8

def nat (x : Int32) : Nat := x.toBitVec.toNat

def Inet4Address.octets (ip : Inet4Address) : AuraChain.Inet4Address :=
  ⟨Jvm.octets ip.address, by rw [Jvm.octets, List.length_map, ip.size]⟩

def ParsedPacket.octets (parsed : ParsedPacket) : IpPacketParser.ParsedPacket where
  version := nat parsed.version
  protocol := nat parsed.protocol
  sourceIp := parsed.sourceIp.octets
  destIp := parsed.destIp.octets
  sourcePort := nat parsed.sourcePort
  destPort := nat parsed.destPort
  payload := Jvm.octets parsed.payload
  rawPacket := Jvm.octets parsed.rawPacket

/-- The outcome as the model over unsigned bytes has it. -/
def outcome {α β : Type} (f : α → β) : Except Java.Exception α → Except KotlinException β
  | .ok a => .ok (f a)
  | .error _ => .error .indexOutOfBounds

theorem outcome_bind {α β γ δ : Type} {f : α → β} {g : γ → δ} {x : Except Java.Exception α}
    {y : Except KotlinException β} {k : α → Except Java.Exception γ}
    {l : β → Except KotlinException δ} (hx : outcome f x = y)
    (hk : ∀ a, outcome g (k a) = l (f a)) : outcome g (x >>= k) = y >>= l := by
  subst hx
  cases x with
  | error e => rfl
  | ok a => exact hk a

@[simp] theorem length_octets (data : Java.Bytes) : (octets data).length = data.length :=
  List.length_map _

theorem octets_injective : Function.Injective octets := by
  refine List.map_injective_iff.mpr fun a b h => ?_
  have hback := congrArg UInt8.toInt8 h
  rwa [Int8.toInt8_toUInt8, Int8.toInt8_toUInt8] at hback

theorem nat_ofNat {a : Nat} (h : a < 2 ^ 32) : nat (Int32.ofNat a) = a :=
  Java.toNat_toBitVec_ofNat h

theorem nat_injective : Function.Injective nat :=
  fun _ _ h => Int32.toBitVec.inj (BitVec.eq_of_toNat_eq h)

theorem ofNat_nat (x : Int32) : Int32.ofNat (nat x) = x := Int32.ofNat_bitVecToNat x.toBitVec

theorem nat_unsigned (b : Int8) : nat (Java.unsigned b) = b.toUInt8.toNat := by
  have hb := b.toUInt8.toNat_lt
  rw [Java.unsigned_eq, nat_ofNat (by omega)]

theorem get_octets (packet : Java.Bytes) (i : Nat) :
    outcome Int8.toUInt8 (Java.get packet i) = byteAt (octets packet) i := by
  rw [Java.get, byteAt, octets, List.getElem?_map]
  cases packet[i]? <;> rfl

theorem nat_word (high low : Int8) :
    nat (Java.unsigned high <<< 8 ||| Java.unsigned low) =
      high.toUInt8.toNat <<< 8 ||| low.toUInt8.toNat := by
  have hword := word_lt high.toUInt8 low.toUInt8
  rw [Java.unsigned_eq, Java.unsigned_eq, Java.ofNat_shiftLeft_eight, Java.ofNat_or,
    nat_ofNat (by omega)]

theorem shortAt_octets (packet : Java.Bytes) (i : Nat) :
    outcome nat (shortAt packet i) = IpPacketParser.shortAt (octets packet) i := by
  rw [shortAt, IpPacketParser.shortAt]
  refine outcome_bind (get_octets packet i) fun high => ?_
  refine outcome_bind (get_octets packet (i + 1)) fun low => ?_
  exact congrArg Except.ok (nat_word high low)

theorem inet4At_octets (packet : Java.Bytes) (i : Nat) :
    outcome Inet4Address.octets (inet4At packet i) =
      IpPacketParser.inet4At (octets packet) i := by
  rw [inet4At, IpPacketParser.inet4At]
  refine outcome_bind (get_octets packet i) fun a => ?_
  refine outcome_bind (get_octets packet (i + 1)) fun b => ?_
  refine outcome_bind (get_octets packet (i + 2)) fun c => ?_
  refine outcome_bind (get_octets packet (i + 3)) fun d => ?_
  rfl

theorem unsigned_eq_iff {b : Int8} {a : Nat} (h : a < 2 ^ 32) :
    Java.unsigned b = Int32.ofNat a ↔ b.toUInt8.toNat = a := by
  rw [← nat_injective.eq_iff, nat_unsigned, nat_ofNat h]

theorem dataOffset_eq (b : Int8) : (((b.toInt32 &&& 0xF0) >>> 4) * 4).toNatClampNeg =
    ((b.toUInt8.toNat &&& 0xF0) >>> 4) * 4 := by
  have hmask : b.toInt32 &&& 0xF0 = Java.unsigned b &&& Int32.ofNat 0xF0 := by
    rw [Java.unsigned, Int32.and_assoc]
    rfl
  have hle : b.toUInt8.toNat &&& 0xF0 ≤ 0xF0 := Nat.and_le_right
  have hshift : (b.toUInt8.toNat &&& 0xF0) >>> 4 ≤ 15 := by
    rw [Nat.shiftRight_eq_div_pow]
    omega
  have hfour : (4 : Int32) = Int32.ofNat 4 := rfl
  rw [hmask, Java.unsigned_eq, Java.ofNat_and, Java.ofNat_shiftRight_four (by omega), hfour,
    ← Int32.ofNat_mul, Int32.toNatClampNeg_ofNat_of_lt (by omega)]

theorem ihl_eq (b : Int8) : ((Java.unsigned b &&& 0x0F) * 4).toNatClampNeg =
    (b.toUInt8.toNat &&& 0x0F) * 4 := by
  have hle : b.toUInt8.toNat &&& 0x0F ≤ 0x0F := Nat.and_le_right
  have hmask : (0x0F : Int32) = Int32.ofNat 0x0F := rfl
  have hfour : (4 : Int32) = Int32.ofNat 4 := rfl
  rw [Java.unsigned_eq, hmask, Java.ofNat_and, hfour, ← Int32.ofNat_mul,
    Int32.toNatClampNeg_ofNat_of_lt (by omega)]

theorem version_eq (b : Int8) : Java.unsigned b >>> 4 = Int32.ofNat (b.toUInt8.toNat >>> 4) := by
  have hb := b.toUInt8.toNat_lt
  rw [Java.unsigned_eq, Java.ofNat_shiftRight_four (by omega)]

/-- The ports and the place of the payload. -/
def transportOctets (t : Int32 × Int32 × Nat) : Nat × Nat × Nat := (nat t.1, nat t.2.1, t.2.2)

theorem transportHeader_octets (packet : Java.Bytes) (protocol : Int8) (ihl : Nat) :
    outcome transportOctets (transportHeader packet (Java.unsigned protocol) ihl) =
      IpPacketParser.transportHeader (octets packet) protocol.toUInt8.toNat ihl := by
  have htcp : Java.unsigned protocol = 6 ↔ protocol.toUInt8.toNat = protocolTcp :=
    unsigned_eq_iff (by decide)
  have hudp : Java.unsigned protocol = 17 ↔ protocol.toUInt8.toNat = protocolUdp :=
    unsigned_eq_iff (by decide)
  simp only [transportHeader, IpPacketParser.transportHeader, htcp, hudp, length_octets]
  split_ifs
  · refine outcome_bind (shortAt_octets packet ihl) fun srcPort => ?_
    refine outcome_bind (shortAt_octets packet (ihl + 2)) fun dstPort => ?_
    refine outcome_bind (get_octets packet (ihl + 12)) fun dataOffset => ?_
    rw [← dataOffset_eq]
    rfl
  · refine outcome_bind (shortAt_octets packet ihl) fun srcPort => ?_
    refine outcome_bind (shortAt_octets packet (ihl + 2)) fun dstPort => ?_
    rfl
  · rfl

theorem payload_octets (packet : Java.Bytes) (offset size : Nat) :
    octets (if 0 < size ∧ offset + size ≤ packet.length then (packet.drop offset).take size
      else List.replicate size 0) =
    if 0 < size ∧ offset + size ≤ packet.length then ((octets packet).drop offset).take size
      else List.replicate size 0 := by
  split_ifs
  · rw [octets, List.map_take, List.map_drop, octets]
  · rw [octets, List.map_replicate]
    rfl

/-- The parser on signed bytes finds what the one on unsigned bytes finds. -/
theorem parse_octets (packet : Java.Bytes) :
    outcome (Option.map ParsedPacket.octets) (parse packet) =
      IpPacketParser.parse (octets packet) := by
  rw [parse, IpPacketParser.parse, length_octets]
  by_cases hshort : packet.length < 20
  · rw [if_pos hshort, if_pos hshort]
    rfl
  rw [if_neg hshort, if_neg hshort]
  refine outcome_bind (get_octets packet 0) fun first => ?_
  have hfirst := first.toUInt8.toNat_lt
  have hshift := Nat.shiftRight_le first.toUInt8.toNat 4
  have hversion : Java.unsigned first >>> 4 ≠ 4 ↔ first.toUInt8.toNat >>> 4 ≠ 4 := by
    rw [version_eq, not_iff_not]
    refine ⟨Java.ofNat_inj (by omega) (by decide), fun h => ?_⟩
    rw [h]
    rfl
  simp only [hversion, ihl_eq]
  split_ifs with hother hcut
  · rfl
  · rfl
  · refine outcome_bind (get_octets packet 9) fun protocol => ?_
    refine outcome_bind (inet4At_octets packet 12) fun srcIp => ?_
    refine outcome_bind (inet4At_octets packet 16) fun dstIp => ?_
    refine outcome_bind (transportHeader_octets packet protocol _) fun transport => ?_
    have hfield : nat (Java.unsigned first >>> 4) = first.toUInt8.toNat >>> 4 := by
      rw [version_eq, nat_ofNat (by omega)]
    rw [← hfield, ← nat_unsigned protocol]
    rw [← payload_octets]
    rfl

theorem get_of_drop {data : Java.Bytes} {i : Nat} {b : Int8} {rest : Java.Bytes}
    (h : data.drop i = b :: rest) : Java.get data i = .ok b := by
  have hget : data[i]? = some b := by
    rw [← List.head?_drop, h]
    rfl
  rw [Java.get, hget]

theorem sumWords_octets (rest : Java.Bytes) {data after : Java.Bytes} {i s : Nat}
    (h : data.drop i = rest ++ after) :
    sumWords data (i + rest.length) i (Int32.ofNat s) =
      .ok (Int32.ofNat (s + IpPacketParser.sumWords (octets rest))) := by
  induction rest using List.twoStepInduction generalizing i s with
  | nil =>
    rw [sumWords, if_neg (by simp), if_neg (by simp)]
    rfl
  | singleton b =>
    rw [sumWords, if_neg (by simp), if_pos (by simp), get_of_drop h]
    change Except.ok (Int32.ofNat s + Java.unsigned b <<< 8) = _
    rw [Java.unsigned_eq, Java.ofNat_shiftLeft_eight, ← Int32.ofNat_add]
    rfl
  | cons_cons b b' rest ih _ =>
    have hnext : data.drop (i + 1) = b' :: (rest ++ after) := by
      rw [← List.drop_drop, h]
      rfl
    have hrest : data.drop (i + 2) = rest ++ after := by
      rw [← List.drop_drop, h]
      rfl
    have hword : shortAt data i =
        .ok (Int32.ofNat (b.toUInt8.toNat <<< 8 ||| b'.toUInt8.toNat)) := by
      rw [shortAt, get_of_drop h, get_of_drop hnext, ← nat_word, ofNat_nat]
      rfl
    have hstop : i + (b :: b' :: rest).length = i + 2 + rest.length := by
      simp only [List.length_cons]
      omega
    rw [hstop, sumWords, if_pos (by omega), hword]
    change sumWords data (i + 2 + rest.length) (i + 2)
      (Int32.ofNat s + Int32.ofNat (b.toUInt8.toNat <<< 8 ||| b'.toUInt8.toNat)) = _
    rw [← Int32.ofNat_add, ih hrest, Nat.add_assoc]
    rfl

theorem foldCarries_ofNat {sum : Nat} (h : sum < 2 ^ 31) :
    foldCarries (Int32.ofNat sum) = Int32.ofNat (IpPacketParser.foldCarries sum) := by
  induction sum using Nat.strong_induction_on with
  | _ sum ih =>
    rw [foldCarries, IpPacketParser.foldCarries]
    by_cases hcarry : 0 < sum >>> 16
    · have hlt := Java.fold_lt hcarry
      rw [if_pos ((Java.carry_ofNat_iff h).mpr hcarry), if_pos hcarry, Java.fold_ofNat h,
        ih _ hlt (by omega)]
    · rw [if_neg (mt (Java.carry_ofNat_iff h).mp hcarry), if_neg hcarry]

theorem calculateChecksum_octets {header after : Java.Bytes} {n : Nat} (hn : header.length = n)
    (h : n ≤ 2 ^ 14) : calculateChecksum (header ++ after) 0 n =
      .ok (Int32.ofNat (IpPacketParser.calculateChecksum (octets header) 0 n)) := by
  subst hn
  have hsum : sumWords (header ++ after) (0 + header.length) 0 0 =
      .ok (Int32.ofNat (0 + IpPacketParser.sumWords (octets header))) := sumWords_octets header rfl
  have hle := sumWords_le (octets header)
  rw [length_octets] at hle
  rw [Nat.zero_add (IpPacketParser.sumWords _)] at hsum
  have htake : ((octets header).drop 0).take header.length = octets header := by
    rw [List.drop_zero, ← length_octets, List.take_length]
  rw [calculateChecksum, Java.bind_ok hsum, foldCarries_ofNat (by omega),
    Java.not_ofNat_and_mask (foldCarries_lt _), IpPacketParser.calculateChecksum, htake]
  rfl

theorem octets_append (l r : Java.Bytes) : octets (l ++ r) = octets l ++ octets r :=
  List.map_append

theorem octets_shortBytes (x : Int32) : octets (Java.shortBytes x.toInt16) = putShort (nat x) := by
  have h := Java.map_shortBytes (nat x)
  rwa [← Int32.toInt16_ofNat', ofNat_nat] at h

/-- The header up to the checksum. -/
def headerStart (totalLength : Int32) : Java.Bytes :=
  [69, 0] ++ Java.shortBytes totalLength.toInt16 ++ Java.shortBytes 0 ++ Java.shortBytes 0x4000 ++
    [64, 17]

theorem octets_headerStart (totalLength : Int32) : octets (headerStart totalLength) =
    [0x45, 0x00] ++ putShort (nat totalLength) ++ putShort 0x0000 ++ putShort 0x4000 ++
      [64, UInt8.ofNat protocolUdp] := by
  rw [headerStart, octets_append, octets_append, octets_append, octets_append, octets_shortBytes]
  rfl

@[simp] theorem length_headerStart (totalLength : Int32) : (headerStart totalLength).length = 10 :=
  rfl

open Java.ByteBuffer in
/-- The checksum is taken of the header with zeros in its place. -/
theorem buildUdpPacket_eq (srcIp dstIp : Inet4Address) (srcPort dstPort : Int32)
    {payload : Java.Bytes} (h : payload.length + 28 < 2 ^ 31) {start : Java.Bytes}
    (hstart : headerStart (Int32.ofNat (payload.length + 28)) = start) :
    buildUdpPacket srcIp dstIp srcPort dstPort payload =
      .ok (start ++ Java.shortBytes (Int32.ofNat (IpPacketParser.calculateChecksum
          (octets (start ++ 0 :: 0 :: (srcIp.address ++ dstIp.address))) 0 20)).toInt16 ++
        (srcIp.address ++ dstIp.address) ++ Java.shortBytes srcPort.toInt16 ++
        Java.shortBytes dstPort.toInt16 ++
        Java.shortBytes (Int32.ofNat (8 + payload.length)).toInt16 ++ Java.shortBytes 0 ++
        payload) := by
  have htotal : 20 + 8 + Int32.ofNat payload.length = Int32.ofNat (payload.length + 28) := by
    rw [Int32.ofNat_add, Int32.add_comm]
    rfl
  have hudp : 8 + Int32.ofNat payload.length = Int32.ofNat (8 + payload.length) := by
    rw [Int32.ofNat_add]
    rfl
  have hzero : Java.shortBytes 0 = [0, 0] := by decide
  have hheader : [] ++ [69] ++ [0] ++ Java.shortBytes (Int32.ofNat (payload.length + 28)).toInt16 ++
      Java.shortBytes 0 ++ Java.shortBytes 0x4000 ++ [64] ++ [17] ++ Java.shortBytes 0 ++
      srcIp.address ++ dstIp.address = start ++ 0 :: 0 :: (srcIp.address ++ dstIp.address) := by
    rw [← hstart]
    simp [headerStart, hzero]
  have hten : start.length = 10 := hstart ▸ length_headerStart _
  have hlength : (start ++ 0 :: 0 :: (srcIp.address ++ dstIp.address)).length = 20 := by
    simp [hten, srcIp.size, dstIp.size]
  have hplaced (s : Int16) :
      (start ++ Java.shortBytes s ++ (srcIp.address ++ dstIp.address)).length = 20 := by
    simp [hten, srcIp.size, dstIp.size, Java.shortBytes]
  have hchecksum : calculateChecksum (filled (start ++ 0 :: 0 :: (srcIp.address ++ dstIp.address))
      (payload.length + 8)).array 0 20 = .ok _ := calculateChecksum_octets hlength (by decide)
  simp only [buildUdpPacket]
  rw [htotal, Java.bind_ok (allocate_eq h), Java.bind_ok put_filled, Java.bind_ok put_filled,
    Java.bind_ok putShort_filled, Java.bind_ok putShort_filled, Java.bind_ok putShort_filled,
    Java.bind_ok put_filled, Java.bind_ok put_filled, Java.bind_ok putShort_filled,
    Java.bind_ok (putAll_filled srcIp.size), Java.bind_ok (putAll_filled dstIp.size), hheader,
    Java.bind_ok hchecksum, Java.bind_ok (putShortAt_filled hten),
    Java.bind_ok (setPosition_filled (hplaced _)), Java.bind_ok putShort_filled,
    Java.bind_ok putShort_filled, Java.bind_ok putShort_filled, Java.bind_ok putShort_filled,
    Java.bind_ok putAll_filled_last, hudp]
  exact congrArg Except.ok (List.append_nil _)

/-- The packet is built, and its bytes are those of the model. -/
theorem buildUdpPacket_octets (srcIp dstIp : Inet4Address) (srcPort dstPort : Int32)
    {payload : Java.Bytes} (h : payload.length + 28 < 2 ^ 31) :
    outcome octets (buildUdpPacket srcIp dstIp srcPort dstPort payload) =
      .ok (IpPacketParser.buildUdpPacket srcIp.octets dstIp.octets (nat srcPort) (nat dstPort)
        (octets payload)) := by
  have hzeros : octets (0 :: 0 :: (srcIp.address ++ dstIp.address)) =
      putShort 0 ++ (srcIp.octets.bytes ++ dstIp.octets.bytes) := by
    rw [Inet4Address.octets, Inet4Address.octets, ← octets_append]
    rfl
  have hudp : nat (Int32.ofNat (8 + payload.length)) = 8 + payload.length := nat_ofNat (by omega)
  have htotal : nat (Int32.ofNat (payload.length + 28)) = 20 + 8 + payload.length := by
    rw [nat_ofNat (by omega)]
    omega
  have hlt (data : Bytes) : IpPacketParser.calculateChecksum data 0 20 < 2 ^ 32 := by
    rw [IpPacketParser.calculateChecksum]
    omega
  rw [buildUdpPacket_eq srcIp dstIp srcPort dstPort h rfl]
  simp only [outcome, octets_append, octets_shortBytes, octets_headerStart, hzeros, nat_ofNat (hlt _),
    hudp, htotal, IpPacketParser.buildUdpPacket, length_octets, List.append_assoc]
  rfl

end Jvm

end IpPacketParser

end AuraChain
