import AuraChain.JvmPacket

/-! What the parser does with any bytes at all. It reads within the array and
answers for every one of them; how far it trusts the lengths in the headers is
told by the place where it lets the payload begin. -/

namespace AuraChain

namespace IpPacketParser

def octetAt (packet : Bytes) (i : Nat) : UInt8 := packet.getD i 0

def portAt (packet : Bytes) (i : Nat) : Nat :=
  (octetAt packet i).toNat <<< 8 ||| (octetAt packet (i + 1)).toNat

def addressAt (packet : Bytes) (i : Nat) : Inet4Address :=
  ⟨[octetAt packet i, octetAt packet (i + 1), octetAt packet (i + 2), octetAt packet (i + 3)], rfl⟩

def versionOf (packet : Bytes) : Nat := (octetAt packet 0).toNat >>> 4

def headerLength (packet : Bytes) : Nat := ((octetAt packet 0).toNat &&& 0x0F) * 4

def protocolOf (packet : Bytes) : Nat := (octetAt packet 9).toNat

def dataOffset (packet : Bytes) : Nat :=
  (((octetAt packet (headerLength packet + 12)).toNat &&& 0xF0) >>> 4) * 4

abbrev HeaderFits (packet : Bytes) : Prop :=
  20 ≤ packet.length ∧ versionOf packet = 4 ∧ headerLength packet ≤ packet.length

abbrev TcpWhole (packet : Bytes) : Prop :=
  protocolOf packet = protocolTcp ∧ headerLength packet + 20 ≤ packet.length

abbrev UdpWhole (packet : Bytes) : Prop :=
  protocolOf packet = protocolUdp ∧ headerLength packet + 8 ≤ packet.length

/-- A transport header that is cut off is payload. -/
def payloadOffset (packet : Bytes) : Nat :=
  if TcpWhole packet then headerLength packet + dataOffset packet
  else if UdpWhole packet then headerLength packet + 8
  else headerLength packet

/-- No length in a header is below the least one that it can have. -/
abbrev LeastLengths (packet : Bytes) : Prop :=
  20 ≤ headerLength packet ∧ (TcpWhole packet → 20 ≤ dataOffset packet)

def ports (packet : Bytes) : Nat × Nat :=
  if TcpWhole packet ∨ UdpWhole packet then
    (portAt packet (headerLength packet), portAt packet (headerLength packet + 2))
  else (0, 0)

def fields (packet : Bytes) : ParsedPacket where
  version := versionOf packet
  protocol := protocolOf packet
  sourceIp := addressAt packet 12
  destIp := addressAt packet 16
  sourcePort := (ports packet).1
  destPort := (ports packet).2
  payload := packet.drop (payloadOffset packet)
  rawPacket := packet

variable {packet : Bytes}

theorem byteAt_eq {i : Nat} (h : i < packet.length) : byteAt packet i = .ok (octetAt packet i) := by
  rw [byteAt, octetAt, List.getD_eq_getElem?_getD, List.getElem?_eq_getElem h]
  rfl

theorem shortAt_eq {i : Nat} (h : i + 2 ≤ packet.length) :
    shortAt packet i = .ok (portAt packet i) := by
  rw [shortAt, Java.bind_ok (byteAt_eq (by omega)), Java.bind_ok (byteAt_eq (by omega))]
  rfl

theorem inet4At_eq {i : Nat} (h : i + 4 ≤ packet.length) :
    inet4At packet i = .ok (addressAt packet i) := by
  rw [inet4At, Java.bind_ok (byteAt_eq (by omega)), Java.bind_ok (byteAt_eq (by omega)),
    Java.bind_ok (byteAt_eq (by omega)), Java.bind_ok (byteAt_eq (by omega))]
  rfl

theorem transportHeader_eq (packet : Bytes) :
    transportHeader packet (protocolOf packet) (headerLength packet) =
      .ok ((ports packet).1, (ports packet).2, payloadOffset packet) := by
  rw [transportHeader, payloadOffset, ports]
  by_cases htcp : TcpWhole packet
  · rw [if_pos htcp, if_pos htcp, if_pos (.inl htcp), Java.bind_ok (shortAt_eq (by omega)),
      Java.bind_ok (shortAt_eq (by omega)), Java.bind_ok (byteAt_eq (by omega))]
    rfl
  · by_cases hudp : UdpWhole packet
    · rw [if_neg htcp, if_neg htcp, if_pos hudp, if_pos hudp, if_pos (.inr hudp),
        Java.bind_ok (shortAt_eq (by omega)), Java.bind_ok (shortAt_eq (by omega))]
      rfl
    · rw [if_neg htcp, if_neg htcp, if_neg hudp, if_neg hudp, if_neg (not_or.mpr ⟨htcp, hudp⟩)]
      rfl

/-- All that is left of the array is copied, and past its end there is nothing. -/
theorem copied_eq (packet : Bytes) (offset : Nat) :
    (if 0 < packet.length - offset ∧ offset + (packet.length - offset) ≤ packet.length then
        (packet.drop offset).take (packet.length - offset)
      else List.replicate (packet.length - offset) 0) = packet.drop offset := by
  by_cases hoffset : offset < packet.length
  · rw [if_pos (by omega), ← List.length_drop, List.take_length]
  · have hsize : packet.length - offset = 0 := by omega
    rw [hsize, if_neg (by omega), List.drop_eq_nil_of_le (by omega)]
    rfl

/-- The parser on every array. -/
theorem parse_eq (packet : Bytes) :
    parse packet = .ok (if HeaderFits packet then some (fields packet) else none) := by
  rw [parse]
  by_cases hshort : packet.length < 20
  · rw [if_pos hshort, if_neg fun hfits => by omega]
    rfl
  rw [if_neg hshort, Java.bind_ok (byteAt_eq (by omega))]
  show (if versionOf packet ≠ 4 then _ else if packet.length < headerLength packet then _ else _) = _
  by_cases hversion : versionOf packet = 4
  · rw [if_neg (not_not.mpr hversion)]
    by_cases hlength : headerLength packet ≤ packet.length
    · rw [if_neg (by omega), if_pos ⟨by omega, hversion, hlength⟩,
        Java.bind_ok (byteAt_eq (by omega)), Java.bind_ok (inet4At_eq (by omega)),
        Java.bind_ok (inet4At_eq (by omega))]
      show (transportHeader packet (protocolOf packet) (headerLength packet) >>= _) = _
      rw [Java.bind_ok (transportHeader_eq packet)]
      simp only [copied_eq]
      rfl
    · rw [if_pos (by omega), if_neg fun hfits => hlength hfits.2.2]
      rfl
  · rw [if_pos hversion, if_neg fun hfits => hversion hfits.2.1]
    rfl

namespace Jvm

/-- What the parser returns for an array. An array that is accepted with a length
below the least one is left open. -/
structure ParsesSafely (packet : Java.Bytes) (result : Option ParsedPacket) : Prop where
  rejects : ¬ HeaderFits (octets packet) → result = none
  headerInside : ∀ parsed, result = some parsed → headerLength (octets packet) ≤ packet.length
  accepts : HeaderFits (octets packet) → LeastLengths (octets packet) → result.isSome = true
  payload : ∀ parsed, result = some parsed → LeastLengths (octets packet) →
    parsed.payload = packet.drop (payloadOffset (octets packet))
  cutOff : ∀ parsed, result = some parsed → LeastLengths (octets packet) →
    ¬ TcpWhole (octets packet) → ¬ UdpWhole (octets packet) →
      parsed.sourcePort = 0 ∧ parsed.destPort = 0

/-- There is an answer for every array, with the fields of what fits. -/
theorem exists_parse (packet : Java.Bytes) : ∃ result, parse packet = .ok result ∧
    result.map ParsedPacket.octets =
      if HeaderFits (octets packet) then some (fields (octets packet)) else none := by
  have hparse := parse_octets packet
  rw [parse_eq] at hparse
  cases hresult : parse packet with
  | error e =>
    rw [hresult] at hparse
    cases hparse
  | ok result =>
    rw [hresult, outcome, Except.ok.injEq] at hparse
    exact ⟨result, rfl, hparse⟩

theorem accepted_fields {packet : Java.Bytes} {parsed : ParsedPacket}
    (h : (some parsed).map ParsedPacket.octets =
      if HeaderFits (octets packet) then some (fields (octets packet)) else none) :
    HeaderFits (octets packet) ∧ parsed.octets = fields (octets packet) := by
  by_cases hfits : HeaderFits (octets packet)
  · rw [if_pos hfits, Option.map_some, Option.some.injEq] at h
    exact ⟨hfits, h⟩
  · rw [if_neg hfits] at h
    cases h

/-- The parser never fails, and where it accepts an array with proper lengths the
payload is the rest of the array after the headers. -/
theorem parse_is_safe (packet : Java.Bytes) :
    ∃ result, parse packet = .ok result ∧ ParsesSafely packet result := by
  obtain ⟨result, hresult, hparse⟩ := exists_parse packet
  refine ⟨result, hresult, ?_, ?_, ?_, ?_, ?_⟩
  · intro hnot
    rw [if_neg hnot, Option.map_eq_none_iff] at hparse
    exact hparse
  · rintro parsed rfl
    rw [← length_octets]
    exact (accepted_fields hparse).1.2.2
  · intro hfits _
    rw [if_pos hfits] at hparse
    rw [← Option.isSome_map (f := ParsedPacket.octets), hparse]
    rfl
  · rintro parsed rfl _
    have hpayload := congrArg IpPacketParser.ParsedPacket.payload (accepted_fields hparse).2
    apply octets_injective
    rw [octets, octets, List.map_drop]
    exact hpayload
  · rintro parsed rfl _ htcp hudp
    have hports : ports (octets packet) = (0, 0) := if_neg (not_or.mpr ⟨htcp, hudp⟩)
    have hfields := (accepted_fields hparse).2
    have hsource := congrArg IpPacketParser.ParsedPacket.sourcePort hfields
    have hdest := congrArg IpPacketParser.ParsedPacket.destPort hfields
    rw [fields, hports] at hsource hdest
    exact ⟨nat_injective hsource, nat_injective hdest⟩

end Jvm

end IpPacketParser

namespace PacketParsing

open IpPacketParser

def transportEnd (packet : Bytes) : Nat :=
  if protocolOf packet = protocolTcp then headerLength packet + dataOffset packet
  else if protocolOf packet = protocolUdp then headerLength packet + 8
  else headerLength packet

/-- Every length in the headers lies within its bounds. -/
abbrev WellFormed (packet payload : Bytes) : Prop :=
  20 ≤ headerLength packet ∧ headerLength packet ≤ packet.length ∧
    (protocolOf packet = protocolTcp →
      20 ≤ dataOffset packet ∧ headerLength packet + dataOffset packet ≤ packet.length) ∧
    (protocolOf packet = protocolUdp → headerLength packet + 8 ≤ packet.length) ∧
    payload = packet.drop (transportEnd packet)

def ParsesStrictly (packet : Java.Bytes) : Prop :=
  ∃ result, Jvm.parse packet = .ok result ∧
    ∀ parsed ∈ result, WellFormed (Jvm.octets packet) (Jvm.octets parsed.payload)

theorem not_strict {packet : Java.Bytes} (h : (match Jvm.parse packet with
      | .ok (some parsed) => !decide (WellFormed (Jvm.octets packet) (Jvm.octets parsed.payload))
      | _ => false) = true) : ¬ ParsesStrictly packet := by
  rintro ⟨result, hresult, hstrict⟩
  rw [hresult] at h
  cases result with
  | none => cases h
  | some parsed =>
    simp only [Bool.not_eq_true', decide_eq_false_iff_not] at h
    exact h (hstrict parsed rfl)

def header (first protocol : Int8) : Java.Bytes :=
  [first, 0, 0, 0, 0, 0, 0, 0, 64, protocol, 0, 0, 10, 0, 0, 2, 10, 0, 0, 1]

def tcp (dataOffset : Int8) : Java.Bytes :=
  List.replicate 12 0 ++ [dataOffset] ++ List.replicate 7 0

/-- No UDP header, no TCP header, a TCP header of 60 bytes in 20, and then an IP
header of no bytes and a TCP header of 16. -/
theorem parses_loosely : ¬ ParsesStrictly (header 0x45 17) ∧ ¬ ParsesStrictly (header 0x45 6) ∧
    ¬ ParsesStrictly (header 0x45 6 ++ tcp (-16)) ∧ ¬ ParsesStrictly (header 0x40 1) ∧
    ¬ ParsesStrictly (header 0x45 6 ++ tcp 0x40) :=
  ⟨not_strict (by decide +kernel), not_strict (by decide +kernel), not_strict (by decide +kernel),
    not_strict (by decide +kernel), not_strict (by decide +kernel)⟩

end PacketParsing

end AuraChain
