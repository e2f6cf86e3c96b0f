import AuraChain.JvmPacket

/-! What `buildUdpPacket` builds: a packet that parses back to the addresses,
the ports and the payload, under a header whose words sum to all ones. -/

namespace AuraChain

namespace IpPacketParser

/-- The words of the bytes, big endian. -/
def words : Bytes → List Nat
  | b :: b' :: data => (b.toNat <<< 8 ||| b'.toNat) :: words data
  | _ => []

theorem words_append {l r : Bytes} (h : l.length % 2 = 0) : words (l ++ r) = words l ++ words r := by
  induction l using List.twoStepInduction with
  | nil => rfl
  | singleton b => simp at h
  | cons_cons b b' l ih _ =>
    have hl : l.length % 2 = 0 := by
      simp only [List.length_cons] at h
      omega
    rw [List.cons_append, List.cons_append, words, ih hl, words, List.cons_append]

theorem sum_words {data : Bytes} (h : data.length % 2 = 0) : (words data).sum = sumWords data := by
  induction data using List.twoStepInduction with
  | nil => rfl
  | singleton b => simp at h
  | cons_cons b b' data ih _ =>
    have hdata : data.length % 2 = 0 := by
      simp only [List.length_cons] at h
      omega
    rw [words, sumWords, List.sum_cons, ih hdata]

theorem words_le (data : Bytes) : ∀ w ∈ words data, w ≤ 0xFFFF := by
  induction data using List.twoStepInduction with
  | nil => simp [words]
  | singleton b => simp [words]
  | cons_cons b b' data ih _ =>
    rw [words, List.forall_mem_cons]
    exact ⟨Nat.le_of_lt_succ (word_lt b b'), ih⟩

theorem length_words (data : Bytes) : (words data).length = data.length / 2 := by
  induction data using List.twoStepInduction with
  | nil => rfl
  | singleton b => simp [words]
  | cons_cons b b' data ih _ =>
    rw [words, List.length_cons, ih, List.length_cons, List.length_cons]
    omega

theorem word_putShort {n : Nat} (h : n < 2 ^ 16) :
    (UInt8.ofNat (n >>> 8)).toNat <<< 8 ||| (UInt8.ofNat n).toNat = n := by
  have hhigh : n >>> 8 < 2 ^ 8 := by
    rw [Nat.shiftRight_eq_div_pow]
    omega
  have hlow : n % 2 ^ 8 < 2 ^ 8 := Nat.mod_lt _ (by decide)
  rw [UInt8.toNat_ofNat_of_lt' hhigh, UInt8.toNat_ofNat', ← Nat.shiftLeft_add_eq_or_of_lt hlow,
    Nat.shiftLeft_eq, Nat.shiftRight_eq_div_pow]
  omega

theorem words_putShort {n : Nat} (h : n < 2 ^ 16) : words (putShort n) = [n] := by
  rw [putShort, words, word_putShort h]
  rfl

theorem foldCarries_modEq (sum : Nat) : foldCarries sum ≡ sum [MOD 0xFFFF] := by
  induction sum using foldCarries.induct with
  | case1 sum hcarry ih =>
    have hand : sum &&& 0xFFFF = sum % 2 ^ 16 := Nat.and_two_pow_sub_one_eq_mod sum 16
    have hstep : (sum &&& 0xFFFF) + (sum >>> 16) ≡ sum [MOD 0xFFFF] := by
      rw [hand, Nat.shiftRight_eq_div_pow, Nat.ModEq]
      omega
    rw [foldCarries, if_pos hcarry]
    exact ih.trans hstep
  | case2 sum hcarry => rw [foldCarries, if_neg hcarry]

/-- A header with its checksum in place, whatever the words around it are. -/
theorem sum_with_checksum {before after : Bytes} (hbefore : before.length % 2 = 0)
    (hafter : after.length % 2 = 0) (hlength : before.length + 2 + after.length = 20)
    (hpos : 0 < sumWords before) :
    OnesComplement.sum 0xFFFF (words (before ++
      putShort (calculateChecksum (before ++ putShort 0 ++ after) 0 20) ++ after)) = 0xFFFF := by
  have htake : ((before ++ putShort 0 ++ after).drop 0).take 20 = before ++ putShort 0 ++ after := by
    rw [List.drop_zero, List.take_of_length_le]
    simp only [List.length_append, putShort, List.length_cons, List.length_nil]
    omega
  have hfold := foldCarries_modEq (sumWords before + sumWords after)
  have hlt := foldCarries_lt (sumWords before + sumWords after)
  have hsplit (n : Nat) (h : n < 2 ^ 16) : words (before ++ putShort n ++ after) =
      words before ++ n :: words after := by
    have heven : (putShort n).length % 2 = 0 := by simp [putShort]
    rw [List.append_assoc, words_append hbefore, words_append heven, words_putShort h]
    rfl
  have hsum : sumWords (before ++ putShort 0 ++ after) = sumWords before + sumWords after := by
    have heven : (before ++ putShort 0 ++ after).length % 2 = 0 := by
      simp only [List.length_append, putShort, List.length_cons, List.length_nil]
      omega
    rw [← sum_words heven, hsplit 0 (by decide), List.sum_append, List.sum_cons, sum_words hbefore,
      sum_words hafter, Nat.zero_add]
  have htotal : (words before ++ (0xFFFF - foldCarries (sumWords before + sumWords after)) ::
      words after).sum = sumWords before + sumWords after +
        (0xFFFF - foldCarries (sumWords before + sumWords after)) := by
    rw [List.sum_append, List.sum_cons, sum_words hbefore, sum_words hafter]
    omega
  rw [calculateChecksum, htake, hsum, hsplit _ (by omega)]
  refine OnesComplement.sum_eq_top ?_ ?_ ?_
  · intro w hw
    rcases List.mem_append.mp hw with hw | hw
    · exact words_le _ w hw
    · rcases List.mem_cons.mp hw with rfl | hw
      · omega
      · exact words_le _ w hw
  · rw [htotal]
    omega
  · rw [htotal]
    rw [Nat.ModEq] at hfold ⊢
    omega

/-- The total length is the second word. -/
theorem header_words {srcIp dstIp : Inet4Address} {srcPort dstPort : Nat} {payload : Bytes}
    (h : payload.length ≤ 65507) :
    (words ((buildUdpPacket srcIp dstIp srcPort dstPort payload).take 20)).length = 10 ∧
    OnesComplement.sum 0xFFFF (words ((buildUdpPacket srcIp dstIp srcPort dstPort payload).take 20)) =
      0xFFFF ∧
    (words ((buildUdpPacket srcIp dstIp srcPort dstPort payload).take 20))[1]? =
      some (buildUdpPacket srcIp dstIp srcPort dstPort payload).length := by
  obtain ⟨before, hbefore⟩ : ∃ before, before = [0x45, 0x00] ++ putShort (20 + 8 + payload.length) ++
    putShort 0x0000 ++ putShort 0x4000 ++ [64, UInt8.ofNat protocolUdp] := ⟨_, rfl⟩
  have hten : before.length = 10 := by
    rw [hbefore]
    rfl
  have haddresses : (srcIp.bytes ++ dstIp.bytes).length = 8 := by
    rw [List.length_append, srcIp.size, dstIp.size]
  have hsplit : buildUdpPacket srcIp dstIp srcPort dstPort payload = (before ++
      putShort (calculateChecksum (before ++ putShort 0 ++ (srcIp.bytes ++ dstIp.bytes)) 0 20) ++
        (srcIp.bytes ++ dstIp.bytes)) ++ (putShort srcPort ++ putShort dstPort ++
          putShort (8 + payload.length) ++ putShort 0 ++ payload) := by
    rw [buildUdpPacket, ← hbefore]
    simp only [List.append_assoc]
  have hpos : 0 < sumWords before := by
    rw [hbefore]
    simp [sumWords, putShort]
  have hcut : (buildUdpPacket srcIp dstIp srcPort dstPort payload).take 20 = before ++
      putShort (calculateChecksum (before ++ putShort 0 ++ (srcIp.bytes ++ dstIp.bytes)) 0 20) ++
        (srcIp.bytes ++ dstIp.bytes) := by
    rw [hsplit, List.take_left']
    simp only [List.length_append, hten, srcIp.size, dstIp.size, putShort, List.length_cons,
      List.length_nil]
  have hsize : (buildUdpPacket srcIp dstIp srcPort dstPort payload).length =
      20 + 8 + payload.length := by
    simp only [hsplit, List.length_append, hten, srcIp.size, dstIp.size, putShort, List.length_cons,
      List.length_nil]
    omega
  have heven : (putShort (20 + 8 + payload.length)).length % 2 = 0 := by simp [putShort]
  refine ⟨?_, ?_, ?_⟩
  · rw [length_words, List.length_take, hsize]
    omega
  · rw [hcut]
    exact sum_with_checksum (by omega) (by omega) (by omega) hpos
  · rw [hcut, hsize, hbefore]
    simp only [List.append_assoc, List.cons_append, List.nil_append]
    rw [words, words_append heven, words_putShort (by omega)]
    rfl

theorem exists_four (ip : Inet4Address) : ∃ a b c d, ip = ⟨[a, b, c, d], rfl⟩ := by
  match ip with
  | ⟨[a, b, c, d], _⟩ => exact ⟨a, b, c, d, rfl⟩

theorem shortAt_putShort {packet rest : Bytes} {n i : Nat} (h : n < 2 ^ 16)
    (hdrop : packet.drop i = putShort n ++ rest) : shortAt packet i = .ok n := by
  have hhigh : byteAt packet i = .ok (UInt8.ofNat (n >>> 8)) := by
    rw [byteAt, ← List.head?_drop, hdrop]
    rfl
  have hlow : byteAt packet (i + 1) = .ok (UInt8.ofNat n) := by
    rw [byteAt, ← List.head?_drop, ← List.drop_drop, hdrop]
    rfl
  rw [shortAt, Java.bind_ok hhigh, Java.bind_ok hlow, word_putShort h]
  rfl

/-- A packet of version 4 without options whose transport is UDP parses to its
fields. -/
theorem parse_udp {packet payload : Bytes} {srcIp dstIp : Inet4Address} {srcPort dstPort : Nat}
    (hlength : packet.length = 28 + payload.length) (hfirst : byteAt packet 0 = .ok 0x45)
    (hprotocol : byteAt packet 9 = .ok 17) (hsrcIp : inet4At packet 12 = .ok srcIp)
    (hdstIp : inet4At packet 16 = .ok dstIp) (hsrcPort : shortAt packet 20 = .ok srcPort)
    (hdstPort : shortAt packet 22 = .ok dstPort) (hpayload : packet.drop 28 = payload) :
    parse packet = .ok (some ⟨4, protocolUdp, srcIp, dstIp, srcPort, dstPort, payload, packet⟩) := by
  have htransport : transportHeader packet (17 : UInt8).toNat 20 = .ok (srcPort, dstPort, 28) := by
    rw [transportHeader, if_neg fun htcp => absurd htcp.1 (by decide), if_pos ⟨rfl, by omega⟩,
      Java.bind_ok hsrcPort, Java.bind_ok hdstPort]
    rfl
  have hsize : packet.length - 28 = payload.length := by omega
  have hcopied : (if 0 < payload.length ∧ 28 + payload.length ≤ packet.length then
      (packet.drop 28).take payload.length else List.replicate payload.length 0) = payload := by
    split_ifs with hfits
    · rw [hpayload, List.take_length]
    · have hempty : payload = [] := List.eq_nil_of_length_eq_zero (by omega)
      rw [hempty]
      rfl
  have hihl : ((0x45 : UInt8).toNat &&& 0x0F) * 4 = 20 := rfl
  rw [parse, if_neg (by omega), Java.bind_ok hfirst]
  simp only
  rw [if_neg (by decide), hihl, if_neg (by omega), Java.bind_ok hprotocol, Java.bind_ok hsrcIp,
    Java.bind_ok hdstIp, Java.bind_ok htransport]
  simp only [hsize, hcopied]
  rfl

theorem parse_buildUdpPacket {srcIp dstIp : Inet4Address} {srcPort dstPort : Nat} (payload : Bytes)
    (hsrc : srcPort < 2 ^ 16) (hdst : dstPort < 2 ^ 16) :
    parse (buildUdpPacket srcIp dstIp srcPort dstPort payload) =
      .ok (some ⟨4, protocolUdp, srcIp, dstIp, srcPort, dstPort, payload,
        buildUdpPacket srcIp dstIp srcPort dstPort payload⟩) := by
  obtain ⟨packet, hbuilt⟩ : ∃ packet, packet = buildUdpPacket srcIp dstIp srcPort dstPort payload :=
    ⟨_, rfl⟩
  obtain ⟨a, b, c, d, rfl⟩ := exists_four srcIp
  obtain ⟨e, f, g, h, rfl⟩ := exists_four dstIp
  obtain ⟨ipChecksum, hpacket⟩ : ∃ ipChecksum, packet = [0x45, 0x00] ++
      putShort (20 + 8 + payload.length) ++ putShort 0x0000 ++ putShort 0x4000 ++ [64, 17] ++
      putShort ipChecksum ++ [a, b, c, d, e, f, g, h] ++ putShort srcPort ++ putShort dstPort ++
      putShort (8 + payload.length) ++ putShort 0 ++ payload := ⟨_, hbuilt⟩
  rw [← hbuilt]
  have hlength : packet.length = 28 + payload.length := by
    simp only [hpacket, putShort, List.length_append, List.length_cons, List.length_nil]
  have hsrcPort : shortAt packet 20 = .ok srcPort :=
    shortAt_putShort hsrc (by rw [hpacket]; rfl)
  have hdstPort : shortAt packet 22 = .ok dstPort :=
    shortAt_putShort hdst (by rw [hpacket]; rfl)
  refine parse_udp hlength ?_ ?_ ?_ ?_ hsrcPort hdstPort ?_
  all_goals
    rw [hpacket]
    rfl

namespace Jvm

theorem outcome_eq_ok {α β : Type} {f : α → β} (hf : Function.Injective f)
    {x : Except Java.Exception α} {a : α} (h : outcome f x = .ok (f a)) : x = .ok a := by
  cases x with
  | error e => cases h
  | ok b =>
    rw [outcome, Except.ok.injEq] at h
    rw [hf h]

theorem Inet4Address.octets_injective : Function.Injective Inet4Address.octets := by
  rintro ⟨l, hl⟩ ⟨r, hr⟩ h
  have hbytes : Jvm.octets l = Jvm.octets r := congrArg FixedBytes.bytes h
  cases Jvm.octets_injective hbytes
  rfl

theorem ParsedPacket.octets_injective : Function.Injective ParsedPacket.octets := by
  rintro ⟨version, protocol, sourceIp, destIp, sourcePort, destPort, payload, rawPacket⟩
    ⟨version', protocol', sourceIp', destIp', sourcePort', destPort', payload', rawPacket'⟩ h
  rw [octets, octets, IpPacketParser.ParsedPacket.mk.injEq] at h
  obtain ⟨hversion, hprotocol, hsrcIp, hdstIp, hsrcPort, hdstPort, hpayload, hraw⟩ := h
  cases nat_injective hversion
  cases nat_injective hprotocol
  cases Inet4Address.octets_injective hsrcIp
  cases Inet4Address.octets_injective hdstIp
  cases nat_injective hsrcPort
  cases nat_injective hdstPort
  cases Jvm.octets_injective hpayload
  cases Jvm.octets_injective hraw
  rfl

theorem nat_lt_of_port {port : Int32} (h : 0 ≤ port ∧ port ≤ 65535) : nat port < 2 ^ 16 := by
  have hlow : 0 ≤ port.toInt := Int32.le_iff_toInt_le.mp h.1
  have hhigh : port.toInt ≤ 65535 := Int32.le_iff_toInt_le.mp h.2
  have hint : port.toInt = port.toBitVec.toInt := rfl
  have hlt := port.toBitVec.isLt
  rw [hint, BitVec.toInt_eq_toNat_cond] at hlow hhigh
  rw [nat]
  split_ifs at hlow hhigh <;> omega

/-- A payload that a datagram can hold is always built. -/
theorem exists_buildUdpPacket (srcIp dstIp : Inet4Address) (srcPort dstPort : Int32)
    {payload : Java.Bytes} (hlen : payload.length ≤ 65507) :
    ∃ packet, buildUdpPacket srcIp dstIp srcPort dstPort payload = .ok packet ∧
      octets packet = IpPacketParser.buildUdpPacket srcIp.octets dstIp.octets (nat srcPort)
        (nat dstPort) (octets payload) := by
  have hbuilt := buildUdpPacket_octets srcIp dstIp srcPort dstPort
    (show payload.length + 28 < 2 ^ 31 by omega)
  cases hpacket : buildUdpPacket srcIp dstIp srcPort dstPort payload with
  | error e =>
    rw [hpacket] at hbuilt
    cases hbuilt
  | ok packet =>
    rw [hpacket, outcome, Except.ok.injEq] at hbuilt
    exact ⟨packet, rfl, hbuilt⟩

end Jvm

/-- What is built parses back to what it was built from. -/
theorem built_udp_parses (srcIp dstIp : Jvm.Inet4Address) (srcPort dstPort : Int32)
    (payload : Java.Bytes) (hsrc : 0 ≤ srcPort ∧ srcPort ≤ 65535)
    (hdst : 0 ≤ dstPort ∧ dstPort ≤ 65535) (hlen : payload.length ≤ 65507) :
    ∃ packet, Jvm.buildUdpPacket srcIp dstIp srcPort dstPort payload = .ok packet ∧
      Jvm.parse packet = .ok (some ⟨4, 17, srcIp, dstIp, srcPort, dstPort, payload, packet⟩) := by
  obtain ⟨packet, hpacket, hbuilt⟩ := Jvm.exists_buildUdpPacket srcIp dstIp srcPort dstPort hlen
  refine ⟨packet, hpacket,
    Jvm.outcome_eq_ok (Option.map_injective Jvm.ParsedPacket.octets_injective) ?_⟩
  rw [Jvm.parse_octets, hbuilt, parse_buildUdpPacket _ (Jvm.nat_lt_of_port hsrc)
    (Jvm.nat_lt_of_port hdst), ← hbuilt]
  rfl

/-- The ten words of the header of what is built sum to all ones, and the second
of them is the size of the packet. -/
theorem built_header_valid (srcIp dstIp : Jvm.Inet4Address) (srcPort dstPort : Int32)
    (payload : Java.Bytes) (hlen : payload.length ≤ 65507) :
    ∃ packet, Jvm.buildUdpPacket srcIp dstIp srcPort dstPort payload = .ok packet ∧
      (words ((Jvm.octets packet).take 20)).length = 10 ∧
      OnesComplement.sum 0xFFFF (words ((Jvm.octets packet).take 20)) = 0xFFFF ∧
      (words ((Jvm.octets packet).take 20))[1]? = some packet.length := by
  obtain ⟨packet, hpacket, hbuilt⟩ := Jvm.exists_buildUdpPacket srcIp dstIp srcPort dstPort hlen
  refine ⟨packet, hpacket, ?_⟩
  rw [hbuilt, ← Jvm.length_octets packet, hbuilt]
  exact header_words (by rwa [Jvm.length_octets])

end IpPacketParser

namespace UdpPacket

open IpPacketParser

def phone : Jvm.Inet4Address := ⟨[10, 0, 0, 2], rfl⟩

/-- 192.168.1.255 -/
def server : Jvm.Inet4Address := ⟨[-64, -88, 1, -1], rfl⟩

theorem built_udp_parses_signed :
    ∃ packet, Jvm.buildUdpPacket phone server 65535 53 [-1, 0, 127] = .ok packet ∧
      Jvm.parse packet = .ok (some ⟨4, 17, phone, server, 65535, 53, [-1, 0, 127], packet⟩) :=
  built_udp_parses phone server 65535 53 [-1, 0, 127] (by decide) (by decide) (by decide)

theorem built_header_valid_signed :
    ∃ packet, Jvm.buildUdpPacket phone server 65535 53 [-1, 0, 127] = .ok packet ∧
      (words ((Jvm.octets packet).take 20)).length = 10 ∧
      OnesComplement.sum 0xFFFF (words ((Jvm.octets packet).take 20)) = 0xFFFF ∧
      (words ((Jvm.octets packet).take 20))[1]? = some packet.length :=
  built_header_valid phone server 65535 53 [-1, 0, 127] (by decide)

end UdpPacket

end AuraChain
