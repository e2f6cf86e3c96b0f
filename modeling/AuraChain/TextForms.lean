import AuraChain.Bech32
import AuraChain.Hex
import AuraChain.Types

/-! The texts of hashes, keys, signatures and addresses. The crates `hex` and
`bech32` are parameters. The texts inside their errors are left out. -/

namespace AuraChain

inductive HashError
  | invalidLength
  | hexDecode
  deriving DecidableEq

inductive CryptoError
  | invalidKeyLength
  | invalidSignatureLength
  | hexDecode
  deriving DecidableEq

inductive AddressError
  | invalidPayloadLength
  | bech32Error
  | invalidPrefix (expected found : Bytes)
  deriving DecidableEq

/-- The bytes that are read are copied without a look at their number. -/
structure HexCrate where
  encode : Bytes → Bytes
  decode : Bytes → Option Bytes
  length_of_decode {text data : Bytes} : decode text = some data → text.length = 2 * data.length

/-- What the crate documents: a byte is written as two digits in lower case, and
nothing but digits is read, of either case. -/
structure HexCrate.Documented (hex : HexCrate) : Prop where
  encode (data : Bytes) : hex.encode data = Hex.encode data
  decode_encode (data : Bytes) : hex.decode (hex.encode data) = some data
  lower {text : Bytes} : (∀ ch ∈ text, Hex.IsDigit ch) →
    hex.decode (text.map Hex.lower) = hex.decode text
  digits {text data : Bytes} : hex.decode text = some data → ∀ ch ∈ text, Hex.IsDigit ch

/-- The readable part and the data are parsed and written together. -/
structure Bech32Crate where
  encode : Bytes → Bytes → Option Bytes
  decode : Bytes → Option (Bytes × Bytes)

def defaultHrp : Bytes := ascii "aura"

/-- What the crate documents, for data as long as an address: the text begins
with the readable part and is read back. -/
def Bech32Crate.WritesAddresses (bech32 : Bech32Crate) : Prop :=
  ∀ data : Bytes, data.length = 20 → ∃ text, bech32.encode defaultHrp data = some text ∧
    defaultHrp <+: text ∧ bech32.decode text = some (defaultHrp, data)

structure TextCrates where
  hex : HexCrate
  bech32 : Bech32Crate

def stripPrefix (pre text : Bytes) : Bytes :=
  if pre.isPrefixOf text then text.drop pre.length else text

namespace FixedBytes

def toHex {n : Nat} (hex : HexCrate) (x : FixedBytes n) : Bytes := hex.encode x.bytes

def fromHex {ε : Type} (hex : HexCrate) (n : Nat) (lengthError hexError : ε) (text : Bytes) :
    Except ε (FixedBytes n) :=
  let clean := stripPrefix (ascii "0x") text
  if hlen : clean.length = 2 * n then
    match hdata : hex.decode clean with
    | none => .error hexError
    | some data => .ok ⟨data, by have hdouble := hex.length_of_decode hdata; omega⟩
  else .error lengthError

end FixedBytes

def Hash.fromStr (hex : HexCrate) : Bytes → Except HashError Hash :=
  FixedBytes.fromHex hex 32 .invalidLength .hexDecode

def PublicKey.fromStr (hex : HexCrate) : Bytes → Except CryptoError PublicKey :=
  FixedBytes.fromHex hex 32 .invalidKeyLength .hexDecode

def Signature.fromStr (hex : HexCrate) : Bytes → Except CryptoError Signature :=
  FixedBytes.fromHex hex 64 .invalidSignatureLength .hexDecode

namespace Address

def toBech32 (bech32 : Bech32Crate) (a : Address) (hrp : Bytes) : Option Bytes :=
  bech32.encode hrp a.bytes

def fromBech32 (bech32 : Bech32Crate) (text expectedHrp : Bytes) : Except AddressError Address :=
  match bech32.decode text with
  | none => .error .bech32Error
  | some (hrp, data) =>
    if hrp ≠ expectedHrp then .error (.invalidPrefix expectedHrp hrp)
    else match FixedBytes.ofSlice? 20 data with
      | none => .error .invalidPayloadLength
      | some a => .ok a

def display (crates : TextCrates) (a : Address) : Bytes :=
  (a.toBech32 crates.bech32 defaultHrp).getD (a.toHex crates.hex)

def fromStr (crates : TextCrates) (text : Bytes) : Except AddressError Address :=
  if defaultHrp.isPrefixOf text then fromBech32 crates.bech32 text defaultHrp
  else FixedBytes.fromHex crates.hex 20 .invalidPayloadLength .bech32Error text

end Address

/-- Texts in hexadecimal: the one written is read back, and the others that are
read as the value differ from it in letter case and a leading `0x` only. -/
structure ReadsHex {ε : Type} {n : Nat} (hex : HexCrate)
    (fromStr : Bytes → Except ε (FixedBytes n)) (texts : Set Bytes) : Prop where
  written : ∀ x : FixedBytes n, x.toHex hex ∈ texts ∧ fromStr (x.toHex hex) = .ok x
  accepts : ∀ text ∈ texts, ∀ x : FixedBytes n,
    fromStr text = .ok x ↔ (stripPrefix (ascii "0x") text).map Hex.lower = x.toHex hex

section

variable {ε : Type} {n : Nat} {lengthError hexError : ε} {text data : Bytes} {x : FixedBytes n}
  {hex : HexCrate} {crates : TextCrates} {a : Address}

/-- What is read is the text of the result, letter case aside. -/
theorem HexCrate.Documented.decode_eq_some_iff (hhex : hex.Documented) :
    hex.decode text = some data ↔ hex.encode data = text.map Hex.lower := by
  constructor
  · intro h
    have hlen : (text.map Hex.lower).length = 2 * data.length := by
      rw [List.length_map, hex.length_of_decode h]
    obtain ⟨data', hdata'⟩ := Hex.exists_encode hlen fun ch hch => by
      obtain ⟨ch', hch', rfl⟩ := List.mem_map.mp hch
      exact hhex.digits h ch' hch'
    have hread : hex.decode (text.map Hex.lower) = some data' := by
      rw [← hdata', ← hhex.encode, hhex.decode_encode]
    rw [hhex.lower (hhex.digits h), h] at hread
    rw [Option.some.inj hread, hhex.encode, hdata']
  · intro h
    have hdigits : ∀ ch ∈ text, Hex.IsDigit ch := by
      intro ch hch
      have hmem : Hex.lower ch ∈ Hex.encode data := by
        rw [← hhex.encode, h]
        exact List.mem_map_of_mem hch
      exact Hex.mem_encode hmem
    rw [← hhex.lower hdigits, ← h, hhex.decode_encode]

theorem FixedBytes.fromHex_ok_iff (hhex : hex.Documented) :
    fromHex hex n lengthError hexError text = .ok x ↔
      (stripPrefix (ascii "0x") text).map Hex.lower = x.toHex hex := by
  rw [fromHex, eq_comm (a := List.map _ _), toHex, ← hhex.decode_eq_some_iff]
  split_ifs with hlen
  · split
    · next hnone => simp [hnone]
    · next data hsome =>
      refine ⟨fun h => ?_, fun h => ?_⟩
      · rw [← Except.ok.inj h]
        exact hsome
      · exact congrArg Except.ok (FixedBytes.ext (Option.some.inj (hsome.symm.trans h)))
  · refine ⟨fun h => (by cases h), fun h => absurd ?_ hlen⟩
    rw [hex.length_of_decode h, x.size]

/-- No digit is an `x`, a `u` or an `r`. -/
theorem FixedBytes.toHex_digits (hhex : hex.Documented) {ch : UInt8} (h : ch ∈ x.toHex hex) :
    Hex.lower ch = ch ∧ ch ≠ 120 ∧ ch ≠ 117 := by
  rw [toHex, hhex.encode] at h
  obtain ⟨k, hk, rfl⟩ := Hex.mem_encode h
  refine ⟨Hex.lower_digit hk, ?_⟩
  interval_cases k <;> decide

theorem FixedBytes.toHex_strip (hhex : hex.Documented) :
    (stripPrefix (ascii "0x") (x.toHex hex)).map Hex.lower = x.toHex hex := by
  have hlower : (x.toHex hex).map Hex.lower = x.toHex hex := by
    refine (List.map_congr_left fun ch hch => ?_).trans (List.map_id _)
    exact (toHex_digits hhex hch).1
  rw [stripPrefix, if_neg, hlower]
  intro hpre
  have hmem : (120 : UInt8) ∈ x.toHex hex :=
    (List.isPrefixOf_iff_prefix.mp hpre).subset (by decide)
  exact (toHex_digits hhex hmem).2.1 rfl

theorem FixedBytes.fromHex_reads (hhex : hex.Documented) :
    ReadsHex hex (fromHex hex n lengthError hexError) Set.univ where
  written _ := ⟨trivial, (fromHex_ok_iff hhex).mpr (toHex_strip hhex)⟩
  accepts _ _ _ := fromHex_ok_iff hhex

theorem Address.fromStr_display (hbech32 : crates.bech32.WritesAddresses) :
    fromStr crates (a.display crates) = .ok a := by
  obtain ⟨text, henc, hpre, hdec⟩ := hbech32 a.bytes a.size
  have htext : a.display crates = text := by rw [display, toBech32, henc, Option.getD_some]
  have hslice : FixedBytes.ofSlice? 20 a.bytes = some a := by rw [FixedBytes.ofSlice?, dif_pos a.size]
  rw [htext, fromStr, if_pos (List.isPrefixOf_iff_prefix.mpr hpre), fromBech32, hdec]
  simp [hslice]

theorem Address.fromStr_reads (hhex : crates.hex.Documented) :
    ReadsHex crates.hex (Address.fromStr crates) {text | ¬ defaultHrp <+: text} := by
  have hplain : ∀ text ∈ {text : Bytes | ¬ defaultHrp <+: text}, Address.fromStr crates text =
      FixedBytes.fromHex crates.hex 20 .invalidPayloadLength .bech32Error text := by
    intro text htext
    rw [Address.fromStr, if_neg fun h => htext (List.isPrefixOf_iff_prefix.mp h)]
  refine ⟨fun a => ?_, fun text htext a => ?_⟩
  · have hmem : a.toHex crates.hex ∈ {text : Bytes | ¬ defaultHrp <+: text} := by
      intro hpre
      have hmem : (117 : UInt8) ∈ a.toHex crates.hex := hpre.subset (by decide)
      exact (FixedBytes.toHex_digits hhex hmem).2.2 rfl
    refine ⟨hmem, (hplain _ hmem).trans ?_⟩
    exact (FixedBytes.fromHex_ok_iff hhex).mpr (FixedBytes.toHex_strip hhex)
  · rw [hplain text htext]
    exact FixedBytes.fromHex_ok_iff hhex

/-- A text that begins with the readable part is an address exactly where the
crate reads twenty bytes under that part from it. -/
theorem Address.fromStr_prefixed_iff (hpre : defaultHrp <+: text) :
    fromStr crates text = .ok a ↔ crates.bech32.decode text = some (defaultHrp, a.bytes) := by
  rw [fromStr, if_pos (List.isPrefixOf_iff_prefix.mpr hpre), fromBech32]
  cases hdec : crates.bech32.decode text with
  | none => simp
  | some p =>
    obtain ⟨hrp, data⟩ := p
    dsimp only
    split_ifs with hhrp
    · simp [hhrp]
    · rw [not_not.mp hhrp, Option.some.injEq, Prod.mk.injEq, FixedBytes.ofSlice?]
      split_ifs with hlen
      · rw [Except.ok.injEq]
        exact ⟨fun h => ⟨rfl, congrArg FixedBytes.bytes h⟩, fun h => FixedBytes.ext h.2⟩
      · refine ⟨fun h => (by cases h), fun h => absurd ?_ hlen⟩
        rw [h.2, a.size]

end

/-- Every hash, key, signature and address is read back from its text, and what
is read as one of them is a text of it. -/
theorem texts_read_back {crates : TextCrates} (hhex : crates.hex.Documented)
    (hbech32 : crates.bech32.WritesAddresses) :
    ReadsHex crates.hex (Hash.fromStr crates.hex) Set.univ ∧
      ReadsHex crates.hex (PublicKey.fromStr crates.hex) Set.univ ∧
      ReadsHex crates.hex (Signature.fromStr crates.hex) Set.univ ∧
      ReadsHex crates.hex (Address.fromStr crates) {text | ¬ defaultHrp <+: text} ∧
      (∀ a : Address, Address.fromStr crates (a.display crates) = .ok a) ∧
      ∀ (a : Address) (text : Bytes), defaultHrp <+: text →
        (Address.fromStr crates text = .ok a ↔
          crates.bech32.decode text = some (defaultHrp, a.bytes)) :=
  ⟨FixedBytes.fromHex_reads hhex, FixedBytes.fromHex_reads hhex, FixedBytes.fromHex_reads hhex,
    Address.fromStr_reads hhex, fun _ => Address.fromStr_display hbech32,
    fun _ _ hpre => Address.fromStr_prefixed_iff hpre⟩

namespace Reference

def hex : HexCrate := ⟨Hex.encode, Hex.decode, Hex.length_of_decode⟩

theorem hex_documented : hex.Documented where
  encode _ := rfl
  decode_encode := Hex.decode_encode
  lower _ := Hex.decode_lower _
  digits := Hex.isDigit_of_decode

def bech32 : Bech32Crate := ⟨fun hrp data => some (Bech32.encode hrp data), Bech32.decode⟩

theorem bech32_writesAddresses : bech32.WritesAddresses := by
  intro data _
  exact ⟨_, rfl, List.prefix_append _ _, Bech32.decode_encode (by decide) data⟩

def textCrates : TextCrates := ⟨hex, bech32⟩

end Reference

theorem texts_read_back_zero :
    Address.zero.display Reference.textCrates = ascii "aura1qqqqqqqqqqqqqqqqqqqqqqqqqqqqqqqqg4ha9y" ∧
      Address.fromStr Reference.textCrates (Address.zero.display Reference.textCrates) =
        .ok Address.zero :=
  ⟨by decide +kernel,
    (texts_read_back Reference.hex_documented Reference.bech32_writesAddresses).2.2.2.2.1 _⟩

end AuraChain
