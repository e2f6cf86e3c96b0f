import AuraChain.TokenReader
import AuraChain.Types

/-! The bincode 1.3 format with its default options: integers of fixed width
with the low byte first, a `u64` length in front of byte strings, sequences and
strings, a `u32` index in front of an enum variant and one byte in front of an
`Option`. Bytes behind the value are allowed. -/

namespace AuraChain

inductive BincodeError
  | unexpectedEof
  | invalidBoolEncoding (byte : UInt8)
  | invalidTagEncoding (byte : UInt8)
  | invalidVariantIndex (index : UInt32)
  | invalidUtf8Encoding
  | custom (message : String)
  deriving DecidableEq

abbrev Deserialize := TokenReader BincodeError UInt8

namespace Bincode

def deserialize {α : Type} (r : Deserialize α) (bytes : Bytes) : Except BincodeError α :=
  r.parse bytes

def serializeU8 (n : UInt8) : Bytes := littleEndian 1 n.toNat
def serializeU16 (n : UInt16) : Bytes := littleEndian 2 n.toNat
def serializeU32 (n : UInt32) : Bytes := littleEndian 4 n.toNat
def serializeU64 (n : UInt64) : Bytes := littleEndian 8 n.toNat

def deserializeInt (width : Nat) : Deserialize Nat := do
  let bytes ← TokenReader.take .unexpectedEof width
  return ofBigEndian bytes.reverse

def deserializeU8 : Deserialize UInt8 := do
  let n ← deserializeInt 1
  return UInt8.ofNat n

def deserializeU16 : Deserialize UInt16 := do
  let n ← deserializeInt 2
  return UInt16.ofNat n

def deserializeU32 : Deserialize UInt32 := do
  let n ← deserializeInt 4
  return UInt32.ofNat n

def deserializeU64 : Deserialize UInt64 := do
  let n ← deserializeInt 8
  return UInt64.ofNat n

def serializeBool (b : Bool) : Bytes := if b then [1] else [0]

def deserializeBool : Deserialize Bool := do
  let byte ← deserializeU8
  if byte = 0 then return false
  else if byte = 1 then return true
  else TokenReader.fail (.invalidBoolEncoding byte)

def serializeOption {α : Type} (serialize : α → Bytes) : Option α → Bytes
  | none => [0]
  | some a => 1 :: serialize a

def deserializeOption {α : Type} (r : Deserialize α) : Deserialize (Option α) := do
  let byte ← deserializeU8
  if byte = 0 then return none
  else if byte = 1 then
    let a ← r
    return some a
  else TokenReader.fail (.invalidTagEncoding byte)

def serializeLen (n : Nat) : Bytes := serializeU64 (UInt64.ofNat n)

def deserializeLen : Deserialize Nat := do
  let n ← deserializeU64
  return n.toNat

/-- What `serialize_bytes` writes. -/
def serializeBytes (bytes : Bytes) : Bytes := serializeLen bytes.length ++ bytes

def serializeSeq {α : Type} (serialize : α → Bytes) (l : List α) : Bytes :=
  serializeLen l.length ++ l.flatMap serialize

def deserializeSeq {α : Type} (r : Deserialize α) : Deserialize (List α) := do
  let n ← deserializeLen
  r.repeated n

/-- `Vec<u8>` is a sequence of bytes to serde. -/
def serializeVecU8 (bytes : Bytes) : Bytes := serializeSeq serializeU8 bytes

def deserializeVecU8 : Deserialize Bytes := deserializeSeq deserializeU8

/-- The bytes of a string. -/
def utf8 (s : String) : Bytes := s.toByteArray.data.toList

def IsUtf8 (bytes : Bytes) : Prop := ∃ s, utf8 s = bytes

def fromUtf8 (bytes : Bytes) : Option Bytes :=
  (String.fromUTF8? ⟨bytes.toArray⟩).map utf8

def serializeString (bytes : Bytes) : Bytes := serializeBytes bytes

def deserializeString : Deserialize Bytes := do
  let n ← deserializeLen
  let bytes ← TokenReader.take .unexpectedEof n
  TokenReader.ofOption .invalidUtf8Encoding (fromUtf8 bytes)

def serializeVariant (index : UInt32) : Bytes := serializeU32 index

def deserializeVariant : Deserialize UInt32 := deserializeU32

theorem reads_int (width n : Nat) (h : n < 256 ^ width) :
    Reads (deserializeInt width) (littleEndian width n) n := by
  have hlen : (littleEndian width n).length = width := by
    rw [littleEndian, List.length_reverse, bigEndian_length]
  have hval : ofBigEndian (littleEndian width n).reverse = n := by
    rw [littleEndian, List.reverse_reverse, ofBigEndian_bigEndian, Nat.mod_eq_of_lt h]
  have hr := (Reads.take (e := BincodeError.unexpectedEof) (littleEndian width n)).map
    (f := fun bytes => ofBigEndian bytes.reverse)
  rw [hlen, hval] at hr
  exact hr

theorem reads_u8 (n : UInt8) : Reads deserializeU8 (serializeU8 n) n := by
  have h := (reads_int 1 n.toNat n.toNat_lt).map (f := UInt8.ofNat)
  rwa [UInt8.ofNat_toNat] at h

theorem reads_u16 (n : UInt16) : Reads deserializeU16 (serializeU16 n) n := by
  have h := (reads_int 2 n.toNat n.toNat_lt).map (f := UInt16.ofNat)
  rwa [UInt16.ofNat_toNat] at h

theorem reads_u32 (n : UInt32) : Reads deserializeU32 (serializeU32 n) n := by
  have h := (reads_int 4 n.toNat n.toNat_lt).map (f := UInt32.ofNat)
  rwa [UInt32.ofNat_toNat] at h

theorem reads_u64 (n : UInt64) : Reads deserializeU64 (serializeU64 n) n := by
  have h := (reads_int 8 n.toNat n.toNat_lt).map (f := UInt64.ofNat)
  rwa [UInt64.ofNat_toNat] at h

theorem reads_variant (index : UInt32) : Reads deserializeVariant (serializeVariant index) index :=
  reads_u32 index

theorem reads_bool (b : Bool) : Reads deserializeBool (serializeBool b) b := by
  cases b with
  | false =>
    refine Reads.last (reads_u8 0) ?_
    exact Reads.pure false
  | true =>
    refine Reads.last (reads_u8 1) ?_
    exact Reads.pure true

theorem reads_option {α : Type} {serialize : α → Bytes} {r : Deserialize α} (o : Option α)
    (h : ∀ a, o = some a → Reads r (serialize a) a) :
    Reads (deserializeOption r) (serializeOption serialize o) o := by
  cases o with
  | none =>
    refine Reads.last (reads_u8 0) ?_
    exact Reads.pure none
  | some a =>
    refine Reads.bind (reads_u8 1) ?_
    exact (h a rfl).map

theorem reads_len {n : Nat} (h : n < 2 ^ 64) : Reads deserializeLen (serializeLen n) n := by
  have hr := (reads_u64 (UInt64.ofNat n)).map (f := UInt64.toNat)
  rwa [UInt64.toNat_ofNat_of_lt' h] at hr

theorem reads_seq {α : Type} {serialize : α → Bytes} {r : Deserialize α} {l : List α}
    (hlen : l.length < 2 ^ 64) (h : ∀ a ∈ l, Reads r (serialize a) a) :
    Reads (deserializeSeq r) (serializeSeq serialize l) l :=
  (reads_len hlen).bind (Reads.repeated h)

theorem reads_vecU8 {bytes : Bytes} (hlen : bytes.length < 2 ^ 64) :
    Reads deserializeVecU8 (serializeVecU8 bytes) bytes :=
  reads_seq hlen fun byte _ => reads_u8 byte

/-- A byte string and a sequence of bytes are the same on the wire, so what
`serialize_bytes` wrote reads back as a `Vec<u8>`. -/
theorem serializeBytes_eq_vecU8 (bytes : Bytes) : serializeBytes bytes = serializeVecU8 bytes := by
  have hbyte : ∀ byte : UInt8, serializeU8 byte = [byte] := by
    intro byte
    simp [serializeU8, littleEndian, bigEndian]
  have hall : bytes.flatMap serializeU8 = bytes := by
    induction bytes with
    | nil => rfl
    | cons byte bytes ih => rw [List.flatMap_cons, ih, hbyte, List.singleton_append]
  rw [serializeBytes, serializeVecU8, serializeSeq, hall]

theorem fromUtf8_of_isUtf8 {bytes : Bytes} (h : IsUtf8 bytes) : fromUtf8 bytes = some bytes := by
  obtain ⟨s, rfl⟩ := h
  have harr : (⟨(utf8 s).toArray⟩ : ByteArray) = s.toByteArray := by
    rw [utf8, Array.toArray_toList]
  have hs : String.fromUTF8? s.toByteArray = some s := by
    rw [String.fromUTF8?, dif_pos s.isValidUTF8]
    rfl
  rw [fromUtf8, harr, hs, Option.map_some]

theorem of_fromUtf8 {bytes host : Bytes} (h : fromUtf8 bytes = some host) :
    IsUtf8 bytes ∧ host = bytes := by
  obtain ⟨s, hs, rfl⟩ := Option.map_eq_some_iff.mp h
  rw [String.fromUTF8?] at hs
  split_ifs at hs with hvalid
  have he : utf8 s = bytes := by
    rw [← Option.some.inj hs]
    rfl
  exact ⟨⟨s, he⟩, he⟩

theorem isUtf8_iff (bytes : Bytes) : IsUtf8 bytes ↔ fromUtf8 bytes = some bytes :=
  ⟨fromUtf8_of_isUtf8, fun h => (of_fromUtf8 h).1⟩

instance (bytes : Bytes) : Decidable (IsUtf8 bytes) := decidable_of_iff _ (isUtf8_iff bytes).symm

theorem reads_string {bytes : Bytes} (hutf8 : IsUtf8 bytes) (hlen : bytes.length < 2 ^ 64) :
    Reads deserializeString (serializeString bytes) bytes := by
  refine Reads.bind (reads_len hlen) ?_
  refine Reads.last (Reads.take bytes) ?_
  exact Reads.ofOption (fromUtf8_of_isUtf8 hutf8)

end Bincode

end AuraChain
