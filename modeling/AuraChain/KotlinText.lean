import AuraChain.Word

/-! Strings as Kotlin's library measures, trims and decodes them. A string is
the list of its code points. Bytes that are not UTF-8 are decoded to the
replacement character, so that decoding never fails. -/

abbrev Text := List Char

namespace Text

def length16 (text : Text) : Nat := (text.map fun ch => if ch.toNat < 0x10000 then 1 else 2).sum

def isWhitespace (ch : Char) : Bool :=
  (0x9 ≤ ch.toNat && ch.toNat ≤ 0xD) || (0x1C ≤ ch.toNat && ch.toNat ≤ 0x20) ||
    (0x2000 ≤ ch.toNat && ch.toNat ≤ 0x200A) ||
    [0xA0, 0x1680, 0x2028, 0x2029, 0x202F, 0x205F, 0x3000].contains ch.toNat

def trim (text : Text) : Text := ((text.dropWhile isWhitespace).reverse.dropWhile isWhitespace).reverse

def encode (text : Text) : Bytes := text.flatMap String.utf8EncodeChar

/-- A character of which some bytes are still missing. The next byte lies
between the bounds, or the sequence is malformed. -/
structure Pending where
  missing : Nat
  lower : UInt8
  upper : UInt8
  codePoint : Nat

def replacement : Char := Char.ofNat 0xFFFD

/-- The characters that a first byte completes, and the one that it begins. -/
def decodeFirst (b : UInt8) : Text × Option Pending :=
  if b < 0x80 then ([Char.ofNat b.toNat], none)
  else if b < 0xC2 then ([replacement], none)
  else if b < 0xE0 then ([], some ⟨1, 0x80, 0xBF, b.toNat % 0x20⟩)
  else if b < 0xF0 then
    ([], some ⟨2, if b = 0xE0 then 0xA0 else 0x80, if b = 0xED then 0x9F else 0xBF, b.toNat % 0x10⟩)
  else if b < 0xF5 then
    ([], some ⟨3, if b = 0xF0 then 0x90 else 0x80, if b = 0xF4 then 0x8F else 0xBF, b.toNat % 0x8⟩)
  else ([replacement], none)

def decodeByte : Option Pending → UInt8 → Text × Option Pending
  | none, b => decodeFirst b
  | some p, b =>
    if p.lower ≤ b ∧ b ≤ p.upper then
      let codePoint := p.codePoint * 0x40 + b.toNat % 0x40
      if p.missing = 1 then ([Char.ofNat codePoint], none)
      else ([], some ⟨p.missing - 1, 0x80, 0xBF, codePoint⟩)
    else (replacement :: (decodeFirst b).1, (decodeFirst b).2)

def decodeFrom (pending : Option Pending) : Bytes → Text
  | [] => if pending.isSome then [replacement] else []
  | b :: bytes => (decodeByte pending b).1 ++ decodeFrom (decodeByte pending b).2 bytes

def decode (bytes : Bytes) : Text := decodeFrom none bytes

theorem decode_ascii {text : Text} (h : ∀ ch ∈ text, ch.toNat < 0x80) (bytes : Bytes) :
    decode (encode text ++ bytes) = text ++ decode bytes := by
  induction text with
  | nil => rfl
  | cons ch text ih =>
    obtain ⟨hch, htext⟩ := List.forall_mem_cons.mp h
    have hbyte : String.utf8EncodeChar ch = [UInt8.ofNat ch.toNat] := by
      have hle : ch.val.toNat ≤ 0x7F := by
        have heq : ch.toNat = ch.val.toNat := rfl
        omega
      simp only [String.utf8EncodeChar, hle, if_true]
      rfl
    have hnat : (UInt8.ofNat ch.toNat).toNat = ch.toNat := by
      rw [UInt8.toNat_ofNat']
      omega
    have hlt : UInt8.ofNat ch.toNat < 0x80 := by
      rw [UInt8.lt_iff_toNat_lt, hnat]
      exact hch
    have hstep : decode (String.utf8EncodeChar ch ++ (encode text ++ bytes)) =
        ch :: decode (encode text ++ bytes) := by
      rw [hbyte, decode, List.singleton_append, decodeFrom, decodeByte, decodeFirst, if_pos hlt, hnat,
        Char.ofNat_toNat]
      rfl
    rw [encode, List.flatMap_cons, List.append_assoc]
    exact hstep.trans (congrArg (List.cons ch) (ih htext))

end Text
