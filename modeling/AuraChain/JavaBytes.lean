import Mathlib

/-! Bytes, shorts and ints as Java has them: signed and of fixed width, with
byte arrays and buffers over them. What masks and shifts compute on numbers that
are not negative is told through the numbers. -/

namespace Java

inductive Exception
  | indexOutOfBounds
  | bufferOverflow
  | illegalArgument
  deriving DecidableEq

abbrev Bytes := List Int8

def get (data : Bytes) (i : Nat) : Except Exception Int8 :=
  match data[i]? with
  | some b => .ok b
  | none => .error .indexOutOfBounds

/-- The byte as an int between 0 and 255. -/
def unsigned (b : Int8) : Int32 := b.toInt32 &&& 0xFF

/-- Big endian. -/
def shortBytes (s : Int16) : Bytes := [(s >>> 8).toInt8, s.toInt8]

structure ByteBuffer where
  array : Bytes
  position : Nat

theorem bind_ok {ε α β : Type} {x : Except ε α} {a : α} {k : α → Except ε β} (h : x = .ok a) :
    (x >>= k) = k a := by
  rw [h]
  rfl

namespace ByteBuffer

def allocate (capacity : Int32) : Except Exception ByteBuffer :=
  if capacity < 0 then .error .illegalArgument
  else .ok ⟨List.replicate capacity.toNatClampNeg 0, 0⟩

def overwrite (array : Bytes) (i : Nat) (src : Bytes) : Bytes :=
  array.take i ++ src ++ array.drop (i + src.length)

def putAll (self : ByteBuffer) (src : Bytes) : Except Exception ByteBuffer :=
  if self.position + src.length ≤ self.array.length then
    .ok ⟨overwrite self.array self.position src, self.position + src.length⟩
  else .error .bufferOverflow

def put (self : ByteBuffer) (b : Int8) : Except Exception ByteBuffer := self.putAll [b]

def putShort (self : ByteBuffer) (s : Int16) : Except Exception ByteBuffer :=
  self.putAll (shortBytes s)

/-- The position does not move. -/
def putShortAt (self : ByteBuffer) (i : Nat) (s : Int16) : Except Exception ByteBuffer :=
  if i + 2 ≤ self.array.length then
    .ok { self with array := overwrite self.array i (shortBytes s) }
  else .error .indexOutOfBounds

def setPosition (self : ByteBuffer) (i : Nat) : Except Exception ByteBuffer :=
  if i ≤ self.array.length then .ok { self with position := i } else .error .illegalArgument

/-- Written so far, with room for more. -/
def filled (written : Bytes) (room : Nat) : ByteBuffer :=
  ⟨written ++ List.replicate room 0, written.length⟩

theorem allocate_eq {n : Nat} (h : n < 2 ^ 31) :
    allocate (Int32.ofNat n) = .ok (filled [] n) := by
  have hle : Int32.ofNat 0 ≤ Int32.ofNat n :=
    (Int32.ofNat_le_iff_le (by decide) h).mpr (Nat.zero_le n)
  have hneg : ¬ Int32.ofNat n < 0 := Int32.not_lt.mpr hle
  rw [allocate, if_neg hneg, Int32.toNatClampNeg_ofNat_of_lt h]
  rfl

theorem putAll_filled {written src : Bytes} {n room : Nat} (h : src.length = n) :
    (filled written (room + n)).putAll src = .ok (filled (written ++ src) room) := by
  subst h
  have hfits : written.length + src.length ≤
      (written ++ List.replicate (room + src.length) (0 : Int8)).length := by
    rw [List.length_append, List.length_replicate]
    omega
  have hrest : (List.replicate (room + src.length) (0 : Int8)).drop src.length =
      List.replicate room 0 := by
    rw [List.drop_replicate, Nat.add_sub_cancel]
  rw [putAll, filled, if_pos hfits, overwrite, List.take_left, List.drop_append,
    List.drop_of_length_le (Nat.le_add_right _ _), Nat.add_sub_cancel_left, hrest, filled,
    List.length_append]
  rfl

theorem put_filled {written : Bytes} {b : Int8} {room : Nat} :
    (filled written (room + 1)).put b = .ok (filled (written ++ [b]) room) :=
  putAll_filled rfl

theorem putShort_filled {written : Bytes} {s : Int16} {room : Nat} :
    (filled written (room + 2)).putShort s = .ok (filled (written ++ shortBytes s) room) :=
  putAll_filled rfl

theorem putAll_filled_last {written src : Bytes} :
    (filled written src.length).putAll src = .ok (filled (written ++ src) 0) := by
  have h := @putAll_filled written src _ 0 rfl
  rwa [Nat.zero_add] at h

theorem putShortAt_filled {before : Bytes} {x y : Int8} {after : Bytes} {room i : Nat} {s : Int16}
    (h : before.length = i) : (filled (before ++ x :: y :: after) room).putShortAt i s =
      .ok (filled (before ++ shortBytes s ++ after) room) := by
  subst h
  rw [putShortAt, if_pos (by simp [filled])]
  simp [filled, overwrite, shortBytes]

theorem setPosition_filled {written : Bytes} {room i : Nat} (h : written.length = i) :
    (filled written room).setPosition i = .ok (filled written room) := by
  subst h
  rw [setPosition, if_pos (by simp [filled])]
  rfl

end ByteBuffer

theorem ofNat_and (a b : Nat) : Int32.ofNat a &&& Int32.ofNat b = Int32.ofNat (a &&& b) := by
  apply Int32.toBitVec.inj
  rw [Int32.toBitVec_and, Int32.toBitVec_ofNat', Int32.toBitVec_ofNat', Int32.toBitVec_ofNat',
    BitVec.ofNat_and]

theorem ofNat_or (a b : Nat) : Int32.ofNat a ||| Int32.ofNat b = Int32.ofNat (a ||| b) := by
  apply Int32.toBitVec.inj
  rw [Int32.toBitVec_or, Int32.toBitVec_ofNat', Int32.toBitVec_ofNat', Int32.toBitVec_ofNat',
    BitVec.ofNat_or]

theorem toNat_toBitVec_ofNat {a : Nat} (h : a < 2 ^ 32) : (Int32.ofNat a).toBitVec.toNat = a := by
  rw [Int32.toBitVec_ofNat', BitVec.toNat_ofNat, Nat.mod_eq_of_lt h]

theorem ofNat_inj {a b : Nat} (ha : a < 2 ^ 32) (hb : b < 2 ^ 32)
    (h : Int32.ofNat a = Int32.ofNat b) : a = b := by
  have hnat := congrArg (fun x : Int32 => x.toBitVec.toNat) h
  simpa only [toNat_toBitVec_ofNat ha, toNat_toBitVec_ofNat hb] using hnat

theorem ofNat_shiftLeft_eight (a : Nat) : Int32.ofNat a <<< 8 = Int32.ofNat (a <<< 8) := by
  apply Int32.toBitVec.inj
  apply BitVec.eq_of_toNat_eq
  simp [Nat.shiftLeft_eq]

/-- The sign is not set, so that no ones are shifted in. -/
theorem sshiftRight_ofNat {a : Nat} (h : a < 2 ^ 31) (k : Nat) :
    (BitVec.ofNat 32 a).sshiftRight k = BitVec.ofNat 32 (a >>> k) := by
  have hmsb : (BitVec.ofNat 32 a).msb = false := by
    rw [BitVec.msb_eq_false_iff_two_mul_lt, BitVec.toNat_ofNat]
    omega
  have hle : a >>> k ≤ a := Nat.shiftRight_le a k
  rw [BitVec.sshiftRight_eq_of_msb_false hmsb]
  apply BitVec.eq_of_toNat_eq
  rw [BitVec.toNat_ushiftRight, BitVec.toNat_ofNat, BitVec.toNat_ofNat,
    Nat.mod_eq_of_lt (by omega), Nat.mod_eq_of_lt (by omega)]

theorem ofNat_shiftRight_four {a : Nat} (h : a < 2 ^ 31) :
    Int32.ofNat a >>> 4 = Int32.ofNat (a >>> 4) :=
  Int32.toBitVec.inj (sshiftRight_ofNat h 4)

theorem ofNat_shiftRight_sixteen {a : Nat} (h : a < 2 ^ 31) :
    Int32.ofNat a >>> 16 = Int32.ofNat (a >>> 16) :=
  Int32.toBitVec.inj (sshiftRight_ofNat h 16)

theorem carry_ofNat_iff {a : Nat} (h : a < 2 ^ 31) :
    (0 : Int32) < Int32.ofNat a >>> 16 ↔ 0 < a >>> 16 := by
  have hle : a >>> 16 ≤ a := Nat.shiftRight_le a 16
  rw [ofNat_shiftRight_sixteen h]
  exact Int32.ofNat_lt_iff_lt (by decide) (by omega)

/-- Only a number that is not negative has a carry. -/
theorem eq_ofNat_of_carry {x : Int32} (h : (0 : Int32) < x >>> 16) :
    ∃ a, a < 2 ^ 31 ∧ 0 < a >>> 16 ∧ x = Int32.ofNat a := by
  have hint : (x >>> 16).toInt = x.toInt >>> (16 : Nat) := BitVec.toInt_sshiftRight
  have hpos : (0 : Int) < x.toInt >>> (16 : Nat) := by
    rw [← hint]
    exact Int32.lt_iff_toInt_lt.mp h
  have hnonneg : 0 ≤ x.toInt := by
    rw [Int.shiftRight_eq_div_pow] at hpos
    omega
  have hx : x = Int32.ofNat x.toInt.toNat := by
    rw [← Int32.ofInt_eq_ofNat, Int.toNat_of_nonneg hnonneg, Int32.ofInt_toInt]
  have hlt : x.toInt.toNat < 2 ^ 31 := by
    have hmax := x.toInt_lt
    omega
  refine ⟨x.toInt.toNat, hlt, ?_, hx⟩
  rw [hx] at h
  exact (carry_ofNat_iff hlt).mp h

/-- Adding the carry at the bottom. -/
theorem fold_ofNat {a : Nat} (h : a < 2 ^ 31) :
    (Int32.ofNat a &&& (0xFFFF : Int32)) + Int32.ofNat a >>> 16 =
      Int32.ofNat ((a &&& 0xFFFF) + a >>> 16) := by
  have hmask : (0xFFFF : Int32) = Int32.ofNat 0xFFFF := rfl
  rw [hmask, ofNat_and, ofNat_shiftRight_sixteen h, Int32.ofNat_add]

theorem fold_lt {a : Nat} (h : 0 < a >>> 16) : (a &&& 0xFFFF) + a >>> 16 < a := by
  have hand : a &&& 0xFFFF = a % 2 ^ 16 := Nat.and_two_pow_sub_one_eq_mod a 16
  rw [Nat.shiftRight_eq_div_pow] at h ⊢
  omega

theorem getLsbD_mask {k i : Nat} (hi : i < 32) :
    (Int32.ofNat (2 ^ k - 1)).toBitVec.getLsbD i = decide (i < k) := by
  rw [Int32.toBitVec_ofNat', BitVec.getLsbD_ofNat, Nat.testBit_two_pow_sub_one, decide_eq_true hi,
    Bool.true_and]

theorem not_ofNat_and_mask {a : Nat} (h : a < 2 ^ 16) :
    ~~~ Int32.ofNat a &&& 0xFFFF = Int32.ofNat (0xFFFF - a) := by
  have hmask : (0xFFFF : Int32) = Int32.ofNat (2 ^ 16 - 1) := rfl
  have hsub : 0xFFFF - a = 2 ^ 16 - (a + 1) := by omega
  apply Int32.toBitVec.inj
  apply BitVec.eq_of_getLsbD_eq
  intro i hi
  rw [hmask, hsub, Int32.toBitVec_and, BitVec.getLsbD_and, getLsbD_mask hi, Int32.toBitVec_not,
    BitVec.getLsbD_not, Int32.toBitVec_ofNat', Int32.toBitVec_ofNat', BitVec.getLsbD_ofNat,
    BitVec.getLsbD_ofNat, Nat.testBit_two_pow_sub_succ h]
  simp [hi, Bool.and_comm]

theorem unsigned_eq (b : Int8) : unsigned b = Int32.ofNat b.toUInt8.toNat := by
  have hmask : (0xFF : Int32) = Int32.ofNat (2 ^ 8 - 1) := rfl
  have hnat : b.toUInt8.toNat = b.toBitVec.toNat := rfl
  apply Int32.toBitVec.inj
  apply BitVec.eq_of_getLsbD_eq
  intro i hi
  rw [unsigned, hmask, Int32.toBitVec_and, BitVec.getLsbD_and, getLsbD_mask hi,
    Int8.toBitVec_toInt32, BitVec.getLsbD_signExtend, Int32.toBitVec_ofNat', hnat,
    BitVec.getLsbD_ofNat]
  by_cases h8 : i < 8
  · simp [hi, h8, BitVec.getLsbD]
  · have hpow : 2 ^ 8 ≤ 2 ^ i := Nat.pow_le_pow_right (by omega) (by omega)
    have hhigh : b.toBitVec.toNat.testBit i = false :=
      Nat.testBit_lt_two_pow (Nat.lt_of_lt_of_le b.toBitVec.isLt hpow)
    simp [h8, hhigh]

theorem toUInt8_high (n : Nat) :
    (Int16.ofNat n >>> 8).toInt8.toUInt8 = UInt8.ofNat (n >>> 8) := by
  apply UInt8.toBitVec_inj.mp
  apply BitVec.eq_of_getLsbD_eq
  intro i hi
  have hshift : (Int16.ofNat n >>> 8).toBitVec = (BitVec.ofNat 16 n).sshiftRight 8 := rfl
  have h16 : i < 16 := by omega
  have h8 : 8 + i < 16 := by omega
  rw [Int8.toBitVec_toUInt8, Int16.toBitVec_toInt8, hshift, BitVec.getLsbD_signExtend,
    BitVec.getLsbD_sshiftRight, if_pos h16, if_pos h8, BitVec.getLsbD_ofNat, UInt8.toBitVec_ofNat',
    BitVec.getLsbD_ofNat, Nat.testBit_shiftRight]
  simp [hi, h8, Nat.not_le.mpr h16]

theorem map_shortBytes (n : Nat) : (shortBytes (Int16.ofNat n)).map Int8.toUInt8 =
    [UInt8.ofNat (n >>> 8), UInt8.ofNat n] := by
  rw [shortBytes, List.map_cons, toUInt8_high, Int16.toInt8_ofNat']
  rfl

end Java
