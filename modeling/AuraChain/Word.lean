import Mathlib

/-! Machine words. Plain additions wrap, as in a release build; sums and
saturating operations on 64-bit words are read as arithmetic on natural
numbers. Words are written as byte strings of a fixed width. -/

abbrev Bytes := List UInt8

def ascii (s : String) : Bytes :=
  s.toList.map (fun ch => UInt8.ofNat ch.toNat)

namespace UInt64

def saturatingAdd (a b : UInt64) : UInt64 :=
  if a.toNat + b.toNat < 2 ^ 64 then a + b else UInt64.ofNat (2 ^ 64 - 1)

def saturatingSub (a b : UInt64) : UInt64 :=
  if b ≤ a then a - b else 0

def sum (l : List UInt64) : UInt64 :=
  l.foldl (· + ·) 0

@[simp] theorem toNat_saturatingAdd (a b : UInt64) :
    (a.saturatingAdd b).toNat = min (a.toNat + b.toNat) (2 ^ 64 - 1) := by
  rw [saturatingAdd]
  split_ifs with h
  · rw [UInt64.toNat_add, Nat.mod_eq_of_lt h]
    omega
  · have hm : (UInt64.ofNat (2 ^ 64 - 1)).toNat = 2 ^ 64 - 1 := by decide
    omega

@[simp] theorem toNat_saturatingSub (a b : UInt64) :
    (a.saturatingSub b).toNat = a.toNat - b.toNat := by
  rw [saturatingSub]
  split_ifs with h
  · exact UInt64.toNat_sub_of_le a b h
  · have hlt : a.toNat < b.toNat := by simpa [UInt64.le_iff_toNat_le] using h
    simp only [UInt64.toNat_zero]
    omega

theorem toNat_foldl_add (l : List UInt64) (a : UInt64) :
    (l.foldl (· + ·) a).toNat = (a.toNat + (l.map UInt64.toNat).sum) % 2 ^ 64 := by
  induction l generalizing a with
  | nil => simp [Nat.mod_eq_of_lt a.toNat_lt]
  | cons x xs ih =>
    rw [List.foldl_cons, ih, UInt64.toNat_add, List.map_cons, List.sum_cons]
    omega

theorem toNat_sum (l : List UInt64) :
    (sum l).toNat = (l.map UInt64.toNat).sum % 2 ^ 64 := by
  rw [sum, toNat_foldl_add, UInt64.toNat_zero, Nat.zero_add]

theorem toNat_sum_of_lt {l : List UInt64} (h : (l.map UInt64.toNat).sum < 2 ^ 64) :
    (sum l).toNat = (l.map UInt64.toNat).sum := by
  rw [toNat_sum, Nat.mod_eq_of_lt h]

end UInt64

def bigEndian : Nat → Nat → Bytes
  | 0, _ => []
  | width + 1, n => bigEndian width (n / 256) ++ [UInt8.ofNat n]

def ofBigEndian (l : Bytes) : Nat :=
  l.foldl (fun acc b => acc * 256 + b.toNat) 0

def littleEndian (width n : Nat) : Bytes :=
  (bigEndian width n).reverse

@[simp] theorem bigEndian_length (width n : Nat) : (bigEndian width n).length = width := by
  induction width generalizing n with
  | zero => rfl
  | succ width ih => simp [bigEndian, ih]

theorem ofBigEndian_bigEndian (width n : Nat) : ofBigEndian (bigEndian width n) = n % 256 ^ width := by
  induction width generalizing n with
  | zero => simp [bigEndian, ofBigEndian, Nat.mod_one]
  | succ width ih =>
    have hd : ofBigEndian (bigEndian (width + 1) n) =
        ofBigEndian (bigEndian width (n / 256)) * 256 + n % 256 := by
      simp [ofBigEndian, bigEndian]
    rw [hd, ih, pow_succ', Nat.mod_mul]
    omega

theorem foldl_ofBigEndian (l : Bytes) (acc : Nat) :
    l.foldl (fun acc b => acc * 256 + b.toNat) acc = acc * 256 ^ l.length + ofBigEndian l := by
  induction l generalizing acc with
  | nil => simp [ofBigEndian]
  | cons b l ih =>
    have hl : ofBigEndian (b :: l) = (0 * 256 + b.toNat) * 256 ^ l.length + ofBigEndian l :=
      ih (0 * 256 + b.toNat)
    rw [List.foldl_cons, ih, hl, List.length_cons, pow_succ]
    ring

theorem ofBigEndian_cons (b : UInt8) (l : Bytes) :
    ofBigEndian (b :: l) = b.toNat * 256 ^ l.length + ofBigEndian l := by
  simpa [ofBigEndian] using foldl_ofBigEndian l b.toNat

theorem ofBigEndian_lt (l : Bytes) : ofBigEndian l < 256 ^ l.length := by
  induction l with
  | nil => simp [ofBigEndian]
  | cons b l ih =>
    have hb : b.toNat ≤ 255 := Nat.le_of_lt_succ b.toNat_lt
    have hm := Nat.mul_le_mul_right (256 ^ l.length) hb
    rw [ofBigEndian_cons, List.length_cons, pow_succ]
    omega

/-- A byte is a digit of the number, the last byte the lowest one. -/
theorem ofBigEndian_digit {l : Bytes} {i : Nat} (hi : i < l.length) :
    ofBigEndian l / 256 ^ (l.length - 1 - i) % 256 = (l.getD i 0).toNat := by
  induction l generalizing i with
  | nil => simp at hi
  | cons b l ih =>
    have hlt := ofBigEndian_lt l
    rw [ofBigEndian_cons, List.length_cons, Nat.add_sub_cancel]
    cases i with
    | zero =>
      have hb : b.toNat < 256 := b.toNat_lt
      rw [Nat.sub_zero, Nat.mul_comm, Nat.mul_add_div (Nat.pow_pos (by omega)),
        Nat.div_eq_of_lt hlt, Nat.add_zero, Nat.mod_eq_of_lt hb, List.getD_cons_zero]
    | succ i =>
      have hi' : i < l.length := by simpa using hi
      have hpow : 256 ^ l.length = 256 ^ (l.length - 1 - i) * (256 * 256 ^ i) := by
        rw [← pow_succ', ← pow_add]
        congr 1
        omega
      have hsplit : b.toNat * 256 ^ l.length =
          256 ^ (l.length - 1 - i) * (256 * (b.toNat * 256 ^ i)) := by
        rw [hpow]
        ring
      have hexp : l.length - (i + 1) = l.length - 1 - i := by omega
      rw [hexp, hsplit, Nat.mul_add_div (Nat.pow_pos (by omega)), Nat.mul_add_mod, ih hi',
        List.getD_cons_succ]

theorem ofBigEndian_injective {l r : Bytes} (hlen : l.length = r.length)
    (h : ofBigEndian l = ofBigEndian r) : l = r := by
  apply List.ext_getElem hlen
  intro i hl hr
  have hdigit := ofBigEndian_digit hl
  rw [h, hlen, ofBigEndian_digit hr, List.getD_eq_getElem _ _ hl, List.getD_eq_getElem _ _ hr]
    at hdigit
  exact UInt8.toNat_inj.mp hdigit.symm

theorem bigEndian_ofBigEndian (l : Bytes) : bigEndian l.length (ofBigEndian l) = l := by
  apply ofBigEndian_injective (bigEndian_length _ _)
  rw [ofBigEndian_bigEndian, Nat.mod_eq_of_lt (ofBigEndian_lt l)]

namespace UInt64

def toBeBytes (n : UInt64) : Bytes := bigEndian 8 n.toNat

def fromBeBytes (l : Bytes) : UInt64 := UInt64.ofNat (ofBigEndian l)

@[simp] theorem toBeBytes_length (n : UInt64) : n.toBeBytes.length = 8 := bigEndian_length 8 _

@[simp] theorem fromBeBytes_toBeBytes (n : UInt64) : fromBeBytes n.toBeBytes = n := by
  have h : n.toNat < 256 ^ 8 := n.toNat_lt
  rw [fromBeBytes, toBeBytes, ofBigEndian_bigEndian, Nat.mod_eq_of_lt h, UInt64.ofNat_toNat]

theorem toBeBytes_injective : Function.Injective toBeBytes :=
  Function.LeftInverse.injective fromBeBytes_toBeBytes

end UInt64

def UInt32.toBeBytes (n : UInt32) : Bytes := bigEndian 4 n.toNat

@[simp] theorem UInt32.toBeBytes_length (n : UInt32) : n.toBeBytes.length = 4 := bigEndian_length 4 _

theorem UInt32.toBeBytes_injective : Function.Injective UInt32.toBeBytes := by
  intro m n h
  have he := congrArg ofBigEndian h
  have hm : m.toNat < 256 ^ 4 := m.toNat_lt
  have hn : n.toNat < 256 ^ 4 := n.toNat_lt
  rw [UInt32.toBeBytes, UInt32.toBeBytes, ofBigEndian_bigEndian, ofBigEndian_bigEndian,
    Nat.mod_eq_of_lt hm, Nat.mod_eq_of_lt hn] at he
  exact UInt32.toNat_inj.mp he

namespace UInt32

def fromBeBytes (l : Bytes) : UInt32 := UInt32.ofNat (ofBigEndian l)

@[simp] theorem fromBeBytes_toBeBytes (n : UInt32) : fromBeBytes n.toBeBytes = n := by
  have h : n.toNat < 256 ^ 4 := n.toNat_lt
  rw [fromBeBytes, toBeBytes, ofBigEndian_bigEndian, Nat.mod_eq_of_lt h, UInt32.ofNat_toNat]

theorem toBeBytes_fromBeBytes {l : Bytes} (h : l.length = 4) : (fromBeBytes l).toBeBytes = l := by
  have hlt := ofBigEndian_lt l
  rw [h] at hlt
  have hnat : (UInt32.ofNat (ofBigEndian l)).toNat = ofBigEndian l := UInt32.toNat_ofNat_of_lt hlt
  rw [fromBeBytes, toBeBytes, hnat, ← h, bigEndian_ofBigEndian]

end UInt32
