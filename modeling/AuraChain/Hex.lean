import Mathlib

/-! Hexadecimal text of bytes, two digits for each. It is written in lower case
and read in either case. -/

namespace Hex

def digit (n : Nat) : UInt8 := UInt8.ofNat (if n < 10 then 48 + n else 87 + n)

def value (ch : UInt8) : Option Nat :=
  if 48 ≤ ch.toNat ∧ ch.toNat ≤ 57 then some (ch.toNat - 48)
  else if 97 ≤ ch.toNat ∧ ch.toNat ≤ 102 then some (ch.toNat - 87)
  else if 65 ≤ ch.toNat ∧ ch.toNat ≤ 70 then some (ch.toNat - 55)
  else none

def lower (ch : UInt8) : UInt8 := if 65 ≤ ch.toNat ∧ ch.toNat ≤ 90 then ch + 32 else ch

def encodeByte (b : UInt8) : List UInt8 := [digit (b.toNat / 16), digit (b.toNat % 16)]

def encode (data : List UInt8) : List UInt8 := data.flatMap encodeByte

def decode : List UInt8 → Option (List UInt8)
  | [] => some []
  | [_] => none
  | high :: low :: rest =>
    (value high).bind fun h => (value low).bind fun l =>
      (decode rest).map fun data => UInt8.ofNat (16 * h + l) :: data

theorem value_digit {n : Nat} (hn : n < 16) : value (digit n) = some n := by
  interval_cases n <;> rfl

theorem lower_digit {n : Nat} (hn : n < 16) : lower (digit n) = digit n := by
  interval_cases n <;> rfl

theorem value_eq_some {ch : UInt8} {n : Nat} (h : value ch = some n) : n < 16 ∧ digit n = lower ch := by
  have hdigit : digit n = UInt8.ofNat (if n < 10 then 48 + n else 87 + n) := rfl
  rw [value] at h
  split_ifs at h with hnumber hsmall hcapital
  · obtain rfl : ch.toNat - 48 = n := Option.some.inj h
    refine ⟨by omega, ?_⟩
    rw [hdigit, lower, if_pos (by omega), if_neg (by omega), Nat.add_sub_cancel' hnumber.1,
      UInt8.ofNat_toNat]
  · obtain rfl : ch.toNat - 87 = n := Option.some.inj h
    refine ⟨by omega, ?_⟩
    rw [hdigit, lower, if_neg (by omega), if_neg (by omega), Nat.add_sub_cancel' (by omega),
      UInt8.ofNat_toNat]
  · obtain rfl : ch.toNat - 55 = n := Option.some.inj h
    refine ⟨by omega, UInt8.toNat_inj.mp ?_⟩
    rw [hdigit, lower, if_neg (by omega), if_pos (by omega), UInt8.toNat_ofNat', UInt8.toNat_add]
    have h32 : (32 : UInt8).toNat = 32 := rfl
    omega

@[simp] theorem encode_nil : encode [] = [] := rfl

@[simp] theorem encode_cons (b : UInt8) (data : List UInt8) :
    encode (b :: data) = encodeByte b ++ encode data := rfl

theorem length_encode (data : List UInt8) : (encode data).length = 2 * data.length := by
  induction data with
  | nil => rfl
  | cons b data ih =>
    rw [encode_cons, List.length_append, ih, List.length_cons, encodeByte, List.length_cons,
      List.length_cons, List.length_nil]
    omega

theorem mem_encode {data : List UInt8} {ch : UInt8} (h : ch ∈ encode data) :
    ∃ n < 16, digit n = ch := by
  obtain ⟨b, -, hch⟩ := List.mem_flatMap.mp h
  have hb := b.toNat_lt
  rcases List.mem_cons.mp hch with rfl | hch
  · exact ⟨_, by omega, rfl⟩
  · rw [List.mem_singleton] at hch
    exact ⟨_, by omega, hch.symm⟩

theorem ofNat_halves (b : UInt8) : UInt8.ofNat (16 * (b.toNat / 16) + b.toNat % 16) = b := by
  rw [Nat.div_add_mod, UInt8.ofNat_toNat]

theorem decode_encode (data : List UInt8) : decode (encode data) = some data := by
  induction data with
  | nil => rfl
  | cons b data ih =>
    have hb := b.toNat_lt
    have hhigh : value (digit (b.toNat / 16)) = some (b.toNat / 16) := value_digit (by omega)
    have hlow : value (digit (b.toNat % 16)) = some (b.toNat % 16) := value_digit (by omega)
    show decode (digit (b.toNat / 16) :: digit (b.toNat % 16) :: encode data) = _
    rw [decode, hhigh, hlow, ih, Option.bind_some, Option.bind_some, Option.map_some, ofNat_halves]

/-- What is read is the text of the result, letter case aside. -/
theorem decode_eq_some {text data : List UInt8} (h : decode text = some data) :
    encode data = text.map lower := by
  induction text using decode.induct generalizing data with
  | case1 =>
    cases h
    rfl
  | case2 ch => cases h
  | case3 high low rest ih =>
    simp only [decode, Option.bind_eq_some_iff, Option.map_eq_some_iff] at h
    obtain ⟨hi, hhigh, lo, hlow, tail, htail, rfl⟩ := h
    obtain ⟨hhi, hhighDigit⟩ := value_eq_some hhigh
    obtain ⟨hlo, hlowDigit⟩ := value_eq_some hlow
    have hbyte : (UInt8.ofNat (16 * hi + lo)).toNat = 16 * hi + lo := by
      rw [UInt8.toNat_ofNat']
      omega
    have hhalves : (16 * hi + lo) / 16 = hi ∧ (16 * hi + lo) % 16 = lo := by omega
    rw [encode_cons, encodeByte, hbyte, hhalves.1, hhalves.2, ih htail, hhighDigit, hlowDigit]
    rfl

theorem length_of_decode {text data : List UInt8} (h : decode text = some data) :
    text.length = 2 * data.length := by
  rw [← length_encode, decode_eq_some h, List.length_map]

theorem value_lower (ch : UInt8) : value (lower ch) = value ch := by
  rw [lower]
  split_ifs with hcapital
  · have hsum : (ch + 32).toNat = ch.toNat + 32 := by
      have h32 : (32 : UInt8).toNat = 32 := rfl
      rw [UInt8.toNat_add, h32]
      omega
    rw [value, value, hsum, if_neg (by omega), if_neg (by omega : ¬ (48 ≤ ch.toNat ∧ _))]
    by_cases hletter : ch.toNat ≤ 70
    · rw [if_pos (by omega), if_neg (by omega), if_pos (by omega), Option.some.injEq]
      omega
    · rw [if_neg (by omega), if_neg (by omega), if_neg (by omega), if_neg (by omega)]
  · rfl

theorem decode_lower (text : List UInt8) : decode (text.map lower) = decode text := by
  induction text using decode.induct with
  | case1 => rfl
  | case2 ch => rfl
  | case3 high low rest ih =>
    rw [List.map_cons, List.map_cons, decode, decode, value_lower, value_lower, ih]

/-- A digit in either case. -/
def IsDigit (ch : UInt8) : Prop := ∃ n < 16, digit n = lower ch

theorem isDigit_of_decode {text data : List UInt8} (h : decode text = some data) :
    ∀ ch ∈ text, IsDigit ch := by
  intro ch hch
  have hmem : lower ch ∈ encode data := by
    rw [decode_eq_some h]
    exact List.mem_map_of_mem hch
  exact mem_encode hmem

/-- Every text of pairs of lower case digits is the text of some data. -/
theorem exists_encode {text : List UInt8} {k : Nat} (hlen : text.length = 2 * k)
    (hdigits : ∀ ch ∈ text, ∃ n < 16, digit n = ch) : ∃ data, encode data = text := by
  induction k generalizing text with
  | zero => exact ⟨[], (List.length_eq_zero_iff.mp hlen).symm⟩
  | succ k ih =>
    match text with
    | [] => simp at hlen
    | [_] => simp at hlen; omega
    | high :: low :: rest =>
      obtain ⟨hi, hhi, rfl⟩ := hdigits high (by simp)
      obtain ⟨lo, hlo, rfl⟩ := hdigits low (by simp)
      have hrest : rest.length = 2 * k := by
        simp only [List.length_cons] at hlen
        omega
      obtain ⟨data, rfl⟩ := ih hrest fun ch hch => hdigits ch (by simp [hch])
      have hbyte : (UInt8.ofNat (16 * hi + lo)).toNat = 16 * hi + lo := by
        rw [UInt8.toNat_ofNat']
        omega
      have hhalves : (16 * hi + lo) / 16 = hi ∧ (16 * hi + lo) % 16 = lo := by omega
      refine ⟨UInt8.ofNat (16 * hi + lo) :: data, ?_⟩
      rw [encode_cons, encodeByte, hbyte, hhalves.1, hhalves.2]
      rfl

end Hex
