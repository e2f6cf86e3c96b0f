import Mathlib

/-! Bech32 texts in lower case: a readable part, the separator `1` and the data
in words of five bits, of which the last six are a checksum. The checksum is linear
over exclusive or, which is why it verifies. -/

namespace Bech32

section Digits

def digits (b : Nat) : Nat → Nat → List Nat
  | 0, _ => []
  | w + 1, n => digits b w (n / b) ++ [n % b]

def number (b : Nat) (ds : List Nat) : Nat := ds.foldl (fun n d => n * b + d) 0

variable {b : Nat}

theorem length_digits (b w n : Nat) : (digits b w n).length = w := by
  induction w generalizing n with
  | zero => rfl
  | succ w ih => simp [digits, ih]

theorem digits_lt (hb : 0 < b) {w n d : Nat} (h : d ∈ digits b w n) : d < b := by
  induction w generalizing n with
  | zero => simp [digits] at h
  | succ w ih =>
    rcases List.mem_append.mp h with h | h
    · exact ih h
    · rw [List.mem_singleton.mp h]
      exact Nat.mod_lt n hb

theorem number_append_singleton (b : Nat) (ds : List Nat) (d : Nat) :
    number b (ds ++ [d]) = number b ds * b + d := by
  rw [number, List.foldl_append]
  rfl

theorem number_digits (b w n : Nat) : number b (digits b w n) = n % b ^ w := by
  induction w generalizing n with
  | zero => simp [digits, number, Nat.mod_one]
  | succ w ih => rw [digits, number_append_singleton, ih, pow_succ', Nat.mod_mul, add_comm, mul_comm]

theorem number_lt {ds : List Nat} (h : ∀ d ∈ ds, d < b) : number b ds < b ^ ds.length := by
  induction ds using List.reverseRecOn with
  | nil => simp [number]
  | append_singleton ds d ih =>
    have hd := h d (by simp)
    have hds := ih fun x hx => h x (by simp [hx])
    have hle : (number b ds + 1) * b ≤ b ^ ds.length * b := Nat.mul_le_mul_right b hds
    rw [number_append_singleton, List.length_append, List.length_singleton, pow_succ]
    nlinarith

theorem digits_number {ds : List Nat} (h : ∀ d ∈ ds, d < b) :
    digits b ds.length (number b ds) = ds := by
  induction ds using List.reverseRecOn with
  | nil => rfl
  | append_singleton ds d ih =>
    have hd := h d (by simp)
    have hdiv : (number b ds * b + d) / b = number b ds := by
      rw [mul_comm, Nat.mul_add_div (by omega), Nat.div_eq_of_lt hd, add_zero]
    have hmod : (number b ds * b + d) % b = d := by
      rw [mul_comm, Nat.mul_add_mod, Nat.mod_eq_of_lt hd]
    rw [List.length_append, List.length_singleton, digits, number_append_singleton, hdiv, hmod,
      ih fun x hx => h x (by simp [hx])]

end Digits

section Checksum

def generator : List Nat := [0x3b6a57b2, 0x26508e6d, 0x1ea119fa, 0x3d4233dd, 0x2a1462b3]

def mix (top : Nat) : Nat :=
  (generator.zipIdx.map fun p => if top.testBit p.2 then p.1 else 0).foldr (· ^^^ ·) 0

def step (chk v : Nat) : Nat := (chk % 2 ^ 25 * 2 ^ 5) ^^^ v ^^^ mix (chk / 2 ^ 25)

theorem mix_xor (a b : Nat) : mix (a ^^^ b) = mix a ^^^ mix b := by
  have hselect : ∀ g i, (if (a ^^^ b).testBit i then g else 0) =
      (if a.testBit i then g else 0) ^^^ (if b.testBit i then g else 0) := by
    intro g i
    rw [Nat.testBit_xor]
    cases a.testBit i <;> cases b.testBit i <;> simp
  have hfold : ∀ gs : List (Nat × Nat),
      (gs.map fun p => if (a ^^^ b).testBit p.2 then p.1 else 0).foldr (· ^^^ ·) 0 =
        (gs.map fun p => if a.testBit p.2 then p.1 else 0).foldr (· ^^^ ·) 0 ^^^
          (gs.map fun p => if b.testBit p.2 then p.1 else 0).foldr (· ^^^ ·) 0 := by
    intro gs
    induction gs with
    | nil => simp
    | cons p gs ih =>
      rw [List.map_cons, List.foldr_cons, ih, hselect, List.map_cons, List.foldr_cons, List.map_cons,
        List.foldr_cons]
      ac_rfl
  exact hfold _

theorem step_xor (a b v w : Nat) : step (a ^^^ b) (v ^^^ w) = step a v ^^^ step b w := by
  have hshift : ∀ x : Nat, x * 2 ^ 5 = x <<< 5 := fun x => (Nat.shiftLeft_eq x 5).symm
  rw [step, step, step, Nat.xor_mod_two_pow, Nat.xor_div_two_pow, mix_xor, hshift, hshift, hshift,
    Nat.shiftLeft_xor_distrib]
  ac_rfl

/-- The checksum is linear: the words and the state before them contribute apart. -/
theorem foldl_step_xor (a b : Nat) (ws : List Nat) :
    ws.foldl step (a ^^^ b) = (List.replicate ws.length 0).foldl step a ^^^ ws.foldl step b := by
  induction ws generalizing a b with
  | nil => rfl
  | cons w ws ih =>
    have hw := step_xor a b 0 w
    rw [Nat.zero_xor] at hw
    rw [List.foldl_cons, hw, ih]
    rfl

theorem step_small {x v : Nat} (hx : x < 2 ^ 25) (hv : v < 2 ^ 5) : step x v = x * 2 ^ 5 + v := by
  have hmix : mix 0 = 0 := by decide
  rw [step, Nat.mod_eq_of_lt hx, Nat.div_eq_of_lt hx, hmix, Nat.xor_zero]
  refine Nat.eq_of_testBit_eq fun i => ?_
  rw [mul_comm, Nat.testBit_xor, Nat.testBit_two_pow_mul_add _ hv, Nat.testBit_two_pow_mul]
  by_cases hi : i < 5
  · simp [hi, Nat.not_le.mpr hi]
  · have hhigh : v.testBit i = false := Nat.testBit_lt_two_pow
      (hv.trans_le (Nat.pow_le_pow_right (by omega) (Nat.le_of_not_lt hi)))
    simp [hi, hhigh, Nat.le_of_not_lt hi]

theorem foldl_step_small {ws : List Nat} (hws : ∀ w ∈ ws, w < 32) (hlen : ws.length ≤ 6) :
    ws.foldl step 0 = number 32 ws := by
  induction ws using List.reverseRecOn with
  | nil => rfl
  | append_singleton ws w ih =>
    rw [List.length_append, List.length_singleton] at hlen
    have hrest : ∀ x ∈ ws, x < 32 := fun x hx => hws x (by simp [hx])
    have hlt : number 32 ws < 2 ^ 25 := by
      refine (number_lt hrest).trans_le ?_
      show 32 ^ ws.length ≤ 32 ^ 5
      exact Nat.pow_le_pow_right (by omega) (by omega)
    rw [List.foldl_append, ih hrest (by omega), number_append_singleton]
    exact step_small hlt (hws w (by simp))

theorem mix_lt (top : Nat) : mix top < 2 ^ 30 := by
  have hfold : ∀ gs : List (Nat × Nat), (∀ p ∈ gs, p.1 < 2 ^ 30) →
      (gs.map fun p => if top.testBit p.2 then p.1 else 0).foldr (· ^^^ ·) 0 < 2 ^ 30 := by
    intro gs hgs
    induction gs with
    | nil => simp
    | cons p gs ih =>
      rw [List.map_cons, List.foldr_cons]
      refine Nat.xor_lt_two_pow ?_ (ih fun q hq => hgs q (by simp [hq]))
      split_ifs
      · exact hgs p (by simp)
      · simp
  exact hfold _ (by decide)

theorem step_lt (chk : Nat) {v : Nat} (hv : v < 32) : step chk v < 2 ^ 30 := by
  refine Nat.xor_lt_two_pow (Nat.xor_lt_two_pow ?_ (by omega)) (mix_lt _)
  have hmod : chk % 2 ^ 25 < 2 ^ 25 := Nat.mod_lt _ (by simp)
  omega

def polymod (ws : List Nat) : Nat := ws.foldl step 1

def checksum (const : Nat) (ws : List Nat) : List Nat :=
  digits 32 6 (polymod (ws ++ List.replicate 6 0) ^^^ const)

theorem polymod_checksum {const : Nat} (hconst : const < 2 ^ 30) (ws : List Nat) :
    polymod (ws ++ checksum const ws) = const := by
  have hlen : (checksum const ws).length = 6 := length_digits 32 6 _
  have hsmall : ∀ w ∈ checksum const ws, w < 32 := fun w hw => digits_lt (by omega) hw
  have hlast : polymod (ws ++ List.replicate 6 0) < 2 ^ 30 := by
    rw [polymod, List.replicate_succ', ← List.append_assoc, List.foldl_append]
    exact step_lt _ (by omega)
  have hnumber : number 32 (checksum const ws) = polymod (ws ++ List.replicate 6 0) ^^^ const := by
    rw [checksum, number_digits]
    exact Nat.mod_eq_of_lt (Nat.xor_lt_two_pow hlast hconst)
  have hsplit := foldl_step_xor (polymod ws) 0 (checksum const ws)
  rw [Nat.xor_zero, hlen, foldl_step_small hsmall hlen.le, hnumber] at hsplit
  have hzeros : (List.replicate 6 0).foldl step (polymod ws) = polymod (ws ++ List.replicate 6 0) := by
    rw [polymod, polymod, List.foldl_append]
  rw [polymod, List.foldl_append]
  rw [hzeros, ← Nat.xor_assoc, Nat.xor_self, Nat.zero_xor] at hsplit
  exact hsplit

end Checksum

section Text

def charset : List UInt8 := "qpzry9x8gf2tvdw0s3jn54khce6mua7l".toList.map fun ch => UInt8.ofNat ch.toNat

def separator : UInt8 := 49

def symbol (w : Nat) : UInt8 := charset.getD w 0

def word (ch : UInt8) : Option Nat := if ch ∈ charset then some (charset.idxOf ch) else none

def bytesNumber (data : List UInt8) : Nat := number 256 (data.map UInt8.toNat)

/-- The bits of the data, filled up with zeros to a number of five-bit words. -/
def toWords (data : List UInt8) : List Nat :=
  let count := (8 * data.length + 4) / 5
  digits 32 count (bytesNumber data * 2 ^ (5 * count - 8 * data.length))

/-- Bits at the end that do not fill a byte are dropped. -/
def fromWords (ws : List Nat) : List UInt8 :=
  let count := 5 * ws.length / 8
  (digits 256 count (number 32 ws / 2 ^ (5 * ws.length - 8 * count))).map UInt8.ofNat

def expand (hrp : List UInt8) : List Nat :=
  hrp.map (fun ch => ch.toNat / 32) ++ [0] ++ hrp.map fun ch => ch.toNat % 32

def bech32Const : Nat := 1

def bech32mConst : Nat := 0x2bc830a3

def encode (hrp data : List UInt8) : List UInt8 :=
  let ws := toWords data
  hrp ++ separator :: (ws ++ (checksum bech32Const (expand hrp ++ ws))).map symbol

def wordsOf (text : List UInt8) : Option (List Nat) := text.mapM word

/-- The separator is the last `1` of the text; both checksums are known. -/
def decode (text : List UInt8) : Option (List UInt8 × List UInt8) :=
  let body := (text.reverse.takeWhile (· ≠ separator)).reverse
  let hrp := text.take (text.length - body.length - 1)
  match wordsOf body with
  | none => none
  | some ws =>
    if hrp = [] ∨ body.length = text.length ∨ ws.length < 6 then none
    else if polymod (expand hrp ++ ws) = bech32Const ∨ polymod (expand hrp ++ ws) = bech32mConst then
      some (hrp, fromWords (ws.take (ws.length - 6)))
    else none

theorem word_symbol {w : Nat} (hw : w < 32) : word (symbol w) = some w := by
  interval_cases w <;> rfl

theorem symbol_ne_separator {w : Nat} (hw : w < 32) : symbol w ≠ separator := by
  interval_cases w <;> decide

theorem wordsOf_map_symbol {ws : List Nat} (hws : ∀ w ∈ ws, w < 32) :
    wordsOf (ws.map symbol) = some ws := by
  rw [wordsOf]
  induction ws with
  | nil => rfl
  | cons w ws ih =>
    rw [List.map_cons, List.mapM_cons, word_symbol (hws w (by simp)),
      ih fun x hx => hws x (by simp [hx])]
    rfl

theorem length_toWords (data : List UInt8) : (toWords data).length = (8 * data.length + 4) / 5 :=
  length_digits 32 _ _

theorem toWords_lt {data : List UInt8} {w : Nat} (h : w ∈ toWords data) : w < 32 :=
  digits_lt (by omega) h

theorem bytesNumber_lt (data : List UInt8) : bytesNumber data < 2 ^ (8 * data.length) := by
  have hlt : bytesNumber data < 256 ^ (data.map UInt8.toNat).length := by
    refine number_lt fun d hd => ?_
    obtain ⟨b, -, rfl⟩ := List.mem_map.mp hd
    exact b.toNat_lt
  rw [pow_mul]
  rwa [List.length_map] at hlt

theorem digits_bytesNumber (data : List UInt8) :
    (digits 256 data.length (bytesNumber data)).map UInt8.ofNat = data := by
  have hsmall : ∀ d ∈ data.map UInt8.toNat, d < 256 := by
    intro d hd
    obtain ⟨b, -, rfl⟩ := List.mem_map.mp hd
    exact b.toNat_lt
  have hdigits := digits_number hsmall
  rw [List.length_map] at hdigits
  rw [bytesNumber, hdigits, List.map_map]
  exact (List.map_congr_left fun b _ => UInt8.ofNat_toNat).trans (List.map_id data)

theorem fromWords_toWords (data : List UInt8) : fromWords (toWords data) = data := by
  set count := (8 * data.length + 4) / 5 with hcount
  have hlen : (toWords data).length = count := length_toWords data
  have hbytes : 5 * count / 8 = data.length := by omega
  have hnumber : number 32 (toWords data) =
      bytesNumber data * 2 ^ (5 * count - 8 * data.length) := by
    rw [toWords, number_digits]
    refine Nat.mod_eq_of_lt ?_
    have hpow : (32 : Nat) ^ count = 2 ^ (8 * data.length) * 2 ^ (5 * count - 8 * data.length) := by
      rw [← pow_add, Nat.add_sub_cancel' (by omega), pow_mul]
      norm_num
    rw [hpow]
    exact Nat.mul_lt_mul_of_pos_right (bytesNumber_lt data) (by positivity)
  rw [fromWords, hlen, hbytes, hnumber, Nat.mul_div_cancel _ (by positivity)]
  exact digits_bytesNumber data

theorem takeWhile_reverse_append {α : Type*} {p : α → Bool} {l r : List α} {a : α} (ha : p a = false)
    (hr : ∀ x ∈ r, p x = true) : ((l ++ a :: r).reverse.takeWhile p).reverse = r := by
  rw [List.reverse_append, List.reverse_cons, List.append_assoc, List.takeWhile_append_of_pos,
    List.singleton_append, List.takeWhile_cons_of_neg (by simp [ha]), List.append_nil,
    List.reverse_reverse]
  intro x hx
  exact hr x (List.mem_reverse.mp hx)

/-- What is written is read back, with the readable part that it was written under. -/
theorem decode_encode {hrp : List UInt8} (hne : hrp ≠ []) (data : List UInt8) :
    decode (encode hrp data) = some (hrp, data) := by
  set ws := toWords data ++ checksum bech32Const (expand hrp ++ toWords data) with hws
  have hsmall : ∀ w ∈ ws, w < 32 := by
    intro w hw
    rcases List.mem_append.mp hw with hw | hw
    · exact toWords_lt hw
    · exact digits_lt (by omega) hw
  have hchecksum : (checksum bech32Const (expand hrp ++ toWords data)).length = 6 :=
    length_digits 32 6 _
  have hlen : ws.length = (toWords data).length + 6 := by rw [hws, List.length_append, hchecksum]
  have htext : encode hrp data = hrp ++ separator :: ws.map symbol := rfl
  have hbody : ((encode hrp data).reverse.takeWhile (· ≠ separator)).reverse = ws.map symbol := by
    rw [htext]
    refine takeWhile_reverse_append (by simp) fun x hx => ?_
    obtain ⟨w, hw, rfl⟩ := List.mem_map.mp hx
    exact decide_eq_true (symbol_ne_separator (hsmall w hw))
  have htextLen : (encode hrp data).length = hrp.length + 1 + ws.length := by
    rw [htext, List.length_append, List.length_cons, List.length_map]
    omega
  have hhrp : (encode hrp data).take ((encode hrp data).length - (ws.map symbol).length - 1) = hrp := by
    rw [htextLen, List.length_map, htext]
    exact List.take_left' (by omega)
  have hverifies : polymod (expand hrp ++ ws) = bech32Const := by
    rw [hws, ← List.append_assoc]
    exact polymod_checksum (by decide) _
  have htake : ws.take (ws.length - 6) = toWords data := by
    rw [hlen, Nat.add_sub_cancel, hws]
    exact List.take_left' rfl
  rw [decode, hbody, hhrp, wordsOf_map_symbol hsmall]
  dsimp only
  rw [if_neg, if_pos (.inl hverifies), htake, fromWords_toWords]
  rw [List.length_map, htextLen]
  rintro (h | h | h)
  · exact hne h
  · omega
  · omega

end Text

end Bech32
