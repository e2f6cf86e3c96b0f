import Mathlib

/-! Logs of self-delimiting frames. A scan reads frames off the front as long as
it finds one, so that it returns the longest run of whole frames. What stands
behind a torn end is never reached. -/

universe u v

structure Framing (α : Type u) (β : Type v) where
  valid : α → Prop
  frame : α → List β
  read : List β → Option (α × List β)
  frame_ne_nil : ∀ a, frame a ≠ []
  read_frame : ∀ {a} (rest : List β), valid a → read (frame a ++ rest) = some (a, rest)
  of_read : ∀ {s a rest}, read s = some (a, rest) → valid a ∧ s = frame a ++ rest

namespace Framing

variable {α : Type u} {β : Type v} (F : Framing α β) {a : α} {l l' : List α}
  {s t rest : List β}

def encode (l : List α) : List β := l.flatMap F.frame

def scanFuel : Nat → List β → List α
  | 0, _ => []
  | fuel + 1, s =>
    match F.read s with
    | none => []
    | some (a, rest) => a :: scanFuel fuel rest

def scan (s : List β) : List α := F.scanFuel s.length s

/-- Nothing stands behind the last whole frame. -/
def Whole (s : List β) : Prop := F.encode (F.scan s) = s

theorem encode_cons (a : α) (l : List α) : F.encode (a :: l) = F.frame a ++ F.encode l := rfl

theorem encode_append (l l' : List α) : F.encode (l ++ l') = F.encode l ++ F.encode l' :=
  List.flatMap_append

theorem length_frame_pos (a : α) : 0 < (F.frame a).length :=
  List.length_pos_iff.mpr (F.frame_ne_nil a)

theorem read_nil : F.read [] = none := by
  cases h : F.read [] with
  | none => rfl
  | some r =>
    obtain ⟨-, he⟩ := F.of_read h
    have hlen := congrArg List.length he
    have hpos := F.length_frame_pos r.1
    simp only [List.length_nil, List.length_append] at hlen
    omega

theorem scanFuel_spec {fuel : Nat} (hfuel : s.length ≤ fuel) :
    (∀ a ∈ F.scanFuel fuel s, F.valid a) ∧
      ∃ rest, s = F.encode (F.scanFuel fuel s) ++ rest ∧ F.read rest = none := by
  induction fuel generalizing s with
  | zero =>
    have hs : s = [] := List.length_eq_zero_iff.mp (by omega)
    exact ⟨by simp [scanFuel], s, rfl, hs ▸ F.read_nil⟩
  | succ fuel ih =>
    cases h : F.read s with
    | none => exact ⟨by simp [scanFuel, h], s, by simp [scanFuel, h, encode], h⟩
    | some r =>
      obtain ⟨a, tail⟩ := r
      obtain ⟨hvalid, hs⟩ := F.of_read h
      have hlen := congrArg List.length hs
      have hpos := F.length_frame_pos a
      rw [List.length_append] at hlen
      obtain ⟨hall, rest, htail, hrest⟩ := ih (s := tail) (by omega)
      simp only [scanFuel, h]
      refine ⟨?_, rest, ?_, hrest⟩
      · intro b hb
        rcases List.mem_cons.mp hb with rfl | hb
        · exact hvalid
        · exact hall b hb
      · rw [encode_cons, List.append_assoc, ← htail, hs]

/-- Fuel for every element of the stream is enough. -/
theorem scanFuel_eq_scan {fuel : Nat} (hfuel : s.length ≤ fuel) : F.scanFuel fuel s = F.scan s := by
  have hstep : ∀ {m n : Nat} {s : List β}, s.length ≤ m → s.length ≤ n →
      F.scanFuel m s = F.scanFuel n s := by
    intro m
    induction m with
    | zero =>
      intro n s hm _
      have hs : s = [] := List.length_eq_zero_iff.mp (by omega)
      cases n <;> simp [scanFuel, hs, F.read_nil]
    | succ m ih =>
      intro n s hm hn
      cases n with
      | zero =>
        have hs : s = [] := List.length_eq_zero_iff.mp (by omega)
        simp [scanFuel, hs, F.read_nil]
      | succ n =>
        cases h : F.read s with
        | none => simp [scanFuel, h]
        | some r =>
          have hlen := congrArg List.length (F.of_read h).2
          have hpos := F.length_frame_pos r.1
          rw [List.length_append] at hlen
          simp only [scanFuel, h]
          rw [ih (n := n) (by omega) (by omega)]
  exact hstep hfuel (Nat.le_refl _)

theorem valid_of_mem_scan : ∀ a ∈ F.scan s, F.valid a := (F.scanFuel_spec (Nat.le_refl _)).1

theorem scan_split (s : List β) : ∃ rest, s = F.encode (F.scan s) ++ rest ∧ F.read rest = none :=
  (F.scanFuel_spec (Nat.le_refl _)).2

theorem encode_scan_isPrefix (s : List β) : F.encode (F.scan s) <+: s := by
  obtain ⟨rest, hs, -⟩ := F.scan_split s
  exact ⟨rest, hs.symm⟩

/-- Frames are prefix-free: two streams of frames that agree as far as the
shorter one goes start with the same frames. -/
theorem encode_prefix (hl : ∀ a ∈ l, F.valid a) (hl' : ∀ a ∈ l', F.valid a)
    (h : F.encode l ++ rest <+: F.encode l' ++ t) (ht : F.read t = none) : l <+: l' := by
  induction l generalizing l' with
  | nil => exact List.nil_prefix
  | cons a l ih =>
    obtain ⟨u, hu⟩ := h
    have hread := F.read_frame (F.encode l ++ (rest ++ u)) (hl a List.mem_cons_self)
    have hstream : F.frame a ++ (F.encode l ++ (rest ++ u)) = F.encode l' ++ t := by
      rw [← hu, encode_cons]
      simp only [List.append_assoc]
    rw [hstream] at hread
    cases l' with
    | nil =>
      have hnone : F.read (F.encode [] ++ t) = none := ht
      rw [hnone] at hread
      cases hread
    | cons b l' =>
      rw [encode_cons, List.append_assoc, F.read_frame _ (hl' b List.mem_cons_self),
        Option.some.injEq, Prod.mk.injEq] at hread
      obtain ⟨rfl, htail⟩ := hread
      have hprefix : F.encode l ++ rest <+: F.encode l' ++ t :=
        ⟨u, by rw [List.append_assoc]; exact htail.symm⟩
      exact (List.cons_prefix_cons).mpr ⟨rfl, ih (fun c hc => hl c (List.mem_cons_of_mem _ hc))
        (fun c hc => hl' c (List.mem_cons_of_mem _ hc)) hprefix⟩

/-- Every run of whole frames at the front is part of the scan. -/
theorem prefix_scan (hl : ∀ a ∈ l, F.valid a) (h : F.encode l <+: s) : l <+: F.scan s := by
  obtain ⟨rest, hs, hrest⟩ := F.scan_split s
  rw [hs] at h
  have hfront : F.encode l ++ [] <+: F.encode (F.scan s) ++ rest := by simpa using h
  exact F.encode_prefix hl F.valid_of_mem_scan hfront hrest

/-- The scan of a torn stream of frames keeps to the frames that were written. -/
theorem scan_isPrefix (hl : ∀ a ∈ l, F.valid a) (h : s <+: F.encode l) : F.scan s <+: l := by
  have hfront : F.encode (F.scan s) ++ [] <+: F.encode l ++ [] := by
    simpa using (F.encode_scan_isPrefix s).trans h
  exact F.encode_prefix F.valid_of_mem_scan hl hfront F.read_nil

theorem scan_mono (h : s <+: t) : F.scan s <+: F.scan t :=
  F.prefix_scan F.valid_of_mem_scan ((F.encode_scan_isPrefix s).trans h)

theorem scan_encode (hl : ∀ a ∈ l, F.valid a) : F.scan (F.encode l) = l := by
  have hle := F.prefix_scan hl List.prefix_rfl
  have hge := F.scan_isPrefix hl List.prefix_rfl
  exact hge.eq_of_length (Nat.le_antisymm hge.length_le hle.length_le)

theorem whole_encode (hl : ∀ a ∈ l, F.valid a) : F.Whole (F.encode l) := by
  rw [Whole, F.scan_encode hl]

theorem not_extends (ha : F.valid a) : ¬ F.encode (F.scan s ++ [a]) <+: s := by
  intro h
  have hlonger := F.prefix_scan (l := F.scan s ++ [a]) (by
    intro b hb
    rcases List.mem_append.mp hb with hb | hb
    · exact F.valid_of_mem_scan b hb
    · rw [List.mem_singleton.mp hb]
      exact ha) h
  have hlen := hlonger.length_le
  simp at hlen

theorem scan_append_frame (hs : F.Whole s) (ha : F.valid a) :
    F.scan (s ++ F.frame a) = F.scan s ++ [a] ∧ F.Whole (s ++ F.frame a) := by
  have hall : ∀ b ∈ F.scan s ++ [a], F.valid b := by
    intro b hb
    rcases List.mem_append.mp hb with hb | hb
    · exact F.valid_of_mem_scan b hb
    · rw [List.mem_singleton.mp hb]
      exact ha
  have he : s ++ F.frame a = F.encode (F.scan s ++ [a]) := by
    rw [encode_append, show F.encode (F.scan s) = s from hs]
    simp [encode]
  rw [he]
  exact ⟨F.scan_encode hall, F.whole_encode hall⟩

end Framing
