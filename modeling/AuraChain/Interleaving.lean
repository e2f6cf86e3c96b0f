import AuraChain.TracedRun

/-! Clients that access one shared state in turns, each in a phase of its own.
A region of the phases that one client at a time is in keeps an invariant of
the shared state, though the client inside may break it on its way. -/

universe u v w

structure Interleaved (ι : Type u) (φ : Type v) (σ : Type w) where
  shared : σ
  phase : ι → φ

variable {ι : Type u} {φ : Type v} {σ : Type w}

namespace Interleaved

variable [DecidableEq ι] {advance : ι → φ → σ → Option (φ × σ)} {s t : Interleaved ι φ σ} {i j : ι}

def move (s : Interleaved ι φ σ) (i : ι) (r : φ × σ) : Interleaved ι φ σ :=
  ⟨r.2, Function.update s.phase i r.1⟩

@[simp] theorem move_phase_self (r : φ × σ) : (s.move i r).phase i = r.1 := by
  simp [move]

theorem move_phase_ne (h : j ≠ i) (r : φ × σ) : (s.move i r).phase j = s.phase j := by
  simp [move, h]

/-- One access of one client. The log of a run is its schedule. -/
def step (advance : ι → φ → σ → Option (φ × σ)) (s : Interleaved ι φ σ) (i : ι) :
    Option (Interleaved ι φ σ × List ι) :=
  (advance i (s.phase i) s.shared).map fun r => (s.move i r, [i])

theorem step_eq_some {out : List ι} (h : step advance s i = some (t, out)) :
    ∃ r, advance i (s.phase i) s.shared = some r ∧ t = s.move i r := by
  obtain ⟨r, ha, he⟩ := Option.map_eq_some_iff.mp h
  exact ⟨r, ha, (Prod.mk.inj he).1.symm⟩

end Interleaved

/-- What each access keeps. `Quiet` holds of the shared state while no client is
inside, `Ready` is what the client in a phase relies on. A client inside relies on
it only against the clients outside, which neither enter nor leave the region. -/
structure CriticalRegion (advance : ι → φ → σ → Option (φ × σ)) where
  inside : φ → Bool
  Quiet : σ → Prop
  Ready : ι → φ → σ → Prop
  own : ∀ {i p q s t}, advance i p s = some (q, t) → Ready i p s →
    (inside p = false → inside q = true → Quiet s) → Ready i q t
  leave : ∀ {i p q s t}, advance i p s = some (q, t) → Ready i p s → inside p = true →
    inside q = false → Quiet t
  pass : ∀ {i p q s t}, advance i p s = some (q, t) → inside p = false → inside q = false →
    Quiet s → Quiet t
  other : ∀ {i j p q r s t}, advance i p s = some (q, t) → Ready j r s →
    (inside r = true → inside p = false ∧ inside q = false) → Ready j r t

namespace CriticalRegion

variable {advance : ι → φ → σ → Option (φ × σ)} (region : CriticalRegion advance)

def Alone (s : Interleaved ι φ σ) : Prop :=
  ∀ i j, region.inside (s.phase i) = true → region.inside (s.phase j) = true → i = j

/-- A client enters only while no other is inside. -/
def Excludes (s : Interleaved ι φ σ) (i : ι) : Prop :=
  ∀ q t, advance i (s.phase i) s.shared = some (q, t) → region.inside (s.phase i) = false →
    region.inside q = true → ∀ j, region.inside (s.phase j) = false

structure Invariant (s : Interleaved ι φ σ) : Prop where
  alone : region.Alone s
  quiet : (∀ i, region.inside (s.phase i) = false) → region.Quiet s.shared
  ready : ∀ i, region.Ready i (s.phase i) s.shared

variable {region} [DecidableEq ι] {s t : Interleaved ι φ σ}

theorem Alone.move {i : ι} {r : φ × σ} (h : region.Alone s)
    (ha : advance i (s.phase i) s.shared = some r) (hx : region.Excludes s i) :
    region.Alone (s.move i r) := by
  have hothers : region.inside r.1 = true → ∀ j, j ≠ i → region.inside (s.phase j) = false := by
    intro hq j hj
    cases hp : region.inside (s.phase i) with
    | false => exact hx r.1 r.2 ha hp hq j
    | true =>
      by_contra hin
      exact hj (h j i (by simpa using hin) hp)
  intro j k hj hk
  by_cases hji : j = i
  · by_cases hki : k = i
    · rw [hji, hki]
    · rw [hji, Interleaved.move_phase_self] at hj
      rw [Interleaved.move_phase_ne hki, hothers hj k hki] at hk
      cases hk
  · rw [Interleaved.move_phase_ne hji] at hj
    by_cases hki : k = i
    · rw [hki, Interleaved.move_phase_self] at hk
      rw [hothers hk j hji] at hj
      cases hj
    · rw [Interleaved.move_phase_ne hki] at hk
      exact h j k hj hk

theorem Invariant.move {i : ι} {r : φ × σ} (h : region.Invariant s)
    (ha : advance i (s.phase i) s.shared = some r) (hx : region.Excludes s i) :
    region.Invariant (s.move i r) where
  alone := h.alone.move ha hx
  quiet := by
    intro hout
    have hq := hout i
    rw [Interleaved.move_phase_self] at hq
    cases hp : region.inside (s.phase i) with
    | true => exact region.leave ha (h.ready i) hp hq
    | false =>
      have hall : ∀ j, region.inside (s.phase j) = false := by
        intro j
        by_cases hj : j = i
        · rw [hj, hp]
        · have hj' := hout j
          rwa [Interleaved.move_phase_ne hj] at hj'
      exact region.pass ha hp hq (h.quiet hall)
  ready := by
    intro j
    by_cases hj : j = i
    · subst hj
      rw [Interleaved.move_phase_self]
      exact region.own ha (h.ready j) fun hp hq => h.quiet (hx r.1 r.2 ha hp hq)
    · rw [Interleaved.move_phase_ne hj]
      refine region.other ha (h.ready j) fun hin => ?_
      have hp : region.inside (s.phase i) = false := by
        by_contra hi
        exact hj (h.alone j i hin (by simpa using hi))
      refine ⟨hp, ?_⟩
      by_contra hq
      have hout := hx r.1 r.2 ha hp (by simpa using hq) j
      rw [hin] at hout
      cases hout

/-- In every run in which the region excludes, its invariant holds. -/
theorem Invariant.run {log : List ι} {allowed : Interleaved ι φ σ → ι → Prop}
    (hrun : TracedRun (Interleaved.step advance) allowed (s, []) (t, log))
    (hx : ∀ s i, allowed s i → region.Excludes s i) (h : region.Invariant s) :
    region.Invariant t := by
  refine TracedRun.invariant (P := fun s _ => region.Invariant s) hrun h ?_
  intro s log i t out hinv hallowed hs
  obtain ⟨r, ha, rfl⟩ := Interleaved.step_eq_some hs
  exact hinv.move ha (hx s i hallowed)

end CriticalRegion
