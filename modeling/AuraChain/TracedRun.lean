import Mathlib

/-! Runs of a partial step function that emits events. A run keeps the log
of everything emitted so far, so that a property of a whole history is an
invariant of the state together with the log. -/

universe u v w

variable {σ : Type u} {ι : Type v} {ε : Type w}

def TracedStep (step : σ → ι → Option (σ × List ε)) (allowed : σ → ι → Prop)
    (s t : σ × List ε) : Prop :=
  ∃ i out, allowed s.1 i ∧ step s.1 i = some (t.1, out) ∧ t.2 = s.2 ++ out

abbrev TracedRun (step : σ → ι → Option (σ × List ε)) (allowed : σ → ι → Prop) :=
  Relation.ReflTransGen (TracedStep step allowed)

variable {step : σ → ι → Option (σ × List ε)} {allowed : σ → ι → Prop}

/-- What holds with an empty log and is kept by every allowed step holds
after every run. -/
theorem TracedRun.invariant {P : σ → List ε → Prop} {s t : σ} {log : List ε}
    (h : TracedRun step allowed (s, []) (t, log)) (hinit : P s [])
    (hstep : ∀ s log i t out, P s log → allowed s i → step s i = some (t, out) →
      P t (log ++ out)) : P t log := by
  have hrun : ∀ x, TracedRun step allowed (s, []) x → P x.1 x.2 := by
    intro x hx
    induction hx with
    | refl => exact hinit
    | tail _ hs ih =>
      obtain ⟨i, out, ha, he, hl⟩ := hs
      rw [hl]
      exact hstep _ _ i _ out ih ha he
  exact hrun _ h

/-- What every step relates, under an invariant, every run relates. -/
theorem TracedRun.relates {P : σ → Prop} {R : σ → σ → Prop} {s t : σ × List ε}
    (h : TracedRun step allowed s t) (hinit : P s.1) (hrefl : ∀ s, R s s)
    (htrans : ∀ s t u, R s t → R t u → R s u)
    (hstep : ∀ s i t out, P s → allowed s i → step s i = some (t, out) → P t ∧ R s t) :
    P t.1 ∧ R s.1 t.1 := by
  induction h with
  | refl => exact ⟨hinit, hrefl _⟩
  | tail _ hs ih =>
    obtain ⟨i, out, ha, he, -⟩ := hs
    obtain ⟨hP, hR⟩ := hstep _ i _ out ih.1 ha he
    exact ⟨hP, htrans _ _ _ ih.2 hR⟩

theorem TracedRun.events {P : σ → Prop} {Q : ε → Prop} {s t : σ} {log : List ε}
    (h : TracedRun step allowed (s, []) (t, log)) (hinit : P s)
    (hstep : ∀ s i t out, P s → allowed s i → step s i = some (t, out) →
      P t ∧ ∀ e ∈ out, Q e) : P t ∧ ∀ e ∈ log, Q e := by
  refine TracedRun.invariant (P := fun s log => P s ∧ ∀ e ∈ log, Q e) h ⟨hinit, by simp⟩ ?_
  intro s log i t out hP ha he
  have hs := hstep s i t out hP.1 ha he
  refine ⟨hs.1, fun e hm => ?_⟩
  rcases List.mem_append.mp hm with hm | hm
  · exact hP.2 e hm
  · exact hs.2 e hm

def runAll (step : σ → ι → Option (σ × List ε)) (allowed : σ → ι → Prop)
    [∀ s i, Decidable (allowed s i)] : σ → List ι → Option (σ × List ε)
  | s, [] => some (s, [])
  | s, i :: is =>
    if allowed s i then
      match step s i with
      | none => none
      | some (t, out) =>
        match runAll step allowed t is with
        | none => none
        | some (u, rest) => some (u, out ++ rest)
    else none

theorem TracedRun.prepend {s t : σ × List ε} (h : TracedRun step allowed s t) (log : List ε) :
    TracedRun step allowed (s.1, log ++ s.2) (t.1, log ++ t.2) := by
  induction h with
  | refl => exact .refl
  | tail _ hs ih =>
    obtain ⟨i, out, ha, he, hl⟩ := hs
    exact ih.tail ⟨i, out, ha, he, by simp [hl]⟩

theorem TracedRun.of_runAll [∀ s i, Decidable (allowed s i)] {s t : σ} {is : List ι}
    {log : List ε} (h : runAll step allowed s is = some (t, log)) :
    TracedRun step allowed (s, []) (t, log) := by
  induction is generalizing s log with
  | nil =>
    simp only [runAll, Option.some.injEq, Prod.mk.injEq] at h
    rw [h.1, ← h.2]
  | cons i is ih =>
    by_cases ha : allowed s i
    · cases he : step s i with
      | none => simp [runAll, ha, he] at h
      | some r =>
        obtain ⟨u, out⟩ := r
        cases hr : runAll step allowed u is with
        | none => simp [runAll, ha, he, hr] at h
        | some r =>
          obtain ⟨u', rest⟩ := r
          simp only [runAll, ha, he, hr, if_true, Option.some.injEq, Prod.mk.injEq] at h
          obtain ⟨rfl, rfl⟩ := h
          have hhead : TracedStep step allowed (s, []) (u, out) := ⟨i, out, ha, he, rfl⟩
          have htail := (ih hr).prepend out
          simp only [List.append_nil] at htail
          exact .head hhead htail
    · simp [runAll, ha] at h

theorem TracedRun.of_map {β : Type*} [∀ s i, Decidable (allowed s i)] {s : σ} {is : List ι}
    {f : σ × List ε → β} {y : β} (h : (runAll step allowed s is).map f = some y) :
    ∃ t, TracedRun step allowed (s, []) t ∧ f t = y := by
  cases hr : runAll step allowed s is with
  | none => simp [hr] at h
  | some t =>
    rw [hr, Option.map_some, Option.some.injEq] at h
    exact ⟨t, TracedRun.of_runAll hr, h⟩

theorem TracedRun.of_log [∀ s i, Decidable (allowed s i)] {s : σ} {is : List ι} {log : List ε}
    (h : (runAll step allowed s is).map Prod.snd = some log) :
    ∃ t, TracedRun step allowed (s, []) (t, log) := by
  obtain ⟨⟨t, log'⟩, ht, rfl⟩ := TracedRun.of_map h
  exact ⟨t, ht⟩
