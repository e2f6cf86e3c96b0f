import Mathlib

/-! What a log says about the past. `Since` speaks of the last entries of a log,
`Along` of every entry and those before it; both are read off the end of a log
that grows by what one step writes. -/

universe u

variable {ε : Type u}

/-- A `start` has come, and no `stop` after it. -/
def Since (start stop : ε → Prop) (log : List ε) : Prop :=
  ∃ past e recent, log = past ++ e :: recent ∧ start e ∧ ∀ x ∈ recent, ¬ stop x

/-- Every entry stands in the relation `Q` to what comes before it. -/
def Along (Q : List ε → ε → Prop) (log : List ε) : Prop :=
  ∀ past e recent, log = past ++ e :: recent → Q past e

theorem past_eq_nil {e : ε} {rest past recent : List ε} (h : e :: rest = past ++ e :: recent)
    (hrest : e ∉ rest) : past = [] := by
  cases past with
  | nil => rfl
  | cons x past =>
    obtain ⟨-, rfl⟩ := List.cons.inj h
    exact absurd (by simp) hrest

section since

variable {start stop : ε → Prop} {log out : List ε} {e : ε}

theorem not_since_nil : ¬ Since start stop [] := by
  rintro ⟨past, e, recent, h, -, -⟩
  exact absurd h.symm (by simp)

theorem Since.snoc_iff :
    Since start stop (log ++ [e]) ↔ start e ∨ Since start stop log ∧ ¬ stop e := by
  constructor
  · rintro ⟨past, x, recent, h, hstart, hstop⟩
    rcases List.eq_nil_or_concat recent with rfl | ⟨recent, y, rfl⟩
    · obtain ⟨-, he⟩ := List.append_inj' h rfl
      cases he
      exact .inl hstart
    · rw [List.concat_eq_append, ← List.cons_append, ← List.append_assoc] at h
      obtain ⟨hlog, he⟩ := List.append_inj' h rfl
      cases he
      refine .inr ⟨⟨past, x, recent, hlog, hstart, fun z hz => hstop z ?_⟩, hstop e ?_⟩
      · simp [hz]
      · simp
  · rintro (hstart | ⟨⟨past, x, recent, rfl, hstart, hstop⟩, he⟩)
    · exact ⟨log, e, [], rfl, hstart, by simp⟩
    · refine ⟨past, x, recent ++ [e], by simp, hstart, fun z hz => ?_⟩
      rcases List.mem_append.mp hz with hz | hz
      · exact hstop z hz
      · rwa [List.mem_singleton.mp hz]

theorem Since.append_iff : Since start stop (log ++ out) ↔
    Since start stop out ∨ Since start stop log ∧ ∀ x ∈ out, ¬ stop x := by
  induction out using List.reverseRecOn with
  | nil => simp [not_since_nil]
  | append_singleton out e ih =>
    rw [← List.append_assoc, Since.snoc_iff, Since.snoc_iff, ih]
    simp only [List.forall_mem_append, List.forall_mem_singleton]
    tauto

theorem Since.start_mem (h : Since start stop log) : ∃ e ∈ log, start e := by
  obtain ⟨past, e, recent, rfl, hstart, -⟩ := h
  exact ⟨e, by simp, hstart⟩

theorem Since.of_append (h : Since start stop (log ++ out)) (hout : ∀ x ∈ out, ¬ start x) :
    Since start stop log ∧ ∀ x ∈ out, ¬ stop x := by
  rcases Since.append_iff.mp h with hnew | hold
  · obtain ⟨e, he, hstart⟩ := hnew.start_mem
    exact absurd hstart (hout e he)
  · exact hold

theorem Since.last_unique {α : Type*} {f : α → ε} {a b : α}
    (ha : Since (fun e => e = f a) (fun e => ∃ x, e = f x) log)
    (hb : Since (fun e => e = f b) (fun e => ∃ x, e = f x) log) : f a = f b := by
  induction log using List.reverseRecOn with
  | nil => exact absurd ha not_since_nil
  | append_singleton log e ih =>
    rcases Since.snoc_iff.mp ha with rfl | ⟨ha, hno⟩
    · rcases Since.snoc_iff.mp hb with he | ⟨-, hno⟩
      · exact he
      · exact absurd ⟨a, rfl⟩ hno
    · rcases Since.snoc_iff.mp hb with rfl | ⟨hb, -⟩
      · exact absurd ⟨b, rfl⟩ hno
      · exact ih ha hb

end since

section along

variable {Q : List ε → ε → Prop} {log out : List ε} {e : ε}

theorem along_nil : Along Q [] := by
  intro past e recent h
  exact absurd h.symm (by simp)

theorem Along.snoc (h : Along Q log) (he : Q log e) : Along Q (log ++ [e]) := by
  intro past x recent hsplit
  rcases List.eq_nil_or_concat recent with rfl | ⟨recent, y, rfl⟩
  · obtain ⟨rfl, hx⟩ := List.append_inj' hsplit rfl
    cases hx
    exact he
  · rw [List.concat_eq_append, ← List.cons_append, ← List.append_assoc] at hsplit
    exact h past x recent (List.append_inj' hsplit rfl).1

theorem Along.append (h : Along Q log)
    (hout : ∀ past e recent, out = past ++ e :: recent → Q (log ++ past) e) : Along Q (log ++ out) := by
  induction out using List.reverseRecOn with
  | nil => simpa using h
  | append_singleton out e ih =>
    rw [← List.append_assoc]
    refine (ih fun past x recent hx => hout past x (recent ++ [e]) (by simp [hx])).snoc ?_
    exact hout out e [] rfl

theorem Along.of_append (h : Along Q (log ++ out)) : Along Q log := by
  intro past e recent hsplit
  exact h past e (recent ++ out) (by simp [hsplit])

end along
