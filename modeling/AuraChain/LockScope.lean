import Mathlib

/-! Scripts of lock guards with lexical scopes, and whether running one blocks on
a guard that the same call chain still holds. A script that panics unwinds, so
that nothing behind it is requested any more. -/

universe u

namespace LockScope

inductive Mode
  | read
  | write
  deriving DecidableEq

inductive Outcome
  | done
  | panicked
  | blocked
  deriving DecidableEq

inductive Script (L : Type u)
  | skip
  | panic
  | hold (l : L) (m : Mode) (body : Script L)
  | seq (p q : Script L)

variable {L : Type u} [DecidableEq L]

def conflicts (held : List (L × Mode)) (l : L) (m : Mode) : Bool :=
  held.any fun g => decide (g.1 = l ∧ (m = .write ∨ g.2 = .write))

namespace Script

omit [DecidableEq L] in
def touch (l : L) (m : Mode) : Script L := hold l m skip

def block (ps : List (Script L)) : Script L := ps.foldr seq skip

def run : Script L → List (L × Mode) → Outcome
  | skip, _ => .done
  | panic, _ => .panicked
  | hold l m body, held => if conflicts held l m then .blocked else body.run ((l, m) :: held)
  | seq p q, held =>
    match p.run held with
    | .done => q.run held
    | .panicked => .panicked
    | .blocked => .blocked

def panicFree : Script L → Bool
  | skip => true
  | panic => false
  | hold _ _ body => body.panicFree
  | seq p q => p.panicFree && q.panicFree

variable {p q : Script L} {held : List (L × Mode)}

theorem conflicts_cons_ne {k l : L} (h : k ≠ l) (n m : Mode) :
    conflicts ((k, n) :: held) l m = conflicts held l m := by
  simp [conflicts, h]

theorem conflicts_write_self (held : List (L × Mode)) (l : L) (m : Mode) :
    conflicts ((l, .write) :: held) l m = true := by
  simp [conflicts]

@[simp] theorem run_skip : (skip : Script L).run held = .done := rfl

theorem run_hold_ite (l : L) (m : Mode) : (hold l m p).run held =
    if conflicts held l m then .blocked else p.run ((l, m) :: held) := rfl

theorem run_seq (p q : Script L) : (seq p q).run held =
    match p.run held with
    | .done => q.run held
    | .panicked => .panicked
    | .blocked => .blocked := rfl

theorem run_hold {l : L} {m : Mode} (h : conflicts held l m = false) :
    (hold l m p).run held = p.run ((l, m) :: held) := by
  simp [run_hold_ite, h]

theorem run_touch {l : L} {m : Mode} (h : conflicts held l m = false) :
    (touch l m).run held = .done :=
  run_hold h

theorem run_touch_blocked {l : L} {m : Mode} (h : conflicts held l m = true) :
    (touch l m).run held = .blocked := by
  simp [touch, run_hold_ite, h]

theorem run_seq_done (h : p.run held = .done) : (seq p q).run held = q.run held := by
  rw [run_seq, h]

theorem run_block_singleton (p : Script L) : (block [p]).run held = p.run held := by
  change (seq p skip).run held = p.run held
  rw [run_seq]
  cases p.run held <;> rfl

theorem run_block_cons {ps : List (Script L)} (h : p.run held = .done) :
    (block (p :: ps)).run held = (block ps).run held :=
  run_seq_done h

theorem run_block_panicked {ps : List (Script L)} (h : p.run held = .panicked) :
    (block (p :: ps)).run held = .panicked := by
  change (seq p (block ps)).run held = .panicked
  rw [run_seq, h]

theorem run_block_stuck {ps : List (Script L)} (h : p.run held = .blocked) :
    (block (p :: ps)).run held = .blocked := by
  change (seq p (block ps)).run held = .blocked
  rw [run_seq, h]

theorem run_ne_panicked (h : p.panicFree = true) : p.run held ≠ .panicked := by
  induction p generalizing held with
  | skip => simp
  | panic => simp [panicFree] at h
  | hold l m body ih =>
    rw [run_hold_ite]
    split_ifs
    · simp
    · exact ih h
  | seq p q ihp ihq =>
    simp only [panicFree, Bool.and_eq_true] at h
    have hp : p.run held ≠ .panicked := ihp h.1
    cases hr : p.run held with
    | done =>
      rw [run_seq_done hr]
      exact ihq h.2
    | panicked => exact absurd hr hp
    | blocked => simp [run_seq, hr]

/-- What blocks at the end blocks in any case, unless a panic prevents it. -/
theorem run_block_blocked {ps : List (Script L)} (h : ∀ p ∈ ps, p.run held ≠ .panicked)
    (hlast : q.run held = .blocked) : (block (ps ++ [q])).run held = .blocked := by
  induction ps with
  | nil =>
    change (seq q skip).run held = .blocked
    rw [run_seq, hlast]
  | cons p ps ih =>
    have hrest := ih fun r hr => h r (List.mem_cons_of_mem p hr)
    have hp := h p List.mem_cons_self
    change (seq p (block (ps ++ [q]))).run held = .blocked
    cases hr : p.run held with
    | done => rw [run_seq_done hr, hrest]
    | panicked => exact absurd hr hp
    | blocked => rw [run_seq, hr]

theorem run_seq_done_iff : (seq p q).run held = .done ↔ p.run held = .done ∧ q.run held = .done := by
  rw [run_seq]
  cases p.run held <;> simp

theorem run_block_done_iff {ps : List (Script L)} :
    (block ps).run held = .done ↔ ∀ p ∈ ps, p.run held = .done := by
  induction ps with
  | nil => simp [block]
  | cons p ps ih =>
    rw [List.forall_mem_cons, ← ih]
    exact run_seq_done_iff

theorem run_hold_done {l : L} {m : Mode} (h : (hold l m p).run held = .done) :
    conflicts held l m = false ∧ p.run ((l, m) :: held) = .done := by
  rw [run_hold_ite] at h
  split_ifs at h with hfree
  exact ⟨Bool.eq_false_iff.mpr hfree, h⟩

section Stuck

/-- What a call that blocks keeps from the others for good: the guards it holds
and the lock that it waits for. -/
def stuck : Script L → List (L × Mode) → Option (List (L × Mode))
  | skip, _ => none
  | panic, _ => none
  | hold l m body, held =>
    if conflicts held l m then some ((l, m) :: held) else body.stuck ((l, m) :: held)
  | seq p q, held =>
    match p.run held with
    | .done => q.stuck held
    | .panicked => none
    | .blocked => p.stuck held

/-- The script does not panic, and gives a guard on another lock than these back
at once. -/
def holdsOnly (S : L → Prop) : Script L → Prop
  | skip => True
  | panic => False
  | hold l _ body => (S l ∨ body = skip) ∧ body.holdsOnly S
  | seq p q => p.holdsOnly S ∧ q.holdsOnly S

variable {S : L → Prop} {kept : List (L × Mode)}

theorem conflicts_some {l : L} {m : Mode} (h : conflicts held l m = true) :
    ∃ g ∈ held, g.1 = l := by
  obtain ⟨g, hg, hl⟩ := List.any_eq_true.mp h
  exact ⟨g, hg, (of_decide_eq_true hl).1⟩

theorem conflicts_none {l : L} (hheld : ∀ g ∈ held, S g.1) (hl : ¬ S l) (m : Mode) :
    conflicts held l m = false := by
  refine Bool.eq_false_iff.mpr fun h => ?_
  obtain ⟨g, hg, rfl⟩ := conflicts_some h
  exact hl (hheld g hg)

theorem stuck_of_blocked (h : p.run held = .blocked) : ∃ kept, p.stuck held = some kept := by
  induction p generalizing held with
  | skip => cases h
  | panic => cases h
  | hold l m body ih =>
    rw [run_hold_ite] at h
    rw [stuck]
    split_ifs at h ⊢ with hc
    · exact ⟨_, rfl⟩
    · exact ih h
  | seq p q ihp ihq =>
    rw [stuck]
    cases hp : p.run held with
    | done => exact ihq ((run_seq_done hp).symm.trans h)
    | panicked => rw [run_seq, hp] at h; cases h
    | blocked => exact ihp hp

theorem blocked_of_stuck (h : p.stuck held = some kept) : p.run held = .blocked := by
  induction p generalizing held with
  | skip => cases h
  | panic => cases h
  | hold l m body ih =>
    rw [stuck] at h
    rw [run_hold_ite]
    split_ifs at h ⊢ with hc
    · rfl
    · exact ih h
  | seq p q ihp ihq =>
    rw [stuck] at h
    split at h
    · next hp => exact (run_seq_done hp).trans (ihq h)
    · cases h
    · next hp => rw [run_seq, hp]

theorem stuck_none_iff : p.stuck held = none ↔ p.run held ≠ .blocked := by
  refine ⟨fun h hblocked => ?_, fun h => Option.eq_none_iff_forall_ne_some.mpr fun kept hs => ?_⟩
  · obtain ⟨kept, hs⟩ := stuck_of_blocked hblocked
    rw [h] at hs
    cases hs
  · exact h (blocked_of_stuck hs)

theorem stuck_keeps (h : p.stuck held = some kept) : kept ≠ [] ∧ ∀ g ∈ held, g ∈ kept := by
  induction p generalizing held with
  | skip => cases h
  | panic => cases h
  | hold l m body ih =>
    rw [stuck] at h
    split_ifs at h with hc
    · cases h
      exact ⟨by simp, fun g hg => List.mem_cons_of_mem _ hg⟩
    · obtain ⟨hne, hall⟩ := ih h
      exact ⟨hne, fun g hg => hall g (List.mem_cons_of_mem _ hg)⟩
  | seq p q ihp ihq =>
    rw [stuck] at h
    split at h
    · exact ihq h
    · cases h
    · exact ihp h

/-- A call whose longer guards are all on some locks, and that runs while others
keep only those locks from it, waits for one of them and keeps nothing else. -/
theorem stuck_only (hp : p.holdsOnly S) (hheld : ∀ g ∈ held, S g.1) (h : p.stuck held = some kept) :
    ∀ g ∈ kept, S g.1 := by
  induction p generalizing held with
  | skip => cases h
  | panic => cases h
  | hold l m body ih =>
    rw [stuck] at h
    split_ifs at h with hc
    · cases h
      refine List.forall_mem_cons.mpr ⟨?_, hheld⟩
      obtain ⟨g, hg, rfl⟩ := conflicts_some hc
      exact hheld g hg
    · rcases hp.1 with hl | rfl
      · exact ih hp.2 (List.forall_mem_cons.mpr ⟨hl, hheld⟩) h
      · cases h
  | seq p q ihp ihq =>
    rw [stuck] at h
    split at h
    · exact ihq hp.2 hheld h
    · cases h
    · exact ihp hp.1 hheld h

omit [DecidableEq L] in
theorem holdsOnly.panicFree (h : p.holdsOnly S) : p.panicFree = true := by
  induction p with
  | skip => rfl
  | panic => exact h.elim
  | hold l m body ih => exact ih h.2
  | seq p q ihp ihq => exact (Bool.and_eq_true _ _).mpr ⟨ihp h.1, ihq h.2⟩

omit [DecidableEq L] in
theorem holdsOnly_block {ps : List (Script L)} (h : ∀ p ∈ ps, p.holdsOnly S) :
    (block ps).holdsOnly S := by
  induction ps with
  | nil => trivial
  | cons p ps ih =>
    obtain ⟨hp, hps⟩ := List.forall_mem_cons.mp h
    exact ⟨hp, ih hps⟩

omit [DecidableEq L] in
theorem holdsOnly_touch (l : L) (m : Mode) : (touch l m).holdsOnly S := ⟨.inr rfl, trivial⟩

end Stuck

end Script

end LockScope
