import Mathlib

/-! Many streams on one sequence of operations. A start opens a stream under a key
and ends the one that was open under it; an item belongs to the stream that is open
under its key, if any. -/

namespace KeyedStreams

inductive Op (κ β : Type*)
  | start (key : κ)
  | item (key : κ) (payload : β)
  | stop (key : κ)
  | idle

variable {κ β : Type*} {key : κ} {ops : List (Op κ β)} {op : Op κ β}

/-- The streams in the order of their starts, each with all that comes behind. -/
def streams : List (Op κ β) → List (κ × List (Op κ β))
  | [] => []
  | .start key :: rest => (key, rest) :: streams rest
  | .item _ _ :: rest => streams rest
  | .stop _ :: rest => streams rest
  | .idle :: rest => streams rest

/-- The streams that an operation adds. -/
def opened : Op κ β → List (κ × List (Op κ β))
  | .start key => [(key, [])]
  | _ => []

theorem streams_snoc (ops : List (Op κ β)) (op : Op κ β) :
    streams (ops ++ [op]) = (streams ops).map (fun s => (s.1, s.2 ++ [op])) ++ opened op := by
  induction ops with
  | nil => cases op <;> rfl
  | cons first ops ih => cases first <;> simp [streams, ih]

theorem length_streams_snoc (ops : List (Op κ β)) (op : Op κ β) :
    (streams (ops ++ [op])).length = (streams ops).length + (opened op).length := by
  rw [streams_snoc, List.length_append, List.length_map]

theorem streams_snoc_old {i : Nat} {rest : List (Op κ β)} (h : (streams ops)[i]? = some (key, rest))
    (op : Op κ β) : (streams (ops ++ [op]))[i]? = some (key, rest ++ [op]) := by
  have hlt : i < ((streams ops).map fun s => (s.1, s.2 ++ [op])).length := by
    rw [List.length_map]
    exact (List.getElem?_eq_some_iff.mp h).1
  rw [streams_snoc, List.getElem?_append_left hlt, List.getElem?_map, h]
  rfl

/-- The streams after an operation are the ones before it and what it opens. -/
theorem streams_snoc_iff {i : Nat} {rest : List (Op κ β)} :
    (streams (ops ++ [op]))[i]? = some (key, rest) ↔
      (∃ before, (streams ops)[i]? = some (key, before) ∧ rest = before ++ [op]) ∨
        op = .start key ∧ i = (streams ops).length ∧ rest = [] := by
  rw [streams_snoc, List.getElem?_append, List.length_map]
  split_ifs with hlt
  · rw [List.getElem?_map, Option.map_eq_some_iff]
    constructor
    · rintro ⟨⟨k, before⟩, hbefore, heq⟩
      cases heq
      exact .inl ⟨before, hbefore, rfl⟩
    · rintro (⟨before, hbefore, rfl⟩ | ⟨-, rfl, -⟩)
      · exact ⟨_, hbefore, rfl⟩
      · exact absurd hlt (Nat.lt_irrefl _)
  · have hold : ∀ before, (streams ops)[i]? ≠ some (key, before) :=
      fun before h => hlt (List.getElem?_eq_some_iff.mp h).1
    have hsub : i - (streams ops).length = 0 ↔ i = (streams ops).length := by omega
    cases op with
    | start k =>
      rw [opened, List.getElem?_singleton]
      constructor
      · intro h
        split_ifs at h with hi
        cases h
        exact .inr ⟨rfl, hsub.mp hi, rfl⟩
      · rintro (⟨before, hbefore, -⟩ | ⟨heq, hi, rfl⟩)
        · exact absurd hbefore (hold before)
        · cases heq
          rw [if_pos (hsub.mpr hi)]
    | _ => simp [opened, hold]

variable [DecidableEq κ] {table : κ → Option Nat}

namespace Op

def ends (key : κ) : Op κ β → Bool
  | start k => decide (k = key)
  | stop k => decide (k = key)
  | item _ _ => false
  | idle => false

def payload? (key : κ) : Op κ β → Option β
  | item k payload => if k = key then some payload else none
  | _ => none

end Op

def isOpen (key : κ) (rest : List (Op κ β)) : Bool := rest.all fun op => !op.ends key

/-- What a stream carries until it ends. -/
def carried (key : κ) (rest : List (Op κ β)) : List β :=
  (rest.takeWhile fun op => !op.ends key).filterMap (Op.payload? key)

/-- A table has the number of the stream that is open under a key. -/
def Names (ops : List (Op κ β)) (table : κ → Option Nat) : Prop :=
  ∀ key i, table key = some i ↔ ∃ rest, (streams ops)[i]? = some (key, rest) ∧ isOpen key rest = true

theorem Op.payload?_of_ends {op : Op κ β} (h : op.ends key = true) : op.payload? key = none := by
  cases op with
  | item k payload => cases h
  | _ => rfl

theorem isOpen_snoc (key : κ) (rest : List (Op κ β)) (op : Op κ β) :
    isOpen key (rest ++ [op]) = (isOpen key rest && !op.ends key) := by
  simp [isOpen, List.all_append]

theorem carried_snoc (key : κ) (rest : List (Op κ β)) (op : Op κ β) :
    carried key (rest ++ [op]) =
      carried key rest ++ if isOpen key rest then (op.payload? key).toList else [] := by
  rw [carried, carried, List.takeWhile_append]
  by_cases hopen : isOpen key rest = true
  · have hall : (rest.takeWhile fun op => !op.ends key) = rest :=
      List.takeWhile_eq_self_iff.mpr (List.all_eq_true.mp hopen)
    rw [hall, if_pos rfl, if_pos hopen, List.filterMap_append]
    refine congrArg (_ ++ ·) ?_
    cases hends : op.ends key with
    | true => simp [hends, Op.payload?_of_ends hends]
    | false =>
      rw [List.takeWhile_cons_of_pos (by simp [hends])]
      cases hpayload : op.payload? key <;> simp [hpayload]
  · have hlen : (rest.takeWhile fun op => !op.ends key).length ≠ rest.length := by
      intro hlen
      refine hopen (List.all_eq_true.mpr (List.takeWhile_eq_self_iff.mp ?_))
      exact (List.takeWhile_prefix _).eq_of_length hlen
    rw [if_neg hlen, if_neg hopen, List.append_nil]

/-- What an operation adds to a stream. -/
def added (table : κ → Option Nat) (i : Nat) : Op κ β → List β
  | .item key payload => if table key = some i then [payload] else []
  | _ => []

namespace Names

/-- An item goes to the stream that the table has for its key, and to no other. -/
theorem carried_snoc (h : Names ops table) {i : Nat} {rest : List (Op κ β)}
    (hi : (streams ops)[i]? = some (key, rest)) (op : Op κ β) :
    carried key (rest ++ [op]) = carried key rest ++ added table i op := by
  rw [KeyedStreams.carried_snoc]
  refine congrArg (_ ++ ·) ?_
  cases op with
  | item k payload =>
    rw [added]
    by_cases hk : k = key
    · subst hk
      have hopen : table k = some i ↔ isOpen k rest = true := by
        rw [h k i]
        constructor
        · rintro ⟨rest', hrest', hopen⟩
          rw [hi] at hrest'
          cases hrest'
          exact hopen
        · exact fun hopen => ⟨rest, hi, hopen⟩
      simp only [Op.payload?, if_true, Option.toList_some, hopen]
    · have hother : table k ≠ some i := by
        intro hk'
        obtain ⟨rest', hrest', -⟩ := (h k i).mp hk'
        rw [hi] at hrest'
        cases hrest'
        exact hk rfl
      simp [Op.payload?, hk, hother]
  | _ => simp [added, Op.payload?]

theorem nil : Names ([] : List (Op κ β)) fun _ => none := by
  intro key i
  simp [streams]

/-- Whatever an operation does, the table is to forget the key that it ends and to
have the new stream under the key that it starts. -/
theorem snoc (h : Names ops table) {table' : κ → Option Nat}
    (hstart : ∀ key, op = .start key → table' key = some (streams ops).length)
    (hends : ∀ key, op ≠ .start key → op.ends key = true → table' key = none)
    (hkeeps : ∀ key, op.ends key = false → table' key = table key) : Names (ops ++ [op]) table' := by
  intro key i
  constructor
  · intro hi
    cases hop : op.ends key with
    | true =>
      by_cases hs : op = .start key
      · rw [hstart key hs, Option.some.injEq] at hi
        exact ⟨[], streams_snoc_iff.mpr (.inr ⟨hs, hi.symm, rfl⟩), rfl⟩
      · rw [hends key hs hop] at hi
        cases hi
    | false =>
      rw [hkeeps key hop] at hi
      obtain ⟨rest, hrest, hopen⟩ := (h key i).mp hi
      exact ⟨rest ++ [op], streams_snoc_old hrest op, by rw [isOpen_snoc, hopen, hop]; rfl⟩
  · rintro ⟨rest, hrest, hopen⟩
    rcases streams_snoc_iff.mp hrest with ⟨before, hbefore, rfl⟩ | ⟨hs, rfl, -⟩
    · rw [isOpen_snoc, Bool.and_eq_true, Bool.not_eq_true'] at hopen
      rw [hkeeps key hopen.2]
      exact (h key i).mpr ⟨before, hbefore, hopen.1⟩
    · exact hstart key hs

end Names

end KeyedStreams
