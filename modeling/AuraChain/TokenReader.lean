import Mathlib

/-! Readers that take values off the front of a token list or fail. `Reads r l a`
says that `r` reads `a` off the tokens `l` whatever stands behind them, so that
readers in sequence read tokens in sequence. -/

universe u v

abbrev TokenReader (ε : Type v) (τ α : Type u) := StateT (List τ) (Except ε) α

namespace TokenReader

variable {ε : Type v} {τ α β : Type u}

def fail (e : ε) : TokenReader ε τ α := fun _ => .error e

def ofOption (e : ε) : Option α → TokenReader ε τ α
  | none => fail e
  | some a => pure a

/-- The next `n` tokens. -/
def take (e : ε) (n : Nat) : TokenReader ε τ (List τ) := fun s =>
  if n ≤ s.length then .ok (s.take n, s.drop n) else .error e

def repeated (r : TokenReader ε τ α) : Nat → TokenReader ε τ (List α)
  | 0 => pure []
  | n + 1 => do
    let a ← r
    let l ← repeated r n
    return a :: l

/-- What `r` reads from the whole input. Tokens may be left over. -/
def parse (r : TokenReader ε τ α) (s : List τ) : Except ε α := (r.run s).map Prod.fst

end TokenReader

def Reads {ε : Type v} {τ α : Type u} (r : TokenReader ε τ α) (l : List τ) (a : α) : Prop :=
  ∀ rest, r.run (l ++ rest) = .ok (a, rest)

namespace Reads

variable {ε : Type v} {τ α β : Type u} {r : TokenReader ε τ α} {l m : List τ} {a b : α} {e : ε}

theorem parse (h : Reads r l a) (rest : List τ) : r.parse (l ++ rest) = .ok a := by
  rw [TokenReader.parse, h rest]
  rfl

theorem parse_exact (h : Reads r l a) : r.parse l = .ok a := by
  simpa only [List.append_nil] using h.parse []

theorem toOption_parse (h : Reads r l a) : (r.parse l).toOption = some a := by
  rw [h.parse_exact]
  rfl

theorem pure (a : α) : Reads (Pure.pure a : TokenReader ε τ α) [] a := fun _ => rfl

theorem bind {f : α → TokenReader ε τ β} {b : β} (h : Reads r l a) (hf : Reads (f a) m b) :
    Reads (r >>= f) (l ++ m) b := by
  intro rest
  rw [StateT.run_bind, List.append_assoc, h]
  exact hf rest

/-- In front of a reader that reads nothing. -/
theorem last {f : α → TokenReader ε τ β} {b : β} (h : Reads r l a) (hf : Reads (f a) [] b) :
    Reads (r >>= f) l b := by
  have hb := h.bind hf
  rwa [List.append_nil] at hb

theorem map {f : α → β} (h : Reads r l a) :
    Reads (r >>= fun a => Pure.pure (f a)) l (f a) :=
  h.last (f := fun a => Pure.pure (f a)) (Reads.pure (f a))

theorem ofOption {o : Option α} (h : o = some a) : Reads (TokenReader.ofOption e o) ([] : List τ) a := by
  subst h
  exact Reads.pure a

theorem take (l : List τ) : Reads (TokenReader.take e l.length) l l := by
  intro rest
  have hle : l.length ≤ (l ++ rest).length := by simp
  simp only [StateT.run, TokenReader.take, if_pos hle, List.take_left', List.drop_left']

theorem repeated {f : β → List τ} {r : TokenReader ε τ β} {l : List β}
    (h : ∀ b ∈ l, Reads r (f b) b) : Reads (r.repeated l.length) (l.flatMap f) l := by
  induction l with
  | nil => exact Reads.pure []
  | cons b l ih =>
    have hb : Reads r (f b) b := h b List.mem_cons_self
    have hl := ih fun c hc => h c (List.mem_cons_of_mem b hc)
    exact hb.bind hl.map

end Reads
