import Mathlib

/-! Binary trees built level by level from a list, where an odd last element
is paired with itself, and the climb from a leaf past given siblings. -/

universe u

namespace PaddedTree

variable {α : Type u}

def chunks : List α → List (α × α)
  | [] => []
  | [a] => [(a, a)]
  | a :: b :: rest => (a, b) :: chunks rest

variable (node : α → α → α)

def parents (level : List α) : List α := (chunks level).map fun p => node p.1 p.2

def levels : Nat → List α → List (List α)
  | 0, level => [level]
  | height + 1, level => level :: levels height (parents node level)

def height (leaves : Nat) : Nat := Nat.clog 2 leaves

/-- All children that are joined in the levels up to a height. -/
def pairs : Nat → List α → List (α × α)
  | 0, _ => []
  | height + 1, level => chunks level ++ pairs height (parents node level)

/-- The children joined in one step of a climb, which is told whether the
sibling stands on the right. -/
def step (x : α) (sibling : α × Bool) : α × α :=
  if sibling.2 then (x, sibling.1) else (sibling.1, x)

def climb : α → List (α × Bool) → α
  | x, [] => x
  | x, sibling :: path => climb (node (step x sibling).1 (step x sibling).2) path

def steps : α → List (α × Bool) → List (α × α)
  | _, [] => []
  | x, sibling :: path =>
    step x sibling :: steps (node (step x sibling).1 (step x sibling).2) path

def siblingIndex (index length : Nat) : Nat :=
  if index % 2 = 0 then if index + 1 < length then index + 1 else index else index - 1

/-- The leaf that a climb with the given turns starts from. An odd last node
stands for the right child that it lacks. -/
def position : Nat → List Bool → Nat
  | _, [] => 0
  | length, onRight :: turns =>
    if onRight then 2 * position ((length + 1) / 2) turns
    else min (2 * position ((length + 1) / 2) turns + 1) (length - 1)

theorem chunks_length (level : List α) : (chunks level).length = (level.length + 1) / 2 := by
  induction level using chunks.induct with
  | case1 => simp [chunks]
  | case2 a => simp [chunks]
  | case3 a b rest ih =>
    simp only [chunks, List.length_cons, ih]
    omega

theorem parents_length (level : List α) :
    (parents node level).length = (level.length + 1) / 2 := by
  rw [parents, List.length_map, chunks_length]

theorem mem_of_mem_chunks {level : List α} {p : α × α} (hp : p ∈ chunks level) :
    p.1 ∈ level ∧ p.2 ∈ level := by
  induction level using chunks.induct with
  | case1 => simp [chunks] at hp
  | case2 a =>
    simp only [chunks, List.mem_singleton] at hp
    simp [hp]
  | case3 a b rest ih =>
    rcases List.mem_cons.mp hp with rfl | hp
    · simp
    · have h := ih hp
      simp [h.1, h.2]

theorem chunks_getElem? {level : List α} {i : Nat} {p : α × α} (h : (chunks level)[i]? = some p) :
    level[2 * i]? = some p.1 ∧ level[min (2 * i + 1) (level.length - 1)]? = some p.2 := by
  induction level using chunks.induct generalizing i with
  | case1 => simp [chunks] at h
  | case2 a =>
    cases i with
    | zero =>
      simp only [chunks, List.getElem?_cons_zero, Option.some.injEq] at h
      subst h
      exact ⟨rfl, rfl⟩
    | succ i => simp [chunks] at h
  | case3 a b rest ih =>
    cases i with
    | zero =>
      simp only [chunks, List.getElem?_cons_zero, Option.some.injEq] at h
      subst h
      exact ⟨rfl, by simp⟩
    | succ i =>
      simp only [chunks, List.getElem?_cons_succ] at h
      obtain ⟨hleft, hright⟩ := ih h
      have hrest : rest ≠ [] := by
        intro he
        simp [he] at hleft
      have hpos := List.length_pos_iff.mpr hrest
      have hdouble : 2 * (i + 1) = 2 * i + 2 := by omega
      have hmin : min (2 * i + 2 + 1) ((a :: b :: rest).length - 1) =
          min (2 * i + 1) (rest.length - 1) + 2 := by
        rw [List.length_cons, List.length_cons]
        omega
      rw [hdouble, hmin]
      exact ⟨hleft, hright⟩

theorem chunks_inj {l r : List α} (hlen : l.length = r.length) (h : chunks l = chunks r) :
    l = r := by
  induction l using chunks.induct generalizing r with
  | case1 => exact (List.length_eq_zero_iff.mp hlen.symm).symm
  | case2 a =>
    obtain ⟨b, rfl⟩ := List.length_eq_one_iff.mp hlen.symm
    simp only [chunks, List.cons.injEq, Prod.mk.injEq, and_true] at h
    rw [h.1]
  | case3 a b rest ih =>
    match r with
    | [] => simp at hlen
    | [_] => simp at hlen
    | a' :: b' :: rest' =>
      simp only [chunks, List.cons.injEq, Prod.mk.injEq] at h
      obtain ⟨⟨rfl, rfl⟩, h⟩ := h
      rw [ih (by simpa using hlen) h]

theorem height_of_two_le {n : Nat} (hn : 2 ≤ n) : height n = height ((n + 1) / 2) + 1 := by
  have h := Nat.clog_of_two_le (b := 2) (by omega) hn
  have he : n + 2 - 1 = n + 1 := by omega
  rw [he] at h
  exact h

theorem height_of_lt_two {n : Nat} (hn : n < 2) : height n = 0 :=
  Nat.clog_of_right_le_one (by omega) 2

theorem top_length {level : List α} (hlevel : level ≠ []) :
    ((parents node)^[height level.length] level).length = 1 := by
  induction hn : level.length using Nat.strong_induction_on generalizing level with
  | _ n ih =>
    have hpos : 0 < level.length := List.length_pos_iff.mpr hlevel
    by_cases htwo : 2 ≤ level.length
    · have hlen := parents_length node level
      have hparents : parents node level ≠ [] := by
        intro he
        rw [he, List.length_nil] at hlen
        omega
      have hlt : (parents node level).length < n := by omega
      have htop := ih _ hlt hparents rfl
      rw [← hn, height_of_two_le htwo, Function.iterate_succ_apply, ← hlen]
      exact htop
    · rw [height_of_lt_two (by omega)]
      simp only [Function.iterate_zero, id_eq]
      omega

theorem levels_ne_nil (n : Nat) (level : List α) : levels node n level ≠ [] := by
  cases n <;> simp [levels]

theorem getLast?_levels (n : Nat) (level : List α) :
    (levels node n level).getLast? = some ((parents node)^[n] level) := by
  induction n generalizing level with
  | zero => rfl
  | succ n ih =>
    rw [levels, List.getLast?_cons, ih, Option.getD_some, Function.iterate_succ_apply]

theorem dropLast_levels_succ (n : Nat) (level : List α) :
    (levels node (n + 1) level).dropLast = level :: (levels node n (parents node level)).dropLast :=
  List.dropLast_cons_of_ne_nil (levels_ne_nil node n _)

theorem levels_length (n : Nat) (level : List α) : (levels node n level).length = n + 1 := by
  induction n generalizing level with
  | zero => rfl
  | succ n ih => rw [levels, List.length_cons, ih]

theorem climb_cases (x : α) (path : List (α × Bool)) :
    climb node x path = x ∨ ∃ p ∈ steps node x path, climb node x path = node p.1 p.2 := by
  induction path generalizing x with
  | nil => exact Or.inl rfl
  | cons sibling path ih =>
    rcases ih (node (step x sibling).1 (step x sibling).2) with he | ⟨p, hp, he⟩
    · exact Or.inr ⟨step x sibling, List.mem_cons_self, he⟩
    · exact Or.inr ⟨p, List.mem_cons_of_mem _ hp, he⟩

/-- The parent of an element joins it with its sibling, on the side that the
index tells. -/
theorem parent_getElem? {level : List α} {index : Nat} {x : α} (hx : level[index]? = some x) :
    ∃ s, level[siblingIndex index level.length]? = some s ∧
      (parents node level)[index / 2]? =
        some (node (step x (s, index % 2 == 0)).1 (step x (s, index % 2 == 0)).2) := by
  induction level using chunks.induct generalizing index with
  | case1 => simp at hx
  | case2 a =>
    cases index with
    | zero =>
      simp only [List.getElem?_cons_zero, Option.some.injEq] at hx
      subst hx
      exact ⟨a, rfl, rfl⟩
    | succ index => simp at hx
  | case3 a b rest ih =>
    match index with
    | 0 =>
      simp only [List.getElem?_cons_zero, Option.some.injEq] at hx
      subst hx
      exact ⟨b, by simp [siblingIndex], rfl⟩
    | 1 =>
      simp only [List.getElem?_cons_succ, List.getElem?_cons_zero, Option.some.injEq] at hx
      subst hx
      exact ⟨a, rfl, rfl⟩
    | index + 2 =>
      simp only [List.getElem?_cons_succ] at hx
      obtain ⟨s, hs, hp⟩ := ih hx
      have hindex : siblingIndex (index + 2) (rest.length + 2) =
          siblingIndex index rest.length + 2 := by
        simp only [siblingIndex, Nat.add_mod_right]
        split_ifs <;> omega
      have hhalf : (index + 2) / 2 = index / 2 + 1 := by omega
      refine ⟨s, ?_, ?_⟩
      · rw [List.length_cons, List.length_cons, hindex, List.getElem?_cons_succ,
          List.getElem?_cons_succ, hs]
      · rw [hhalf, Nat.add_mod_right]
        exact hp

variable {node}

theorem mem_pairs {height i : Nat} {level : List α} {p : α × α} (hi : i < height)
    (hp : p ∈ chunks ((parents node)^[i] level)) : p ∈ pairs node height level := by
  induction height generalizing i level with
  | zero => omega
  | succ height ih =>
    rw [pairs, List.mem_append]
    cases i with
    | zero => exact Or.inl hp
    | succ i => exact Or.inr (ih (by omega) hp)

theorem exists_pair_of_mem {height i : Nat} {level : List α} {x : α} (hi : i < height)
    (hx : x ∈ (parents node)^[i + 1] level) :
    ∃ p ∈ pairs node height level, p ∈ chunks ((parents node)^[i] level) ∧ node p.1 p.2 = x := by
  rw [Function.iterate_succ_apply', parents, List.mem_map] at hx
  obtain ⟨p, hp, rfl⟩ := hx
  exact ⟨p, mem_pairs hi hp, hp, rfl⟩

theorem mem_of_step {level : List α} {x : α} {sibling : α × Bool}
    (h : step x sibling ∈ chunks level) : x ∈ level := by
  have hmem := mem_of_mem_chunks h
  rw [step] at hmem
  split_ifs at hmem
  · exact hmem.1
  · exact hmem.2

/-- A climb that ends in the tree has stayed in it, whatever the siblings, if
no pairs of the two collide and no leaf is a parent. -/
theorem mem_of_climb_mem {inputs : Set (α × α)} (hinj : Set.InjOn (fun p => node p.1 p.2) inputs)
    {height : Nat} {leaves : List α} (hpairs : ∀ p ∈ pairs node height leaves, p ∈ inputs) {x : α}
    {path : List (α × Bool)} (hsteps : ∀ p ∈ steps node x path, p ∈ inputs)
    (hleaf : ∀ p ∈ steps node x path, node p.1 p.2 ∉ leaves)
    (h : climb node x path ∈ (parents node)^[height] leaves) :
    path.length ≤ height ∧ x ∈ (parents node)^[height - path.length] leaves := by
  induction path generalizing x with
  | nil => exact ⟨Nat.zero_le _, h⟩
  | cons sibling path ih =>
    have hstep : step x sibling ∈ steps node x (sibling :: path) := List.mem_cons_self
    obtain ⟨hlen, hmem⟩ := ih (fun p hp => hsteps p (List.mem_cons_of_mem _ hp))
      (fun p hp => hleaf p (List.mem_cons_of_mem _ hp)) h
    have hpos : height - path.length ≠ 0 := by
      intro hz
      rw [hz] at hmem
      exact hleaf _ hstep hmem
    have hsucc : height - path.length = (height - (sibling :: path).length) + 1 := by
      rw [List.length_cons]
      omega
    rw [hsucc] at hmem
    have hlt : height - (sibling :: path).length < height := by
      rw [List.length_cons]
      omega
    obtain ⟨p, hp, hchunk, he⟩ := exists_pair_of_mem hlt hmem
    have hsame := hinj (hpairs p hp) (hsteps _ hstep) he
    rw [hsame] at hchunk
    exact ⟨by rw [List.length_cons]; omega, mem_of_step hchunk⟩

/-- If moreover the start of the climb is no parent either, then it is a leaf
and the climb is as long as the tree is high. -/
theorem leaf_of_climb_mem {inputs : Set (α × α)} (hinj : Set.InjOn (fun p => node p.1 p.2) inputs)
    {height : Nat} {leaves : List α} (hpairs : ∀ p ∈ pairs node height leaves, p ∈ inputs) {x : α}
    {path : List (α × Bool)} (hsteps : ∀ p ∈ steps node x path, p ∈ inputs)
    (hleaf : ∀ p ∈ steps node x path, node p.1 p.2 ∉ leaves)
    (hstart : ∀ p ∈ pairs node height leaves, node p.1 p.2 ≠ x)
    (h : climb node x path ∈ (parents node)^[height] leaves) :
    path.length = height ∧ x ∈ leaves := by
  obtain ⟨hlen, hmem⟩ := mem_of_climb_mem hinj hpairs hsteps hleaf h
  cases hd : height - path.length with
  | zero =>
    rw [hd] at hmem
    exact ⟨by omega, hmem⟩
  | succ i =>
    rw [hd] at hmem
    have hlt : i < height := by omega
    obtain ⟨p, hp, -, he⟩ := exists_pair_of_mem hlt hmem
    exact absurd he (hstart p hp)

/-- Whatever its siblings, a climb to the root starts from the leaf that its
turns name. -/
theorem getElem?_of_climb {inputs : Set (α × α)}
    (hinj : Set.InjOn (fun p => node p.1 p.2) inputs) {leaves : List α} {x : α}
    {path : List (α × Bool)} (hpairs : ∀ p ∈ pairs node path.length leaves, p ∈ inputs)
    (hsteps : ∀ p ∈ steps node x path, p ∈ inputs)
    (h : (parents node)^[path.length] leaves = [climb node x path]) :
    leaves[position leaves.length (path.map Prod.snd)]? = some x := by
  induction path generalizing leaves x with
  | nil =>
    have hx : leaves = [x] := h
    rw [hx]
    rfl
  | cons sibling path ih =>
    simp only [List.length_cons, pairs, List.mem_append] at hpairs
    have hparent := ih (fun p hp => hpairs p (Or.inr hp))
      (fun p hp => hsteps p (List.mem_cons_of_mem _ hp)) h
    rw [parents_length, parents, List.getElem?_map, Option.map_eq_some_iff] at hparent
    obtain ⟨p, hp, he⟩ := hparent
    have hstep : p = step x sibling :=
      hinj (hpairs p (Or.inl (List.mem_of_getElem? hp))) (hsteps _ List.mem_cons_self) he
    obtain ⟨hleft, hright⟩ := chunks_getElem? hp
    rw [hstep, step] at hleft hright
    rw [List.map_cons, position]
    split_ifs at hleft hright ⊢ with hside
    · exact hleft
    · exact hright

theorem map_injOn {β γ : Type*} {f : β → γ} {s : Set β} (hinj : Set.InjOn f s) {l r : List β}
    (hl : ∀ x ∈ l, x ∈ s) (hr : ∀ x ∈ r, x ∈ s) (h : l.map f = r.map f) : l = r := by
  induction l generalizing r with
  | nil => exact (List.map_eq_nil_iff.mp h.symm).symm
  | cons x l ih =>
    cases r with
    | nil => simp at h
    | cons y r =>
      rw [List.forall_mem_cons] at hl hr
      simp only [List.map_cons, List.cons.injEq] at h
      rw [hinj hl.1 hr.1 h.1, ih hl.2 hr.2 h.2]

theorem parents_inj {inputs : Set (α × α)} (hinj : Set.InjOn (fun p => node p.1 p.2) inputs)
    {l r : List α} (hl : ∀ p ∈ chunks l, p ∈ inputs) (hr : ∀ p ∈ chunks r, p ∈ inputs)
    (hlen : l.length = r.length) (h : parents node l = parents node r) : l = r := by
  apply chunks_inj hlen
  exact map_injOn hinj hl hr h

theorem leaves_inj {inputs : Set (α × α)} (hinj : Set.InjOn (fun p => node p.1 p.2) inputs)
    {height : Nat} {l r : List α} (hl : ∀ p ∈ pairs node height l, p ∈ inputs)
    (hr : ∀ p ∈ pairs node height r, p ∈ inputs) (hlen : l.length = r.length)
    (h : (parents node)^[height] l = (parents node)^[height] r) : l = r := by
  induction height generalizing l r with
  | zero => exact h
  | succ height ih =>
    simp only [pairs, List.mem_append] at hl hr
    apply parents_inj hinj (fun p hp => hl p (Or.inl hp)) (fun p hp => hr p (Or.inl hp)) hlen
    apply ih (fun p hp => hl p (Or.inr hp)) (fun p hp => hr p (Or.inr hp)) _ h
    rw [parents_length, parents_length, hlen]

end PaddedTree
