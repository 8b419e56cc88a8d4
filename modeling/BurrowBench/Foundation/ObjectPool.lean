import BurrowBench.Foundation.Interleaving
import Mathlib.Algebra.Ring.Nat
import Mathlib.Data.List.Perm.Basic

/-! # Object pools

A pool hands out objects it was given back and makes one when it has none, or does not find the one
it has. It may drop what it holds at any moment. The program that uses it is a script: it gets
objects and puts them back, or leaves them, in the order it got them.
-/
namespace BurrowBench.ObjectPool
open Interleaving
variable {γ α : Type*}

inductive Op where
  | get
  | put
  | leave
  | sweep
  deriving DecidableEq

/-- `held` is what the program has got and not given back, the oldest first. Kept for the
statements: what was made, left and dropped, and how often the pool made an object while it had
one. -/
structure State (γ α : Type*) where
  gen : γ
  pool : List α
  held : List α
  left : List α
  dropped : List α
  made : List α
  missed : ℕ
  rest : List Op
  freed : Bool

def start (gen : γ) (script : List Op) : State γ α where
  gen := gen
  pool := []
  held := []
  left := []
  dropped := []
  made := []
  missed := 0
  rest := script
  freed := false

/-- The program's step, with what the pool finds for it, or the pool drops an object. -/
inductive Move (α : Type*) where
  | go (found : Option α)
  | drop (x : α)

section
variable [DecidableEq α]

def getStep (new : γ → α × γ) (found : Option α) (rest : List Op) (s : State γ α) : Option (State γ α) :=
  match found with
  | some x =>
    if x ∈ s.pool then some { s with pool := s.pool.erase x, held := s.held ++ [x], rest := rest } else none
  | none =>
    some { s with
      gen := (new s.gen).2
      held := s.held ++ [(new s.gen).1]
      made := s.made ++ [(new s.gen).1]
      missed := s.missed + if s.pool = [] then 0 else 1
      rest := rest }

/-- The pool is freed behind the script, with all it holds. -/
def step (new : γ → α × γ) (move : Move α) (s : State γ α) : Option (State γ α) :=
  match move, s.rest, s.held with
  | .drop x, _, _ =>
    if x ∈ s.pool then some { s with pool := s.pool.erase x, dropped := x :: s.dropped } else none
  | .go found, .get :: rest, _ => getStep new found rest s
  | .go _, .put :: rest, x :: held => some { s with pool := x :: s.pool, held := held, rest := rest }
  | .go _, .leave :: rest, x :: held => some { s with left := x :: s.left, held := held, rest := rest }
  | .go _, .sweep :: rest, _ => some { s with rest := rest }
  | .go _, [], _ =>
    if s.freed then none else some { s with pool := [], dropped := s.pool ++ s.dropped, freed := true }
  | .go _, _ :: _, [] => none

end

def Done (s : State γ α) : Prop := s.rest = [] ∧ s.freed = true

/-- The rest of a script that holds `k` objects gives all of them back and never holds more than
`w`. -/
def GivesBack (w : ℕ) : ℕ → List Op → Prop
  | k, [] => k = 0
  | k, .get :: rest => k < w ∧ GivesBack w (k + 1) rest
  | k, .put :: rest => 0 < k ∧ GivesBack w (k - 1) rest
  | k, .leave :: rest => 0 < k ∧ GivesBack w (k - 1) rest
  | k, .sweep :: rest => GivesBack w k rest

/-- What a generator makes from `gen` on. -/
inductive Makes (new : γ → α × γ) (gen : γ) : List α → γ → Prop where
  | nil : Makes new gen [] gen
  | snoc {made : List α} {g : γ} (h : Makes new gen made g) : Makes new gen (made ++ [(new g).1]) (new g).2

structure Kept (new : γ → α × γ) (gen : γ) (w : ℕ) (s : State γ α) : Prop where
  makes : Makes new gen s.made s.gen
  perm : (s.pool ++ s.held ++ s.left ++ s.dropped).Perm s.made
  balanced : GivesBack w s.held.length s.rest
  made_le : s.made.length ≤ s.dropped.length + s.left.length + s.missed + w
  freed : s.freed = true → s.pool = [] ∧ s.rest = []

def cost : Op → ℕ
  | .put => 2
  | _ => 1

def left (s : State γ α) : ℕ := (s.rest.map cost).sum + s.pool.length + if s.freed then 0 else 1

theorem GivesBack.append {w k : ℕ} {first second : List Op} (h : GivesBack w k first)
    (h' : GivesBack w 0 second) : GivesBack w k (first ++ second) := by
  induction first generalizing k with
  | nil =>
    obtain rfl : k = 0 := h
    exact h'
  | cons op first ih =>
    cases op with
    | get => exact ⟨h.1, ih h.2⟩
    | put => exact ⟨h.1, ih h.2⟩
    | leave => exact ⟨h.1, ih h.2⟩
    | sweep => exact ih (k := k) h

theorem GivesBack.flatten_replicate {w : ℕ} {turn : List Op} (h : GivesBack w 0 turn) (n : ℕ) :
    GivesBack w 0 (List.replicate n turn).flatten := by
  induction n with
  | zero => rfl
  | succ n ih => exact h.append ih

theorem kept_start (new : γ → α × γ) (gen : γ) {w : ℕ} {script : List Op} (h : GivesBack w 0 script) :
    Kept new gen w (start gen script) where
  makes := .nil
  perm := .refl _
  balanced := h
  made_le := Nat.zero_le _
  freed := by
    intro hfreed
    cases hfreed

/-- A pool that has been freed stays behind its script. -/
theorem Kept.running {new : γ → α × γ} {gen : γ} {w : ℕ} {s : State γ α} {op : Op} {rest : List Op}
    (h : Kept new gen w s) (hrest : s.rest = op :: rest) : s.freed = false := by
  by_contra hne
  have hnil := (h.freed (by simpa using hne)).2
  rw [hrest] at hnil
  cases hnil

/-- What a step can do. -/
inductive Steps (new : γ → α × γ) (s : State γ α) [DecidableEq α] : State γ α → Prop where
  | dropped {x : α} (hx : x ∈ s.pool) :
      Steps new s { s with pool := s.pool.erase x, dropped := x :: s.dropped }
  | found {x : α} {rest : List Op} (hrest : s.rest = .get :: rest) (hx : x ∈ s.pool) :
      Steps new s { s with pool := s.pool.erase x, held := s.held ++ [x], rest := rest }
  | made {rest : List Op} (hrest : s.rest = .get :: rest) :
      Steps new s { s with
        gen := (new s.gen).2
        held := s.held ++ [(new s.gen).1]
        made := s.made ++ [(new s.gen).1]
        missed := s.missed + if s.pool = [] then 0 else 1
        rest := rest }
  | put {x : α} {held : List α} {rest : List Op} (hrest : s.rest = .put :: rest) (hheld : s.held = x :: held) :
      Steps new s { s with pool := x :: s.pool, held := held, rest := rest }
  | leave {x : α} {held : List α} {rest : List Op} (hrest : s.rest = .leave :: rest) (hheld : s.held = x :: held) :
      Steps new s { s with left := x :: s.left, held := held, rest := rest }
  | sweep {rest : List Op} (hrest : s.rest = .sweep :: rest) : Steps new s { s with rest := rest }
  | free (hrest : s.rest = []) (hfreed : s.freed = false) :
      Steps new s { s with pool := [], dropped := s.pool ++ s.dropped, freed := true }

section
variable [DecidableEq α] {new : γ → α × γ} {gen : γ} {w : ℕ} {s s' : State γ α}

theorem steps_of_step {move : Move α} (h : step new move s = some s') : Steps new s s' := by
  obtain ⟨g, pool, held, forgotten, dropped, made, missed, rest, freed⟩ := s
  cases move with
  | drop x =>
    obtain ⟨hx, hs'⟩ := Option.ite_none_right_eq_some.mp h
    exact Option.some.inj hs' ▸ .dropped hx
  | go found =>
    cases rest with
    | nil =>
      cases freed with
      | true => cases h
      | false => exact Option.some.inj h ▸ .free rfl rfl
    | cons op rest =>
      cases op with
      | get =>
        cases found with
        | some x =>
          obtain ⟨hx, hs'⟩ := Option.ite_none_right_eq_some.mp h
          exact Option.some.inj hs' ▸ .found rfl hx
        | none => exact Option.some.inj h ▸ .made rfl
      | put =>
        cases held with
        | nil => cases h
        | cons x held => exact Option.some.inj h ▸ .put rfl rfl
      | leave =>
        cases held with
        | nil => cases h
        | cons x held => exact Option.some.inj h ▸ .leave rfl rfl
      | sweep => exact Option.some.inj h ▸ .sweep rfl

theorem Kept.perm_step (h : Kept new gen w s) (hstep : Steps new s s') :
    (s'.pool ++ s'.held ++ s'.left ++ s'.dropped).Perm s'.made := by
  have hperm := h.perm
  cases hstep with
  | @dropped x hx =>
    have hpool := (List.perm_cons_erase hx).symm
    have hmove : (s.pool.erase x ++ s.held ++ s.left ++ x :: s.dropped).Perm
        (x :: s.pool.erase x ++ s.held ++ s.left ++ s.dropped) := List.perm_middle
    exact (hmove.trans (((hpool.append_right _).append_right _).append_right _)).trans hperm
  | @found x _ hrest hx =>
    have hpool := (List.perm_cons_erase hx).symm
    have hmove : (s.pool.erase x ++ (s.held ++ [x])).Perm (x :: s.pool.erase x ++ s.held) := by
      rw [← List.append_assoc]
      exact List.perm_append_singleton x _
    exact (((hmove.trans (hpool.append_right _)).append_right _).append_right _).trans hperm
  | made hrest =>
    have hmove : (s.pool ++ (s.held ++ [(new s.gen).1])).Perm ((new s.gen).1 :: (s.pool ++ s.held)) := by
      rw [← List.append_assoc]
      exact List.perm_append_singleton _ _
    have hnew := (hmove.append_right s.left).append_right s.dropped
    exact (hnew.trans (List.Perm.cons _ hperm)).trans (List.perm_append_singleton _ _).symm
  | @put x held _ hrest hheld =>
    have hmove : (x :: s.pool ++ held).Perm (s.pool ++ x :: held) := List.perm_middle.symm
    rw [hheld] at hperm
    exact ((hmove.append_right _).append_right _).trans hperm
  | @leave x held _ hrest hheld =>
    have hmove : (held ++ x :: s.left).Perm (x :: held ++ s.left) := List.perm_middle
    have hleft := (hmove.append_left s.pool).append_right s.dropped
    rw [← List.append_assoc, ← List.append_assoc] at hleft
    rw [hheld] at hperm
    exact hleft.trans hperm
  | sweep hrest => exact hperm
  | free hrest hfreed =>
    have hmove : (s.held ++ s.left ++ (s.pool ++ s.dropped)).Perm (s.pool ++ (s.held ++ s.left ++ s.dropped)) :=
      List.perm_append_comm_assoc _ _ _
    refine List.Perm.trans ?_ hperm
    simpa using hmove

/-- A new object is made in one of the places of the script, or the pool has missed one. -/
theorem Kept.made_le_step (h : Kept new gen w s) (hstep : Steps new s s') :
    s'.made.length ≤ s'.dropped.length + s'.left.length + s'.missed + w := by
  have hmade := h.made_le
  have hperm := h.perm.length_eq
  have hbalanced := h.balanced
  simp only [List.length_append] at hperm
  cases hstep with
  | dropped hx =>
    change s.made.length ≤ s.dropped.length + 1 + s.left.length + s.missed + w
    omega
  | made hrest =>
    rw [hrest] at hbalanced
    have hheld := hbalanced.1
    simp only [List.length_append, List.length_singleton]
    by_cases hempty : s.pool = []
    · rw [hempty, List.length_nil] at hperm
      rw [if_pos hempty]
      omega
    · rw [if_neg hempty]
      omega
  | leave hrest hheld =>
    change s.made.length ≤ s.dropped.length + (s.left.length + 1) + s.missed + w
    omega
  | free hrest hfreed =>
    simp only [List.length_append]
    omega
  | found hrest hx => exact hmade
  | put hrest hheld => exact hmade
  | sweep hrest => exact hmade

theorem Kept.balanced_step (h : Kept new gen w s) (hstep : Steps new s s') :
    GivesBack w s'.held.length s'.rest := by
  have hbalanced := h.balanced
  cases hstep with
  | dropped hx => exact hbalanced
  | free hrest hfreed => exact hbalanced
  | found hrest hx =>
    rw [hrest] at hbalanced
    rw [List.length_append]
    exact hbalanced.2
  | made hrest =>
    rw [hrest] at hbalanced
    rw [List.length_append]
    exact hbalanced.2
  | put hrest hheld =>
    rw [hrest, hheld] at hbalanced
    exact hbalanced.2
  | leave hrest hheld =>
    rw [hrest, hheld] at hbalanced
    exact hbalanced.2
  | sweep hrest =>
    rw [hrest] at hbalanced
    exact hbalanced

theorem Kept.step (h : Kept new gen w s) (hstep : Steps new s s') : Kept new gen w s' where
  perm := h.perm_step hstep
  made_le := h.made_le_step hstep
  balanced := h.balanced_step hstep
  makes := by
    cases hstep with
    | made hrest => exact h.makes.snoc
    | _ => exact h.makes
  freed := by
    intro hfreed
    cases hstep with
    | dropped hx =>
      rw [(h.freed hfreed).1] at hx
      cases hx
    | free hrest => exact ⟨rfl, hrest⟩
    | found hrest => exact absurd hfreed (by simp [h.running hrest])
    | made hrest => exact absurd hfreed (by simp [h.running hrest])
    | put hrest => exact absurd hfreed (by simp [h.running hrest])
    | leave hrest => exact absurd hfreed (by simp [h.running hrest])
    | sweep hrest => exact absurd hfreed (by simp [h.running hrest])

theorem lower (hstep : Steps new s s') : left s' < left s := by
  cases hstep with
  | dropped hx =>
    have hlength := (List.perm_cons_erase hx).length_eq
    rw [List.length_cons] at hlength
    simp only [left]
    omega
  | found hrest hx =>
    have hlength := (List.perm_cons_erase hx).length_eq
    rw [List.length_cons] at hlength
    simp only [left, hrest, List.map_cons, List.sum_cons, cost]
    omega
  | free hrest hfreed =>
    change (s.rest.map cost).sum + 0 + 0 < (s.rest.map cost).sum + s.pool.length + if s.freed then 0 else 1
    rw [hfreed, if_neg Bool.false_ne_true]
    omega
  | put hrest hheld =>
    simp only [left, hrest, List.map_cons, List.sum_cons, cost, List.length_cons]
    omega
  | made hrest =>
    simp only [left, hrest, List.map_cons, List.sum_cons, cost]
    omega
  | leave hrest hheld =>
    simp only [left, hrest, List.map_cons, List.sum_cons, cost]
    omega
  | sweep hrest =>
    simp only [left, hrest, List.map_cons, List.sum_cons, cost]
    omega

/-- Where the pool finds nothing it makes an object, so the program always goes on. -/
theorem progress (h : Kept new gen w s) : Done s ∨ ∃ move, (ObjectPool.step new move s).isSome := by
  obtain ⟨g, pool, held, forgotten, dropped, made, missed, rest, freed⟩ := s
  have hbalanced := h.balanced
  cases rest with
  | nil =>
    cases freed with
    | true => exact .inl ⟨rfl, rfl⟩
    | false => exact .inr ⟨.go none, rfl⟩
  | cons op rest =>
    refine .inr ⟨.go none, ?_⟩
    cases op with
    | get => rfl
    | sweep => rfl
    | put =>
      cases held with
      | nil => exact absurd hbalanced.1 (Nat.lt_irrefl 0)
      | cons x held => rfl
    | leave =>
      cases held with
      | nil => exact absurd hbalanced.1 (Nat.lt_irrefl 0)
      | cons x held => rfl

theorem terminates (new : γ → α × γ) (gen : γ) (w : ℕ) :
    Terminates (step new) (Kept new gen w) Done left where
  keep := by
    intro move s s' hs hstep
    exact hs.step (steps_of_step hstep)
  lower := by
    intro move s s' _ hstep
    exact lower (steps_of_step hstep)
  progress := fun _ => progress

/-! ## What is left, and scripts that put nothing back -/

theorem left_count_step (hstep : Steps new s s') :
    s'.left.length + s'.rest.count .leave = s.left.length + s.rest.count .leave := by
  cases hstep with
  | dropped hx => rfl
  | free hrest hfreed => rfl
  | leave hrest hheld =>
    rw [hrest, List.count_cons_self, List.length_cons, Nat.add_right_comm, Nat.add_assoc]
  | found hrest hx => rw [hrest, List.count_cons_of_ne (by decide)]
  | made hrest => rw [hrest, List.count_cons_of_ne (by decide)]
  | put hrest hheld => rw [hrest, List.count_cons_of_ne (by decide)]
  | sweep hrest => rw [hrest, List.count_cons_of_ne (by decide)]

/-- Nothing comes into the pool, so every get makes an object. -/
theorem pool_nil_step (h : .put ∉ s.rest ∧ s.pool = [] ∧ s.dropped = []) (hstep : Steps new s s') :
    .put ∉ s'.rest ∧ s'.pool = [] ∧ s'.dropped = [] := by
  obtain ⟨hput, hpool, hdropped⟩ := h
  cases hstep with
  | dropped hx =>
    rw [hpool] at hx
    cases hx
  | found hrest hx =>
    rw [hpool] at hx
    cases hx
  | free hrest hfreed =>
    refine ⟨hput, rfl, ?_⟩
    change s.pool ++ s.dropped = []
    rw [hpool, hdropped, List.append_nil]
  | put hrest hheld => exact absurd (hrest ▸ List.mem_cons_self) hput
  | made hrest => exact ⟨fun hmem => hput (hrest ▸ List.mem_cons_of_mem _ hmem), hpool, hdropped⟩
  | leave hrest hheld => exact ⟨fun hmem => hput (hrest ▸ List.mem_cons_of_mem _ hmem), hpool, hdropped⟩
  | sweep hrest => exact ⟨fun hmem => hput (hrest ▸ List.mem_cons_of_mem _ hmem), hpool, hdropped⟩

end

end BurrowBench.ObjectPool
