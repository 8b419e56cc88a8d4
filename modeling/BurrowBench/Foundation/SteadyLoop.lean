import Mathlib.Data.List.Basic
import Mathlib.Data.List.Range
import Mathlib.Tactic.Common

/-! # Loops whose turns are alike

A loop that carries a state from turn to turn and keeps something of each. When every turn restores
an invariant, what it keeps can be told from the number of the turn alone. A turn that is not defined
ends the loop.
-/
namespace BurrowBench.SteadyLoop
variable {σ ο : Type*}

/-- The loop over `n` turns, with what they keep. -/
def turns (turn : ℕ → σ → σ × ο) : ℕ → σ → σ × List ο
  | 0, s => (s, [])
  | n + 1, s =>
    let before := turns turn n s
    let last := turn n before.1
    (last.1, before.2 ++ [last.2])

/-- After any number of turns the invariant holds again and each turn has kept what it should. -/
def Steady (turn : ℕ → σ → σ × ο) (P : σ → Prop) (kept : ℕ → ο) : Prop :=
  ∀ n s, P s → P (turns turn n s).1 ∧ (turns turn n s).2 = (List.range n).map kept

theorem steady_of_turn {turn : ℕ → σ → σ × ο} {P : σ → Prop} {kept : ℕ → ο}
    (h : ∀ i s, P s → P (turn i s).1 ∧ (turn i s).2 = kept i) : Steady turn P kept := by
  intro n s hs
  induction n with
  | zero => exact ⟨hs, rfl⟩
  | succ n ih =>
    obtain ⟨hbefore, hkept⟩ := ih
    obtain ⟨hlast, hone⟩ := h n _ hbefore
    refine ⟨hlast, ?_⟩
    rw [List.range_succ, List.map_append, ← hkept, List.map_singleton, ← hone]
    rfl

/-- The same over turns that are not defined everywhere. -/
def tryTurns (turn : σ → Option (ο × σ)) : ℕ → σ → Option (List ο × σ)
  | 0, s => some ([], s)
  | n + 1, s => do
    let (kept, s') ← turn s
    let (rest, last) ← tryTurns turn n s'
    return (kept :: rest, last)

/-- Turns that all keep the same thing, under an invariant that may count them. -/
theorem tryTurns_eq {turn : σ → Option (ο × σ)} {kept : ο} (P : ℕ → σ → Prop) {bound : ℕ}
    (h : ∀ i s, i < bound → P i s → ∃ s', P (i + 1) s' ∧ turn s = some (kept, s')) (n : ℕ) {i : ℕ} {s : σ}
    (hn : i + n ≤ bound) (hs : P i s) :
    ∃ s', P (i + n) s' ∧ tryTurns turn n s = some (List.replicate n kept, s') := by
  induction n generalizing i s with
  | zero => exact ⟨s, hs, rfl⟩
  | succ n ih =>
    obtain ⟨s₁, hs₁, hfirst⟩ := h i s (by omega) hs
    obtain ⟨s', hs', hrest⟩ := ih (by omega) hs₁
    refine ⟨s', by rwa [Nat.add_assoc, Nat.add_comm 1] at hs', ?_⟩
    simp [tryTurns, hfirst, hrest, List.replicate_succ]

theorem tryTurns_eq_none {turn : σ → Option (ο × σ)} {k n : ℕ} {s s' : σ} {kept : List ο}
    (hk : tryTurns turn k s = some (kept, s')) (hstuck : turn s' = none) (hn : k < n) : tryTurns turn n s = none := by
  induction k generalizing n s kept with
  | zero =>
    obtain ⟨n, rfl⟩ := Nat.exists_eq_add_of_lt hn
    cases hk
    simp [tryTurns, hstuck]
  | succ k ih =>
    obtain ⟨n, rfl⟩ := Nat.exists_eq_add_of_lt hn
    simp only [tryTurns, Option.bind_eq_bind, Option.bind_eq_some_iff, Option.pure_def] at hk
    obtain ⟨⟨first, s₁⟩, hfirst, ⟨rest, last⟩, hrest, heq⟩ := hk
    cases heq
    have hnone : tryTurns turn (k + 1 + n) s₁ = none := ih hrest (by omega)
    simp [tryTurns, hfirst, hnone]

end BurrowBench.SteadyLoop
