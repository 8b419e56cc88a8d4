import Mathlib.Logic.Function.Basic
import Mathlib.Tactic.Common

/-! # Interleaved runs

Agents share a state and each has at most one step to take in it. A schedule says who
moves next; a run stops short when its agent cannot move. What a step preserves holds
along every schedule, an abstract system that matches each step covers every run, and a
quantity that each change lowers bounds how often a run changes anything.
-/
namespace BurrowBench.Interleaving
variable {ι σ κ : Type*}

def run (step : ι → σ → Option σ) : List ι → σ → Option σ
  | [], s => some s
  | i :: schedule, s => (step i s).bind (run step schedule)

theorem run_cons {step : ι → σ → Option σ} {i : ι} {schedule : List ι} {s s' : σ}
    (h : run step (i :: schedule) s = some s') :
    ∃ s₁, step i s = some s₁ ∧ run step schedule s₁ = some s' := Option.bind_eq_some_iff.mp h

theorem run_invariant {step : ι → σ → Option σ} {P : σ → Prop}
    (hstep : ∀ i s s', P s → step i s = some s' → P s') {schedule : List ι} {s s' : σ} (hs : P s)
    (h : run step schedule s = some s') : P s' := by
  induction schedule generalizing s with
  | nil =>
    obtain rfl : s = s' := Option.some.inj h
    exact hs
  | cons i schedule ih =>
    obtain ⟨s₁, hfirst, hrest⟩ := run_cons h
    exact ih (hstep i s s₁ hs hfirst) hrest

/-- A quantity that every step lowers bounds the length of a run. -/
theorem length_le {step : ι → σ → Option σ} {P : σ → Prop} {left : σ → ℕ}
    (hstep : ∀ i s s', P s → step i s = some s' → P s')
    (hleft : ∀ i s s', P s → step i s = some s' → left s' < left s) {schedule : List ι} {s s' : σ}
    (hs : P s) (h : run step schedule s = some s') : schedule.length ≤ left s := by
  induction schedule generalizing s with
  | nil => exact Nat.zero_le _
  | cons i schedule ih =>
    obtain ⟨s₁, hfirst, hrest⟩ := run_cons h
    have hlower := hleft i s s₁ hs hfirst
    have htail := ih (hstep i s s₁ hs hfirst) hrest
    rw [List.length_cons]
    omega

/-! ## Reachability -/

def Reaches (step : ι → σ → Option σ) (s s' : σ) : Prop := ∃ schedule, run step schedule s = some s'

namespace Reaches
variable {step : ι → σ → Option σ} {s s₁ s' : σ}

theorem refl (s : σ) : Reaches step s s := ⟨[], rfl⟩

theorem head {i : ι} (h : step i s = some s₁) (hrest : Reaches step s₁ s') : Reaches step s s' := by
  obtain ⟨schedule, hrun⟩ := hrest
  exact ⟨i :: schedule, by rw [run, h, Option.bind_some, hrun]⟩

theorem single {i : ι} (h : step i s = some s') : Reaches step s s' := head h (refl s')

theorem trans (h : Reaches step s s₁) (h' : Reaches step s₁ s') : Reaches step s s' := by
  obtain ⟨schedule, hrun⟩ := h
  induction schedule generalizing s with
  | nil =>
    obtain rfl : s = s₁ := Option.some.inj hrun
    exact h'
  | cons i schedule ih =>
    obtain ⟨s₂, hfirst, hrest⟩ := run_cons hrun
    exact head hfirst (ih hrest)

end Reaches

/-! ## Runs that end -/

/-- Every state with the invariant that is not at the end has a step, and each step keeps the
invariant and lowers a quantity. -/
structure Terminates (step : ι → σ → Option σ) (P End : σ → Prop) (left : σ → ℕ) : Prop where
  keep : ∀ i s s', P s → step i s = some s' → P s'
  lower : ∀ i s s', P s → step i s = some s' → left s' < left s
  progress : ∀ s, P s → End s ∨ ∃ i, (step i s).isSome

namespace Terminates
variable {step : ι → σ → Option σ} {P End : σ → Prop} {left : σ → ℕ} {s s' : σ}

theorem run_spec (h : Terminates step P End left) {schedule : List ι} (hs : P s)
    (hrun : run step schedule s = some s') :
    P s' ∧ schedule.length ≤ left s ∧ (End s' ∨ ∃ i, (step i s').isSome) := by
  have hkept := run_invariant h.keep hs hrun
  exact ⟨hkept, length_le h.keep h.lower hs hrun, h.progress s' hkept⟩

theorem reaches_end (h : Terminates step P End left) (hs : P s) :
    ∃ s', Reaches step s s' ∧ P s' ∧ End s' := by
  induction hleft : left s using Nat.strongRecOn generalizing s with
  | ind k ih =>
    rcases h.progress s hs with hend | ⟨i, hmoves⟩
    · exact ⟨s, Reaches.refl s, hs, hend⟩
    · obtain ⟨s₁, hstep⟩ := Option.isSome_iff_exists.mp hmoves
      have hless := h.lower i s s₁ hs hstep
      obtain ⟨s', hrest, hs', hend⟩ := ih (left s₁) (hleft ▸ hless) (h.keep i s s₁ hs hstep) rfl
      exact ⟨s', Reaches.head hstep hrest, hs', hend⟩

end Terminates

/-! ## Abstraction -/

/-- States of an abstract system stand for states of a concrete one, step for step. -/
structure Abstraction (step : ι → σ → Option σ) (abstractStep : ι → κ → Option κ) where
  state : κ → σ
  Valid : κ → Prop
  valid : ∀ i k k', Valid k → abstractStep i k = some k' → Valid k'
  step_state : ∀ i k, Valid k → step i (state k) = (abstractStep i k).map state

namespace Abstraction
variable {step : ι → σ → Option σ} {abstractStep : ι → κ → Option κ}
variable (A : Abstraction step abstractStep)

def Covers (s : σ) : Prop := ∃ k, A.Valid k ∧ s = A.state k

theorem covers_step {i : ι} {s s' : σ} (hs : A.Covers s) (h : step i s = some s') : A.Covers s' := by
  obtain ⟨k, hk, rfl⟩ := hs
  rw [A.step_state i k hk, Option.map_eq_some_iff] at h
  obtain ⟨k', hstep, rfl⟩ := h
  exact ⟨k', A.valid i k k' hk hstep, rfl⟩

theorem covers_run {schedule : List ι} {s s' : σ} (hs : A.Covers s)
    (h : run step schedule s = some s') : A.Covers s' :=
  run_invariant (fun _ _ _ => A.covers_step) hs h

end Abstraction

/-! ## Change -/

/-- Where something can always change short of the end, an end can be reached. -/
theorem reaches_of_moves {step : ι → σ → Option σ} {P End : σ → Prop} {left : σ → ℕ}
    (hstep : ∀ i s s', P s → step i s = some s' → P s')
    (hleft : ∀ i s s', P s → step i s = some s' → s' ≠ s → left s' < left s)
    (hmoves : ∀ s, P s → End s ∨ ∃ i s', step i s = some s' ∧ s' ≠ s) {s : σ} (hs : P s) :
    ∃ s', Reaches step s s' ∧ P s' ∧ End s' := by
  induction hk : left s using Nat.strongRecOn generalizing s with
  | ind k ih =>
    rcases hmoves s hs with hend | ⟨i, s₁, hmove, hne⟩
    · exact ⟨s, Reaches.refl s, hs, hend⟩
    · have hless := hleft i s s₁ hs hmove hne
      obtain ⟨s', hrest, hs', hend⟩ := ih (left s₁) (hk ▸ hless) (hstep i s s₁ hs hmove) rfl
      exact ⟨s', Reaches.head hmove hrest, hs', hend⟩

section Change
variable [DecidableEq σ]

def changes (step : ι → σ → Option σ) : List ι → σ → ℕ
  | [], _ => 0
  | i :: schedule, s =>
    match step i s with
    | none => 0
    | some s' => changes step schedule s' + if s' = s then 0 else 1

/-- A quantity that every change lowers bounds the number of changes. -/
theorem changes_le {step : ι → σ → Option σ} {P : σ → Prop} {left : σ → ℕ}
    (hstep : ∀ i s s', P s → step i s = some s' → P s')
    (hleft : ∀ i s s', P s → step i s = some s' → s' ≠ s → left s' < left s)
    (schedule : List ι) {s : σ} (hs : P s) : changes step schedule s ≤ left s := by
  induction schedule generalizing s with
  | nil => exact Nat.zero_le _
  | cons i schedule ih =>
    unfold changes
    cases hfirst : step i s with
    | none => exact Nat.zero_le _
    | some s₁ =>
      have hrest := ih (hstep i s s₁ hs hfirst)
      dsimp only
      split
      · rename_i heq
        rw [heq] at hrest ⊢
        exact hrest
      · have hlower := hleft i s s₁ hs hfirst ‹_›
        omega

end Change

/-! ## Refinement -/

/-- Each step is a step of the other system, seen through a map of the states, or is not seen at all.
What holds of all runs of the other system then holds of the runs of this one. -/
structure Refinement {ι' : Type*} (step : ι → σ → Option σ) (spec : ι' → κ → Option κ) where
  view : σ → κ
  Inv : σ → Prop
  keep : ∀ i s s', Inv s → step i s = some s' → Inv s'
  step_view : ∀ i s s', Inv s → step i s = some s' → view s' = view s ∨ ∃ j, spec j (view s) = some (view s')

namespace Refinement
variable {ι' : Type*} {step : ι → σ → Option σ} {spec : ι' → κ → Option κ} (R : Refinement step spec)
variable {schedule : List ι} {s s' : σ}

theorem reaches (hs : R.Inv s) (h : run step schedule s = some s') : Reaches spec (R.view s) (R.view s') := by
  induction schedule generalizing s with
  | nil =>
    obtain rfl : s = s' := Option.some.inj h
    exact Reaches.refl _
  | cons i schedule ih =>
    obtain ⟨s₁, hfirst, hrest⟩ := run_cons h
    have htail := ih (R.keep i s s₁ hs hfirst) hrest
    rcases R.step_view i s s₁ hs hfirst with hsame | ⟨j, hj⟩
    · rw [← hsame]
      exact htail
    · exact Reaches.head hj htail

theorem run_inv (hs : R.Inv s) (h : run step schedule s = some s') : R.Inv s' :=
  run_invariant R.keep hs h

end Refinement

end BurrowBench.Interleaving
