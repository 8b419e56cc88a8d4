import Mathlib.Algebra.Order.Group.Multiset
import Mathlib.Data.Multiset.AddSub
import Mathlib.Data.Multiset.Filter
import Mathlib.Data.Multiset.UnionInter

/-! # Owned resources

A program acquires resources, each of which may be refused, and releases them. It faults when it
releases or uses what it does not own. What it owns at the end it has leaked.
-/
namespace BurrowBench.Ownership
variable {ρ α β : Type} [DecidableEq ρ]

/-- A step on what is owned, or a fault. -/
abbrev Own (ρ α : Type) := StateT (Multiset ρ) Option α

def acquire (grants : ρ → Bool) (r : ρ) : Own ρ Bool := fun owned =>
  if grants r then some (true, r ::ₘ owned) else some (false, owned)

def release (r : ρ) : Own ρ Unit := fun owned => if r ∈ owned then some ((), owned.erase r) else none

def use (rs : List ρ) : Own ρ Unit := fun owned => if ∀ r ∈ rs, r ∈ owned then some ((), owned) else none

omit [DecidableEq ρ] in
@[simp] theorem run_acquire (grants : ρ → Bool) (r : ρ) (owned : Multiset ρ) :
    (acquire grants r).run owned = if grants r then some (true, r ::ₘ owned) else some (false, owned) := rfl

@[simp] theorem run_release (r : ρ) (owned : Multiset ρ) :
    (release r).run owned = if r ∈ owned then some ((), owned.erase r) else none := rfl

@[simp] theorem run_use (rs : List ρ) (owned : Multiset ρ) :
    (use rs).run owned = if ∀ r ∈ rs, r ∈ owned then some ((), owned) else none := rfl

/-- A loop that acquires one after the other and stops at the first that is refused. -/
def acquireAll (grants : ρ → Bool) : List ρ → Own ρ Bool
  | [] => pure true
  | r :: rs => do
    if !(← acquire grants r) then return false
    acquireAll grants rs

def releaseAll : List ρ → Own ρ Unit
  | [] => pure ()
  | r :: rs => do
    release r
    releaseAll rs

/-- The turns of a loop, from the i-th on, until one breaks out of it. -/
def turnsFrom (turn : ℕ → Own ρ Bool) : ℕ → ℕ → Own ρ Unit
  | _, 0 => pure ()
  | i, n + 1 => do
    if !(← turn i) then return
    turnsFrom turn (i + 1) n

/-- From `owned` the program runs without a fault, and leaves `owned'`. -/
def Yields (p : Own ρ α) (owned : Multiset ρ) (a : α) (owned' : Multiset ρ) : Prop :=
  p.run owned = some (a, owned')

namespace Yields
variable {p : Own ρ α} {f : α → Own ρ β} {owned owned' owned'' : Multiset ρ} {a : α} {b : β}

omit [DecidableEq ρ] in
theorem pure (a : α) (owned : Multiset ρ) : Yields (Pure.pure a : Own ρ α) owned a owned := rfl

omit [DecidableEq ρ] in
theorem bind (hp : Yields p owned a owned') (hf : Yields (f a) owned' b owned'') :
    Yields (p >>= f) owned b owned'' := by
  rw [Yields, StateT.run_bind, hp]
  exact hf

omit [DecidableEq ρ] in
theorem granted {grants : ρ → Bool} {r : ρ} (h : grants r = true) : Yields (acquire grants r) owned true (r ::ₘ owned) :=
  if_pos h

omit [DecidableEq ρ] in
theorem refused {grants : ρ → Bool} {r : ρ} (h : grants r = false) : Yields (acquire grants r) owned false owned :=
  if_neg (by rw [h]; exact Bool.false_ne_true)

theorem release {r : ρ} : Yields (Ownership.release r) (r ::ₘ owned) () owned := by
  change (if r ∈ r ::ₘ owned then some ((), (r ::ₘ owned).erase r) else none) = _
  rw [if_pos (Multiset.mem_cons_self r owned), Multiset.erase_cons_head]

theorem use {rs : List ρ} (h : ∀ r ∈ rs, r ∈ owned) : Yields (Ownership.use rs) owned () owned := if_pos h

omit [DecidableEq ρ] in
theorem acquireAll (grants : ρ → Bool) (rs : List ρ) (owned : Multiset ρ) :
    Yields (Ownership.acquireAll grants rs) owned (rs.all grants) (↑(rs.takeWhile grants) + owned) := by
  induction rs generalizing owned with
  | nil =>
    rw [List.takeWhile_nil, Multiset.coe_nil, zero_add]
    exact pure true owned
  | cons r rs ih =>
    cases hr : grants r with
    | false =>
      rw [List.takeWhile_cons_of_neg (by simp [hr]), List.all_cons, hr, Multiset.coe_nil, zero_add]
      exact bind (refused hr) (pure false owned)
    | true =>
      rw [List.takeWhile_cons_of_pos hr, List.all_cons, hr, ← Multiset.cons_coe, Multiset.cons_add,
        ← Multiset.add_cons]
      exact bind (granted hr) (ih (r ::ₘ owned))

theorem releaseAll (rs : List ρ) (owned : Multiset ρ) : Yields (Ownership.releaseAll rs) (↑rs + owned) () owned := by
  induction rs with
  | nil =>
    rw [Multiset.coe_nil, zero_add]
    exact pure () owned
  | cons r rs ih =>
    rw [← Multiset.cons_coe, Multiset.cons_add]
    exact bind release ih

omit [DecidableEq ρ] in
theorem turnsFrom {turn : ℕ → Own ρ Bool} {i n : ℕ}
    (h : ∀ j, i ≤ j → j < i + n → ∃ ok, Yields (turn j) owned ok owned) :
    Yields (Ownership.turnsFrom turn i n) owned () owned := by
  induction n generalizing i with
  | zero => exact pure () owned
  | succ n ih =>
    obtain ⟨ok, hturn⟩ := h i le_rfl (by omega)
    refine bind hturn ?_
    cases ok with
    | false => exact pure () owned
    | true => exact ih fun j hge hlt => h j (by omega) (by omega)

end Yields

/-- From `owned` the program faults. -/
def Faults (p : Own ρ α) (owned : Multiset ρ) : Prop := p.run owned = none

namespace Faults
variable {p : Own ρ α} {f : α → Own ρ β} {owned owned' : Multiset ρ} {a : α}

omit [DecidableEq ρ] in
theorem bind (hp : Faults p owned) : Faults (p >>= f) owned := by
  rw [Faults, StateT.run_bind, hp]
  rfl

omit [DecidableEq ρ] in
theorem bind_right (hp : Yields p owned a owned') (hf : Faults (f a) owned') : Faults (p >>= f) owned := by
  rw [Faults, StateT.run_bind, hp]
  exact hf

theorem use {rs : List ρ} {r : ρ} (hr : r ∈ rs) (h : r ∉ owned) : Faults (Ownership.use rs) owned :=
  if_neg fun hall => h (hall r hr)

omit [DecidableEq ρ] in
/-- A loop whose turns go on up to one that faults. -/
theorem turnsFrom {turn : ℕ → Own ρ Bool} {i n : ℕ}
    (hturn : ∀ j, Yields (turn j) owned true owned ∨ Faults (turn j) owned)
    (h : ∃ j, i ≤ j ∧ j < i + n ∧ Faults (turn j) owned) : Faults (Ownership.turnsFrom turn i n) owned := by
  induction n generalizing i with
  | zero =>
    obtain ⟨j, hge, hlt, -⟩ := h
    omega
  | succ n ih =>
    obtain ⟨j, hge, hlt, hj⟩ := h
    rcases hturn i with hgoes | hfault
    · have hne : i ≠ j := by
        rintro rfl
        cases hgoes.symm.trans hj
      exact bind_right hgoes (ih ⟨j, by omega, by omega, hj⟩)
    · exact bind hfault

end Faults

end BurrowBench.Ownership
