import Mathlib.Algebra.Order.Field.Basic
import Mathlib.Tactic.Ring
import Mathlib.Tactic.FieldSimp
import Mathlib.Tactic.Linarith

/-! # Iterated maps and linear recurrences

A map that another one dominates along the other's orbit has the lower orbit. A sequence
that shrinks by a factor below one and grows by a constant each step stays below the
geometric decay of its start plus the fixed point of the recurrence.
-/
namespace BurrowBench.Recurrence

theorem iterate_le_iterate {α : Type*} [Preorder α] {f g : α → α} {x : α} {k : ℕ}
    (hf : ∀ m n, m ≤ n → f m ≤ f n) (h : ∀ i < k, f (g^[i] x) ≤ g (g^[i] x)) :
    f^[k] x ≤ g^[k] x := by
  induction k with
  | zero => exact le_rfl
  | succ k ih =>
    have hk := ih fun i hi => h i (Nat.lt_succ_of_lt hi)
    rw [Function.iterate_succ_apply', Function.iterate_succ_apply']
    exact (hf _ _ hk).trans (h k (Nat.lt_succ_self k))

variable {K : Type*} [Field K] [LinearOrder K] [IsStrictOrderedRing K]

theorem contracting_le {a : ℕ → K} {u b : K} {j : ℕ} (hu0 : 0 ≤ u) (hu1 : u < 1) (hb : 0 ≤ b)
    (hstep : ∀ k < j, a (k + 1) ≤ u * a k + b) : a j ≤ u ^ j * a 0 + b / (1 - u) := by
  have hpos : 0 < 1 - u := by linarith
  induction j with
  | zero =>
    have hfix : 0 ≤ b / (1 - u) := div_nonneg hb hpos.le
    simpa using hfix
  | succ j ih =>
    have hj := ih (fun k hk => hstep k (Nat.lt_succ_of_lt hk))
    calc
      a (j + 1) ≤ u * a j + b := hstep j (Nat.lt_succ_self j)
      _ ≤ u * (u ^ j * a 0 + b / (1 - u)) + b := by
        have h := mul_le_mul_of_nonneg_left hj hu0
        linarith
      _ = u ^ (j + 1) * a 0 + b / (1 - u) := by
        field_simp
        ring

theorem gap_mul_contracting_le {a : ℕ → K} {u b x : K} {j : ℕ} (hu0 : 0 ≤ u) (hu1 : u < 1)
    (hb : 0 ≤ b) (hstep : ∀ k < j, a (k + 1) ≤ u * a k + b) (hx : a 0 ≤ x) :
    (1 - u) * a j ≤ (1 - u) * u ^ j * x + b := by
  have hgap : 0 < 1 - u := by linarith
  have hstart : u ^ j * a 0 ≤ u ^ j * x := mul_le_mul_of_nonneg_left hx (pow_nonneg hu0 j)
  have hdecay := contracting_le hu0 hu1 hb hstep
  calc
    (1 - u) * a j ≤ (1 - u) * (u ^ j * x + b / (1 - u)) :=
      mul_le_mul_of_nonneg_left (by linarith) hgap.le
    _ = (1 - u) * u ^ j * x + b := by
      field_simp

/-- The weight `(1 - u) * u ^ (j + 1)` grows with `u` up to one half. -/
theorem weight_mono {u v : K} (hu : 0 ≤ u) (huv : u ≤ v) (hv : v ≤ 1 / 2) (j : ℕ) :
    (1 - u) * u ^ (j + 1) ≤ (1 - v) * v ^ (j + 1) := by
  have hpow : u ^ j ≤ v ^ j := pow_le_pow_left₀ hu huv j
  have hparabola : (1 - u) * u ≤ (1 - v) * v := by nlinarith
  have hnonneg : 0 ≤ (1 - u) * u := mul_nonneg (by linarith) hu
  calc
    (1 - u) * u ^ (j + 1) = (1 - u) * u * u ^ j := by ring
    _ ≤ (1 - v) * v * v ^ j :=
      mul_le_mul hparabola hpow (pow_nonneg hu j) (hnonneg.trans hparabola)
    _ = (1 - v) * v ^ (j + 1) := by ring

end BurrowBench.Recurrence
