import BurrowBench.Harness.SearchRobust
import Mathlib.Tactic.Linarith

/-! # The search does not overshoot

On affine costs the cut-back by the wall clock dominates every other rule: the next
count is one more than the present one, or its wall time is at most a fifth over the
target. Both bounds survive to whatever round the search ends in.
-/
namespace BurrowBench.Harness

namespace AffineCost
variable (c : AffineCost)

theorem wall_mono {m n : ℤ} (h : m ≤ n) : c.wall m ≤ c.wall n := by
  have hmul : (c.wallEach : ℤ) * m ≤ c.wallEach * n :=
    mul_le_mul_of_nonneg_left h (Int.natCast_nonneg _)
  unfold wall
  omega

theorem wall_add_one (n : ℤ) : c.wall (n + 1) = c.wall n + c.wallEach := by
  unfold wall
  ring

def WithinTarget (T n : ℤ) : Prop := 5 * c.wall n ≤ max (6 * T) (5 * (T + c.wallEach))

theorem wall_fifthMore_le {T n : ℤ} (hpos : 0 < c.wall n) (hlt : c.wall n < T) :
    5 * c.wall (fifthMore (n * T / c.wall n)) ≤ 6 * T := by
  obtain ⟨q, hq⟩ : ∃ q, q = n * T / c.wall n := ⟨_, rfl⟩
  have hdiv : q * c.wall n ≤ n * T := hq ▸ Int.ediv_mul_le _ hpos.ne'
  have hS : (0 : ℤ) ≤ c.wallFixed := Int.natCast_nonneg _
  have hw : (0 : ℤ) ≤ c.wallEach := Int.natCast_nonneg _
  have hwall : c.wall n = c.wallFixed + c.wallEach * n := rfl
  have hfifth : 5 * fifthMore q ≤ 6 * q := by unfold fifthMore; omega
  have hscaled : 5 * c.wall (fifthMore q) ≤ 5 * c.wallFixed + 6 * (c.wallEach * q) := by
    unfold wall
    nlinarith
  have hmain : (5 * (c.wallFixed : ℤ) + 6 * (c.wallEach * q)) * c.wall n ≤ 6 * T * c.wall n := by
    have hshare : c.wallEach * (q * c.wall n) ≤ c.wallEach * (n * T) :=
      mul_le_mul_of_nonneg_left hdiv hw
    have hfixed : (c.wallFixed : ℤ) * c.wall n ≤ c.wallFixed * T :=
      mul_le_mul_of_nonneg_left hlt.le hS
    nlinarith
  rw [← hq]
  exact hscaled.trans (le_of_mul_le_mul_right hmain hpos)

/-- One round keeps the bound, whichever rule decides and whatever sums overflow to. -/
theorem withinTarget_next {a : Addition} {T n x : ℤ} (hn : 1 ≤ n) (hc : Continues T n (c.measure n))
    (hnext : a.nextCount T n (c.measure n) = some x) : c.WithinTarget T x := by
  have hwall := c.measure_wall (n := n) (by omega)
  have hnonneg : 0 ≤ (c.measure n).wall := (c.measure n).ns_nonneg.trans (c.measure n).ns_le_wall
  have hT : 0 ≤ T := hnonneg.trans hc.2.1.le
  obtain ⟨_, hlt, hmax⟩ := hc
  rcases hnonneg.eq_or_lt with hzero | hpos
  · -- no wall time for a positive count means no cost at all
    rw [hwall] at hzero
    have heach : (0 : ℤ) ≤ c.wallEach * n := by positivity
    have hfixed : (0 : ℤ) ≤ c.wallFixed := Int.natCast_nonneg _
    have hwall : c.wall n = c.wallFixed + c.wallEach * n := rfl
    have hw : (c.wallEach : ℤ) = 0 := by
      rcases mul_eq_zero.mp (show (c.wallEach : ℤ) * n = 0 by omega) with h | h
      · exact h
      · omega
    unfold WithinTarget wall
    rw [hw]
    omega
  · have hle := Addition.nextCount_le hn hmax hT hpos hnext
    rw [hwall] at hle hlt hpos
    have hmono := c.wall_mono hle
    have hfifth := c.wall_fifthMore_le hpos hlt
    have hstep := c.wall_add_one n
    unfold WithinTarget
    rcases max_choice (n + 1) (fifthMore (n * T / c.wall n)) with h | h
    · rw [h, hstep] at hmono
      omega
    · rw [h] at hmono
      omega

theorem search_withinTarget {a : Addition} {T : ℤ} {s : Search}
    (h : (a.pickRule T).search T (fun _ n => c.measure n) maxRounds 0 1 = some s) :
    s.count = 1 ∨ c.WithinTarget T s.count := by
  refine Rule.search_invariant (I := fun n => n = 1 ∨ c.WithinTarget T n) le_rfl (Or.inl rfl) ?_ h
  intro _ n x hn _ hc hnext
  have hbound := c.withinTarget_next hn hc hnext
  have hmin := c.wall_mono (min_le_right nMax x)
  right
  unfold WithinTarget at *
  omega

/-- The count returned is one, or takes at most a fifth or one iteration more wall time
than was asked for, also where a sum overflows and has some value or other. -/
theorem pickN_withinTarget (T : ℤ) :
    (pickN T (fun _ n => c.measure n) ≠ none →
      ∃ s, pickN T (fun _ n => c.measure n) = some s ∧
        (s.count = 1 ∨
          5 * (c.wallFixed + c.wallEach * s.count) ≤ max (6 * T) (5 * (T + c.wallEach)))) ∧
    ∀ overflowed : ℤ → ℤ → ℤ, (Addition.total overflowed).ProductsFit T (fun _ n => c.measure n) →
      ∃ s, ((Addition.total overflowed).pickRule T).search T (fun _ n => c.measure n) maxRounds 0 1 = some s ∧
        (s.count = 1 ∨
          5 * (c.wallFixed + c.wallEach * s.count) ≤ max (6 * T) (5 * (T + c.wallEach))) := by
  constructor
  · intro hfits
    obtain ⟨s, hs⟩ := Option.ne_none_iff_exists'.mp hfits
    refine ⟨s, hs, ?_⟩
    rw [pickN, pickRounds_eq_search] at hs
    exact c.search_withinTarget hs
  · intro overflowed hproducts
    obtain ⟨s, hs, -⟩ := Addition.pickRule_trail _ T (fun _ n => c.measure n) hproducts
      fun _ _ _ _ _ _ => rfl
    exact ⟨s, hs, c.search_withinTarget hs⟩

/-- A microsecond of setup, ten nanoseconds an iteration, and a target of a millisecond. -/
theorem pickN_withinTarget_millisecond :
    (∃ s, pickN 1000000 (fun _ n => (mk 0 10 1000 10 (by decide) le_rfl).measure n) = some s ∧
      (s.count = 1 ∨ 5 * (((1000 : ℕ) : ℤ) + ((10 : ℕ) : ℤ) * s.count) ≤
        max (6 * 1000000) (5 * (1000000 + ((10 : ℕ) : ℤ))))) ∧
    ∃ s, ((Addition.total fun x y => x + y - 2 ^ 64).pickRule 1000000).search 1000000
        (fun _ n => (mk 0 10 1000 10 (by decide) le_rfl).measure n) maxRounds 0 1 = some s ∧
      (s.count = 1 ∨ 5 * (((1000 : ℕ) : ℤ) + ((10 : ℕ) : ℤ) * s.count) ≤
        max (6 * 1000000) (5 * (1000000 + ((10 : ℕ) : ℤ)))) :=
  have h := (mk 0 10 1000 10 (by decide) le_rfl).pickN_withinTarget 1000000
  ⟨h.1 (Option.isSome_iff_ne_none.mp (by decide)),
    h.2 _ (Addition.productsFit_of_safe _ (by norm_num) (by norm_num [safeTarget]) _)⟩

end AffineCost
end BurrowBench.Harness
