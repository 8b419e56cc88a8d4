import BurrowBench.Foundation.Recurrence
import BurrowBench.Harness.SearchOvershoot
import Mathlib.Order.Iterate
import Mathlib.Tactic.FieldSimp

/-! # When the search reaches its target

On affine costs the search iterates one map on counts, and gives up only on a count
below the ceiling for which neither clock reaches the target. The reciprocal of the
count obeys a linear recurrence whose factor is the fixed share of the target, so the
thirty rounds are enough while the fixed part is at most 56 percent of the target.
-/
namespace BurrowBench.Harness.AffineCost
open Recurrence
variable (c : AffineCost) (T : ℤ)

def next (n : ℤ) : ℤ := estimate T n (c.measure n)

/-- Neither clock reaches the target on this count, nor the count the ceiling. -/
def Unreached (n : ℤ) : Prop := c.wall n < T ∧ n < nMax

variable {c T}

theorem Unreached.continues {n : ℤ} (h : c.Unreached T n) (hn : 0 ≤ n) :
    Continues T n (c.measure n) := by
  have hle := (c.measure n).ns_le_wall
  have hwall := c.measure_wall hn
  obtain ⟨hw, hmax⟩ := h
  exact ⟨by omega, by omega, hmax⟩

theorem Unreached.mono {m n : ℤ} (h : c.Unreached T n) (hmn : m ≤ n) : c.Unreached T m :=
  ⟨(c.wall_mono hmn).trans_lt h.1, hmn.trans_lt h.2⟩

theorem lt_next {n : ℤ} (hn : 1 ≤ n) : n < c.next T n := lt_estimate T _ hn

/-- A search that ends unreached has measured all its rounds and returns the count that
as many steps of the map lead to. -/
theorem unreached_count {left round : ℕ} {n : ℤ} {s : Search} (hT : 0 ≤ T) (hn : 1 ≤ n)
    (h : pickRounds T (fun _ n => c.measure n) left round n = some s)
    (hs : c.Unreached T s.count) : s.count = (c.next T)^[left] n ∧ s.log.length = left := by
  induction left generalizing round n s with
  | zero =>
    obtain rfl := Option.some.inj h
    exact ⟨rfl, rfl⟩
  | succ left ih =>
    rcases pickRounds_cases hn hT h with ⟨hstop, rfl⟩ | ⟨_, _, rfl⟩ | ⟨_, _, rest, hrest, rfl⟩
    · exact absurd (hs.continues (by dsimp only; omega)) hstop
    · exact absurd hs.2 (lt_irrefl nMax)
    · have hlt : n < c.next T n := lt_next hn
      obtain ⟨hcount, hlog⟩ := ih (s := rest) (hlt.le.trans' hn) hrest hs
      exact ⟨hcount, by simp [hlog]⟩

theorem one_le_iterate (k : ℕ) : 1 ≤ (c.next T)^[k] 1 := by
  induction k with
  | zero => exact le_rfl
  | succ k ih =>
    rw [Function.iterate_succ_apply']
    exact ih.trans (lt_next ih).le

theorem iterate_le {j k : ℕ} (h : j ≤ k) : (c.next T)^[j] 1 ≤ (c.next T)^[k] 1 := by
  induction k, h using Nat.le_induction with
  | base => exact le_rfl
  | succ k _ ih =>
    rw [Function.iterate_succ_apply']
    exact ih.trans (lt_next (one_le_iterate k)).le

theorem Unreached.before {n : ℤ} {k : ℕ} (h : c.Unreached T n) (hn : n = (c.next T)^[k] 1)
    {i : ℕ} (hi : i ≤ k) : c.Unreached T ((c.next T)^[i] 1) :=
  h.mono ((iterate_le hi).trans hn.ge)

/-! ## How fast the count grows -/

theorem le_next {n : ℤ} (hn : 1 ≤ n) (hpos : 0 < c.wall n) (hT : 0 ≤ T) :
    min (n * 100) (fifthMore (n * T / c.wall n)) ≤ c.next T n := by
  have hwall := c.measure_wall (n := n) (by omega)
  have htimed : min (n * 100) (fifthMore (n * T / c.wall n)) ≤ timedEstimate T n (c.measure n).ns := by
    unfold timedEstimate
    split
    · exact min_le_left _ _
    · have hns : 0 < (c.measure n).ns := not_le.mp ‹_›
      have hle : (c.measure n).ns ≤ c.wall n := hwall ▸ (c.measure n).ns_le_wall
      have hp : 0 ≤ n * T := by positivity
      have hq : n * T / c.wall n ≤ n * T / (c.measure n).ns := by
        apply (Int.le_ediv_iff_mul_le hns).mpr
        calc
          n * T / c.wall n * (c.measure n).ns ≤ n * T / c.wall n * c.wall n :=
            mul_le_mul_of_nonneg_left hle (Int.ediv_nonneg hp hpos.le)
          _ ≤ n * T := Int.ediv_mul_le _ hpos.ne'
      have hf := fifthMore_mono hq
      omega
  unfold next estimate
  rw [hwall]
  split <;> omega

theorem next_of_free {n : ℤ} (hn : 1 ≤ n) (hzero : c.wall n ≤ 0) : c.next T n = n * 100 := by
  have hwall := c.measure_wall (n := n) (by omega)
  have hle := (c.measure n).ns_le_wall
  unfold next estimate timedEstimate
  rw [if_neg (by omega), if_pos (by omega)]

def slowest (n : ℤ) : ℤ := max (n + 1) (fifthMore n)

theorem slowest_mono {m n : ℤ} (h : m ≤ n) : slowest m ≤ slowest n := by
  have hf := fifthMore_mono h
  unfold slowest
  omega

theorem slowest_le_next {n : ℤ} (hn : 1 ≤ n) (h : c.Unreached T n) : slowest n ≤ c.next T n := by
  have hlt : n < c.next T n := lt_next hn
  have hcap : fifthMore n ≤ n * 100 := by unfold fifthMore; omega
  have hfifth : fifthMore n ≤ c.next T n := by
    rcases le_or_gt (c.wall n) 0 with hzero | hpos
    · rw [next_of_free hn hzero]
      exact hcap
    · have hq : n ≤ n * T / c.wall n :=
        (Int.le_ediv_iff_mul_le hpos).mpr (mul_le_mul_of_nonneg_left h.1.le (by omega))
      have hf := fifthMore_mono hq
      have hnext := le_next (T := T) hn hpos (hpos.le.trans h.1.le)
      omega
  unfold slowest
  omega

theorem slowest_iterate_le {k : ℕ} (h : ∀ i < k, c.Unreached T ((c.next T)^[i] 1)) :
    slowest^[k] 1 ≤ (c.next T)^[k] 1 :=
  iterate_le_iterate (fun _ _ => slowest_mono) fun i hi => slowest_le_next (one_le_iterate i) (h i hi)

theorem slowest_twelve : slowest^[12] 1 = 16 := by decide

theorem slowest_thirty : slowest^[30] 1 = 374 := by decide +kernel

/-- With rounding, a round from at least `N` multiplies the count by `6/5` of the target
over the wall time, short of five thirds in `N`. -/
theorem next_mul_wall {n N : ℤ} (hN : 2 ≤ N) (hn : N ≤ n) (h : c.Unreached T n) (hpos : 0 < c.wall n)
    (hcap : c.next T n < n * 100) : (6 * N - 10) * (n * T) ≤ 5 * N * (c.next T n * c.wall n) := by
  obtain ⟨q, hq⟩ : ∃ q, q = n * T / c.wall n := ⟨_, rfl⟩
  have hnext := le_next (T := T) (by omega) hpos (hpos.le.trans h.1.le)
  rw [← hq] at hnext
  have hfifth : 6 * q - 4 ≤ 5 * c.next T n := by
    unfold fifthMore at hnext
    omega
  have hdiv : n * T < (q + 1) * c.wall n := by
    rw [hq, mul_comm (_ + 1)]
    exact Int.lt_mul_ediv_self_add hpos |>.trans_eq (by ring)
  have hround : 6 * (n * T) - 10 * c.wall n ≤ 5 * (c.next T n * c.wall n) := by nlinarith
  have hshare : N * c.wall n ≤ n * T :=
    mul_le_mul hn h.1.le hpos.le (by omega)
  nlinarith

/-! ## The recurrence of the reciprocal -/

def roundFactor (N : ℤ) : ℚ := 5 * N / (6 * N - 10)

theorem roundFactor_pos {N : ℤ} (hN : 2 ≤ N) : 5 / 6 ≤ roundFactor N := by
  have hN' : (2 : ℚ) ≤ N := by exact_mod_cast hN
  rw [roundFactor, div_le_div_iff₀ (by norm_num) (by linarith)]
  linarith

/-- The share of the target that is fixed wall time, and never less than what the cap of
a hundred amounts to. -/
def fixedShare (c : AffineCost) (T : ℤ) : ℚ := max (c.wallFixed / T) (3 / 250)

theorem inv_next_le {n N : ℤ} (hN : 2 ≤ N) (hn : N ≤ n) (h : c.Unreached T n) (hT : 0 < T) :
    1 / (c.next T n : ℚ) ≤
      roundFactor N * fixedShare c T * (1 / n) + roundFactor N * (c.wallEach / T) := by
  have hn0 : (0 : ℚ) < n := by exact_mod_cast (by omega : 0 < n)
  have hT0 : (0 : ℚ) < T := by exact_mod_cast hT
  have hN' : (2 : ℚ) ≤ N := by exact_mod_cast hN
  have hα := roundFactor_pos hN
  have hw : (0 : ℚ) ≤ c.wallEach / T := by positivity
  have hcapped : (3 / 250 : ℚ) ≤ fixedShare c T := le_max_right _ _
  have hnext0 : (0 : ℚ) < c.next T n := by
    have hlt : n < c.next T n := lt_next (by omega)
    exact_mod_cast (by omega : 0 < c.next T n)
  rcases le_or_gt (n * 100) (c.next T n) with hcap | hcap
  · -- the cap of a hundred decides
    have hcap' : (n : ℚ) * 100 ≤ c.next T n := by exact_mod_cast hcap
    have hinv : 1 / (c.next T n : ℚ) ≤ 1 / 100 * (1 / n) := by
      rw [one_div_mul_one_div, mul_comm (100 : ℚ)]
      exact one_div_le_one_div_of_le (by positivity) hcap'
    have hfactor : (1 / 100 : ℚ) ≤ roundFactor N * fixedShare c T := by nlinarith
    have hshare := mul_le_mul_of_nonneg_right hfactor (one_div_pos.mpr hn0).le
    have hrest : 0 ≤ roundFactor N * ((c.wallEach : ℚ) / T) := mul_nonneg (by linarith) hw
    linarith
  · -- the wall clock decides
    have hpos : 0 < c.wall n := by
      by_contra hzero
      exact hcap.ne (next_of_free (by omega) (not_lt.mp hzero))
    have hround := next_mul_wall hN hn h hpos hcap
    have hround' : (6 * N - 10 : ℚ) * (n * T) ≤ 5 * N * (c.next T n * c.wall n) := by
      exact_mod_cast hround
    have hinv : 1 / (c.next T n : ℚ) ≤ roundFactor N * (c.wall n / (n * T)) := by
      rw [roundFactor, div_mul_div_comm, div_le_div_iff₀ hnext0 (by nlinarith [mul_pos hn0 hT0])]
      linarith
    have hsplit : (c.wall n : ℚ) / (n * T) = c.wallFixed / T * (1 / n) + c.wallEach / T := by
      unfold wall
      push_cast
      field_simp
    have hfixed : (c.wallFixed : ℚ) / T * (1 / n) ≤ fixedShare c T * (1 / n) :=
      mul_le_mul_of_nonneg_right (le_max_left _ _) (one_div_pos.mpr hn0).le
    have hscaled := mul_le_mul_of_nonneg_left (hsplit.trans_le (add_le_add_left hfixed _))
      (by linarith : (0 : ℚ) ≤ roundFactor N)
    linarith

theorem Unreached.each_le {n : ℤ} (h : c.Unreached T n) (hn : 0 < n) (hT : 0 < T) :
    (c.wallEach : ℚ) / T ≤ (1 - c.wallFixed / T) * (1 / n) := by
  have hn0 : (0 : ℚ) < n := by exact_mod_cast hn
  have hT0 : (0 : ℚ) < T := by exact_mod_cast hT
  have hwall : (c.wallFixed : ℚ) + c.wallEach * n ≤ T := by
    have h1 := h.1.le
    unfold wall at h1
    exact_mod_cast h1
  rw [one_sub_div hT0.ne', div_mul_div_comm, mul_one, div_le_div_iff₀ hT0 (by positivity)]
  nlinarith

theorem fixedShare_nonneg (c : AffineCost) (T : ℤ) : 0 ≤ fixedShare c T :=
  le_max_of_le_right (by norm_num)

theorem fixedShare_sub_le (c : AffineCost) (hT : 0 < T) : fixedShare c T - c.wallFixed / T ≤ 3 / 250 := by
  have hT0 : (0 : ℚ) < T := by exact_mod_cast hT
  have hs0 : (0 : ℚ) ≤ c.wallFixed / T := by positivity
  rw [fixedShare]
  rcases max_choice ((c.wallFixed : ℚ) / T) (3 / 250) with hm | hm <;> rw [hm] <;> linarith

/-- From at least `N` iterations, the reciprocal of the count decays geometrically until
a clock reaches the target. -/
theorem inv_iterate_le {N n : ℤ} {K j : ℕ} (hN : 2 ≤ N) (hT : 0 < T)
    (hstart : N ≤ (c.next T)^[K] 1) (hn : n = (c.next T)^[K + j] 1) (h : c.Unreached T n)
    (hu : roundFactor N * fixedShare c T < 1) :
    (1 - roundFactor N * (253 / 250)) * (1 / n) ≤
      (1 - roundFactor N * fixedShare c T) * (roundFactor N * fixedShare c T) ^ j * (1 / N) := by
  subst hn
  obtain ⟨α, hα⟩ : ∃ α, α = roundFactor N := ⟨_, rfl⟩
  obtain ⟨σ, hσ⟩ : ∃ σ, σ = fixedShare c T := ⟨_, rfl⟩
  obtain ⟨ω, hω⟩ : ∃ ω : ℚ, ω = c.wallEach / T := ⟨_, rfl⟩
  obtain ⟨p, hp⟩ : ∃ p : ℕ → ℚ, p = fun i => 1 / (((c.next T)^[K + i] 1 : ℤ) : ℚ) := ⟨_, rfl⟩
  rw [← hα, ← hσ] at hu ⊢
  have hT0 : (0 : ℚ) < T := by exact_mod_cast hT
  have hN0 : (0 : ℚ) < N := by exact_mod_cast (by omega : 0 < N)
  have hα0 : 0 ≤ α := by linarith [hα ▸ roundFactor_pos hN]
  have hσ0 : 0 ≤ σ := hσ ▸ fixedShare_nonneg c T
  have hω0 : 0 ≤ ω := by rw [hω]; positivity
  have hpos (i : ℕ) : 0 < (c.next T)^[i] 1 := one_le_iterate i
  have hpj : 0 < p j := by
    rw [hp]
    exact one_div_pos.mpr (by exact_mod_cast hpos (K + j))
  have hstep : ∀ i < j, p (i + 1) ≤ α * σ * p i + α * ω := by
    intro i hi
    have hr := inv_next_le hN (hstart.trans (iterate_le (Nat.le_add_right K i)))
      (h.mono (iterate_le (by omega))) hT
    rw [← hα, ← hσ, ← hω, ← Function.iterate_succ_apply' (c.next T)] at hr
    rw [hp]
    exact hr
  have hfirst : p 0 ≤ 1 / N := by
    rw [hp]
    exact one_div_le_one_div_of_le hN0 (by exact_mod_cast hstart)
  have hscaled := gap_mul_contracting_le (mul_nonneg hα0 hσ0) hu (mul_nonneg hα0 hω0) hstep hfirst
  -- the last count is still short of the target
  have hlast : ω ≤ (1 - c.wallFixed / T) * p j := by
    rw [hω, hp]
    exact h.each_le (hpos (K + j)) hT
  have hshare : σ - c.wallFixed / T ≤ 3 / 250 := hσ ▸ fixedShare_sub_le c hT
  have hlast' : (1 / ((c.next T)^[K + j] 1 : ℤ) : ℚ) = p j := by rw [hp]
  rw [hlast']
  have hαω := mul_le_mul_of_nonneg_left hlast hα0
  have hαs := mul_le_mul_of_nonneg_right (mul_le_mul_of_nonneg_left hshare hα0) hpj.le
  linarith

/-! ## Thirty rounds are enough for a fixed part of at most 56 percent -/

theorem fixedShare_le (hT : 0 < T) (hshare : 25 * (c.wallFixed : ℤ) ≤ 14 * T) :
    fixedShare c T ≤ 14 / 25 := by
  have hT0 : (0 : ℚ) < T := by exact_mod_cast hT
  have hshare' : 25 * (c.wallFixed : ℚ) ≤ 14 * T := by exact_mod_cast hshare
  refine max_le ?_ (by norm_num)
  rw [div_le_iff₀ hT0]
  linarith

/-- The first rounds when an iteration is at most a hundred thousandth of the target. -/
def early (n : ℤ) : ℤ := max (n + 1) (fifthMore (max n 0 * 100000 / (56000 + max n 0)))

theorem early_mono {m n : ℤ} (h : m ≤ n) : early m ≤ early n := by
  obtain ⟨x, hx⟩ : ∃ x, x = max m 0 := ⟨_, rfl⟩
  obtain ⟨y, hy⟩ : ∃ y, y = max n 0 := ⟨_, rfl⟩
  have hxy : x ≤ y := by omega
  have hq : x * 100000 / (56000 + x) ≤ y * 100000 / (56000 + y) := by
    apply (Int.le_ediv_iff_mul_le (by omega)).mpr
    have hmul : x * 100000 / (56000 + x) * (56000 + x) ≤ x * 100000 :=
      Int.ediv_mul_le _ (by omega)
    have hle : x * 100000 / (56000 + x) ≤ 100000 :=
      Int.ediv_le_of_le_mul (by omega) (by omega)
    nlinarith
  have hf := fifthMore_mono hq
  unfold early
  rw [← hx, ← hy]
  omega

theorem early_le_next {n : ℤ} (hn : 1 ≤ n) (h : c.Unreached T n)
    (hshare : 25 * (c.wallFixed : ℤ) ≤ 14 * T) (heach : 100000 * (c.wallEach : ℤ) ≤ T) :
    early n ≤ c.next T n := by
  have hlt : n < c.next T n := lt_next hn
  obtain ⟨q, hq⟩ : ∃ q, q = n * 100000 / (56000 + n) := ⟨_, rfl⟩
  have hmul : q * (56000 + n) ≤ n * 100000 := hq ▸ Int.ediv_mul_le _ (by omega)
  have hq0 : 0 ≤ q := hq ▸ Int.ediv_nonneg (by omega) (by omega)
  have hcap : fifthMore q ≤ n * 100 := by
    have hqn : 56000 * q ≤ 100000 * n := by nlinarith
    unfold fifthMore
    omega
  have hfifth : fifthMore q ≤ c.next T n := by
    rcases le_or_gt (c.wall n) 0 with hzero | hpos
    · rw [next_of_free hn hzero]
      exact hcap
    · have hT : 0 ≤ T := hpos.le.trans h.1.le
      have hwall : 100000 * c.wall n ≤ (56000 + n) * T := by
        unfold wall
        nlinarith
      have hle : q ≤ n * T / c.wall n := by
        apply (Int.le_ediv_iff_mul_le hpos).mpr
        have h1 := mul_le_mul_of_nonneg_left hwall hq0
        have h2 := mul_le_mul_of_nonneg_right hmul hT
        nlinarith
      have hf := fifthMore_mono hle
      have hnext := le_next (T := T) hn hpos hT
      omega
  unfold early
  rw [max_eq_left (by omega : (0 : ℤ) ≤ n), ← hq]
  omega

theorem early_ten : early^[10] 1 = 1060 := by decide +kernel

theorem early_iterate_le {k : ℕ} (h : ∀ i < k, c.Unreached T ((c.next T)^[i] 1))
    (hshare : 25 * (c.wallFixed : ℤ) ≤ 14 * T) (heach : 100000 * (c.wallEach : ℤ) ≤ T) :
    early^[k] 1 ≤ (c.next T)^[k] 1 :=
  iterate_le_iterate (fun _ _ => early_mono)
    fun i hi => early_le_next (one_le_iterate i) (h i hi) hshare heach

theorem roundShare_bounds {N : ℤ} {u : ℚ} (hN : 2 ≤ N) (hT : 0 < T)
    (hshare : 25 * (c.wallFixed : ℤ) ≤ 14 * T) (hu : roundFactor N * (14 / 25) = u) :
    0 ≤ roundFactor N * fixedShare c T ∧ roundFactor N * fixedShare c T ≤ u := by
  have hα := roundFactor_pos hN
  have hσ : (3 / 250 : ℚ) ≤ fixedShare c T := le_max_right _ _
  exact ⟨mul_nonneg (by linarith) (by linarith),
    hu ▸ mul_le_mul_of_nonneg_left (fixedShare_le hT hshare) (by linarith)⟩

theorem Unreached.lt_of_slow_iteration {n : ℤ} (h : c.Unreached T n)
    (heach : T < 100000 * (c.wallEach : ℤ)) : n < 100000 := by
  have hwall : c.wallFixed + c.wallEach * n < T := h.1
  have hfixed : (0 : ℤ) ≤ c.wallFixed := Int.natCast_nonneg _
  nlinarith

/-- Iterations above a hundred thousandth of the target: from 16 iterations on, eighteen
rounds reach a hundred thousand. -/
theorem reaches_of_slow_iteration {n : ℤ} (hT : 0 < T) (hshare : 25 * (c.wallFixed : ℤ) ≤ 14 * T)
    (heach : T < 100000 * (c.wallEach : ℤ)) (hn : n = (c.next T)^[30] 1) : ¬ c.Unreached T n := by
  intro h
  have hpos : 1 ≤ n := hn ▸ one_le_iterate 30
  have hstart : (16 : ℤ) ≤ (c.next T)^[12] 1 :=
    slowest_twelve ▸ slowest_iterate_le fun i hi => h.before hn (by omega)
  have hα : roundFactor 16 = 40 / 43 := by norm_num [roundFactor]
  obtain ⟨hu0, hu⟩ := roundShare_bounds (N := 16) (u := 112 / 215) (by norm_num) hT hshare
    (by rw [hα]; norm_num)
  have hinv := inv_iterate_le (j := 18) (by norm_num) hT hstart hn h (by linarith)
  have hgeom : (1 - roundFactor 16 * fixedShare c T) * (roundFactor 16 * fixedShare c T) ^ 18 ≤
      1 * (112 / 215) ^ 18 :=
    mul_le_mul (by linarith) (pow_le_pow_left₀ hu0 hu 18) (pow_nonneg hu0 18) zero_le_one
  have hfew : (1 / 100000 : ℚ) ≤ 1 / n := by
    apply one_div_le_one_div_of_le (by exact_mod_cast hpos)
    exact_mod_cast (h.lt_of_slow_iteration heach).le
  rw [hα] at hinv hgeom
  push_cast at hinv
  linarith

/-- Shorter iterations: from 1060 iterations on, twenty rounds reach the ceiling. -/
theorem reaches_of_fast_iteration {n : ℤ} (hT : 0 < T) (hshare : 25 * (c.wallFixed : ℤ) ≤ 14 * T)
    (heach : 100000 * (c.wallEach : ℤ) ≤ T) (hn : n = (c.next T)^[30] 1) : ¬ c.Unreached T n := by
  intro h
  have hpos : 1 ≤ n := hn ▸ one_le_iterate 30
  have hstart : (1060 : ℤ) ≤ (c.next T)^[10] 1 :=
    early_ten ▸ early_iterate_le (fun i hi => h.before hn (by omega)) hshare heach
  have hα : roundFactor 1060 = 106 / 127 := by norm_num [roundFactor]
  obtain ⟨hu0, hu⟩ := roundShare_bounds (N := 1060) (u := 1484 / 3175) (by norm_num) hT hshare
    (by rw [hα]; norm_num)
  have hinv := inv_iterate_le (j := 20) (by norm_num) hT hstart hn h (by linarith)
  have hgeom := weight_mono hu0 hu (by norm_num) 19
  have hfew : (1 / 1000000000 : ℚ) ≤ 1 / n := by
    apply one_div_le_one_div_of_le (by exact_mod_cast hpos)
    have hmax : n < 1000000000 := h.2
    exact_mod_cast hmax.le
  rw [hα] at hinv hgeom
  push_cast at hinv
  linarith

/-- A search that returns has reached the target or the ceiling, or has used up its
thirty rounds on a fixed part of more than 56 percent of the target, and then its last
count is at least 374. -/
theorem pickN_reaches (c : AffineCost) {T : ℤ} (hT : 1000000 ≤ T)
    (hfits : pickN T (fun _ n => c.measure n) ≠ none) :
    ∃ s, pickN T (fun _ n => c.measure n) = some s ∧
      (T ≤ c.wallFixed + c.wallEach * s.count ∨ T ≤ c.fixed + c.each * s.count ∨ s.count = nMax ∨
        (s.log.length = 30 ∧ 14 * T < 25 * (c.wallFixed : ℤ) ∧ 374 ≤ s.count ∧
          c.wallFixed + 374 * (c.wallEach : ℤ) < T)) := by
  obtain ⟨s, hs⟩ := Option.ne_none_iff_exists'.mp hfits
  refine ⟨s, hs, ?_⟩
  have hmax : s.count ≤ nMax :=
    pickRounds_invariant (I := fun n => n ≤ nMax) (by omega) (fun _ _ _ _ _ => min_le_left _ _)
      le_rfl (by norm_num [nMax]) hs
  by_cases h : c.Unreached T s.count
  · obtain ⟨hcount, hlog⟩ := unreached_count (by omega) le_rfl hs h
    have hlarge : 374 ≤ s.count := by
      rw [hcount]
      exact slowest_thirty ▸ slowest_iterate_le (k := 30)
        fun i hi => h.before hcount hi.le
    refine Or.inr (Or.inr (Or.inr ⟨hlog, ?_, hlarge, ?_⟩))
    · by_contra hshare
      rcases lt_or_ge T (100000 * (c.wallEach : ℤ)) with heach | heach
      · exact reaches_of_slow_iteration (by omega) (not_lt.mp hshare) heach hcount h
      · exact reaches_of_fast_iteration (by omega) (not_lt.mp hshare) heach hcount h
    · have hwall := (h.mono hlarge).1
      unfold wall at hwall
      omega
  · unfold Unreached at h
    by_cases hw : c.wall s.count < T
    · exact Or.inr (Or.inr (Or.inl (le_antisymm hmax (not_lt.mp fun hn => h ⟨hw, hn⟩))))
    · exact Or.inl (not_lt.mp hw)

/-- A microsecond of setup, ten nanoseconds an iteration, and a target of a millisecond. -/
theorem pickN_reaches_millisecond :
    ∃ s, pickN 1000000 (fun _ n => (mk 0 10 1000 10 (by decide) le_rfl).measure n) = some s ∧
      (1000000 ≤ ((1000 : ℕ) : ℤ) + ((10 : ℕ) : ℤ) * s.count ∨
        1000000 ≤ ((0 : ℕ) : ℤ) + ((10 : ℕ) : ℤ) * s.count ∨ s.count = nMax ∨
        (s.log.length = 30 ∧ 14 * 1000000 < 25 * ((1000 : ℕ) : ℤ) ∧ 374 ≤ s.count ∧
          ((1000 : ℕ) : ℤ) + 374 * ((10 : ℕ) : ℤ) < 1000000)) :=
  (mk 0 10 1000 10 (by decide) le_rfl).pickN_reaches le_rfl
    (Option.isSome_iff_ne_none.mp (by decide))

/-- 1.15 seconds of untimed setup, one nanosecond an iteration and a target of two
seconds: thirty rounds end on a count for which the clocks show 1.954 and 0.804 seconds. -/
theorem pickN_gives_up :
    (pickN 2000000000 fun _ n => (mk 0 1 1150000000 1 (by decide) le_rfl).measure n).map
        Search.count = some 804162830 ∧
      (1150000000 : ℤ) + 1 * 804162830 < 2000000000 ∧ (0 : ℤ) + 1 * 804162830 < 2000000000 ∧
      804162830 ≠ nMax := by
  decide +kernel

end BurrowBench.Harness.AffineCost
