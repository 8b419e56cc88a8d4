import BurrowBench.Harness.Search
import Mathlib.Tactic.Ring

/-! # Benchmarks of affine cost

A run of `n` iterations takes a fixed part and a part for each iteration, timed and on
the wall. The measurements are those of an actual body, which pauses around its untimed
share of both parts.
-/
namespace BurrowBench.Harness
open Stopwatch

/-- `fixed` and `each` are timed, `wallFixed` and `wallEach` are what the wall clock sees. -/
structure AffineCost where
  fixed : ℕ
  each : ℕ
  wallFixed : ℕ
  wallEach : ℕ
  fixed_le : fixed ≤ wallFixed
  each_le : each ≤ wallEach

namespace AffineCost
variable (c : AffineCost)

def timed (n : ℤ) : ℤ := c.fixed + c.each * n
def wall (n : ℤ) : ℤ := c.wallFixed + c.wallEach * n

theorem timed_le_wall {n : ℤ} (hn : 0 ≤ n) : c.timed n ≤ c.wall n := by
  have hf : (c.fixed : ℤ) ≤ c.wallFixed := by exact_mod_cast c.fixed_le
  have he : (c.each : ℤ) * n ≤ c.wallEach * n :=
    mul_le_mul_of_nonneg_right (by exact_mod_cast c.each_le) hn
  unfold timed wall
  omega

def measure (n : ℤ) : Measurement where
  ns := c.timed (max n 0)
  wall := c.wall (max n 0)
  ns_nonneg := by unfold timed; positivity
  ns_le_wall := c.timed_le_wall (le_max_right n 0)

theorem measure_ns {n : ℤ} (hn : 0 ≤ n) : (c.measure n).ns = c.timed n := by
  simp [measure, max_eq_left hn]

theorem measure_wall {n : ℤ} (hn : 0 ≤ n) : (c.measure n).wall = c.wall n := by
  simp [measure, max_eq_left hn]

/-- The untimed share of a part inside a pause, the timed share outside it. -/
def part (timed wall : ℕ) : List Action := [.pause, .advance (wall - timed), .resume, .advance timed]

def body : BenchFunc := fun n =>
  part c.fixed c.wallFixed ++ benchLoop n fun _ => part c.each c.wallEach

theorem history_part (timed wall : ℕ) (as : List Action) :
    history (part timed wall ++ as) =
      .stop :: .advance ((wall - timed : ℕ) : ℤ) :: .start :: .advance (timed : ℤ) :: history as := rfl

theorem part_costs {timed wall : ℕ} (h : timed ≤ wall) (as : List Action) :
    timedOf (part timed wall ++ as) = timed + timedOf as ∧
    elapsedOf (part timed wall ++ as) = wall + elapsedOf as := by
  have hsub : ((wall - timed : ℕ) : ℤ) = wall - timed := Int.ofNat_sub h
  constructor
  · simp [timedOf, history_part, Stopwatch.timed]
  · simp only [elapsedOf, history_part, elapsed, hsub]
    omega

theorem loop_costs (k : ℕ) :
    timedOf (benchLoop k fun _ => part c.each c.wallEach) = c.each * k ∧
    elapsedOf (benchLoop k fun _ => part c.each c.wallEach) = c.wallEach * k := by
  induction k with
  | zero => exact ⟨by simp [benchLoop, timedOf, history, Stopwatch.timed],
      by simp [benchLoop, elapsedOf, history, elapsed]⟩
  | succ k ih =>
    have hloop : benchLoop ((k + 1 : ℕ) : ℤ) (fun _ => part c.each c.wallEach) =
        part c.each c.wallEach ++ benchLoop k fun _ => part c.each c.wallEach := by
      simp only [benchLoop, Int.toNat_natCast, List.range_succ_eq_map, List.flatMap_cons,
        List.flatMap_map]
    obtain ⟨htimed, hwall⟩ := part_costs c.each_le (benchLoop k fun _ => part c.each c.wallEach)
    rw [hloop, htimed, hwall, ih.1, ih.2]
    push_cast
    constructor <;> ring

/-- The affine measurements are those `run_measured` takes of this body. -/
theorem measurementOf_body (name : Text) {n : ℤ} (hn : 0 ≤ n) (clock : ℤ) :
    (measurementOf ⟨name, c.body⟩ n clock 0 0).ns = (c.measure n).ns ∧
    (measurementOf ⟨name, c.body⟩ n clock 0 0).wall = (c.measure n).wall := by
  obtain ⟨k, rfl⟩ := Int.eq_ofNat_of_zero_le hn
  obtain ⟨_, hns, hwall⟩ := runMeasured_spec ⟨name, c.body⟩ k clock 0 0
  obtain ⟨htimed, helapsed⟩ := part_costs c.fixed_le (benchLoop k fun _ => part c.each c.wallEach)
  obtain ⟨hloopTimed, hloopWall⟩ := c.loop_costs k
  rw [c.measure_ns hn, c.measure_wall hn]
  constructor
  · exact hns.trans (htimed.trans (by rw [hloopTimed]; rfl))
  · refine hwall.trans ?_
    change 0 + elapsedOf (part c.fixed c.wallFixed ++ _) + 0 = c.wall k
    rw [helapsed, hloopWall, wall]
    omega

end AffineCost
end BurrowBench.Harness
