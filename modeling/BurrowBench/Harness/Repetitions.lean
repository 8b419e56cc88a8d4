import BurrowBench.Foundation.OrderStatistics
import Mathlib.Algebra.Field.Rat
import Mathlib.Algebra.Order.Ring.Rat

/-! # The repetitions of a benchmark and their reduction

bench_main keeps one sample a repetition, between one and COUNT_MAX of them, scans them
for the fastest and the slowest and hands them to median_of, which sorts. Samples are
exact rationals here.
-/
namespace BurrowBench.Harness
open OrderStatistics

def countMax : ℤ := 64

def clampCount (count : ℤ) : ℤ :=
  let count := if count < 1 then 1 else count
  if count > countMax then countMax else count

theorem clampCount_bounds (count : ℤ) : 1 ≤ clampCount count ∧ clampCount count ≤ countMax := by
  unfold clampCount countMax
  dsimp only
  split <;> split <;> omega

/-- `n > 0 ? (double)last.ns / (double)n : 0.0` -/
def perOp (total n : ℤ) : ℚ := if n > 0 then total / n else 0

/-- What stands in `samples` when the repetitions are done. -/
structure Samples where
  runs : List ℚ
  nonempty : runs ≠ []
  atMost : (runs.length : ℤ) ≤ countMax

def repetitions (count n : ℤ) (ns : ℕ → ℤ) : Samples where
  runs := (List.range (clampCount count).toNat).map fun r => perOp (ns r) n
  nonempty := by
    have h := (clampCount_bounds count).1
    rw [Ne, List.map_eq_nil_iff, List.range_eq_nil]
    omega
  atMost := by
    have h := clampCount_bounds count
    rw [List.length_map, List.length_range]
    omega

def compareDouble (a b : ℚ) : ℤ := if a < b then -1 else if a > b then 1 else 0

/-- What the C library promises of qsort with a comparison. -/
structure Qsort {α : Type*} (compare : α → α → ℤ) where
  sort : List α → List α
  perm : ∀ v, (sort v).Perm v
  sorted : ∀ v, (sort v).Pairwise fun a b => compare a b ≤ 0

def medianOf (qsort : Qsort compareDouble) (v : List ℚ) : ℚ :=
  let n := v.length
  let v := qsort.sort v
  if n % 2 = 1 then v.getD (n / 2) 0
  else (v.getD (n / 2 - 1) 0 + v.getD (n / 2) 0) / 2

structure Reduction where
  nsPerOp : ℚ
  lo : ℚ
  hi : ℚ
  spread : ℚ
  deriving DecidableEq

/-- `lo > 0 ? (hi - lo) / lo * 100.0 : 0.0` -/
def spreadPct (lo hi : ℚ) : ℚ := if lo > 0 then (hi - lo) / lo * 100 else 0

def Samples.reduce (samples : Samples) (qsort : Qsort compareDouble) : Reduction :=
  let first := samples.runs.head samples.nonempty
  let lo := least first samples.runs.tail
  let hi := greatest first samples.runs.tail
  { nsPerOp := medianOf qsort samples.runs, lo, hi, spread := spreadPct lo hi }

theorem compareDouble_le {a b : ℚ} : compareDouble a b ≤ 0 ↔ a ≤ b := by
  unfold compareDouble
  rcases lt_trichotomy a b with h | h | h
  · simp [h, h.le]
  · simp [h]
  · simp [h, h.not_gt]

def mergeQsort : Qsort compareDouble where
  sort v := v.mergeSort fun a b => a ≤ b
  perm v := v.mergeSort_perm _
  sorted v := (List.pairwise_mergeSort' (· ≤ ·) v).imp compareDouble_le.mpr

theorem medianOf_eq (qsort : Qsort compareDouble) (v : List ℚ) :
    medianOf qsort v = median (v : Multiset ℚ) := by
  have hperm := qsort.perm v
  have hsorted : (qsort.sort v).Pairwise (· ≤ ·) := (qsort.sorted v).imp compareDouble_le.mp
  rw [median_eq_middle (Multiset.coe_eq_coe.mpr hperm) hsorted, medianOf, middle, hperm.length_eq]

namespace Samples
variable (samples : Samples) (qsort : Qsort compareDouble)

theorem head_cons_tail :
    samples.runs.head samples.nonempty :: samples.runs.tail = samples.runs :=
  List.cons_head_tail samples.nonempty

theorem reduce_nsPerOp : (samples.reduce qsort).nsPerOp = median (samples.runs : Multiset ℚ) :=
  medianOf_eq qsort samples.runs

theorem reduce_lo : IsLeast {x | x ∈ samples.runs} (samples.reduce qsort).lo := by
  have h := least_isLeast (samples.runs.head samples.nonempty) samples.runs.tail
  rwa [samples.head_cons_tail] at h

theorem reduce_hi : IsGreatest {x | x ∈ samples.runs} (samples.reduce qsort).hi := by
  have h := greatest_isGreatest (samples.runs.head samples.nonempty) samples.runs.tail
  rwa [samples.head_cons_tail] at h

theorem reduce_lo_le_hi :
    (samples.reduce qsort).lo ≤ (samples.reduce qsort).nsPerOp ∧
      (samples.reduce qsort).nsPerOp ≤ (samples.reduce qsort).hi := by
  rw [reduce_nsPerOp]
  apply median_mem_Icc (by simpa using samples.nonempty)
  intro x hx
  exact ⟨(samples.reduce_lo qsort).2 hx, (samples.reduce_hi qsort).2 hx⟩

theorem reduce_perm {samples samples' : Samples} (h : samples.runs.Perm samples'.runs)
    (qsort qsort' : Qsort compareDouble) : samples.reduce qsort = samples'.reduce qsort' := by
  have hset : {x | x ∈ samples.runs} = {x | x ∈ samples'.runs} := Set.ext fun _ => h.mem_iff
  have hlo := (samples.reduce_lo qsort).unique (hset ▸ samples'.reduce_lo qsort')
  have hhi := (samples.reduce_hi qsort).unique (hset ▸ samples'.reduce_hi qsort')
  have hmedian : (samples.reduce qsort).nsPerOp = (samples'.reduce qsort').nsPerOp := by
    rw [reduce_nsPerOp, reduce_nsPerOp, Multiset.coe_eq_coe.mpr h]
  have hspread : (samples.reduce qsort).spread = (samples'.reduce qsort').spread :=
    congrArg₂ spreadPct hlo hhi
  cases hc : samples.reduce qsort
  cases hc' : samples'.reduce qsort'
  simp_all

end Samples

end BurrowBench.Harness
