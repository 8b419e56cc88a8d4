import BurrowBench.Foundation.ExchangeSort
import BurrowBench.Harness.Repetitions
import BurrowBench.Harness.Timer

/-! # The Go side of the table and its reduction

The table collects the ns/op values of each Go name in four awk arrays and reduces them
when a pair asks for the name. Whatever else was collected in between, the arrays hold
the name's values in the order they came, and what they reduce to is what the harness
would have made of them.
-/
namespace BurrowBench.Tools
open ExchangeSort OrderStatistics Harness

/-- The arrays gcount, gvals, glo and ghi. A key that is not in an array has no value. -/
structure GoSide where
  gcount : Text → ℕ
  gvals : Text → ℕ → ℚ
  glo : Text → Option ℚ
  ghi : Text → Option ℚ

namespace GoSide

def empty : GoSide where
  gcount _ := 0
  gvals _ _ := 0
  glo _ := none
  ghi _ := none

/-- `if (!(name in table) || better(v, table[name])) table[name] = v` -/
def keepBest (better : ℚ → ℚ → Prop) [DecidableRel better] (table : Text → Option ℚ)
    (name : Text) (v : ℚ) : Text → Option ℚ :=
  if (table name).all (better v ·) then Function.update table name (some v) else table

def collect (s : GoSide) (name : Text) (v : ℚ) : GoSide where
  gcount := Function.update s.gcount name (s.gcount name + 1)
  gvals := Function.update s.gvals name (Function.update (s.gvals name) (s.gcount name + 1) v)
  glo := keepBest (· < ·) s.glo name v
  ghi := keepBest (· > ·) s.ghi name v

def collected (values : List (Text × ℚ)) : GoSide :=
  values.foldl (fun s p => s.collect p.1 p.2) empty

def median (s : GoSide) (key : Text) (n : ℕ) : ℚ :=
  let a := insertionSort (s.gvals key) n
  if n % 2 = 1 then a ((n + 1) / 2)
  else (a (n / 2) + a (n / 2 + 1)) / 2

/-- `glo > 0 ? (ghi-glo)/glo*100 : "-"` -/
def spread (s : GoSide) (name : Text) : Option ℚ :=
  match s.glo name, s.ghi name with
  | some lo, some hi => if lo > 0 then some ((hi - lo) / lo * 100) else none
  | _, _ => none

/-! ## What the arrays hold -/

structure Holds (s : GoSide) (name : Text) (vs : List ℚ) : Prop where
  gcount : s.gcount name = vs.length
  gvals : segment (s.gvals name) vs.length = vs
  glo : s.glo name = best (· < ·) vs
  ghi : s.ghi name = best (· > ·) vs

theorem empty_holds (name : Text) : empty.Holds name [] := ⟨rfl, rfl, rfl, rfl⟩

theorem keepBest_self (better : ℚ → ℚ → Prop) [DecidableRel better] (table : Text → Option ℚ)
    (name : Text) (v : ℚ) : keepBest better table name v name =
      if (table name).all (better v ·) then some v else table name := by
  unfold keepBest
  split <;> simp

theorem keepBest_of_ne (better : ℚ → ℚ → Prop) [DecidableRel better] (table : Text → Option ℚ)
    {name other : Text} (hne : name ≠ other) (v : ℚ) :
    keepBest better table other v name = table name := by
  unfold keepBest
  split <;> simp [hne]

theorem collect_glo (s : GoSide) (name : Text) (v : ℚ) :
    (s.collect name v).glo = keepBest (· < ·) s.glo name v := rfl

theorem collect_ghi (s : GoSide) (name : Text) (v : ℚ) :
    (s.collect name v).ghi = keepBest (· > ·) s.ghi name v := rfl

theorem Holds.collect {s : GoSide} {name : Text} {vs : List ℚ} (h : s.Holds name vs) (v : ℚ) :
    (s.collect name v).Holds name (vs ++ [v]) := by
  constructor
  · simp [GoSide.collect, h.gcount]
  · simp [GoSide.collect, h.gcount, segment_update, h.gvals]
  · rw [collect_glo, keepBest_self, best_concat, h.glo]
  · rw [collect_ghi, keepBest_self, best_concat, h.ghi]

theorem Holds.collect_other {s : GoSide} {name other : Text} {vs : List ℚ} (h : s.Holds name vs)
    (hne : name ≠ other) (v : ℚ) : (s.collect other v).Holds name vs := by
  constructor
  · simp [GoSide.collect, hne, h.gcount]
  · simp [GoSide.collect, hne, h.gvals]
  · rw [collect_glo, keepBest_of_ne _ _ hne, h.glo]
  · rw [collect_ghi, keepBest_of_ne _ _ hne, h.ghi]

def valuesOf (name : Text) (values : List (Text × ℚ)) : List ℚ :=
  (values.filter fun p => p.1 = name).map Prod.snd

theorem collected_holds (values : List (Text × ℚ)) (name : Text) :
    (collected values).Holds name (valuesOf name values) := by
  induction values using List.reverseRecOn with
  | nil => exact empty_holds name
  | append_singleton values p ih =>
    have hstep : collected (values ++ [p]) = (collected values).collect p.1 p.2 := by
      simp [collected]
    rw [hstep]
    by_cases h : p.1 = name
    · have hvalues : valuesOf name (values ++ [p]) = valuesOf name values ++ [p.2] := by
        simp [valuesOf, h]
      rw [hvalues, ← h]
      exact (h ▸ ih).collect p.2
    · have hvalues : valuesOf name (values ++ [p]) = valuesOf name values := by simp [valuesOf, h]
      rw [hvalues]
      exact ih.collect_other (Ne.symm h) p.2

/-! ## The reduction -/

theorem Holds.median {s : GoSide} {name : Text} {vs : List ℚ} (h : s.Holds name vs) (hne : vs ≠ []) :
    s.median name (s.gcount name) = OrderStatistics.median (vs : Multiset ℚ) := by
  set n := vs.length with hn
  have hpos : 0 < n := List.length_pos_iff.mpr hne
  have hperm := (insertionSort_permutes (s.gvals name) n).perm
  rw [h.gvals] at hperm
  have hsorted := (insertionSort_sorted (s.gvals name) n).pairwise
  rw [median_eq_middle (Multiset.coe_eq_coe.mpr hperm) hsorted, middle, length_segment, GoSide.median,
    h.gcount, ← hn]
  by_cases hodd : n % 2 = 1
  · rw [if_pos hodd, if_pos hodd, getD_segment _ (by omega)]
    congr 1
    omega
  · rw [if_neg hodd, if_neg hodd, getD_segment _ (by omega), getD_segment _ (by omega),
      Nat.sub_add_cancel (by omega)]

theorem Holds.extremes {s : GoSide} {name : Text} {samples : Samples} (h : s.Holds name samples.runs)
    (qsort : Qsort compareDouble) :
    s.glo name = some (samples.reduce qsort).lo ∧ s.ghi name = some (samples.reduce qsort).hi := by
  have hruns := samples.head_cons_tail
  rw [h.glo, h.ghi, ← hruns]
  exact ⟨rfl, rfl⟩

/-- Both sides reduce positive samples to the same statistics, which depend on the samples
alone. -/
theorem same_reduction (values : List (Text × ℚ)) (name : Text) (samples : Samples)
    (hvalues : valuesOf name values = samples.runs) (hpos : ∀ x ∈ samples.runs, 0 < x)
    (qsort : Qsort compareDouble) :
    let go := collected values
    let c := samples.reduce qsort
    (go.median name (go.gcount name) = c.nsPerOp ∧ go.glo name = some c.lo ∧
      go.ghi name = some c.hi ∧ go.spread name = some c.spread) ∧
    (∀ (samples' : Samples) (qsort' : Qsort compareDouble),
      samples'.runs.Perm samples.runs → samples'.reduce qsort' = c) ∧
    (∀ sorted : List ℚ, sorted.Perm samples.runs → sorted.Pairwise (· ≤ ·) →
      c.nsPerOp = middle sorted) ∧
    IsLeast {x | x ∈ samples.runs} c.lo ∧ IsGreatest {x | x ∈ samples.runs} c.hi ∧
    c.lo ≤ c.nsPerOp ∧ c.nsPerOp ≤ c.hi := by
  intro go c
  have hholds : go.Holds name samples.runs := hvalues ▸ collected_holds values name
  obtain ⟨hlo, hhi⟩ := hholds.extremes qsort
  have hleast := samples.reduce_lo qsort
  have hlopos : 0 < c.lo := hpos _ hleast.1
  refine ⟨⟨?_, hlo, hhi, ?_⟩, fun samples' qsort' h => Samples.reduce_perm h qsort' qsort, ?_, hleast,
    samples.reduce_hi qsort, samples.reduce_lo_le_hi qsort⟩
  · rw [hholds.median samples.nonempty, ← samples.reduce_nsPerOp qsort]
  · rw [spread, hlo, hhi]
    have hspread : c.spread = (c.hi - c.lo) / c.lo * 100 := if_pos hlopos
    rw [hspread]
    exact if_pos hlopos
  · intro sorted hperm hsorted
    rw [samples.reduce_nsPerOp, median_eq_middle (Multiset.coe_eq_coe.mpr hperm) hsorted]

/-- Three runs of one benchmark with a line of another in between. -/
theorem same_reduction_three :
    let go := collected [("HashInt".toList, 3), ("HashStr".toList, 9), ("HashInt".toList, 1),
      ("HashInt".toList, 2)]
    go.median "HashInt".toList (go.gcount "HashInt".toList) = 2 :=
  have h := same_reduction
    [("HashInt".toList, 3), ("HashStr".toList, 9), ("HashInt".toList, 1), ("HashInt".toList, 2)]
    "HashInt".toList ⟨[3, 1, 2], by decide, by decide⟩ (by decide) (by decide +kernel) mergeQsort
  have hmiddle := h.2.2.1 [1, 2, 3] (by decide +kernel) (by decide +kernel)
  h.1.1.trans (hmiddle.trans (by decide +kernel))

end GoSide

end BurrowBench.Tools
