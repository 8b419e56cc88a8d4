import BurrowBench.Foundation.CheckedArithmetic
import BurrowBench.Harness.Search
import Mathlib.Algebra.BigOperators.Ring.Finset
import Mathlib.Algebra.Order.BigOperators.Group.Finset

/-! # The totals of the rand rows

Each row adds its draws into a total. The rows that draw an int64 add in int64, where an
overflow is undefined; int32n adds as unsigned and converts back, which wraps. The draws
are what the generator hands out and may be anything in their documented range.
-/
namespace BurrowBench.Workloads
open CheckedArithmetic Harness

/-- `BENCH_LOOP(b) { t += draw(); }` on an int64 total. -/
def total (draw : ℕ → ℤ) : ℕ → Option ℤ
  | 0 => some 0
  | i + 1 => do
    let t ← total draw i
    add 64 t (draw i)

/-- hidden_i64 hands back what it was given. -/
def hiddenI64 (v : ℤ) : ℤ := v

def rand2GlobalInt64 (mathrand2Int64 : ℕ → ℤ) (n : ℕ) : Option ℤ := total mathrand2Int64 n

def rand2Int64 (mathrand2RandInt64 : ℕ → ℤ) (n : ℕ) : Option ℤ := total mathrand2RandInt64 n

def rand2GlobalIntn1000 (mathrand2IntN : ℤ → ℕ → ℤ) (n : ℕ) : Option ℤ :=
  total (mathrand2IntN (hiddenI64 1000)) n

def rand2Intn1000 (mathrand2RandIntN : ℤ → ℕ → ℤ) (n : ℕ) : Option ℤ :=
  total (mathrand2RandIntN (hiddenI64 1000)) n

def int64n (mathrand2RandInt64N : ℤ → ℕ → ℤ) (arg : ℤ) (n : ℕ) : Option ℤ :=
  total (mathrand2RandInt64N (hiddenI64 arg)) n

def rand2Int64n1000 (int64N : ℤ → ℕ → ℤ) (n : ℕ) : Option ℤ := int64n int64N 1000 n

def rand2Int64n1e9 (int64N : ℤ → ℕ → ℤ) (n : ℕ) : Option ℤ := int64n int64N 1000000000 n

def rand2Int64n1e18 (int64N : ℤ → ℕ → ℤ) (n : ℕ) : Option ℤ := int64n int64N 1000000000000000000 n

def rand2Int64n4e18 (int64N : ℤ → ℕ → ℤ) (n : ℕ) : Option ℤ := int64n int64N 4000000000000000000 n

/-- `t = (int32_t)((uint32_t)t + (uint32_t)draw())` -/
def int32n (mathrand2RandInt32N : ℤ → ℕ → BitVec 32) (arg : ℤ) : ℕ → BitVec 32
  | 0 => 0
  | i + 1 => int32n mathrand2RandInt32N arg i + mathrand2RandInt32N arg i

/-- The draws of a source that documents the range [0, range). -/
def Draws (range : ℤ) (draw : ℕ → ℤ) : Prop := ∀ i, 0 ≤ draw i ∧ draw i < range

/-- A source that takes the range as its argument. -/
def DrawsBelow (draw : ℤ → ℕ → ℤ) : Prop := ∀ arg, 1 ≤ arg → Draws arg (draw arg)

variable {draw : ℕ → ℤ} {range : ℤ} {n : ℕ}

theorem sum_fits_iff (hdraw : ∀ i, 0 ≤ draw i) (n : ℕ) :
    Fits 64 (∑ i ∈ Finset.range n, draw i) ↔ ∑ i ∈ Finset.range n, draw i < 2 ^ 63 := by
  rw [fits64_iff (Finset.sum_nonneg fun i _ => hdraw i)]
  omega

/-- Draws that are not negative never bring a sum back into range. -/
theorem total_eq (hdraw : ∀ i, 0 ≤ draw i) (n : ℕ) :
    total draw n =
      if Fits 64 (∑ i ∈ Finset.range n, draw i) then some (∑ i ∈ Finset.range n, draw i) else none := by
  induction n with
  | zero => rfl
  | succ n ih =>
    have hnext := Finset.sum_range_succ draw n
    rw [total, ih]
    by_cases hfit : Fits 64 (∑ i ∈ Finset.range n, draw i)
    · rw [if_pos hfit, hnext]
      rfl
    · have hover : ¬ Fits 64 (∑ i ∈ Finset.range (n + 1), draw i) := by
        rw [sum_fits_iff hdraw] at hfit ⊢
        have hlast := hdraw n
        omega
      rw [if_neg hfit, if_neg hover]
      rfl

theorem total_isSome_iff (hdraw : ∀ i, 0 ≤ draw i) :
    (total draw n).isSome ↔ ∑ i ∈ Finset.range n, draw i < 2 ^ 63 := by
  rw [total_eq hdraw, ← sum_fits_iff hdraw]
  split
  · exact iff_of_true rfl ‹_›
  · exact iff_of_false (by simp) ‹_›

theorem Draws.sum_le (h : Draws range draw) (n : ℕ) :
    ∑ i ∈ Finset.range n, draw i ≤ n * (range - 1) := by
  have hle : ∀ i ∈ Finset.range n, draw i ≤ range - 1 := fun i _ => Int.le_sub_one_of_lt (h i).2
  simpa using Finset.sum_le_card_nsmul _ _ _ hle

/-- A row is safe for every sequence of draws exactly when it is for the largest ones. -/
theorem total_safe_iff (hrange : 1 ≤ range) (n : ℕ) :
    (∀ draw, Draws range draw → (total draw n).isSome) ↔ n * (range - 1) < 2 ^ 63 := by
  constructor
  · intro h
    have hlargest : Draws range fun _ => range - 1 :=
      fun _ => ⟨Int.le_sub_one_of_lt hrange, sub_one_lt range⟩
    have hsum := (total_isSome_iff fun i => (hlargest i).1).mp (h _ hlargest)
    rwa [Finset.sum_const, Finset.card_range, nsmul_eq_mul] at hsum
  · intro h draw hdraw
    exact (total_isSome_iff fun i => (hdraw i).1).mpr ((hdraw.sum_le n).trans_lt h)

theorem int64n_safe_iff {arg : ℤ} (harg : 1 ≤ arg) (n : ℕ) :
    (∀ draw, DrawsBelow draw → (int64n draw arg n).isSome) ↔ n * (arg - 1) < 2 ^ 63 := by
  rw [← total_safe_iff harg]
  constructor
  · intro h draw hdraw
    have hbelow : DrawsBelow fun a i => if a = arg then draw i else 0 := by
      intro a ha i
      by_cases heq : a = arg
      · simpa [heq] using hdraw i
      · simpa [heq] using Int.lt_of_lt_of_le Int.zero_lt_one ha
    simpa [int64n, hiddenI64] using h _ hbelow
  · exact fun h draw hdraw => h _ (hdraw arg harg)

theorem int32n_toNat (draw : ℤ → ℕ → BitVec 32) (arg : ℤ) (n : ℕ) :
    (int32n draw arg n).toNat = (∑ i ∈ Finset.range n, (draw arg i).toNat) % 2 ^ 32 := by
  induction n with
  | zero => rfl
  | succ n ih => rw [int32n, BitVec.toNat_add, ih, Finset.sum_range_succ, Nat.mod_add_mod]

/-- Up to the ceiling of the search the rows that draw below 1000 and 10^9 never overflow. The
two that draw a whole int64 do from the second iteration on, with 10^18 it takes ten, with
4·10^18 three, and an argument is safe for n draws exactly when n of its largest fit. -/
theorem totals_safe_iff (n : ℕ) (hn : n ≤ nMax) :
    ((∀ draw, Draws (2 ^ 63) draw → (rand2GlobalInt64 draw n).isSome) ↔ n ≤ 1) ∧
    ((∀ draw, Draws (2 ^ 63) draw → (rand2Int64 draw n).isSome) ↔ n ≤ 1) ∧
    (∀ draw, DrawsBelow draw → (rand2GlobalIntn1000 draw n).isSome ∧ (rand2Intn1000 draw n).isSome ∧
      (rand2Int64n1000 draw n).isSome ∧ (rand2Int64n1e9 draw n).isSome) ∧
    ((∀ draw, DrawsBelow draw → (rand2Int64n1e18 draw n).isSome) ↔ n ≤ 9) ∧
    ((∀ draw, DrawsBelow draw → (rand2Int64n4e18 draw n).isSome) ↔ n ≤ 2) ∧
    ∀ arg, 1 ≤ arg →
      ((∀ draw, DrawsBelow draw → (int64n draw arg n).isSome) ↔ n * (arg - 1) < 2 ^ 63) := by
  unfold nMax at hn
  refine ⟨?_, ?_, fun draw hdraw => ⟨?_, ?_, ?_, ?_⟩, ?_, ?_, fun arg harg => int64n_safe_iff harg n⟩
  · exact (total_safe_iff (by norm_num) n).trans (by omega)
  · exact (total_safe_iff (by norm_num) n).trans (by omega)
  · exact (int64n_safe_iff (by norm_num) n).mpr (by omega) draw hdraw
  · exact (int64n_safe_iff (by norm_num) n).mpr (by omega) draw hdraw
  · exact (int64n_safe_iff (by norm_num) n).mpr (by omega) draw hdraw
  · exact (int64n_safe_iff (by norm_num) n).mpr (by omega) draw hdraw
  · exact (int64n_safe_iff (by norm_num) n).trans (by omega)
  · exact (int64n_safe_iff (by norm_num) n).trans (by omega)

theorem totals_safe_iff_million :
    ((∀ draw, Draws (2 ^ 63) draw → (rand2GlobalInt64 draw 1000000).isSome) ↔ 1000000 ≤ 1) :=
  (totals_safe_iff 1000000 (by norm_num [nMax])).1

/-- Two draws of 2^62 overflow. -/
theorem two_draws_overflow : ¬ ∀ (n : ℕ) (draw : ℕ → ℤ), n ≤ nMax → Draws (2 ^ 63) draw →
    (rand2GlobalInt64 draw n).isSome := by
  intro h
  have hdraws : Draws (2 ^ 63) fun _ => 2 ^ 62 := fun _ => ⟨by norm_num, by norm_num⟩
  have hnone : rand2GlobalInt64 (fun _ => 2 ^ 62) 2 = none := by decide
  have hsome := h 2 _ (by norm_num [nMax]) hdraws
  rw [hnone] at hsome
  cases hsome

end BurrowBench.Workloads
