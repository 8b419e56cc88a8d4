import BurrowBench.Harness.MeasuredRun
import BurrowBench.Harness.Repetitions

/-! # Loops that launch

An iteration of goroutine_start and of thread_start_join begins with a launch, and the
loop breaks when it fails. The record has no field that says how far a loop got, so the
sample is the time of what was done over the count that was asked for.
-/
namespace BurrowBench.Scheduler
open Harness Stopwatch

/-- What a loop does and how many iterations it gets through. `attempt` is the time a
launch takes, `rest` the time of what follows one that succeeds. -/
def launchLoop (launch : ℕ → Bool) (attempt rest : ℕ → ℕ) : ℕ → ℕ → List Action × ℕ
  | 0, _ => ([], 0)
  | left + 1, i =>
    if launch i then
      let r := launchLoop launch attempt rest left (i + 1)
      (.advance (attempt i) :: .advance (rest i) :: r.1, r.2 + 1)
    else ([.advance (attempt i)], 0)

/-- The clock is stopped across the start and the stop of the runtime, and a body times
its own part. -/
def inRuntime (before : ℕ) (body : List Action) (after : ℕ) : List Action :=
  .pause :: .advance before :: .resume :: (body ++ [.pause, .advance after])

def goroutineStart (launch : ℕ → Bool) (attempt rest : ℕ → ℕ) (before after : ℕ) : BenchFunc :=
  fun n => inRuntime before (launchLoop launch attempt rest n.toNat 0).1 after

def threadStartJoin (launch : ℕ → Bool) (attempt rest : ℕ → ℕ) (keep : ℕ) : BenchFunc :=
  fun n => (launchLoop launch attempt rest n.toNat 0).1 ++ [.advance keep]

variable {launch : ℕ → Bool} {attempt rest : ℕ → ℕ}

theorem launchLoop_pauseFree (left i : ℕ) : PauseFree (launchLoop launch attempt rest left i).1 := by
  induction left generalizing i with
  | zero => exact fun a ha => absurd ha List.not_mem_nil
  | succ left ih =>
    unfold launchLoop
    split
    · intro a ha
      rcases List.mem_cons.mp ha with rfl | ha
      · simp
      · rcases List.mem_cons.mp ha with rfl | ha
        · simp
        · exact ih (i + 1) a ha
    · simp [PauseFree]

theorem launchLoop_le (left i : ℕ) : (launchLoop launch attempt rest left i).2 ≤ left := by
  induction left generalizing i with
  | zero => exact le_rfl
  | succ left ih =>
    unfold launchLoop
    split
    · exact Nat.succ_le_succ (ih (i + 1))
    · exact Nat.zero_le _

/-- The iterations a loop gets through are those whose launches succeeded. -/
theorem launch_of_lt {left i k : ℕ} (h : k < (launchLoop launch attempt rest left i).2) :
    launch (i + k) = true := by
  induction left generalizing i k with
  | zero => exact absurd h (Nat.not_lt_zero k)
  | succ left ih =>
    unfold launchLoop at h
    split at h
    · cases k with
      | zero => assumption
      | succ k =>
        have hrest := ih (i := i + 1) (Nat.lt_of_succ_lt_succ h)
        rwa [Nat.add_assoc, Nat.add_comm 1] at hrest
    · exact absurd h (Nat.not_lt_zero k)

/-- A loop that stops short does so at a launch that failed. -/
theorem launch_of_stopped {left i : ℕ} (h : (launchLoop launch attempt rest left i).2 < left) :
    launch (i + (launchLoop launch attempt rest left i).2) = false := by
  induction left generalizing i with
  | zero => exact absurd h (Nat.not_lt_zero _)
  | succ left ih =>
    unfold launchLoop at h ⊢
    split
    · rename_i hlaunch
      simp only [hlaunch, if_true] at h
      have hrest := ih (i := i + 1) (Nat.lt_of_succ_lt_succ h)
      rwa [Nat.add_assoc, Nat.add_comm 1] at hrest
    · simpa using ‹¬ launch i = true›

theorem launchLoop_eq_iff (n : ℕ) :
    (launchLoop launch attempt rest n 0).2 = n ↔ ∀ i < n, launch i := by
  constructor
  · intro h i hi
    rw [← h] at hi
    simpa using launch_of_lt hi
  · intro h
    by_contra hne
    have hlt := Nat.lt_of_le_of_ne (launchLoop_le n 0) hne
    have hstopped := launch_of_stopped hlt
    rw [Nat.zero_add, h _ hlt] at hstopped
    cases hstopped

theorem elapsedOf_advance_cons (d : ℕ) (as : List Action) :
    elapsedOf (.advance d :: as) = d + elapsedOf as := by
  simp [elapsedOf, elapsed, history, Action.event]

theorem elapsedOf_advance (d : ℕ) : elapsedOf [.advance d] = d := by
  simp [elapsedOf, elapsed, history, Action.event]

theorem sum_range_shift (f : ℕ → ℕ) (i k : ℕ) :
    ((List.range (k + 1)).map fun j => f (i + j)).sum =
      f i + ((List.range k).map fun j => f (i + 1 + j)).sum := by
  rw [List.range_succ_eq_map, List.map_cons, List.map_map, List.sum_cons]
  congr 3
  funext j
  simp only [Function.comp_apply, Nat.succ_eq_add_one]
  congr 1
  omega

/-- The time of a loop is that of the iterations it got through and of the launch that failed. -/
theorem elapsedOf_launchLoop (left i : ℕ) :
    elapsedOf (launchLoop launch attempt rest left i).1 =
      ((List.range (launchLoop launch attempt rest left i).2).map fun k => attempt (i + k) + rest (i + k)).sum +
        if (launchLoop launch attempt rest left i).2 < left
          then attempt (i + (launchLoop launch attempt rest left i).2) else 0 := by
  induction left generalizing i with
  | zero => rfl
  | succ left ih =>
    unfold launchLoop
    split
    · rw [elapsedOf_advance_cons, elapsedOf_advance_cons, ih (i + 1),
        sum_range_shift fun k => attempt k + rest k]
      simp only [Nat.add_comm _ 1, ← Nat.add_assoc]
      push_cast
      omega
    · simp [elapsedOf, elapsed, history, Action.event]

/-! ## The samples -/

theorem timedOf_inRuntime {body : List Action} (h : PauseFree body) (before after : ℕ) :
    timedOf (inRuntime before body after) = elapsedOf body := by
  have hbody := timed_append_of_untouched h.untouched [.stop, .advance (after : ℤ)]
  rw [timed_of_untouched h.untouched] at hbody
  rw [timedOf, inRuntime, elapsedOf]
  have hhistory : history (.pause :: .advance before :: .resume :: (body ++ [.pause, .advance after])) =
      .stop :: .advance (before : ℤ) :: .start :: (history body ++ [.stop, .advance (after : ℤ)]) := by
    simp [history, Action.event]
  rw [hhistory]
  simpa [timed] using hbody

theorem timedOf_goroutineStart (before after n : ℕ) :
    timedOf (goroutineStart launch attempt rest before after n) =
      elapsedOf (launchLoop launch attempt rest n 0).1 := by
  rw [goroutineStart, Int.toNat_natCast, timedOf_inRuntime (launchLoop_pauseFree n 0)]

theorem timedOf_threadStartJoin (keep n : ℕ) :
    timedOf (threadStartJoin launch attempt rest keep n) =
      elapsedOf (launchLoop launch attempt rest n 0).1 + keep := by
  have hkeep : PauseFree [.advance keep] := by simp [PauseFree]
  rw [threadStartJoin, Int.toNat_natCast, ((launchLoop_pauseFree n 0).append hkeep).timedOf,
    elapsedOf_append, elapsedOf_advance]

/-- What a run of n iterations puts into `samples`, whatever the body did. -/
theorem sample_eq {n : ℕ} (hn : 1 ≤ n) (name : Text) (fn : BenchFunc) (clock : ℤ) (before after : ℕ) :
    perOp (runMeasured ⟨name, fn⟩ n clock before after).1.ns n = (timedOf (fn n) : ℚ) / n := by
  have hpos : (n : ℤ) > 0 := by omega
  rw [(runMeasured_spec _ n clock before after).2.1, perOp, if_pos hpos, Int.cast_natCast]

end BurrowBench.Scheduler
