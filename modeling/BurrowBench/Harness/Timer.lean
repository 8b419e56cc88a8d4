import BurrowBench.Foundation.Stopwatch
import Mathlib.Algebra.Order.Ring.Int
import Mathlib.Data.List.Basic

/-! # The timer of the harness and one measured run

A benchmark body is the sequence of things it does that the harness can see: time
passes, it pauses or resumes its clock, it reports its allocations. The record is the
one of bench.h, and the clock is whatever `bench_now_ns` would return next. Time may
also pass between the harness's own readings of the clock.
-/
namespace BurrowBench

abbrev Text := List Char

end BurrowBench

namespace BurrowBench.Harness
open Stopwatch

structure Bench where
  name : Text
  n : ℤ
  ns : ℤ
  bytes : ℕ
  allocs : ℕ
  accumNs : ℤ
  startedNs : ℤ
  running : Bool
  deriving DecidableEq

inductive Action where
  | advance (d : ℕ)
  | pause
  | resume
  | reportAllocs (bytes allocs : ℕ)
  deriving DecidableEq

/-- A body reads its iteration count from the record and nothing else. -/
abbrev BenchFunc := ℤ → List Action

structure Entry where
  name : Text
  fn : BenchFunc

def benchPause (b : Bench) (now : ℤ) : Bench :=
  if !b.running then b
  else { b with accumNs := b.accumNs + (now - b.startedNs), running := false }

def benchResume (b : Bench) (now : ℤ) : Bench :=
  if b.running then b
  else { b with startedNs := now, running := true }

def benchReportAllocs (b : Bench) (bytes allocs : ℕ) : Bench :=
  { b with bytes := bytes, allocs := allocs }

abbrev World := Bench × ℤ

def perform (w : World) : Action → World
  | .advance d => (w.1, w.2 + d)
  | .pause => (benchPause w.1 w.2, w.2)
  | .resume => (benchResume w.1 w.2, w.2)
  | .reportAllocs bytes allocs => (benchReportAllocs w.1 bytes allocs, w.2)

/-- `for (bench_i_ = 0; bench_i_ < b->n; bench_i_++)` -/
def benchLoop (n : ℤ) (iteration : ℕ → List Action) : List Action :=
  (List.range n.toNat).flatMap iteration

/-- The record after `memset` and the two assignments that follow it. -/
def freshBench (e : Entry) (n : ℤ) : Bench :=
  { name := e.name, n := n, ns := 0, bytes := 0, allocs := 0,
    accumNs := 0, startedNs := 0, running := false }

/-- One run from clock reading `clock`: the record, and the wall time it reports.
`before` and `after` are the time that passes between the two readings that bracket
the run and the ones that start and stop the timer. -/
def runMeasured (e : Entry) (n : ℤ) (clock : ℤ) (before after : ℕ) : Bench × ℤ :=
  let start := clock
  let w : World := (freshBench e n, clock + before)
  let w : World := (benchResume w.1 w.2, w.2)
  let w := (e.fn n).foldl perform w
  let b := benchPause w.1 w.2
  let wall := w.2 + after - start
  ({ b with ns := b.accumNs }, wall)

/-! ## The timer as a stopwatch -/

def Bench.timer (b : Bench) : Stamped ℤ := ⟨b.accumNs, b.startedNs, b.running⟩

def Action.event : Action → Option (Event ℤ)
  | .advance d => some (.advance (d : ℤ))
  | .pause => some .stop
  | .resume => some .start
  | .reportAllocs _ _ => none

def history (as : List Action) : List (Event ℤ) := as.filterMap Action.event

theorem benchPause_timer (b : Bench) (now : ℤ) : (benchPause b now).timer = b.timer.stop now := by
  cases h : b.running <;> simp [benchPause, Bench.timer, Stamped.stop, h]

theorem benchResume_timer (b : Bench) (now : ℤ) : (benchResume b now).timer = b.timer.start now := by
  cases h : b.running <;> simp [benchResume, Bench.timer, Stamped.start, h]

theorem history_append (as bs : List Action) : history (as ++ bs) = history as ++ history bs := by
  simp [history]

theorem history_forward (as : List Action) : Forward (history as) := by
  intro d hd
  obtain ⟨a, _, ha⟩ := List.mem_filterMap.mp hd
  cases a <;> simp only [Action.event, Option.some.injEq, reduceCtorEq, Event.advance.injEq] at ha
  exact ha ▸ Int.natCast_nonneg _

theorem foldl_perform_timer (w : World) (as : List Action) :
    ((as.foldl perform w).1.timer, (as.foldl perform w).2) =
      Stamped.run (w.1.timer, w.2) (history as) := by
  induction as generalizing w with
  | nil => rfl
  | cons a as ih =>
    rw [List.foldl_cons, ih]
    cases a with
    | advance d => rfl
    | pause => simp [perform, history, Action.event, Stamped.run, Stamped.step, benchPause_timer]
    | resume => simp [perform, history, Action.event, Stamped.run, Stamped.step, benchResume_timer]
    | reportAllocs bytes allocs => rfl

def elapsedOf (as : List Action) : ℤ := elapsed (history as)

def timedOf (as : List Action) : ℤ := timed true (history as)

theorem elapsedOf_append (as bs : List Action) :
    elapsedOf (as ++ bs) = elapsedOf as + elapsedOf bs := by
  rw [elapsedOf, history_append, elapsed_append, elapsedOf, elapsedOf]

theorem elapsedOf_nonneg (as : List Action) : 0 ≤ elapsedOf as := elapsed_nonneg (history_forward as)

theorem foldl_perform_clock (w : World) (as : List Action) :
    (as.foldl perform w).2 = w.2 + elapsedOf as :=
  (Prod.mk.inj (foldl_perform_timer w as)).2.trans (Stamped.run_clock _ _)

/-- The invariant of every run: the reading grows by the time the timer is on for. -/
theorem foldl_perform_reading (w : World) (as : List Action) :
    (as.foldl perform w).1.timer.reading (as.foldl perform w).2 =
      w.1.timer.reading w.2 + timed w.1.timer.running (history as) := by
  obtain ⟨htimer, hclock⟩ := Prod.mk.inj (foldl_perform_timer w as)
  rw [htimer, hclock]
  exact Stamped.run_reading _ _

theorem benchPause_accumNs (b : Bench) (now : ℤ) :
    (benchPause b now).running = false ∧ (benchPause b now).accumNs = b.timer.reading now := by
  have htimer := benchPause_timer b now
  have hrunning : (benchPause b now).timer.running = false := by rw [htimer, Stamped.stop_running]
  have hreading := Stamped.reading_of_stopped hrunning now
  rw [htimer, Stamped.reading_stop, ← htimer] at hreading
  exact ⟨hrunning, hreading.symm⟩

theorem runMeasured_spec (e : Entry) (n clock : ℤ) (before after : ℕ) :
    (runMeasured e n clock before after).1.running = false ∧
    (runMeasured e n clock before after).1.ns = timedOf (e.fn n) ∧
    (runMeasured e n clock before after).2 = before + elapsedOf (e.fn n) + after := by
  let w : World := (benchResume (freshBench e n) (clock + before), clock + before)
  have hentry : w.1.timer.reading w.2 = 0 := by
    simp [w, benchResume, freshBench, Bench.timer, Stamped.reading]
  have hreading := foldl_perform_reading w (e.fn n)
  have hclock := foldl_perform_clock w (e.fn n)
  obtain ⟨hrunning, haccum⟩ :=
    benchPause_accumNs ((e.fn n).foldl perform w).1 ((e.fn n).foldl perform w).2
  rw [hreading, hentry, zero_add] at haccum
  refine ⟨hrunning, haccum, ?_⟩
  change ((e.fn n).foldl perform w).2 + (after : ℤ) - clock = _
  rw [hclock]
  dsimp only [w]
  omega

end BurrowBench.Harness
