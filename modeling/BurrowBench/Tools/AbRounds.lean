import BurrowBench.Foundation.SentinelMinimum
import Mathlib.Order.Lattice.Nat

/-! # The rounds of ab.sh

For each benchmark ab.sh measures the old and the new tree in turn and keeps, for each,
the fewest cycles with the instructions of that run. The best starts at 0, which stands
for no run at all and is also what fewer cycles than iterations divide down to.
-/
namespace BurrowBench.Tools.AbRounds
open SentinelMinimum

structure Counts where
  cycles : ℕ
  instructions : ℕ
  deriving DecidableEq

/-- `$((cyc / N)) $((ins / N))` of what perf counted. -/
def measure (n : ℕ) (perf : Counts) : Counts := ⟨perf.cycles / n, perf.instructions / n⟩

structure Round where
  old : Counts
  new : Counts

structure Best where
  old : Counts
  new : Counts
  deriving DecidableEq

/-- `if [ "$best" -eq 0 ] || [ "$1" -lt "$best" ]; then best=$1 ins=$2; fi` -/
def update (best measured : Counts) : Counts :=
  if best.cycles = 0 ∨ measured.cycles < best.cycles then measured else best

def compareRound (best : Best) (round : Round) : Best :=
  ⟨update best.old round.old, update best.new round.new⟩

def compareRounds (rounds : List Round) : Best := rounds.foldl compareRound ⟨⟨0, 0⟩, ⟨0, 0⟩⟩

def FewestCycles (runs : List Counts) (c : Counts) : Prop := LeastIn Counts.cycles runs c

/-- No run is taken for the mark that there was none, or the last one is. -/
def MarkFree (runs : List Counts) : Prop :=
  (∀ c ∈ runs, c.cycles ≠ 0) ∨ ∀ c ∈ runs.getLast?, c.cycles = 0

theorem foldl_compareRound (rounds : List Round) (best : Best) :
    rounds.foldl compareRound best =
      ⟨SentinelMinimum.best Counts.cycles best.old (rounds.map Round.old),
        SentinelMinimum.best Counts.cycles best.new (rounds.map Round.new)⟩ := by
  induction rounds generalizing best with
  | nil => rfl
  | cons round rounds ih =>
    rw [List.foldl_cons, ih]
    rfl

theorem fewestCycles_iff {runs : List Counts} (hne : runs ≠ []) :
    FewestCycles runs (SentinelMinimum.best Counts.cycles ⟨0, 0⟩ runs) ↔ MarkFree runs := by
  have hstart : Counts.cycles ⟨0, 0⟩ = ⊥ := rfl
  rw [FewestCycles, best_leastIn_iff hstart hne, MarkFree, List.getLast?_eq_some_getLast hne]
  simp

/-- The row has the best run of both trees exactly when, for each of them, no run measured
0 cycles or the last one did. -/
theorem compareRounds_best_iff (rounds : List Round) (hne : rounds ≠ []) :
    FewestCycles (rounds.map Round.old) (compareRounds rounds).old ∧
        FewestCycles (rounds.map Round.new) (compareRounds rounds).new ↔
      MarkFree (rounds.map Round.old) ∧ MarkFree (rounds.map Round.new) := by
  have hmap : ∀ f : Round → Counts, rounds.map f ≠ [] := fun f h => hne (List.map_eq_nil_iff.mp h)
  rw [compareRounds, foldl_compareRound]
  exact and_congr (fewestCycles_iff (hmap Round.old)) (fewestCycles_iff (hmap Round.new))

/-- Two rounds in which the old tree takes 1.9 and 2.1 million cycles, and the new one 4 and
6, for two million iterations. -/
def shortLoop : List Round :=
  [⟨measure 2000000 ⟨1900000, 6000000⟩, measure 2000000 ⟨4000000, 8000000⟩⟩,
    ⟨measure 2000000 ⟨2100000, 6000000⟩, measure 2000000 ⟨6000000, 8000000⟩⟩]

theorem compareRounds_best_iff_shortLoop :
    FewestCycles (shortLoop.map Round.old) (compareRounds shortLoop).old ∧
        FewestCycles (shortLoop.map Round.new) (compareRounds shortLoop).new ↔
      MarkFree (shortLoop.map Round.old) ∧ MarkFree (shortLoop.map Round.new) :=
  compareRounds_best_iff shortLoop (List.cons_ne_nil _ _)

theorem shortLoop_not_best : ¬ ∀ rounds : List Round, rounds ≠ [] →
    FewestCycles (rounds.map Round.old) (compareRounds rounds).old ∧
      FewestCycles (rounds.map Round.new) (compareRounds rounds).new := by
  intro h
  have hold := (h shortLoop (List.cons_ne_nil _ _)).1.2 ⟨0, 3⟩ (by decide)
  exact absurd hold (by decide)

end BurrowBench.Tools.AbRounds
