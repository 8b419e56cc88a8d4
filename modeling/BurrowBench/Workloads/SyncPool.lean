import BurrowBench.Foundation.ObjectPool
import Mathlib.Algebra.BigOperators.Group.List.Basic
import Mathlib.Algebra.Group.Action.Defs
import Mathlib.Data.List.Nodup
import Mathlib.Data.List.Range
import Mathlib.Data.Nat.Bitwise

/-! # The rows of the object pool

The new function hands out the objects of a ring, so that a row that holds two at once holds two
different ones. It comes round: once the pool has lost enough of them, an object is handed out
that is still in use.
-/
namespace BurrowBench.Workloads.SyncPool
open Interleaving ObjectPool

def poolObjs : ℕ := 64

/-- The object that is handed out and the next one, as indices into `objs`. -/
def makeBuf (nextObj : ℕ) : ℕ × ℕ := (nextObj, (nextObj + 1) &&& (poolObjs - 1))

inductive Row where
  | getPut
  | getPutPair
  | getNew
  | sweep
  deriving DecidableEq

def Row.turn : Row → List Op
  | .getPut => [.get, .put]
  | .getPutPair => [.get, .get, .put, .put]
  | .getNew => [.get, .leave]
  | .sweep => [.sweep]

def Row.setup : Row → List Op
  | .sweep => [.get, .put]
  | _ => []

def Row.script (row : Row) (n : ℕ) : List Op := row.setup ++ (List.replicate n row.turn).flatten

/-- How many objects the row holds at once. -/
def Row.width : Row → ℕ
  | .getPutPair => 2
  | _ => 1

/-- `next_obj` is set back and the pool is new before every run. -/
def runPool (row : Row) (n : ℕ) : State ℕ ℕ := start 0 (row.script n)

theorem balanced_script (row : Row) (n : ℕ) : GivesBack row.width 0 (row.script n) := by
  have hsetup : GivesBack row.width 0 row.setup := by
    cases row <;> simp [GivesBack, Row.setup, Row.width]
  have hturn : GivesBack row.width 0 row.turn := by
    cases row <;> simp [GivesBack, Row.turn, Row.width]
  exact hsetup.append (hturn.flatten_replicate n)

theorem makeBuf_eq (k : ℕ) : makeBuf (k % poolObjs) = (k % poolObjs, (k + 1) % poolObjs) := by
  have hand : (k % poolObjs + 1) &&& (poolObjs - 1) = (k % poolObjs + 1) % poolObjs :=
    Nat.and_two_pow_sub_one_eq_mod _ 6
  rw [makeBuf, hand, Nat.mod_add_mod]

/-- The ring goes round: the k-th object made is the one at k modulo its size. -/
theorem makes_eq {made : List ℕ} {nextObj : ℕ} (h : Makes makeBuf 0 made nextObj) :
    nextObj = made.length % poolObjs ∧ made = (List.range made.length).map (· % poolObjs) := by
  induction h with
  | nil => exact ⟨rfl, rfl⟩
  | @snoc made nextObj h ih =>
    obtain ⟨hnext, hmade⟩ := ih
    rw [hnext, makeBuf_eq, List.length_append, List.length_singleton]
    refine ⟨rfl, ?_⟩
    rw [List.range_succ, List.map_append, ← hmade]
    rfl

theorem nodup_of_length_le {made : List ℕ} (hmade : made = (List.range made.length).map (· % poolObjs))
    (h : made.length ≤ poolObjs) : made.Nodup := by
  rw [hmade]
  refine List.Nodup.map_on ?_ List.nodup_range
  intro i hi j hj heq
  have hi := List.mem_range.mp hi
  have hj := List.mem_range.mp hj
  rwa [Nat.mod_eq_of_lt (by omega), Nat.mod_eq_of_lt (by omega)] at heq

theorem count_leave (row : Row) (n : ℕ) : (row.script n).count .leave = if row = .getNew then n else 0 := by
  rw [Row.script, List.count_append, List.count_flatten, List.map_replicate, List.sum_replicate]
  cases row <;> simp [Row.setup, Row.turn]

theorem left_runPool_le (row : Row) (n : ℕ) : left (runPool row n) ≤ 6 * n + 4 := by
  have hturns : ((List.replicate n row.turn).flatten.map cost).sum = n * (row.turn.map cost).sum := by
    rw [List.map_flatten, List.sum_flatten, List.map_replicate, List.map_replicate, List.sum_replicate,
      smul_eq_mul]
  change ((row.script n).map cost).sum + 0 + 1 ≤ 6 * n + 4
  rw [Row.script, List.map_append, List.sum_append, hturns]
  cases row <;> simp [Row.setup, Row.turn, cost] <;> omega

theorem put_notMem_getNew (n : ℕ) : .put ∉ Row.script .getNew n := by
  simp [Row.script, Row.setup, Row.turn]

/-- At every moment of every run, whatever the pool finds, misses and drops, each object made is
pooled, held, left or dropped, and each pooled or held one is there once as long as the pool has
lost no more objects than the ring has to spare. A run ends, and then everything that was not left
has gone through the free function. -/
theorem pool_rows (row : Row) (n : ℕ) {schedule : List (Move ℕ)} {s : State ℕ ℕ}
    (h : run (step makeBuf) schedule (runPool row n) = some s) :
    (s.pool ++ s.held ++ s.left ++ s.dropped).Perm s.made ∧
    s.made = (List.range s.made.length).map (· % poolObjs) ∧
    (s.dropped.length + s.left.length + s.missed + row.width ≤ poolObjs → (s.pool ++ s.held).Nodup) ∧
    (row = .getNew → s.pool = [] ∧ s.dropped = []) ∧
    schedule.length ≤ 6 * n + 4 ∧
    (Done s ∨ ∃ move, (step makeBuf move s).isSome) ∧
    (Done s → s.pool = [] ∧ s.held = [] ∧ s.left.length = (if row = .getNew then n else 0) ∧
      (s.left ++ s.dropped).Perm s.made) := by
  obtain ⟨hkept, hbound, hprogress⟩ :=
    (terminates makeBuf 0 row.width).run_spec (kept_start makeBuf 0 (balanced_script row n)) h
  have hmade := (makes_eq hkept.makes).2
  refine ⟨hkept.perm, hmade, fun hlost => ?_, fun hrow => ?_, hbound.trans (left_runPool_le row n), hprogress, fun hdone => ?_⟩
  · have hnodup := nodup_of_length_le hmade (hkept.made_le.trans hlost)
    have hall := hkept.perm.nodup_iff.mpr hnodup
    rw [List.append_assoc] at hall
    exact (List.nodup_append.mp hall).1
  · subst hrow
    have hnil := run_invariant (P := fun s => .put ∉ s.rest ∧ s.pool = [] ∧ s.dropped = [])
      (fun _ _ _ hs hstep => pool_nil_step hs (steps_of_step hstep)) ⟨put_notMem_getNew n, rfl, rfl⟩ h
    exact hnil.2
  · obtain ⟨hrest, hfreed⟩ := hdone
    have hpool := (hkept.freed hfreed).1
    have hbalanced := hkept.balanced
    rw [hrest] at hbalanced
    have hheld := List.length_eq_zero_iff.mp hbalanced
    have hcount := run_invariant (P := fun s => s.left.length + s.rest.count .leave = (row.script n).count .leave)
      (fun _ _ _ hs hstep => (left_count_step (steps_of_step hstep)).trans hs) (Nat.zero_add _) h
    rw [hrest, List.count_nil, Nat.add_zero, count_leave] at hcount
    have hperm := hkept.perm
    rw [hpool, hheld] at hperm
    exact ⟨hpool, hheld, hcount, hperm⟩

theorem pool_rows_one : ∃ s : State ℕ ℕ, run (step makeBuf) [.go none, .go none, .drop 0, .go none]
    (runPool .getPut 1) = some s ∧ s.dropped.Perm s.made ∧ s.made = [0] := by
  have hrun : run (step makeBuf) [.go none, .go none, .drop 0, .go none] (runPool .getPut 1) = some _ := rfl
  have hdone := (pool_rows .getPut 1 hrun).2.2.2.2.2.2 ⟨rfl, rfl⟩
  exact ⟨_, hrun, hdone.2.2.2, rfl⟩

/-- The pool keeps the first object and loses the other of each pair. -/
def losingSchedule : List (Move ℕ) :=
  [.go none, .go none, .go none, .go none] ++
    (List.range 63).flatMap fun i => [.drop (i + 1), .go (some 0), .go none, .go none, .go none]

/-- One object more than the ring has to spare, and a pair is the same object twice. -/
example : (run (step makeBuf) (losingSchedule.take 317) (runPool .getPutPair 64)).map
    (fun s => (s.held, s.dropped.length, s.missed)) = some ([0, 0], 63, 0) := by
  decide +kernel

end BurrowBench.Workloads.SyncPool
