import BurrowBench.Scheduler.Gate

/-! # The note ping pong

A note is a latch: a wake opens it, a clear closes it and a sleep passes only while it is
open. note_pingpong wakes sync_pong through one note and sleeps on the other. The start
is after a successful start of the thread.
-/
namespace BurrowBench.Scheduler.NotePingpong
open Interleaving

/-- A latch. The ghosts count the wakes it was given and the sleeps that passed it; the
wake of a number is meant for the sleep of that number. -/
structure Note where
  opened : Bool
  woken : ℕ
  slept : ℕ
  deriving DecidableEq

namespace Note

def init : Note where
  opened := false
  woken := 0
  slept := 0

@[simp] def wake (note : Note) : Note := { note with opened := true, woken := note.woken + 1 }

@[simp] def clear (note : Note) : Note := { note with opened := false }

def sleep (note : Note) : Option Note :=
  if note.opened then some { note with slept := note.slept + 1 } else none

theorem sleep_eq_some {note note' : Note} (h : note.sleep = some note') :
    note.opened ∧ { note with slept := note.slept + 1 } = note' := by
  unfold sleep at h
  split at h
  · exact ⟨‹_›, Option.some.inj h⟩
  · cases h

end Note

inductive MainPc where
  | loop (i : ℕ)
  | clear (r : Round)
  | wake (r : Round)
  | sleep (r : Round)
  | stop
  | join
  | freeToMain
  | freeToWorker
  | done
  deriving DecidableEq

/-- Where sync_pong stands. After the load it keeps what it read of sync_stop. -/
inductive WorkerPc where
  | sleep
  | clear
  | load
  | wake (done : Bool)
  | test (done : Bool)
  | returned
  deriving DecidableEq

/-- The shared variables and both threads. A ghost logs what the worker read of
sync_stop, round by round. -/
structure State where
  main : MainPc
  worker : WorkerPc
  toWorker : Note
  toMain : Note
  stop : Bool
  reads : List Bool
  deriving DecidableEq

def start : State where
  main := .loop 0
  worker := .sleep
  toWorker := .init
  toMain := .init
  stop := false
  reads := []

def after : Round → MainPc
  | .timed i => .loop (i + 1)
  | .shutdown => .join

def mainStep (n : ℕ) (s : State) : Option State :=
  match s.main with
  | .loop i => some { s with main := if i < n then .clear (.timed i) else .stop }
  | .stop => some { s with stop := true, main := .clear .shutdown }
  | .clear r => some { s with toMain := s.toMain.clear, main := .wake r }
  | .wake r => some { s with toWorker := s.toWorker.wake, main := .sleep r }
  | .sleep r => s.toMain.sleep.map fun note => { s with toMain := note, main := after r }
  | .join => if s.worker = .returned then some { s with main := .freeToMain } else none
  | .freeToMain => some { s with main := .freeToWorker }
  | .freeToWorker => some { s with main := .done }
  | .done => none

def workerStep (s : State) : Option State :=
  match s.worker with
  | .sleep => s.toWorker.sleep.map fun note => { s with toWorker := note, worker := .clear }
  | .clear => some { s with toWorker := s.toWorker.clear, worker := .load }
  | .load => some { s with reads := s.reads ++ [s.stop], worker := .wake s.stop }
  | .wake done => some { s with toMain := s.toMain.wake, worker := .test done }
  | .test done => some { s with worker := if done then .returned else .sleep }
  | .returned => none

inductive Agent where
  | main
  | worker
  deriving DecidableEq

def step (n : ℕ) : Agent → State → Option State
  | .main, s => mainStep n s
  | .worker, s => workerStep s

/-! ## What the program counters say of the notes -/

@[simp] def MainPc.Within (n : ℕ) : MainPc → Prop
  | .loop i => i ≤ n
  | .clear r | .wake r | .sleep r => r.Within n
  | _ => True

/-- How often main has woken the worker. -/
@[simp] def MainPc.woken (n : ℕ) : MainPc → ℕ
  | .loop i => i
  | .clear r | .wake r => r.index n
  | .sleep r => r.index n + 1
  | .stop => n
  | _ => n + 1

/-- How often main has slept. -/
@[simp] def MainPc.slept (n : ℕ) : MainPc → ℕ
  | .loop i => i
  | .clear r | .wake r | .sleep r => r.index n
  | .stop => n
  | _ => n + 1

/-- Between its clear and its sleep. -/
@[simp] def MainPc.Awaits : MainPc → Prop
  | .wake _ | .sleep _ => True
  | _ => False

@[simp] def MainPc.Stopped : MainPc → Prop
  | .loop _ | .stop => False
  | .clear r | .wake r | .sleep r => r = .shutdown
  | _ => True

@[simp] def MainPc.Joined : MainPc → Prop
  | .freeToMain | .freeToWorker | .done => True
  | _ => False

/-- The worker has slept once more than it has woken main. -/
@[simp] def WorkerPc.entered : WorkerPc → ℕ
  | .clear | .load | .wake _ => 1
  | _ => 0

/-- The worker has read sync_stop once more than it has woken main. -/
@[simp] def WorkerPc.read : WorkerPc → ℕ
  | .wake _ => 1
  | _ => 0

/-- What the worker knows of the stop flag after `k` wakes of main. -/
@[simp] def WorkerPc.Knows (n k : ℕ) : WorkerPc → Prop
  | .sleep => k ≤ n
  | .clear | .load => True
  | .wake done => done = decide (k = n)
  | .test done => done = decide (k = n + 1)
  | .returned => k = n + 1

/-- The alternation: sleeps and wakes of the two notes are never more than one apart, and
a note stands open exactly while a wake of it is not consumed or not cleared away. -/
structure Alternates (n : ℕ) (s : State) : Prop where
  within : s.main.Within n
  woken : s.toWorker.woken = s.main.woken n
  slept : s.toMain.slept = s.main.slept n
  entered : s.toWorker.slept = s.toMain.woken + s.worker.entered
  asked : s.toWorker.slept ≤ s.toWorker.woken
  answered : s.toMain.slept ≤ s.toMain.woken
  toWorker_opened : s.toWorker.opened ↔ s.toWorker.slept < s.toWorker.woken ∨ s.worker = .clear
  toMain_opened : s.main.Awaits → (s.toMain.opened ↔ s.toMain.slept < s.toMain.woken)
  stopped : s.stop ↔ s.main.Stopped
  reads : s.reads = (List.range (s.toMain.woken + s.worker.read)).map fun k => decide (k = n)
  knows : s.worker.Knows n s.toMain.woken
  joined : s.main.Joined → s.worker = .returned

theorem alternates_start (n : ℕ) : Alternates n start := by
  constructor <;> simp [start, Note.init]

theorem MainPc.Within.woken_le {n : ℕ} {pc : MainPc} (h : pc.Within n) : pc.woken n ≤ n + 1 := by
  cases pc with
  | loop i => exact Nat.le_succ_of_le h
  | clear r => exact Nat.le_succ_of_le (Round.Within.index_le h)
  | wake r => exact Nat.le_succ_of_le (Round.Within.index_le h)
  | sleep r => exact Nat.succ_le_succ (Round.Within.index_le h)
  | stop => exact Nat.le_succ n
  | _ => exact Nat.le_refl _

/-! ## A step of main -/

variable {n : ℕ} {s s' : State}

/-- Main moves on without touching a note. -/
theorem Alternates.goto (hs : Alternates n s) {pc : MainPc} (hwithin : pc.Within n)
    (hwoken : pc.woken n = s.main.woken n) (hslept : pc.slept n = s.main.slept n)
    (hawaits : ¬ pc.Awaits) (hstopped : pc.Stopped ↔ s.main.Stopped)
    (hjoined : pc.Joined → s.worker = .returned) : Alternates n { s with main := pc } :=
  { hs with
    within := hwithin
    woken := hs.woken.trans hwoken.symm
    slept := hs.slept.trans hslept.symm
    toMain_opened := fun h => absurd h hawaits
    stopped := hs.stopped.trans hstopped.symm
    joined := hjoined }

theorem Alternates.main_loop (hs : Alternates n s) {i : ℕ} (hpc : s.main = .loop i) :
    Alternates n { s with main := if i < n then .clear (.timed i) else .stop } := by
  have hi : i ≤ n := by simpa [hpc] using hs.within
  split
  · apply hs.goto <;> simp [Round.Within, Round.index, *]
  · obtain rfl : i = n := by omega
    apply hs.goto <;> simp [hpc]

theorem Alternates.main_stop (hs : Alternates n s) (hpc : s.main = .stop) :
    Alternates n { s with stop := true, main := .clear .shutdown } :=
  { hs with
    within := trivial
    woken := by simpa [hpc, Round.index] using hs.woken
    slept := by simpa [hpc, Round.index] using hs.slept
    toMain_opened := False.elim
    stopped := by simp
    joined := False.elim }

/-- When main clears its note the wake it was last given has been slept on. -/
theorem Alternates.clear_consumed (hs : Alternates n s) {r : Round} (hpc : s.main = .clear r) :
    s.toMain.slept = s.toMain.woken := by
  have hwoken := hs.woken
  have hslept := hs.slept
  have hentered := hs.entered
  have hasked := hs.asked
  have hanswered := hs.answered
  simp only [hpc, MainPc.woken, MainPc.slept] at hwoken hslept
  omega

theorem Alternates.main_clear (hs : Alternates n s) {r : Round} (hpc : s.main = .clear r) :
    Alternates n { s with toMain := s.toMain.clear, main := .wake r } :=
  { hs with
    within := by simpa [hpc] using hs.within
    woken := by simpa [hpc] using hs.woken
    slept := by simpa [hpc] using hs.slept
    toMain_opened := fun _ => by simp [hs.clear_consumed hpc]
    stopped := by simpa [hpc] using hs.stopped
    joined := False.elim }

theorem Alternates.main_wake (hs : Alternates n s) {r : Round} (hpc : s.main = .wake r) :
    Alternates n { s with toWorker := s.toWorker.wake, main := .sleep r } :=
  { hs with
    within := by simpa [hpc] using hs.within
    woken := by simpa [hpc] using hs.woken
    slept := by simpa [hpc] using hs.slept
    asked := Nat.le_succ_of_le hs.asked
    toWorker_opened := by simpa using Or.inl (Nat.lt_succ_of_le hs.asked)
    toMain_opened := fun _ => hs.toMain_opened (by simp [hpc])
    stopped := by simpa [hpc] using hs.stopped
    joined := False.elim }

theorem Alternates.main_sleep (hs : Alternates n s) {r : Round} (hpc : s.main = .sleep r)
    (hopen : s.toMain.opened) :
    Alternates n { s with toMain := { s.toMain with slept := s.toMain.slept + 1 }, main := after r } := by
  have hconsumes := (hs.toMain_opened (by simp [hpc])).mp hopen
  have hwithin := hs.within
  have hwoken := hs.woken
  have hslept := hs.slept
  have hstopped := hs.stopped
  simp only [hpc, MainPc.Within, MainPc.woken, MainPc.slept, MainPc.Stopped]
    at hwithin hwoken hslept hstopped
  have hafter : (after r).Within n := by
    cases r with
    | timed i => exact Nat.succ_le_of_lt hwithin
    | shutdown => trivial
  refine { hs with within := hafter, woken := ?_, slept := ?_, answered := hconsumes, toMain_opened := ?_,
                     stopped := ?_, joined := ?_ } <;>
    cases r <;> simp_all [after, Round.index, Round.Within]

theorem alternates_mainStep (hs : Alternates n s) (h : mainStep n s = some s') :
    Alternates n s' := by
  unfold mainStep at h
  split at h <;> rename_i hpc
  · exact Option.some.inj h ▸ hs.main_loop hpc
  · exact Option.some.inj h ▸ hs.main_stop hpc
  · exact Option.some.inj h ▸ hs.main_clear hpc
  · exact Option.some.inj h ▸ hs.main_wake hpc
  · obtain ⟨note, hnote, rfl⟩ := Option.map_eq_some_iff.mp h
    obtain ⟨hopen, rfl⟩ := Note.sleep_eq_some hnote
    exact hs.main_sleep hpc hopen
  · split at h
    · obtain rfl := Option.some.inj h
      apply hs.goto <;> simp [*]
    · cases h
  · obtain rfl := Option.some.inj h
    have hjoined := hs.joined
    apply hs.goto <;> simp_all
  · obtain rfl := Option.some.inj h
    have hjoined := hs.joined
    apply hs.goto <;> simp_all
  · cases h

/-! ## A step of the worker -/

/-- While the worker is in a round main sleeps on the volley that opened it. -/
theorem Alternates.main_sleeping (hs : Alternates n s) (hin : s.worker.entered = 1) :
    ∃ r, s.main = .sleep r ∧ s.toMain.woken = r.index n := by
  have hwoken := hs.woken
  have hslept := hs.slept
  have hentered := hs.entered
  have hasked := hs.asked
  have hanswered := hs.answered
  cases hpc : s.main <;> simp only [hpc, MainPc.woken, MainPc.slept] at hwoken hslept <;> try omega
  exact ⟨_, rfl, by omega⟩

theorem Alternates.not_joined (hs : Alternates n s) (hworker : s.worker ≠ .returned) {w : WorkerPc}
    (h : s.main.Joined) : w = .returned := absurd (hs.joined h) hworker

theorem Alternates.worker_sleep (hs : Alternates n s) (hpc : s.worker = .sleep)
    (hopen : s.toWorker.opened) :
    Alternates n
      { s with toWorker := { s.toWorker with slept := s.toWorker.slept + 1 }, worker := .clear } := by
  have hconsumes : s.toWorker.slept < s.toWorker.woken := by
    simpa [hpc] using hs.toWorker_opened.mp hopen
  exact
    { hs with
      entered := by simpa [hpc] using hs.entered
      asked := hconsumes
      toWorker_opened := by simp [hopen]
      reads := by simpa [hpc] using hs.reads
      knows := trivial
      joined := hs.not_joined (by simp [hpc]) }

/-- When the worker clears its note the wake it was last given has been slept on. -/
theorem Alternates.worker_clear_consumed (hs : Alternates n s) (hpc : s.worker = .clear) :
    s.toWorker.slept = s.toWorker.woken := by
  obtain ⟨r, hmain, hround⟩ := hs.main_sleeping (by simp [hpc])
  have hwoken := hs.woken
  have hentered := hs.entered
  simp only [hmain, hpc, MainPc.woken, WorkerPc.entered] at hwoken hentered
  omega

theorem Alternates.worker_clear (hs : Alternates n s) (hpc : s.worker = .clear) :
    Alternates n { s with toWorker := s.toWorker.clear, worker := .load } :=
  { hs with
    entered := by simpa [hpc] using hs.entered
    toWorker_opened := by simp [hs.worker_clear_consumed hpc]
    reads := by simpa [hpc] using hs.reads
    knows := trivial
    joined := hs.not_joined (by simp [hpc]) }

/-- The flag the worker reads is set exactly in round n. -/
theorem Alternates.stop_iff (hs : Alternates n s) (hin : s.worker.entered = 1) :
    s.stop = decide (s.toMain.woken = n) := by
  obtain ⟨r, hmain, hround⟩ := hs.main_sleeping hin
  have hwithin : r.Within n := by simpa [hmain] using hs.within
  have hstopped := hs.stopped
  simp only [hmain, MainPc.Stopped] at hstopped
  rw [hround, Bool.eq_iff_iff, decide_eq_true_eq, hwithin.index_eq_iff, hstopped]

theorem Alternates.worker_load (hs : Alternates n s) (hpc : s.worker = .load) :
    Alternates n { s with reads := s.reads ++ [s.stop], worker := .wake s.stop } := by
  have hstop := hs.stop_iff (by simp [hpc])
  exact
    { hs with
      entered := by simpa [hpc] using hs.entered
      toWorker_opened := by simpa [hpc] using hs.toWorker_opened
      reads := by simp [hs.reads, hpc, hstop, List.range_succ]
      knows := hstop
      joined := hs.not_joined (by simp [hpc]) }

theorem Alternates.worker_wake (hs : Alternates n s) {done : Bool} (hpc : s.worker = .wake done) :
    Alternates n { s with toMain := s.toMain.wake, worker := .test done } := by
  obtain ⟨r, hmain, hround⟩ := hs.main_sleeping (by simp [hpc])
  have hknows := hs.knows
  simp only [hpc, WorkerPc.Knows] at hknows
  exact
    { hs with
      entered := by simpa [hpc] using hs.entered
      answered := Nat.le_succ_of_le hs.answered
      toWorker_opened := by simpa [hpc] using hs.toWorker_opened
      toMain_opened := fun _ => by simpa using Nat.lt_succ_of_le hs.answered
      reads := by simpa [hpc] using hs.reads
      knows := by simpa using hknows
      joined := hs.not_joined (by simp [hpc]) }

theorem Alternates.worker_test (hs : Alternates n s) {done : Bool} (hpc : s.worker = .test done) :
    Alternates n { s with worker := if done then .returned else .sleep } := by
  have hknows := hs.knows
  have hentered := hs.entered
  have hasked := hs.asked
  have hwoken := hs.woken
  have hle := hs.within.woken_le
  simp only [hpc, WorkerPc.Knows, WorkerPc.entered] at hknows hentered
  refine { hs with entered := ?_, toWorker_opened := ?_, reads := ?_, knows := ?_,
                     joined := hs.not_joined (by simp [hpc]) } <;>
    cases done <;> simp_all [hs.toWorker_opened, hs.reads]
  omega

theorem alternates_workerStep (hs : Alternates n s) (h : workerStep s = some s') :
    Alternates n s' := by
  unfold workerStep at h
  split at h <;> rename_i hpc
  · obtain ⟨note, hnote, rfl⟩ := Option.map_eq_some_iff.mp h
    obtain ⟨hopen, rfl⟩ := Note.sleep_eq_some hnote
    exact hs.worker_sleep hpc hopen
  · exact Option.some.inj h ▸ hs.worker_clear hpc
  · exact Option.some.inj h ▸ hs.worker_load hpc
  · exact Option.some.inj h ▸ hs.worker_wake hpc
  · exact Option.some.inj h ▸ hs.worker_test hpc
  · cases h

theorem alternates_step {a : Agent} (hs : Alternates n s) (h : step n a s = some s') :
    Alternates n s' := by
  cases a with
  | main => exact alternates_mainStep hs h
  | worker => exact alternates_workerStep hs h

/-! ## Progress -/

def mainLeft (n : ℕ) : MainPc → ℕ
  | .loop i => 5 * (n - i) + 9
  | .stop => 8
  | .clear r => 5 * (n - r.index n) + 7
  | .wake r => 5 * (n - r.index n) + 6
  | .sleep r => 5 * (n - r.index n) + 5
  | .join => 4
  | .freeToMain => 3
  | .freeToWorker => 2
  | .done => 0

/-- The steps the worker has left after `k` wakes of main. -/
def workerLeft (n k : ℕ) : WorkerPc → ℕ
  | .sleep => 5 * (n + 1 - k)
  | .clear => 5 * (n - k) + 4
  | .load => 5 * (n - k) + 3
  | .wake _ => 5 * (n - k) + 2
  | .test _ => 5 * (n + 1 - k) + 1
  | .returned => 0

def stepsLeft (n : ℕ) (s : State) : ℕ := mainLeft n s.main + workerLeft n s.toMain.woken s.worker

theorem mainLeft_after {r : Round} (h : r.Within n) : mainLeft n (after r) < mainLeft n (.sleep r) := by
  cases r with
  | timed i =>
    have hi : i < n := h
    simp only [after, mainLeft, Round.index]
    omega
  | shutdown => simp [after, mainLeft]

theorem mainStep_lowers (hs : Alternates n s) (h : mainStep n s = some s') :
    stepsLeft n s' < stepsLeft n s := by
  unfold mainStep at h
  split at h <;> rename_i hpc
  · obtain rfl := Option.some.inj h
    simp only [stepsLeft, hpc]
    split <;> simp [mainLeft, Round.index]
  · obtain rfl := Option.some.inj h
    simp [stepsLeft, hpc, mainLeft, Round.index]
  · obtain rfl := Option.some.inj h
    simp [stepsLeft, hpc, mainLeft]
  · obtain rfl := Option.some.inj h
    simp [stepsLeft, hpc, mainLeft]
  · obtain ⟨note, hnote, rfl⟩ := Option.map_eq_some_iff.mp h
    obtain ⟨_, rfl⟩ := Note.sleep_eq_some hnote
    have hwithin := hs.within
    rw [hpc] at hwithin
    simpa [stepsLeft, hpc] using mainLeft_after hwithin
  · split at h
    · obtain rfl := Option.some.inj h
      simp [stepsLeft, hpc, mainLeft]
    · cases h
  · obtain rfl := Option.some.inj h
    simp [stepsLeft, hpc, mainLeft]
  · obtain rfl := Option.some.inj h
    simp [stepsLeft, hpc, mainLeft]
  · cases h

theorem Alternates.in_round (hs : Alternates n s) (hin : s.worker.entered = 1) :
    s.toMain.woken ≤ n := by
  obtain ⟨r, hmain, hround⟩ := hs.main_sleeping hin
  have hwithin := hs.within
  rw [hmain] at hwithin
  exact hround ▸ hwithin.index_le

theorem workerStep_lowers (hs : Alternates n s) (h : workerStep s = some s') :
    stepsLeft n s' < stepsLeft n s := by
  unfold workerStep at h
  split at h <;> rename_i hpc
  · obtain ⟨note, hnote, rfl⟩ := Option.map_eq_some_iff.mp h
    have hknows := hs.knows
    simp only [hpc, WorkerPc.Knows] at hknows
    simp only [stepsLeft, hpc, workerLeft]
    omega
  · obtain rfl := Option.some.inj h
    simp [stepsLeft, hpc, workerLeft]
  · obtain rfl := Option.some.inj h
    simp [stepsLeft, hpc, workerLeft]
  · obtain rfl := Option.some.inj h
    have hround := hs.in_round (by simp [hpc])
    simp [stepsLeft, hpc, workerLeft]
  · obtain rfl := Option.some.inj h
    simp only [stepsLeft, hpc]
    split <;> simp [workerLeft]
  · cases h

theorem step_lowers {a : Agent} (hs : Alternates n s) (h : step n a s = some s') :
    stepsLeft n s' < stepsLeft n s := by
  cases a with
  | main => exact mainStep_lowers hs h
  | worker => exact workerStep_lowers hs h

theorem worker_moves (hreturned : s.worker ≠ .returned) (hopen : s.worker = .sleep → s.toWorker.opened) :
    (step n .worker s).isSome := by
  cases hpc : s.worker with
  | sleep => simp [step, workerStep, hpc, Note.sleep, hopen hpc]
  | returned => exact absurd hpc hreturned
  | _ => simp [step, workerStep, hpc]

/-- A main that sleeps on a closed note is owed a wake by a worker that can move. -/
theorem Alternates.owed (hs : Alternates n s) {r : Round} (hmain : s.main = .sleep r)
    (hclosed : ¬ s.toMain.opened) : (step n .worker s).isSome := by
  have hwoken := hs.woken
  have hslept := hs.slept
  have hentered := hs.entered
  have hanswered := hs.answered
  have hknows := hs.knows
  have hwithin : r.Within n := by simpa [hmain] using hs.within
  have hindex := hwithin.index_le
  have hnone : ¬ s.toMain.slept < s.toMain.woken :=
    fun h => hclosed ((hs.toMain_opened (by simp [hmain])).mpr h)
  simp only [hmain, MainPc.woken, MainPc.slept] at hwoken hslept
  refine worker_moves ?_ ?_ <;> intro hpc <;>
    simp only [hpc, WorkerPc.Knows, WorkerPc.entered] at hknows hentered
  · omega
  · exact hs.toWorker_opened.mpr (Or.inl (by omega))

/-- Main joins a worker that has been woken for the last time. -/
theorem Alternates.joining (hs : Alternates n s) (hmain : s.main = .join) (hpc : s.worker = .sleep) :
    s.toWorker.opened := by
  have hslept := hs.slept
  have hanswered := hs.answered
  have hknows := hs.knows
  simp only [hmain, hpc, MainPc.slept, WorkerPc.Knows] at hslept hknows
  omega

/-- Short of the end one of the threads can move. -/
theorem Alternates.moves (hs : Alternates n s) :
    (s.main = .done ∧ s.worker = .returned) ∨ ∃ a, (step n a s).isSome := by
  cases hmain : s.main with
  | sleep r =>
    by_cases hopen : s.toMain.opened
    · exact Or.inr ⟨.main, by simp [step, mainStep, hmain, Note.sleep, hopen]⟩
    · exact Or.inr ⟨.worker, hs.owed hmain hopen⟩
  | join =>
    by_cases hpc : s.worker = .returned
    · exact Or.inr ⟨.main, by simp [step, mainStep, hmain, hpc]⟩
    · exact Or.inr ⟨.worker, worker_moves hpc (hs.joining hmain)⟩
  | done => exact Or.inl ⟨rfl, hs.joined (by simp [hmain])⟩
  | _ => exact Or.inr ⟨.main, by simp [step, mainStep, hmain]⟩

/-! ## The ping pong -/

/-- What holds of a state whatever the schedule was. -/
structure NoLostWakeup (n : ℕ) (s : State) : Prop where
  main_clears : ∀ r, s.main = .clear r → s.toMain.slept = s.toMain.woken
  worker_clears : s.worker = .clear → s.toWorker.slept = s.toWorker.woken
  one_wake_at_a_time :
    s.toWorker.slept ≤ s.toWorker.woken ∧ s.toWorker.woken ≤ s.toWorker.slept + 1 ∧
      s.toMain.slept ≤ s.toMain.woken ∧ s.toMain.woken ≤ s.toMain.slept + 1
  not_both_asleep : ¬ ((∃ r, s.main = .sleep r) ∧ ¬ s.toMain.opened ∧
    s.worker = .sleep ∧ ¬ s.toWorker.opened)
  stop_read : ∀ (k : ℕ) (b : Bool), s.reads[k]? = some b → (b ↔ k = n)
  rounds : s.reads.length ≤ n + 1
  returned : s.worker = .returned → s.reads.length = n + 1
  freed_after_return :
    s.main = .freeToMain ∨ s.main = .freeToWorker ∨ s.main = .done → s.worker = .returned

theorem Alternates.woken_le_slept (hs : Alternates n s) :
    s.toWorker.woken ≤ s.toMain.slept + 1 := by
  rw [hs.woken, hs.slept]
  cases s.main <;> simp

theorem Alternates.read_le (hs : Alternates n s) : s.toMain.woken + s.worker.read ≤ n + 1 := by
  have hwoken := hs.woken
  have hentered := hs.entered
  have hasked := hs.asked
  have hle := hs.within.woken_le
  cases hpc : s.worker <;> simp only [hpc, WorkerPc.entered, WorkerPc.read] at hentered ⊢ <;> omega

theorem Alternates.noLostWakeup (hs : Alternates n s) : NoLostWakeup n s where
  main_clears _ := hs.clear_consumed
  worker_clears := hs.worker_clear_consumed
  one_wake_at_a_time := by
    have hahead := hs.woken_le_slept
    have hentered := hs.entered
    have hasked := hs.asked
    have hanswered := hs.answered
    omega
  not_both_asleep := by
    rintro ⟨⟨r, hmain⟩, hclosed, hpc, hclosed'⟩
    have hmoves := hs.owed hmain hclosed
    simp [step, workerStep, hpc, Note.sleep, hclosed'] at hmoves
  stop_read k b h := by
    rw [hs.reads, List.getElem?_map, Option.map_eq_some_iff] at h
    obtain ⟨j, hj, rfl⟩ := h
    obtain ⟨_, rfl⟩ := List.getElem?_eq_some_iff.mp hj
    simp
  rounds := by simpa [hs.reads] using hs.read_le
  returned hpc := by
    have hknows := hs.knows
    simp only [hpc, WorkerPc.Knows] at hknows
    simp [hs.reads, hpc, hknows]
  freed_after_return h := hs.joined (by rcases h with h | h | h <;> simp [h])

theorem terminates (n : ℕ) :
    Terminates (step n) (Alternates n) (fun s => s.main = .done ∧ s.worker = .returned) (stepsLeft n) where
  keep _ _ _ := alternates_step
  lower _ _ _ := step_lowers
  progress _ hs := hs.moves

/-- Whatever the schedule no wakeup is lost, and a run is over after 10n + 14 steps at most,
with both threads at their ends. -/
theorem notes_lose_no_wakeup (n : ℕ) (schedule : List Agent) (s : State)
    (h : run (step n) schedule start = some s) :
    NoLostWakeup n s ∧
    ((s.main = .done ∧ s.worker = .returned) ∨ ∃ a, (step n a s).isSome) ∧
    schedule.length ≤ 10 * n + 14 := by
  obtain ⟨hs, hlength, hmoves⟩ := (terminates n).run_spec (alternates_start n) h
  refine ⟨hs.noLostWakeup, hmoves, ?_⟩
  have hleft : stepsLeft n start = 10 * n + 14 := by
    simp [stepsLeft, start, mainLeft, workerLeft, Note.init]
    omega
  exact hleft ▸ hlength

/-- A run of one timed round and the shutdown, to the end. -/
theorem notes_lose_no_wakeup_one :
    NoLostWakeup 1 ⟨.done, .returned, ⟨false, 2, 2⟩, ⟨true, 2, 2⟩, true, [false, true]⟩ :=
  (notes_lose_no_wakeup 1
    ([.main, .main, .main] ++ List.replicate 5 .worker ++ List.replicate 5 .main ++ List.replicate 5 .worker ++
      List.replicate 4 .main)
    ⟨.done, .returned, ⟨false, 2, 2⟩, ⟨true, 2, 2⟩, true, [false, true]⟩ (by decide)).1

end BurrowBench.Scheduler.NotePingpong
