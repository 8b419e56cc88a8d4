import BurrowBench.Scheduler.Gate
import Mathlib.Data.Int.Notation

/-! # The ping pong through one Cond

pp_body and pp_partner take turns under a mutex and wait on one condition variable. A
wait releases the mutex and queues its goroutine in one step, a signal is sent after the
unlock and takes one goroutine off the queue if there is any, and a goroutine may leave
the queue for no reason at all. The start is after a successful launch of the partner.
-/
namespace BurrowBench.Scheduler.CondPingpong
open Interleaving

inductive Goroutine where
  | body
  | partner
  deriving DecidableEq

/-- What a signal leaves of a queue. -/
structure Notify where
  rest : List Goroutine → List Goroutine
  rest_nil : rest [] = []
  wakes_one : ∀ q, q ≠ [] → ∃ g ∈ q, rest q = q.erase g

def Notify.fifo : Notify where
  rest := List.tail
  rest_nil := rfl
  wakes_one
    | [], h => absurd rfl h
    | g :: q, _ => ⟨g, List.mem_cons_self, by simp⟩

inductive BodyPc where
  | loop (i : ℕ)
  | lock (r : Round)
  | setStop
  | setTurn (r : Round)
  | unlock (r : Round)
  | signal (r : Round)
  | lockAgain (i : ℕ)
  | test (i : ℕ)
  | waiting (i : ℕ)
  | unlockAgain (i : ℕ)
  | poll
  | returned
  deriving DecidableEq

inductive PartnerPc where
  | lock
  | test
  | waiting
  | load
  | setTurn (stop : Bool)
  | unlock (stop : Bool)
  | signal (stop : Bool)
  | leave (stop : Bool)
  | store
  | returned
  deriving DecidableEq

/-- The shared variables and both goroutines. A ghost logs who wrote what to pp_turn. -/
structure State where
  body : BodyPc
  partner : PartnerPc
  mutex : Option Goroutine
  queue : List Goroutine
  turn : ℤ
  stop : Bool
  done : ℤ
  writes : List (Goroutine × ℤ)
  deriving DecidableEq

def start : State where
  body := .loop 0
  partner := .lock
  mutex := none
  queue := []
  turn := 0
  stop := false
  done := 0
  writes := []

def final (n : ℕ) : State where
  body := .returned
  partner := .returned
  mutex := none
  queue := []
  turn := 0
  stop := true
  done := 1
  writes := (List.range (2 * n + 2)).map fun k => if k % 2 = 0 then (.body, 1) else (.partner, 0)

namespace State

/-- sync_mutex_lock -/
def lock (s : State) (g : Goroutine) : Option State :=
  if s.mutex = none then some { s with mutex := some g } else none

/-- sync_mutex_unlock -/
def unlock (s : State) : State := { s with mutex := none }

/-- The first half of sync_cond_wait; the second is a lock by a goroutine off the queue. -/
def wait (s : State) (g : Goroutine) : State := { s with mutex := none, queue := s.queue ++ [g] }

/-- sync_cond_signal -/
def signal (s : State) (notify : Notify) : State := { s with queue := notify.rest s.queue }

/-- sync_cond_broadcast -/
def broadcast (s : State) : State := { s with queue := [] }

def write (s : State) (g : Goroutine) (turn : ℤ) : State :=
  { s with turn := turn, writes := s.writes ++ [(g, turn)] }

end State

def bodyStep (notify : Notify) (n : ℕ) (s : State) : Option State :=
  match s.body with
  | .loop i => some { s with body := .lock (if i < n then .timed i else .shutdown) }
  | .lock r => (s.lock .body).map fun s =>
      { s with body := if r = .shutdown then .setStop else .setTurn r }
  | .setStop => some { s with stop := true, body := .setTurn .shutdown }
  | .setTurn r => some { s.write .body 1 with body := .unlock r }
  | .unlock r => some { s.unlock with body := .signal r }
  | .signal (.timed i) => some { s.signal notify with body := .lockAgain i }
  | .signal .shutdown => some { s.broadcast with body := .poll }
  | .lockAgain i => (s.lock .body).map fun s => { s with body := .test i }
  | .test i =>
    if s.turn ≠ 0 then some { s.wait .body with body := .waiting i }
    else some { s with body := .unlockAgain i }
  | .waiting i =>
    if s.queue.contains .body then none else (s.lock .body).map fun s => { s with body := .test i }
  | .unlockAgain i => some { s.unlock with body := .loop (i + 1) }
  | .poll => some (if s.done = 0 then s else { s with body := .returned })
  | .returned => none

def partnerStep (notify : Notify) (s : State) : Option State :=
  match s.partner with
  | .lock => (s.lock .partner).map fun s => { s with partner := .test }
  | .test =>
    if s.turn ≠ 1 then some { s.wait .partner with partner := .waiting }
    else some { s with partner := .load }
  | .waiting =>
    if s.queue.contains .partner then none
    else (s.lock .partner).map fun s => { s with partner := .test }
  | .load => some { s with partner := .setTurn s.stop }
  | .setTurn stop => some { s.write .partner 0 with partner := .unlock stop }
  | .unlock stop => some { s.unlock with partner := .signal stop }
  | .signal stop => some { s.signal notify with partner := .leave stop }
  | .leave stop => some { s with partner := if stop then .store else .lock }
  | .store => some { s with done := 1, partner := .returned }
  | .returned => none

inductive Agent where
  | run (g : Goroutine)
  | spurious (g : Goroutine)
  deriving DecidableEq

def step (notify : Notify) (n : ℕ) : Agent → State → Option State
  | .run .body, s => bodyStep notify n s
  | .run .partner, s => partnerStep notify s
  | .spurious g, s => if s.queue.contains g then some { s with queue := s.queue.erase g } else none

/-! ## What the program counters say -/

namespace BodyPc

@[simp] def Within (n : ℕ) : BodyPc → Prop
  | .loop i => i ≤ n
  | .lock r | .setTurn r | .unlock r | .signal r => r.Within n
  | .lockAgain i | .test i | .waiting i | .unlockAgain i => i < n
  | _ => True

@[simp] def opened (n : ℕ) : BodyPc → ℕ
  | .loop i => i
  | .lock r | .setTurn r => r.index n
  | .unlock r | .signal r => r.index n + 1
  | .setStop => n
  | .lockAgain i | .test i | .waiting i | .unlockAgain i => i + 1
  | _ => n + 1

@[simp] def Answered : BodyPc → Prop
  | .loop _ | .lock _ | .setStop | .setTurn _ | .unlockAgain _ => True
  | _ => False

@[simp] def Holds : BodyPc → Prop
  | .setStop | .setTurn _ | .unlock _ | .test _ | .unlockAgain _ => True
  | _ => False

@[simp] def Waiting : BodyPc → Prop
  | .waiting _ => True
  | _ => False

/-- The signal for the turn it has set is still to come. -/
@[simp] def Signals : BodyPc → Prop
  | .unlock _ | .signal _ => True
  | _ => False

@[simp] def Stopped : BodyPc → Prop
  | .setTurn r | .unlock r | .signal r => r = .shutdown
  | .poll | .returned => True
  | _ => False

end BodyPc

namespace PartnerPc

@[simp] def Taking : PartnerPc → Prop
  | .load | .setTurn _ => True
  | _ => False

@[simp] def Holds : PartnerPc → Prop
  | .test | .load | .setTurn _ | .unlock _ => True
  | _ => False

@[simp] def Signals : PartnerPc → Prop
  | .unlock _ | .signal _ => True
  | _ => False

/-- What the partner knows of the stop flag after `k` turns. -/
@[simp] def Knows (n k : ℕ) : PartnerPc → Prop
  | .lock | .test | .waiting => k ≤ n
  | .load => True
  | .setTurn stop => stop = decide (k = n)
  | .unlock stop | .signal stop | .leave stop => stop = decide (k = n + 1)
  | .store | .returned => k = n + 1

end PartnerPc

/-! ## The invariant -/

/-- The write of that number to pp_turn. -/
def write (k : ℕ) : Goroutine × ℤ := if k % 2 = 0 then (.body, 1) else (.partner, 0)

/-- A queued goroutine has the turn against it, or the signal it waits for is still to come. -/
def Queued (s : State) : Prop :=
  s.queue = [] ∨
  (s.queue = [.body] ∧ s.body.Waiting ∧ (s.writes.length % 2 = 1 ∨ s.partner.Signals)) ∨
  (s.queue = [.partner] ∧ s.partner = .waiting ∧ (s.writes.length % 2 = 0 ∨ s.body.Signals))

structure TakesTurns (n : ℕ) (s : State) : Prop where
  writes : s.writes = (List.range s.writes.length).map write
  turn : s.turn = (s.writes.length % 2 : ℕ)
  within : s.body.Within n
  opened : (s.writes.length + 1) / 2 = s.body.opened n
  answered : s.body.Answered → s.writes.length % 2 = 0
  taking : s.partner.Taking → s.writes.length % 2 = 1
  body_holds : s.mutex = some .body ↔ s.body.Holds
  partner_holds : s.mutex = some .partner ↔ s.partner.Holds
  queued : Queued s
  stopped : s.stop ↔ s.body.Stopped
  knows : s.partner.Knows n (s.writes.length / 2)
  done : s.done = if s.partner = .returned then 1 else 0
  returned : s.body = .returned → s.partner = .returned

theorem takesTurns_start (n : ℕ) : TakesTurns n start := by
  constructor <;> simp [start, Queued]

variable {notify : Notify} {n : ℕ} {s s' : State}

theorem Notify.rest_singleton (g : Goroutine) : notify.rest [g] = [] := by
  obtain ⟨g', hmem, hrest⟩ := notify.wakes_one [g] (by simp)
  rw [hrest, List.mem_singleton.mp hmem]
  simp

theorem Queued.rest (h : Queued s) : notify.rest s.queue = [] := by
  rcases h with h | ⟨h, _⟩ | ⟨h, _⟩
  · rw [h, notify.rest_nil]
  · rw [h, Notify.rest_singleton]
  · rw [h, Notify.rest_singleton]

theorem Queued.body_notMem (h : Queued s) (hpc : ¬ s.body.Waiting) : .body ∉ s.queue := by
  rcases h with h | ⟨_, hwaiting, _⟩ | ⟨h, _⟩
  · simp [h]
  · exact absurd hwaiting hpc
  · simp [h]

theorem Queued.partner_notMem (h : Queued s) (hpc : s.partner ≠ .waiting) : .partner ∉ s.queue := by
  rcases h with h | ⟨h, _⟩ | ⟨_, hwaiting, _⟩
  · simp [h]
  · simp [h]
  · exact absurd hwaiting hpc

theorem Queued.body_moves (h : Queued s) (hoff : .body ∉ s.queue) {pc : BodyPc}
    {mutex : Option Goroutine} {stop : Bool}
    (hsignals : s.queue ≠ [] → s.body.Signals → s.writes.length % 2 = 0 ∨ pc.Signals) :
    Queued { s with body := pc, mutex := mutex, stop := stop } := by
  rcases h with h | ⟨h, _⟩ | ⟨h, hwaiting, hturn⟩
  · exact Or.inl h
  · simp [h] at hoff
  · exact Or.inr (Or.inr ⟨h, hwaiting, hturn.elim Or.inl (hsignals (by simp [h]))⟩)

theorem Queued.partner_moves (h : Queued s) (hoff : .partner ∉ s.queue) {pc : PartnerPc}
    {mutex : Option Goroutine} {done : ℤ}
    (hsignals : s.queue ≠ [] → s.partner.Signals → s.writes.length % 2 = 1 ∨ pc.Signals) :
    Queued { s with partner := pc, mutex := mutex, done := done } := by
  rcases h with h | ⟨h, hwaiting, hturn⟩ | ⟨h, _⟩
  · exact Or.inl h
  · exact Or.inr (Or.inl ⟨h, hwaiting, hturn.elim Or.inl (hsignals (by simp [h]))⟩)
  · simp [h] at hoff

end BurrowBench.Scheduler.CondPingpong
