import BurrowBench.Foundation.Interleaving

/-! # The gate and the two goroutines that volley on it

hand_body wakes hand_child through one gate and waits on the other; hand_child does the
reverse. The critical section of a gate call is one step. A goroutine that parks stays
where gate_wait returns until some sched_ready, a step of its own after the unlock, makes
it runnable. The start is after a successful launch of the child.
-/
namespace BurrowBench.Scheduler

inductive Goroutine where
  | body
  | child
  deriving DecidableEq

structure Gate where
  waiter : Option Goroutine
  signalled : Bool
  deriving DecidableEq

@[simp] def Gate.empty : Gate := { waiter := none, signalled := false }

/-- The critical section of gate_wait, and whether the caller parks at its end. -/
def Gate.wait (gt : Gate) (self : Goroutine) : Gate × Bool :=
  if gt.signalled then ({ gt with signalled := false }, false)
  else ({ gt with waiter := some self }, true)

/-- The critical section of gate_signal, and the goroutine to make ready after it. -/
def Gate.signal (gt : Gate) : Gate × Option Goroutine :=
  match gt.waiter with
  | none => ({ gt with signalled := true }, none)
  | some w => ({ gt with waiter := none }, some w)

/-- The rounds of a ping pong: those of BENCH_LOOP and one more, for which a stop flag has been set. -/
inductive Round where
  | timed (i : ℕ)
  | shutdown
  deriving DecidableEq

namespace Round
variable {n : ℕ} {r : Round}

def index (n : ℕ) : Round → ℕ
  | .timed i => i
  | .shutdown => n

def Within (n : ℕ) : Round → Prop
  | .timed i => i < n
  | .shutdown => True

theorem Within.index_le (h : r.Within n) : r.index n ≤ n := by
  cases r with
  | timed i => exact Nat.le_of_lt h
  | shutdown => exact Nat.le_refl n

theorem Within.index_eq_iff (h : r.Within n) : r.index n = n ↔ r = .shutdown := by
  cases r with
  | timed i =>
    have hi : i < n := h
    simp [index, Nat.ne_of_lt hi]
  | shutdown => simp [index]

end Round

/-- The volleys of hand_body: one outside the clock, those of BENCH_LOOP, and the last
one with hand_stop set. -/
inductive Volley where
  | warmUp
  | timed (i : ℕ)
  | shutdown
  deriving DecidableEq

inductive BodyPc where
  | signal (v : Volley)
  | ready (v : Volley) (w : Goroutine)
  | wait (v : Volley)
  | loop (i : ℕ)
  | stop
  | poll
  | done
  deriving DecidableEq

/-- Where hand_child stands. After the load it keeps what it read of hand_stop. -/
inductive ChildPc where
  | wait
  | load
  | signal (stop : Bool)
  | ready (stop : Bool) (w : Goroutine)
  | test (stop : Bool)
  | leave
  | done
  deriving DecidableEq

structure Thread (Pc : Type) where
  pc : Pc
  parked : Bool
  deriving DecidableEq

/-- The shared variables and both goroutines. Two fields are ghosts: the rounds the child
has completed and, for each signal to hand_there, whether hand_stop was set before it. -/
structure State where
  body : Thread BodyPc
  child : Thread ChildPc
  there : Gate
  back : Gate
  stop : Bool
  gone : ℕ
  rounds : ℕ
  opened : List Bool
  deriving DecidableEq

def start : State where
  body := { pc := .signal .warmUp, parked := false }
  child := { pc := .wait, parked := false }
  there := .empty
  back := .empty
  stop := false
  gone := 0
  rounds := 0
  opened := []

/-- sched_ready -/
def State.ready (s : State) : Goroutine → State
  | .body => { s with body := { s.body with parked := false } }
  | .child => { s with child := { s.child with parked := false } }

@[simp] def State.bodyAt (s : State) (pc : BodyPc) : State := { s with body := { s.body with pc } }
@[simp] def State.childAt (s : State) (pc : ChildPc) : State := { s with child := { s.child with pc } }

def Volley.after : Volley → BodyPc
  | .warmUp => .loop 0
  | .timed i => .loop (i + 1)
  | .shutdown => .poll

def bodyStep (n : ℕ) (s : State) : Option State :=
  match s.body.pc with
  | .signal v =>
    let (gt, w) := s.there.signal
    some ({ s with there := gt, opened := s.opened ++ [s.stop] }.bodyAt
      (match w with | none => .wait v | some w => .ready v w))
  | .ready v w => some ((s.ready w).bodyAt (.wait v))
  | .wait v =>
    let (gt, parked) := s.back.wait .body
    some { s with back := gt, body := { pc := v.after, parked } }
  | .loop i => some (s.bodyAt (if i < n then .signal (.timed i) else .stop))
  | .stop => some ({ s with stop := true }.bodyAt (.signal .shutdown))
  | .poll => some (if s.gone = 0 then s else s.bodyAt .done)
  | .done => none

def childStep (s : State) : Option State :=
  match s.child.pc with
  | .wait =>
    let (gt, parked) := s.there.wait .child
    some { s with there := gt, child := { pc := .load, parked } }
  | .load => some (s.childAt (.signal s.stop))
  | .signal stop =>
    let (gt, w) := s.back.signal
    some ({ s with back := gt }.childAt
      (match w with | none => .test stop | some w => .ready stop w))
  | .ready stop w => some ((s.ready w).childAt (.test stop))
  | .test stop =>
    some ({ s with rounds := s.rounds + 1 }.childAt (if stop then .leave else .wait))
  | .leave => some ({ s with gone := s.gone + 1 }.childAt .done)
  | .done => none

/-- The next step of a goroutine that is not parked. -/
def step (n : ℕ) (g : Goroutine) (s : State) : Option State :=
  match g with
  | .body => if s.body.parked then none else bodyStep n s
  | .child => if s.child.parked then none else childStep s

/-- Where a handoff of n iterations ends. -/
def final (n : ℕ) : State where
  body := { pc := .done, parked := false }
  child := { pc := .done, parked := false }
  there := .empty
  back := .empty
  stop := true
  gone := 1
  rounds := n + 2
  opened := List.replicate (n + 1) false ++ [true]

end BurrowBench.Scheduler
