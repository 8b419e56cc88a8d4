import BurrowBench.Scheduler.Gate

/-! # The phases of a volley

Of all the states two program counters and two gates could be in, a handoff visits few:
the body is ahead of its signal and the child between rounds, or the signal is on its
way, or the child is in its round with the body waiting, or the answer is on its way.
The phases are a system of their own, and each stands for one state of the goroutines.
-/
namespace BurrowBench.Scheduler
open Interleaving

/-- The child between two rounds: yet to go back to its gate, on its way into it, parked. -/
inductive Between where
  | test
  | wait
  | parked
  deriving DecidableEq

/-- The body after its signal. -/
inductive Caller where
  | wait
  | parked
  deriving DecidableEq

/-- The body after the last answer, and the child after giving it. -/
inductive Closing where
  | answered
  | poll
  | done
  deriving DecidableEq

inductive Leaving where
  | test
  | leave
  | done
  deriving DecidableEq

inductive Phase where
  | ahead (pc : BodyPc) (c : Between)
  | sent (v : Volley) (b : Caller) (c : Between)
  | waking (v : Volley)
  | round (v : Volley) (b : Caller) (loaded : Bool)
  | answered (v : Volley) (c : Between)
  | returning (v : Volley)
  | closing (b : Closing) (c : Leaving)
  deriving DecidableEq

def Volley.index (n : ℕ) : Volley → ℕ
  | .warmUp => 0
  | .timed i => i + 1
  | .shutdown => n + 1

/-- How many volleys are over when the body is ahead of a signal. -/
def completed (n : ℕ) : BodyPc → ℕ
  | .signal v => v.index n
  | .loop i => i + 1
  | _ => n + 1

/-- Whether each of the first signals to hand_there came after hand_stop was set. -/
def openings (n k : ℕ) : List Bool := (List.range k).map fun j => decide (n < j)

/-! ## The state of a phase -/

@[simp] def Between.thread : Between → Thread ChildPc
  | .test => { pc := .test false, parked := false }
  | .wait => { pc := .wait, parked := false }
  | .parked => { pc := .load, parked := true }

@[simp] def Between.waiter : Between → Option Goroutine
  | .parked => some .child
  | _ => none

/-- Rounds counted when `k` have been answered: the last one counts at its test. -/
@[simp] def Between.rounds (k : ℕ) : Between → ℕ
  | .test => k - 1
  | _ => k

@[simp] def Caller.thread (v : Volley) : Caller → Thread BodyPc
  | .wait => { pc := .wait v, parked := false }
  | .parked => { pc := v.after, parked := true }

@[simp] def Caller.waiter : Caller → Option Goroutine
  | .wait => none
  | .parked => some .body

@[simp] def Closing.pc : Closing → BodyPc
  | .answered => .wait .shutdown
  | .poll => .poll
  | .done => .done

@[simp] def Leaving.pc : Leaving → ChildPc
  | .test => .test true
  | .leave => .leave
  | .done => .done

@[simp] def Phase.state (n : ℕ) : Phase → State
  | .ahead pc c =>
    { body := { pc, parked := false }, child := c.thread
      there := { waiter := c.waiter, signalled := false }, back := .empty
      stop := pc = .signal .shutdown, gone := 0
      rounds := c.rounds (completed n pc), opened := openings n (completed n pc) }
  | .sent v b c =>
    { body := b.thread v, child := c.thread
      there := { waiter := none, signalled := true }, back := { waiter := b.waiter, signalled := false }
      stop := v = .shutdown, gone := 0
      rounds := c.rounds (v.index n), opened := openings n (v.index n + 1) }
  | .waking v =>
    { body := { pc := .ready v .child, parked := false }, child := { pc := .load, parked := true }
      there := .empty, back := .empty
      stop := v = .shutdown, gone := 0
      rounds := v.index n, opened := openings n (v.index n + 1) }
  | .round v b loaded =>
    { body := b.thread v
      child := { pc := if loaded then .signal (v = .shutdown) else .load, parked := false }
      there := .empty, back := { waiter := b.waiter, signalled := false }
      stop := v = .shutdown, gone := 0
      rounds := v.index n, opened := openings n (v.index n + 1) }
  | .answered v c =>
    { body := { pc := .wait v, parked := false }, child := c.thread
      there := { waiter := c.waiter, signalled := false }, back := { waiter := none, signalled := true }
      stop := false, gone := 0
      rounds := c.rounds (v.index n + 1), opened := openings n (v.index n + 1) }
  | .returning v =>
    { body := { pc := v.after, parked := true }
      child := { pc := .ready (v = .shutdown) .body, parked := false }
      there := .empty, back := .empty
      stop := v = .shutdown, gone := 0
      rounds := v.index n, opened := openings n (v.index n + 1) }
  | .closing b c =>
    { body := { pc := b.pc, parked := false }, child := { pc := c.pc, parked := false }
      there := .empty, back := { waiter := none, signalled := b = .answered }
      stop := true, gone := if c = .done then 1 else 0
      rounds := if c = .test then n + 1 else n + 2, opened := openings n (n + 2) }

/-! ## The phases that occur -/

def Volley.Within (n : ℕ) : Volley → Prop
  | .timed i => i < n
  | _ => True

def Ahead (n : ℕ) : BodyPc → Prop
  | .signal v => v.Within n
  | .loop i => i ≤ n
  | .stop => True
  | _ => False

def Phase.Valid (n : ℕ) : Phase → Prop
  | .ahead pc c => Ahead n pc ∧ (c = .test → 0 < completed n pc)
  | .sent v _ c => v.Within n ∧ c ≠ .parked ∧ (c = .test → 0 < v.index n)
  | .waking v => v.Within n
  | .round v _ _ => v.Within n
  | .answered v _ => v.Within n ∧ v ≠ .shutdown
  | .returning v => v.Within n
  | .closing b c => b = .done → c = .done

/-! ## The steps between phases -/

def bodyPhase (n : ℕ) : Phase → Option Phase
  | .ahead (.loop i) c => some (.ahead (if i < n then .signal (.timed i) else .stop) c)
  | .ahead .stop c => some (.ahead (.signal .shutdown) c)
  | .ahead (.signal v) .parked => some (.waking v)
  | .ahead (.signal v) c => some (.sent v .wait c)
  | .ahead _ _ => none
  | .sent v .wait c => some (.sent v .parked c)
  | .sent _ .parked _ => none
  | .waking v => some (.round v .wait false)
  | .round v .wait loaded => some (.round v .parked loaded)
  | .round _ .parked _ => none
  | .answered v c => some (.ahead v.after c)
  | .returning _ => none
  | .closing .answered c => some (.closing .poll c)
  | .closing .poll .done => some (.closing .done .done)
  | .closing .poll c => some (.closing .poll c)
  | .closing .done _ => none

def childPhase : Phase → Option Phase
  | .ahead pc .test => some (.ahead pc .wait)
  | .ahead pc .wait => some (.ahead pc .parked)
  | .ahead _ .parked => none
  | .sent v b .test => some (.sent v b .wait)
  | .sent v b .wait => some (.round v b false)
  | .sent _ _ .parked => none
  | .waking _ => none
  | .round v b false => some (.round v b true)
  | .round .shutdown .wait true => some (.closing .answered .test)
  | .round v .wait true => some (.answered v .test)
  | .round v .parked true => some (.returning v)
  | .answered v .test => some (.answered v .wait)
  | .answered v .wait => some (.answered v .parked)
  | .answered _ .parked => none
  | .returning .shutdown => some (.closing .poll .test)
  | .returning v => some (.ahead v.after .test)
  | .closing b .test => some (.closing b .leave)
  | .closing b .leave => some (.closing b .done)
  | .closing _ .done => none

def phaseStep (n : ℕ) : Goroutine → Phase → Option Phase
  | .body => bodyPhase n
  | .child => childPhase

theorem openings_succ (n k : ℕ) : openings n (k + 1) = openings n k ++ [decide (n < k)] := by
  simp [openings, List.range_succ]

/-- Only the signal of the last volley comes after hand_stop. -/
theorem Volley.Within.lt_index {n : ℕ} {v : Volley} (h : v.Within n) :
    n < v.index n ↔ v = .shutdown := by
  cases v with
  | warmUp => simp [Volley.index]
  | timed i =>
    have hi : i < n := h
    simp [Volley.index]
    omega
  | shutdown => simp [Volley.index]

theorem Volley.Within.openings {n : ℕ} {v : Volley} (h : v.Within n) :
    openings n (v.index n + 1) = openings n (v.index n) ++ [decide (v = .shutdown)] := by
  rw [openings_succ, decide_eq_decide.mpr h.lt_index]

theorem Volley.completed_after {n : ℕ} {v : Volley} (h : v ≠ .shutdown) :
    completed n v.after = v.index n + 1 := by
  cases v with
  | warmUp => rfl
  | timed i => rfl
  | shutdown => exact absurd rfl h

theorem body_step {n : ℕ} {p : Phase} (h : p.Valid n) :
    step n .body (p.state n) = (bodyPhase n p).map (Phase.state n) := by
  cases p with
  | ahead pc c =>
    cases pc with
    | signal v =>
      have hopen := Volley.Within.openings h.1
      cases c <;> simp [step, bodyStep, bodyPhase, Gate.signal, completed, hopen]
    | ready v w => exact absurd h.1 id
    | wait v => exact absurd h.1 id
    | loop i =>
      have hi : i ≤ n := h.1
      by_cases hin : i < n
      · simp [step, bodyStep, bodyPhase, completed, Volley.index, hin]
      · obtain rfl : i = n := by omega
        simp [step, bodyStep, bodyPhase, completed]
    | stop => simp [step, bodyStep, bodyPhase, completed, Volley.index]
    | poll => exact absurd h.1 id
    | done => exact absurd h.1 id
  | sent v b c =>
    cases b <;> simp [step, bodyStep, bodyPhase, Gate.wait]
  | waking v =>
    simp [step, bodyStep, bodyPhase, State.ready]
  | round v b loaded =>
    cases b <;> simp [step, bodyStep, bodyPhase, Gate.wait]
  | answered v c =>
    have hafter := Volley.completed_after (n := n) h.2
    have hpc : v.after ≠ .signal .shutdown := by cases v <;> simp [Volley.after]
    simp [step, bodyStep, bodyPhase, Gate.wait, hafter, hpc]
  | returning v => simp [step, bodyPhase]
  | closing b c =>
    cases b with
    | answered => simp [step, bodyStep, bodyPhase, Gate.wait, Volley.after]
    | poll => cases c <;> simp [step, bodyStep, bodyPhase]
    | done => simp [step, bodyStep, bodyPhase]

theorem child_step {n : ℕ} {p : Phase} (h : p.Valid n) :
    step n .child (p.state n) = (childPhase p).map (Phase.state n) := by
  cases p with
  | ahead pc c =>
    cases c with
    | test =>
      have hk : 0 < completed n pc := h.2 rfl
      have hround : completed n pc - 1 + 1 = completed n pc := by omega
      simp [step, childStep, childPhase, hround]
    | wait => simp [step, childStep, childPhase, Gate.wait]
    | parked => simp [step, childPhase]
  | sent v b c =>
    cases c with
    | test =>
      have hk : 0 < v.index n := h.2.2 rfl
      have hround : v.index n - 1 + 1 = v.index n := by omega
      simp [step, childStep, childPhase, hround]
    | wait => simp [step, childStep, childPhase, Gate.wait]
    | parked => exact absurd rfl h.2.1
  | waking v => simp [step, childPhase]
  | round v b loaded =>
    cases loaded with
    | false => simp [step, childStep, childPhase]
    | true =>
      cases b with
      | wait =>
        cases v <;> simp [step, childStep, childPhase, Gate.signal, Volley.index]
      | parked =>
        simp [step, childStep, childPhase, Gate.signal]
  | answered v c =>
    cases c with
    | test => simp [step, childStep, childPhase]
    | wait => simp [step, childStep, childPhase, Gate.wait]
    | parked => simp [step, childPhase]
  | returning v =>
    cases v <;>
      simp [step, childStep, childPhase, State.ready, completed, Volley.after, Volley.index]
  | closing b c =>
    cases c <;> simp [step, childStep, childPhase]

/-! ## The phases are enough -/

theorem Volley.ahead_after {n : ℕ} {v : Volley} (h : v.Within n) (hv : v ≠ .shutdown) :
    Ahead n v.after := by
  cases v with
  | warmUp => exact Nat.zero_le n
  | timed i => exact h
  | shutdown => exact absurd rfl hv

theorem Volley.completed_after_pos (n : ℕ) (v : Volley) : 0 < completed n v.after := by
  cases v <;> exact Nat.succ_pos _

theorem body_valid {n : ℕ} {p p' : Phase} (h : p.Valid n) (hstep : bodyPhase n p = some p') :
    p'.Valid n := by
  cases p with
  | ahead pc c =>
    cases pc with
    | signal v =>
      cases c <;> obtain rfl := Option.some.inj hstep
      · exact ⟨h.1, by simp, h.2⟩
      · exact ⟨h.1, by simp, h.2⟩
      · exact h.1
    | ready v w => exact absurd h.1 id
    | wait v => exact absurd h.1 id
    | loop i =>
      obtain rfl := Option.some.inj hstep
      by_cases hin : i < n
      · simp only [if_pos hin]
        exact ⟨hin, fun _ => Nat.succ_pos i⟩
      · simp only [if_neg hin]
        exact ⟨trivial, fun _ => Nat.succ_pos n⟩
    | stop =>
      obtain rfl := Option.some.inj hstep
      exact ⟨trivial, fun _ => Nat.succ_pos n⟩
    | poll => exact absurd h.1 id
    | done => exact absurd h.1 id
  | sent v b c =>
    cases b with
    | wait =>
      obtain rfl := Option.some.inj hstep
      exact h
    | parked => cases hstep
  | waking v =>
    obtain rfl := Option.some.inj hstep
    exact h
  | round v b loaded =>
    cases b with
    | wait =>
      obtain rfl := Option.some.inj hstep
      exact h
    | parked => cases hstep
  | answered v c =>
    obtain rfl := Option.some.inj hstep
    exact ⟨Volley.ahead_after h.1 h.2, fun _ => Volley.completed_after_pos n v⟩
  | returning v => cases hstep
  | closing b c =>
    cases b with
    | answered =>
      obtain rfl := Option.some.inj hstep
      simp [Phase.Valid]
    | poll => cases c <;> (obtain rfl := Option.some.inj hstep; simp [Phase.Valid])
    | done => cases hstep

theorem child_valid {n : ℕ} {p p' : Phase} (h : p.Valid n) (hstep : childPhase p = some p') :
    p'.Valid n := by
  cases p with
  | ahead pc c =>
    cases c with
    | test => obtain rfl := Option.some.inj hstep; exact ⟨h.1, by simp⟩
    | wait => obtain rfl := Option.some.inj hstep; exact ⟨h.1, by simp⟩
    | parked => cases hstep
  | sent v b c =>
    cases c with
    | test => obtain rfl := Option.some.inj hstep; exact ⟨h.1, by simp, by simp⟩
    | wait => obtain rfl := Option.some.inj hstep; exact h.1
    | parked => cases hstep
  | waking v => cases hstep
  | round v b loaded =>
    cases loaded with
    | false => obtain rfl := Option.some.inj hstep; exact h
    | true =>
      cases b with
      | wait =>
        cases v with
        | shutdown => obtain rfl := Option.some.inj hstep; simp [Phase.Valid]
        | warmUp => obtain rfl := Option.some.inj hstep; exact ⟨h, by simp⟩
        | timed i => obtain rfl := Option.some.inj hstep; exact ⟨h, by simp⟩
      | parked => cases v <;> (obtain rfl := Option.some.inj hstep; exact h)
  | answered v c =>
    cases c with
    | test => obtain rfl := Option.some.inj hstep; exact h
    | wait => obtain rfl := Option.some.inj hstep; exact h
    | parked => cases hstep
  | returning v =>
    cases v with
    | shutdown => obtain rfl := Option.some.inj hstep; simp [Phase.Valid]
    | warmUp =>
      obtain rfl := Option.some.inj hstep
      exact ⟨Nat.zero_le n, fun _ => Volley.completed_after_pos n .warmUp⟩
    | timed i =>
      obtain rfl := Option.some.inj hstep
      exact ⟨h, fun _ => Volley.completed_after_pos n (.timed i)⟩
  | closing b c =>
    cases c with
    | test => obtain rfl := Option.some.inj hstep; exact fun hb => absurd (h hb) (by simp)
    | leave => obtain rfl := Option.some.inj hstep; exact fun _ => rfl
    | done => cases hstep

/-- The handoff is the system of its phases. -/
def phases (n : ℕ) : Abstraction (step n) (phaseStep n) where
  state := Phase.state n
  Valid := Phase.Valid n
  valid g _ _ h hstep := match g with
    | .body => body_valid h hstep
    | .child => child_valid h hstep
  step_state g _ h := match g with
    | .body => body_step h
    | .child => child_step h

end BurrowBench.Scheduler
