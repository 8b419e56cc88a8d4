import BurrowBench.Foundation.Interleaving
import Mathlib.Algebra.BigOperators.Group.List.Basic
import Mathlib.Algebra.Order.Ring.Int
import Mathlib.Data.List.TakeWhile

/-! # Four goroutines and a wait group

Each turn of go_wait_body clears a wait group that stands on its stack, starts up to four
goroutines through the group and waits for them. A start that fails ends the launches of the
turn and is not counted by the group, so that the wait is for what was started. The shared
counter of the batch row has no such account.
-/
namespace BurrowBench.Scheduler.WaitGroup
open Interleaving

def wgWorkers : ℕ := 4

inductive BodyPc where
  | resume
  | loop (i : ℕ)
  | store (i : ℕ)
  | go (i k : ℕ)
  | wait (i : ℕ)
  | pause
  | returned
  deriving DecidableEq

/-- Of the goroutines of the group so many are in their function, and so many have left it and
are about to be done. `running` is the clock of the harness, and `ran` is a ghost, the
goroutines that are done. -/
structure State where
  body : BodyPc
  counter : ℤ
  called : ℕ
  leaving : ℕ
  running : Bool
  ran : ℕ
  deriving DecidableEq

def start : State where
  body := .resume
  counter := 0
  called := 0
  leaving := 0
  running := false
  ran := 0

/-- `go i k` is whether launch k of turn i succeeds. The wait parks until the counter is zero. -/
def goWaitBody (n : ℕ) (go : ℕ → ℕ → Bool) (s : State) : Option State :=
  match s.body with
  | .resume => some { s with running := true, body := .loop 0 }
  | .loop i => some { s with body := if i < n then .store i else .pause }
  | .store i => some { s with counter := 0, body := .go i 0 }
  | .go i k =>
    if k < wgWorkers ∧ go i k then
      some { s with counter := s.counter + 1, called := s.called + 1, body := .go i (k + 1) }
    else some { s with body := .wait i }
  | .wait i => if s.counter = 0 then some { s with body := .loop (i + 1) } else none
  | .pause => some { s with running := false, body := .returned }
  | .returned => none

/-- The function of a goroutine, which does nothing, returns. -/
def nothing (s : State) : Option State :=
  if 0 < s.called then some { s with called := s.called - 1, leaving := s.leaving + 1 } else none

def done (s : State) : Option State :=
  if 0 < s.leaving then
    some { s with counter := s.counter - 1, leaving := s.leaving - 1, ran := s.ran + 1 }
  else none

inductive Agent where
  | body
  | nothing
  | done
  deriving DecidableEq

def step (n : ℕ) (go : ℕ → ℕ → Bool) : Agent → State → Option State
  | .body, s => goWaitBody n go s
  | .nothing, s => nothing s
  | .done, s => done s

/-! ## What is started -/

/-- The launches of turn i before the first that fails. -/
def started (go : ℕ → ℕ → Bool) (i : ℕ) : ℕ := ((List.range wgWorkers).takeWhile (go i)).length

def startedBefore (go : ℕ → ℕ → Bool) (i : ℕ) : ℕ := ((List.range i).map (started go)).sum

variable {n : ℕ} {go : ℕ → ℕ → Bool} {s s' : State}

theorem startedBefore_succ (go : ℕ → ℕ → Bool) (i : ℕ) :
    startedBefore go (i + 1) = startedBefore go i + started go i := by
  simp [startedBefore, List.range_succ]

theorem started_eq {i k : ℕ} (hk : k ≤ wgWorkers) (hgo : ∀ j < k, go i j) (hstop : ¬ (k < wgWorkers ∧ go i k)) :
    started go i = k := by
  have hsplit : List.range wgWorkers = List.range k ++ (List.range (wgWorkers - k)).map (k + ·) := by
    rw [← List.range_add, Nat.add_sub_cancel' hk]
  have hrest : ((List.range (wgWorkers - k)).map (k + ·)).takeWhile (go i) = [] := by
    cases hleft : wgWorkers - k with
    | zero => rfl
    | succ left =>
      have hfails : ¬ go i k := fun h => hstop ⟨by omega, h⟩
      simp [List.range_succ_eq_map, hfails]
  rw [started, hsplit, List.takeWhile_append_of_pos fun j hj => hgo j (List.mem_range.mp hj), hrest,
    List.append_nil, List.length_range]

theorem started_le (go : ℕ → ℕ → Bool) (i : ℕ) : started go i ≤ wgWorkers :=
  (List.takeWhile_prefix (go i)).length_le.trans_eq List.length_range

theorem started_eq_iff (go : ℕ → ℕ → Bool) (i : ℕ) : started go i = wgWorkers ↔ ∀ k < wgWorkers, go i k := by
  constructor
  · intro h k hk
    have hall : (List.range wgWorkers).takeWhile (go i) = List.range wgWorkers :=
      (List.takeWhile_prefix (go i)).eq_of_length (h.trans List.length_range.symm)
    exact List.takeWhile_eq_self_iff.mp hall k (List.mem_range.mpr hk)
  · exact fun h => started_eq (Nat.le_refl _) h fun hbad => Nat.lt_irrefl _ hbad.1

/-- Nothing less than all launches makes up the work the row is divided by. -/
theorem startedBefore_eq_iff (go : ℕ → ℕ → Bool) (n : ℕ) :
    startedBefore go n ≤ n * wgWorkers ∧
      (startedBefore go n = n * wgWorkers ↔ ∀ i < n, ∀ k < wgWorkers, go i k) := by
  induction n with
  | zero => simp [startedBefore]
  | succ n ih =>
    have hle := started_le go n
    obtain ⟨hbefore, hiff⟩ := ih
    rw [startedBefore_succ, Nat.succ_mul]
    refine ⟨by omega, ?_⟩
    rw [Nat.forall_lt_succ_right, ← hiff, ← started_eq_iff]
    omega

/-! ## The account of the group -/

@[simp] def BodyPc.timed : BodyPc → Bool
  | .resume | .returned => false
  | _ => true

/-- Between its clearing and the end of the wait the goroutines of the turn are done or in the
account of the group; outside of that nobody holds it. -/
def Accounts (n : ℕ) (go : ℕ → ℕ → Bool) (s : State) : Prop :=
  match s.body with
  | .resume => s.called = 0 ∧ s.leaving = 0 ∧ s.ran = 0
  | .loop i => i ≤ n ∧ s.called = 0 ∧ s.leaving = 0 ∧ s.ran = startedBefore go i
  | .store i => i < n ∧ s.called = 0 ∧ s.leaving = 0 ∧ s.ran = startedBefore go i
  | .go i k =>
    i < n ∧ k ≤ wgWorkers ∧ (∀ j < k, go i j) ∧ s.ran + s.called + s.leaving = startedBefore go i + k
  | .wait i => i < n ∧ s.ran + s.called + s.leaving = startedBefore go (i + 1)
  | .pause | .returned => s.called = 0 ∧ s.leaving = 0 ∧ s.ran = startedBefore go n

structure Kept (n : ℕ) (go : ℕ → ℕ → Bool) (s : State) : Prop where
  counter : s.counter = s.called + s.leaving
  running : s.running = s.body.timed
  accounts : Accounts n go s

theorem kept_start (n : ℕ) (go : ℕ → ℕ → Bool) : Kept n go start where
  counter := rfl
  running := rfl
  accounts := ⟨rfl, rfl, rfl⟩

theorem Kept.body_step (hs : Kept n go s) (h : goWaitBody n go s = some s') : Kept n go s' := by
  obtain ⟨body, counter, called, leaving, running, ran⟩ := s
  obtain ⟨hcounter, hrunning, haccounts⟩ := hs
  dsimp only at hcounter
  cases body with
  | resume =>
    obtain rfl := Option.some.inj h
    obtain ⟨hcalled, hleaving, hran⟩ := haccounts
    exact ⟨hcounter, rfl, Nat.zero_le n, hcalled, hleaving, hran⟩
  | loop i =>
    obtain rfl := Option.some.inj h
    obtain ⟨hi, hcalled, hleaving, hran⟩ := haccounts
    by_cases hin : i < n
    · simp only [hin, if_true]
      exact ⟨hcounter, hrunning, hin, hcalled, hleaving, hran⟩
    · obtain rfl : i = n := by omega
      simp only [hin, if_false]
      exact ⟨hcounter, hrunning, hcalled, hleaving, hran⟩
  | store i =>
    obtain rfl := Option.some.inj h
    obtain ⟨hi, hcalled, hleaving, hran⟩ := haccounts
    obtain rfl : called = 0 := hcalled
    obtain rfl : leaving = 0 := hleaving
    exact ⟨rfl, hrunning, hi, Nat.zero_le _, fun j hj => absurd hj (Nat.not_lt_zero j), hran⟩
  | go i k =>
    obtain ⟨hi, hk, hgo, hsum⟩ := haccounts
    dsimp only at hsum
    unfold goWaitBody at h
    dsimp only at h
    split at h
    · rename_i hlaunch
      obtain rfl := Option.some.inj h
      refine ⟨?_, hrunning, hi, hlaunch.1, ?_, ?_⟩
      · simp only [hcounter, Nat.cast_add, Nat.cast_one]
        omega
      · exact Nat.forall_lt_succ_right.mpr ⟨hgo, hlaunch.2⟩
      · dsimp only
        omega
    · rename_i hstop
      obtain rfl := Option.some.inj h
      have hstarted := startedBefore_succ go i
      rw [started_eq hk hgo hstop] at hstarted
      refine ⟨hcounter, hrunning, hi, ?_⟩
      dsimp only
      omega
  | wait i =>
    obtain ⟨hzero, h⟩ := Option.ite_none_right_eq_some.mp h
    obtain rfl := Option.some.inj h
    obtain ⟨hi, hsum⟩ := haccounts
    dsimp only at hzero hsum
    refine ⟨hcounter, hrunning, hi, ?_, ?_, ?_⟩ <;> dsimp only <;> omega
  | pause =>
    obtain rfl := Option.some.inj h
    obtain ⟨hcalled, hleaving, hran⟩ := haccounts
    exact ⟨hcounter, rfl, hcalled, hleaving, hran⟩
  | returned => cases h

/-- A goroutine moves on: it stays in the account of the group until it is done. -/
theorem Kept.goroutine_goto (hs : Kept n go s) {called leaving ran : ℕ} {counter : ℤ}
    (hcounter : counter = called + leaving) (hbusy : 0 < s.called + s.leaving)
    (hsum : ran + called + leaving = s.ran + s.called + s.leaving) :
    Kept n go { s with counter, called, leaving, ran } := by
  obtain ⟨body, counter', called', leaving', running, ran'⟩ := s
  obtain ⟨_, hrunning, haccounts⟩ := hs
  dsimp only at hbusy hsum
  refine ⟨hcounter, hrunning, ?_⟩
  cases body with
  | go i k =>
    obtain ⟨hi, hk, hgo, htotal⟩ := haccounts
    exact ⟨hi, hk, hgo, hsum.trans htotal⟩
  | wait i =>
    obtain ⟨hi, htotal⟩ := haccounts
    exact ⟨hi, hsum.trans htotal⟩
  | _ =>
    simp only [Accounts] at haccounts
    omega

theorem Kept.step {a : Agent} (hs : Kept n go s) (h : step n go a s = some s') : Kept n go s' := by
  have hcounter := hs.counter
  cases a with
  | body => exact hs.body_step h
  | nothing =>
    obtain ⟨hcalled, h⟩ := Option.ite_none_right_eq_some.mp h
    obtain rfl := Option.some.inj h
    exact hs.goroutine_goto (by omega) (by omega) (by omega)
  | done =>
    obtain ⟨hleaving, h⟩ := Option.ite_none_right_eq_some.mp h
    obtain rfl := Option.some.inj h
    exact hs.goroutine_goto (by omega) (by omega) (by omega)

/-! ## Progress -/

def turn : ℕ := 3 * wgWorkers + 4

@[simp] def BodyPc.left (n : ℕ) : BodyPc → ℕ
  | .resume => n * turn + 3
  | .loop i => (n - i) * turn + 2
  | .store i => (n - (i + 1)) * turn + (3 * wgWorkers + 5)
  | .go i k => (n - (i + 1)) * turn + (3 * (wgWorkers - k) + 4)
  | .wait i => (n - (i + 1)) * turn + 3
  | .pause => 1
  | .returned => 0

def stepsLeft (n : ℕ) (s : State) : ℕ := s.body.left n + 2 * s.called + s.leaving

theorem turn_split {i : ℕ} (h : i < n) : (n - i) * turn = (n - (i + 1)) * turn + (3 * wgWorkers + 4) := by
  have hsub : n - i = n - (i + 1) + 1 := by omega
  rw [hsub, Nat.succ_mul]
  rfl

theorem lowers_body (h : goWaitBody n go s = some s') (hin : ∀ i, s.body = .wait i → i < n) :
    stepsLeft n s' < stepsLeft n s := by
  obtain ⟨body, counter, called, leaving, running, ran⟩ := s
  cases body with
  | loop i =>
    obtain rfl := Option.some.inj h
    by_cases hi : i < n
    · have hsplit := turn_split hi
      simp only [stepsLeft, hi, if_true, BodyPc.left]
      omega
    · simp only [stepsLeft, hi, if_false, BodyPc.left]
      omega
  | go i k =>
    unfold goWaitBody at h
    dsimp only at h
    split at h
    · rename_i hlaunch
      have hk := hlaunch.1
      obtain rfl := Option.some.inj h
      simp only [stepsLeft, BodyPc.left]
      omega
    · obtain rfl := Option.some.inj h
      simp only [stepsLeft, BodyPc.left]
      omega
  | wait i =>
    obtain ⟨_, h⟩ := Option.ite_none_right_eq_some.mp h
    obtain rfl := Option.some.inj h
    simp only [stepsLeft, BodyPc.left]
    omega
  | returned => cases h
  | _ =>
    obtain rfl := Option.some.inj h
    simp only [stepsLeft, BodyPc.left, Nat.sub_zero]
    omega

theorem Kept.lowers {a : Agent} (hs : Kept n go s) (h : WaitGroup.step n go a s = some s') :
    stepsLeft n s' < stepsLeft n s := by
  cases a with
  | body =>
    refine lowers_body h fun i hbody => ?_
    have haccounts := hs.accounts
    simp only [Accounts, hbody] at haccounts
    exact haccounts.1
  | nothing =>
    obtain ⟨hcalled, h⟩ := Option.ite_none_right_eq_some.mp h
    obtain rfl := Option.some.inj h
    simp only [stepsLeft]
    omega
  | done =>
    obtain ⟨hleaving, h⟩ := Option.ite_none_right_eq_some.mp h
    obtain rfl := Option.some.inj h
    simp only [stepsLeft]
    omega

def final (n : ℕ) (go : ℕ → ℕ → Bool) : State where
  body := .returned
  counter := 0
  called := 0
  leaving := 0
  running := false
  ran := startedBefore go n

/-- Only the wait can be without a step of the body, and then a goroutine of the group has one. -/
theorem Kept.progress (hs : Kept n go s) : s = final n go ∨ ∃ a, (WaitGroup.step n go a s).isSome := by
  obtain ⟨body, counter, called, leaving, running, ran⟩ := s
  obtain ⟨hcounter, hrunning, haccounts⟩ := hs
  cases body with
  | go i k =>
    right
    refine ⟨.body, ?_⟩
    simp only [WaitGroup.step, goWaitBody]
    split <;> rfl
  | wait i =>
    right
    by_cases hcalled : 0 < called
    · exact ⟨.nothing, by simp [WaitGroup.step, WaitGroup.nothing, hcalled]⟩
    by_cases hleaving : 0 < leaving
    · exact ⟨.done, by simp [WaitGroup.step, WaitGroup.done, hleaving]⟩
    have hzero : counter = 0 := by
      dsimp only at hcounter
      omega
    exact ⟨.body, by simp [WaitGroup.step, goWaitBody, hzero]⟩
  | returned =>
    left
    obtain ⟨hcalled, hleaving, hran⟩ := haccounts
    dsimp only at hcounter hrunning hcalled hleaving hran
    obtain rfl : running = false := hrunning
    subst hcalled hleaving hran hcounter
    rfl
  | _ => exact Or.inr ⟨.body, rfl⟩

theorem terminates (n : ℕ) (go : ℕ → ℕ → Bool) :
    Terminates (WaitGroup.step n go) (Kept n go) (· = final n go) (stepsLeft n) where
  keep _ _ _ := Kept.step
  lower _ _ _ := Kept.lowers
  progress _ := Kept.progress

/-! ## The row -/

/-- Whichever launches fail, the counter of the group is the number of its goroutines, the group
is neither cleared nor left while one of them holds it, and every run goes on to the end, with the
clock off and as many goroutines done as were started; these are four a turn only if no launch
fails. -/
theorem group_waits (n : ℕ) (go : ℕ → ℕ → Bool) (schedule : List Agent) (s : State)
    (h : run (step n go) schedule start = some s) :
    s.counter = s.called + s.leaving ∧
    ((∃ i, s.body = .store i) ∨ s.body = .returned → s.called = 0 ∧ s.leaving = 0) ∧
    s.running = s.body.timed ∧
    (s.body = .returned → s.ran = startedBefore go n ∧ s.ran ≤ n * wgWorkers ∧
      (s.ran = n * wgWorkers ↔ ∀ i < n, ∀ k < wgWorkers, go i k)) ∧
    schedule.length ≤ n * (3 * wgWorkers + 4) + 3 ∧ Reaches (step n go) s (final n go) := by
  obtain ⟨hs, hlength, _⟩ := (terminates n go).run_spec (kept_start n go) h
  obtain ⟨s', hreaches, _, rfl⟩ := (terminates n go).reaches_end hs
  have haccounts := hs.accounts
  unfold Accounts at haccounts
  refine ⟨hs.counter, ?_, hs.running, ?_, hlength, hreaches⟩
  · rintro (⟨i, hbody⟩ | hbody) <;> rw [hbody] at haccounts
    · exact ⟨haccounts.2.1, haccounts.2.2.1⟩
    · exact ⟨haccounts.1, haccounts.2.1⟩
  · intro hbody
    rw [hbody] at haccounts
    have hall := startedBefore_eq_iff go n
    rw [← haccounts.2.2] at hall
    exact ⟨haccounts.2.2, hall⟩

/-- A turn whose second launch fails. -/
theorem group_waits_one :
    let go : ℕ → ℕ → Bool := fun _ k => k == 0
    (final 1 go).ran = startedBefore go 1 ∧ (final 1 go).ran ≠ 1 * wgWorkers := by
  intro go
  have h := group_waits 1 go [.body, .body, .body, .body, .nothing, .body, .done, .body, .body, .body]
    (final 1 go) (by decide)
  exact ⟨(h.2.2.2.1 rfl).1, by decide⟩

end BurrowBench.Scheduler.WaitGroup
