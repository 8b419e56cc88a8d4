import BurrowBench.Foundation.Interleaving
import Mathlib.Data.BitVec

/-! # The wait on a parked goroutine

wait_parked_body waits in its bubble, then hands parked_child a value with a send that does
not block, and throws away what the send comes to. The wait is over when the child is blocked
on c1, which was made in the bubble, or has exited. The start is after a successful launch.
-/
namespace BurrowBench.Scheduler.ParkedWait
open Interleaving

inductive BodyPc where
  | loop (i : ℕ)
  | wait (i : ℕ)
  | send (i : ℕ)
  | close
  | lastWait
  | free
  | returned
  | panicked
  deriving DecidableEq

/-- Ahead of chan_recv, blocked in it, woken by it with a value, counting, woken by it without a
value. -/
inductive ChildPc where
  | recv
  | parked
  | handed
  | count
  | leave
  | exited
  deriving DecidableEq

/-- `results` is a ghost, what every chan_try_send came to. -/
structure State where
  body : BodyPc
  child : ChildPc
  closed : Bool
  parkedGot : BitVec 32
  results : List Bool
  deriving DecidableEq

def start : State where
  body := .loop 0
  child := .recv
  closed := false
  parkedGot := 0
  results := []

/-- Blocked on c1 or gone, which is when synctest_wait returns. -/
def ChildPc.Quiet (c : ChildPc) : Prop := c = .parked ∨ c = .exited

instance (c : ChildPc) : Decidable c.Quiet := inferInstanceAs (Decidable (_ ∨ _))

/-- An unbuffered channel takes a value for a receiver that is parked on it, and no other. -/
def chanTrySend (s : State) : State :=
  if s.closed then { s with body := .panicked }
  else if s.child = .parked then { s with child := .handed, results := s.results ++ [true] }
  else { s with results := s.results ++ [false] }

/-- A receiver that is parked is woken without a value. -/
def chanClose (s : State) : State :=
  if s.closed then { s with body := .panicked }
  else { s with closed := true, child := if s.child = .parked then .leave else s.child }

/-- wait_parked_body, and wait_parked_top from its return on. -/
def waitParkedBody (n : ℕ) (s : State) : Option State :=
  match s.body with
  | .loop i => some { s with body := if i < n then .wait i else .close }
  | .wait i => if s.child.Quiet then some { s with body := .send i } else none
  | .send i => some (chanTrySend { s with body := .loop (i + 1) })
  | .close => some (chanClose { s with body := .lastWait })
  | .lastWait => if s.child.Quiet then some { s with body := .free } else none
  | .free => some { s with body := .returned }
  | .returned | .panicked => none

def parkedChild (s : State) : Option State :=
  match s.child with
  | .recv => some { s with child := if s.closed then .leave else .parked }
  | .handed => some { s with child := .count }
  | .count => some { s with parkedGot := s.parkedGot + 1, child := .recv }
  | .leave => some { s with child := .exited }
  | .parked | .exited => none

inductive Agent where
  | body
  | child
  deriving DecidableEq

def step (n : ℕ) : Agent → State → Option State
  | .body, s => waitParkedBody n s
  | .child, s => parkedChild s

/-! ## Where the child is at each wait -/

def BodyPc.sent (n : ℕ) : BodyPc → ℕ
  | .loop i | .wait i | .send i => i
  | _ => n

def ChildPc.pending : ChildPc → ℕ
  | .handed | .count => 1
  | _ => 0

def Fits (n : ℕ) (body : BodyPc) (child : ChildPc) (closed : Bool) : Prop :=
  match body with
  | .loop i => i ≤ n ∧ closed = false ∧ child ≠ .leave ∧ child ≠ .exited
  | .wait i => i < n ∧ closed = false ∧ child ≠ .leave ∧ child ≠ .exited
  | .send i => i < n ∧ closed = false ∧ child = .parked
  | .close => closed = false ∧ child ≠ .leave ∧ child ≠ .exited
  | .lastWait => closed = true ∧ child ≠ .parked
  | .free | .returned => closed = true ∧ child = .exited
  | .panicked => False

structure Good (n : ℕ) (s : State) : Prop where
  fits : Fits n s.body s.child s.closed
  results : s.results = List.replicate (s.body.sent n) true
  got : s.parkedGot + BitVec.ofNat 32 s.child.pending = BitVec.ofNat 32 (s.body.sent n)

/-- The steps of the body that are left, where a send gives the child four more of its own and
the close one. -/
def BodyPc.left (n : ℕ) : BodyPc → ℕ
  | .loop i => 7 * (n - i) + 8
  | .wait i => 7 * (n - (i + 1)) + 14
  | .send i => 7 * (n - (i + 1)) + 13
  | .close => 7
  | .lastWait => 2
  | .free => 1
  | .returned | .panicked => 0

def ChildPc.left : ChildPc → ℕ
  | .handed => 4
  | .count => 3
  | .recv => 2
  | .leave => 1
  | .parked | .exited => 0

def left (n : ℕ) (s : State) : ℕ := s.body.left n + s.child.left

variable {n : ℕ} {s s' : State}

theorem good_start (n : ℕ) : Good n start where
  fits := ⟨Nat.zero_le n, rfl, by simp [start], by simp [start]⟩
  results := rfl
  got := rfl

theorem good_body (h : Good n s) (hstep : waitParkedBody n s = some s') :
    Good n s' ∧ left n s' < left n s := by
  obtain ⟨body, child, closed, parkedGot, results⟩ := s
  obtain ⟨hfits, hresults, hgot⟩ := h
  cases body with
  | loop i =>
    obtain ⟨hi, hopen, hleave, hexited⟩ := hfits
    simp only [waitParkedBody, Option.some.injEq] at hstep
    subst hstep
    by_cases hin : i < n
    · simp only [if_pos hin]
      refine ⟨⟨⟨hin, hopen, hleave, hexited⟩, hresults, hgot⟩, ?_⟩
      simp only [left, BodyPc.left]
      omega
    · obtain rfl : i = n := by omega
      simp only [if_neg hin]
      refine ⟨⟨⟨hopen, hleave, hexited⟩, hresults, hgot⟩, ?_⟩
      simp only [left, BodyPc.left]
      omega
  | wait i =>
    obtain ⟨hi, hopen, -, hexited⟩ := hfits
    simp only [waitParkedBody] at hstep
    split at hstep
    · have hparked : child = .parked := (‹ChildPc.Quiet _›).resolve_right hexited
      cases hstep
      refine ⟨⟨⟨hi, hopen, hparked⟩, hresults, hgot⟩, ?_⟩
      simp only [left, BodyPc.left]
      omega
    · cases hstep
  | send i =>
    obtain ⟨hi, hopen, hparked⟩ := hfits
    simp only at hopen hparked hresults hgot
    subst hopen hparked
    cases hstep
    refine ⟨⟨⟨hi, rfl, by simp [chanTrySend], by simp [chanTrySend]⟩, ?_, ?_⟩, ?_⟩
    · simp [chanTrySend, hresults, BodyPc.sent, List.replicate_succ']
    · simpa [chanTrySend, ChildPc.pending, BodyPc.sent, BitVec.ofNat_add] using hgot
    · simp [chanTrySend, left, BodyPc.left, ChildPc.left]
  | close =>
    obtain ⟨hopen, hleave, hexited⟩ := hfits
    simp only at hopen hleave hexited
    subst hopen
    cases hstep
    by_cases hparked : child = .parked
    · subst hparked
      exact ⟨⟨⟨rfl, by simp [chanClose]⟩, hresults, hgot⟩, by simp [chanClose, left, BodyPc.left, ChildPc.left]⟩
    · refine ⟨⟨⟨rfl, by simp [chanClose, hparked]⟩, hresults, ?_⟩, ?_⟩
      · simpa [chanClose, hparked, BodyPc.sent] using hgot
      · simp [chanClose, hparked, left, BodyPc.left]
  | lastWait =>
    obtain ⟨hclosed, hparked⟩ := hfits
    simp only [waitParkedBody] at hstep
    split at hstep
    · have hexited : child = .exited := (‹ChildPc.Quiet _›).resolve_left hparked
      cases hstep
      refine ⟨⟨⟨hclosed, hexited⟩, hresults, hgot⟩, ?_⟩
      simp only [left, BodyPc.left]
      omega
    · cases hstep
  | free =>
    cases hstep
    refine ⟨⟨hfits, hresults, hgot⟩, ?_⟩
    simp only [left, BodyPc.left]
    omega
  | returned => cases hstep
  | panicked => cases hstep

/-- Only a child that runs moves: before the close it stays in its loop, after it it does not
block again. -/
theorem Fits.move {body : BodyPc} {c c' : ChildPc} {closed : Bool} (h : Fits n body c closed)
    (hparked : c ≠ .parked) (hexited : c ≠ .exited)
    (hopen : closed = false → c' ≠ .leave ∧ c' ≠ .exited) (hclosed : closed = true → c' ≠ .parked) :
    Fits n body c' closed := by
  cases body with
  | loop i | wait i => exact ⟨h.1, h.2.1, hopen h.2.1⟩
  | send i => exact absurd h.2.2 hparked
  | close => exact ⟨h.1, hopen h.1⟩
  | lastWait => exact ⟨h.1, hclosed h.1⟩
  | free | returned => exact absurd h.2 hexited
  | panicked => exact h

theorem Fits.closed_of_leave {body : BodyPc} {closed : Bool} (h : Fits n body .leave closed) :
    closed = true := by
  cases body with
  | loop i | wait i => exact absurd rfl h.2.2.1
  | send i => cases h.2.2
  | close => exact absurd rfl h.2.1
  | lastWait | free | returned => exact h.1
  | panicked => exact h.elim

theorem good_child (h : Good n s) (hstep : parkedChild s = some s') :
    Good n s' ∧ left n s' < left n s := by
  obtain ⟨body, child, closed, parkedGot, results⟩ := s
  obtain ⟨hfits, hresults, hgot⟩ := h
  cases child with
  | recv =>
    cases hstep
    cases closed with
    | false =>
      refine ⟨⟨hfits.move ?_ ?_ ?_ ?_, hresults, hgot⟩, ?_⟩
      all_goals simp [left, ChildPc.left]
    | true =>
      refine ⟨⟨hfits.move ?_ ?_ ?_ ?_, hresults, hgot⟩, ?_⟩
      all_goals simp [left, ChildPc.left]
  | parked => cases hstep
  | handed =>
    cases hstep
    refine ⟨⟨hfits.move ?_ ?_ ?_ ?_, hresults, hgot⟩, ?_⟩
    all_goals simp [left, ChildPc.left]
  | count =>
    cases hstep
    refine ⟨⟨hfits.move ?_ ?_ ?_ ?_, hresults, ?_⟩, ?_⟩
    case refine_5 => simpa [ChildPc.pending] using hgot
    all_goals simp [left, ChildPc.left]
  | leave =>
    cases hstep
    have hclosed : closed = true := hfits.closed_of_leave
    refine ⟨⟨hfits.move ?_ ?_ ?_ ?_, hresults, hgot⟩, ?_⟩
    all_goals simp [hclosed, left, ChildPc.left]
  | exited => cases hstep

theorem good_step {agent : Agent} (h : Good n s) (hstep : step n agent s = some s') :
    Good n s' ∧ left n s' < left n s := by
  cases agent with
  | body => exact good_body h hstep
  | child => exact good_child h hstep

theorem good_progress (h : Good n s) : s.body = .returned ∨ ∃ agent, (step n agent s).isSome := by
  obtain ⟨body, child, closed, parkedGot, results⟩ := s
  have hwait : child.Quiet ∨ (step n .child ⟨body, child, closed, parkedGot, results⟩).isSome := by
    cases child with
    | recv | handed | count | leave => exact .inr rfl
    | parked => exact .inl (.inl rfl)
    | exited => exact .inl (.inr rfl)
  cases body with
  | loop i | send i | close | free => exact .inr ⟨.body, rfl⟩
  | wait i | lastWait =>
    rcases hwait with hquiet | hchild
    · exact .inr ⟨.body, by simp [step, waitParkedBody, hquiet]⟩
    · exact .inr ⟨.child, hchild⟩
  | returned => exact .inl rfl
  | panicked => exact h.fits.elim

theorem terminates (n : ℕ) : Terminates (step n) (Good n) (fun s => s.body = .returned) (left n) where
  keep _ _ _ hs hstep := (good_step hs hstep).1
  lower _ _ _ hs hstep := (good_step hs hstep).2
  progress _ hs := good_progress hs

def BodyPc.LoopOver : BodyPc → Prop
  | .loop _ | .wait _ | .send _ => False
  | _ => True

/-- Every send is taken. The 32 bit counter counts the values modulo 2^32. -/
theorem parked_wait_delivers (n : ℕ) {schedule : List Agent} {s : State}
    (h : run (step n) schedule start = some s) :
    (∀ i, s.body = .send i → s.child = .parked) ∧ (∀ result ∈ s.results, result = true) ∧
    s.results.length = s.body.sent n ∧
    (s.body.LoopOver → s.child.Quiet → s.results.length = n ∧ s.parkedGot.toNat = n % 2 ^ 32) ∧
    (s.body = .free → s.closed = true ∧ s.child = .exited) ∧ s.body ≠ .panicked ∧
    schedule.length ≤ 7 * n + 10 ∧ (s.body = .returned ∨ ∃ agent, (step n agent s).isSome) := by
  obtain ⟨hgood, hbound, hprogress⟩ := (terminates n).run_spec (good_start n) h
  have hfits := hgood.fits
  refine ⟨fun i hi => ?_, ?_, ?_, fun hover hquiet => ?_, fun hfree => ?_, fun hpanic => ?_, hbound,
    hprogress⟩
  · rw [hi] at hfits
    exact hfits.2.2
  · rw [hgood.results]
    exact fun result => List.eq_of_mem_replicate
  · rw [hgood.results, List.length_replicate]
  · have hsent : s.body.sent n = n := by
      cases hbody : s.body with
      | loop i | wait i | send i => rw [hbody] at hover; exact hover.elim
      | _ => rfl
    have hpending : s.child.pending = 0 := by
      rcases hquiet with hchild | hchild <;> rw [hchild] <;> rfl
    have hgot := hgood.got
    rw [hpending, hsent] at hgot
    refine ⟨by rw [hgood.results, List.length_replicate, hsent], ?_⟩
    simpa using congrArg BitVec.toNat hgot
  · rw [hfree] at hfits
    exact hfits
  · rw [hpanic] at hfits
    exact hfits

/-- One value: the child parks, is handed it, counts it, parks again and is woken by the close. -/
theorem parked_wait_delivers_one : ∃ s, run (step 1) [.child, .body, .body, .body, .child, .child, .child,
      .body, .body, .child, .body, .body] start = some s ∧
    s.results.length = 1 ∧ s.parkedGot.toNat = 1 := by
  have hrun : run (step 1) [.child, .body, .body, .body, .child, .child, .child, .body, .body, .child,
      .body, .body] start = some _ := rfl
  have hover := (parked_wait_delivers 1 hrun).2.2.2.1 trivial (.inr rfl)
  exact ⟨_, hrun, hover⟩

/-- A counter of 32 bits does not reach 2^32. -/
theorem counter_wraps : ¬ ∀ (n : ℕ) (schedule : List Agent) (s : State),
    run (step n) schedule start = some s → s.body.LoopOver → s.child.Quiet → s.parkedGot.toNat = n := by
  intro h
  obtain ⟨s, ⟨schedule, hrun⟩, hgood, hreturned⟩ := (terminates (2 ^ 32)).reaches_end (good_start (2 ^ 32))
  have hfits := hgood.fits
  rw [hreturned] at hfits
  have hgot := h (2 ^ 32) schedule s hrun (hreturned ▸ trivial) (.inr hfits.2)
  have hbound := s.parkedGot.isLt
  omega

end BurrowBench.Scheduler.ParkedWait
