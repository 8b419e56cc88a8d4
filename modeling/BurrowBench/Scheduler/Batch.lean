import BurrowBench.Foundation.Interleaving
import Mathlib.Data.Nat.Find

/-! # Starting goroutines in batches

batch_body resets a counter, launches sixty four children that each add one to it, and
yields until it reads sixty four. A launch that fails ends the launching of its batch, and
what the body then waits for is more than the children of the batch can count.
-/
namespace BurrowBench.Scheduler.Batch
open Interleaving

def schedBatch : ℕ := 64

inductive BodyPc where
  | loop (it : ℕ)
  | store (it : ℕ)
  | launch (it i : ℕ)
  | wait (it : ℕ)
  | returned
  deriving DecidableEq

/-- `batchDone` is the shared counter. The children that have not added to it yet are
alike, so that only their number matters. -/
structure State where
  body : BodyPc
  batchDone : ℕ
  running : ℕ
  deriving DecidableEq

def start : State where
  body := .loop 0
  batchDone := 0
  running := 0

/-- `go it i` is whether the launch of child i in iteration it succeeds. -/
def batchBody (n : ℕ) (go : ℕ → ℕ → Bool) (s : State) : Option State :=
  match s.body with
  | .loop it => some { s with body := if it < n then .store it else .returned }
  | .store it => some { s with batchDone := 0, body := .launch it 0 }
  | .launch it i =>
    if i < schedBatch then
      if go it i then some { s with running := s.running + 1, body := .launch it (i + 1) }
      else some { s with body := .wait it }
    else some { s with body := .wait it }
  | .wait it => some (if s.batchDone < schedBatch then s else { s with body := .loop (it + 1) })
  | .returned => none

def batchChild (s : State) : Option State :=
  if 0 < s.running then some { s with batchDone := s.batchDone + 1, running := s.running - 1 } else none

inductive Agent where
  | body
  | child
  deriving DecidableEq

def step (n : ℕ) (go : ℕ → ℕ → Bool) : Agent → State → Option State
  | .body, s => batchBody n go s
  | .child, s => batchChild s

/-- All launched children have finished and the body is still spinning. -/
def Stuck (s : State) : Prop := ∃ it, s.body = .wait it ∧ s.running = 0 ∧ s.batchDone < schedBatch

/-- The children launched since the reset bring the counter to what the body waits for. -/
def CanLeave (s : State) : Prop := ∀ it, s.body = .wait it → schedBatch ≤ s.batchDone + s.running

variable {n : ℕ} {go : ℕ → ℕ → Bool} {s s' : State}

/-! ## What is counted -/

/-- How many children an iteration has launched when its launching ends. -/
structure Launched (go : ℕ → ℕ → Bool) (it k : ℕ) : Prop where
  le : k ≤ schedBatch
  ended : k = schedBatch ∨ go it k = false

/-- What has been counted and what is still running are the children of this iteration. -/
def Counted (n : ℕ) (go : ℕ → ℕ → Bool) (s : State) : Prop :=
  match s.body with
  | .loop _ | .returned => s.running = 0
  | .store it => it < n ∧ s.running = 0
  | .launch it i => it < n ∧ i ≤ schedBatch ∧ s.batchDone + s.running = i
  | .wait it => it < n ∧ Launched go it (s.batchDone + s.running)

theorem counted_body (hs : Counted n go s) (h : batchBody n go s = some s') : Counted n go s' := by
  obtain ⟨pc, done, running⟩ := s
  cases pc with
  | loop it =>
    obtain rfl := Option.some.inj h
    have hrunning : running = 0 := hs
    by_cases hit : it < n <;> simp [Counted, hit, hrunning]
  | store it =>
    obtain rfl := Option.some.inj h
    obtain ⟨hit, hrunning⟩ := hs
    exact ⟨hit, Nat.zero_le _, by simpa using hrunning⟩
  | launch it i =>
    obtain ⟨hit, hi, hcount⟩ := hs
    dsimp only at hcount
    unfold batchBody at h
    dsimp only at h
    split at h
    · split at h
      · obtain rfl := Option.some.inj h
        exact ⟨hit, ‹_›, by simp [← hcount, Nat.add_assoc]⟩
      · obtain rfl := Option.some.inj h
        exact ⟨hit, by simpa [hcount] using hi, Or.inr (by simp_all)⟩
    · obtain rfl := Option.some.inj h
      exact ⟨hit, by simpa [hcount] using hi, Or.inl (by dsimp only; omega)⟩
  | wait it =>
    obtain ⟨hit, hlaunched⟩ := hs
    have hle := hlaunched.le
    obtain rfl := Option.some.inj h
    dsimp only at hle ⊢
    split
    · exact ⟨hit, hlaunched⟩
    · have hrunning : running = 0 := by omega
      exact hrunning
  | returned => cases h

theorem counted_child (hs : Counted n go s) (h : batchChild s = some s') : Counted n go s' := by
  obtain ⟨pc, done, running⟩ := s
  unfold batchChild at h
  split at h
  · obtain rfl := Option.some.inj h
    have hsum : done + 1 + (running - 1) = done + running := by
      dsimp only at *
      omega
    cases pc <;> simp_all [Counted]
  · cases h

theorem counted_step {a : Agent} (hs : Counted n go s) (h : step n go a s = some s') :
    Counted n go s' := by
  cases a with
  | body => exact counted_body hs h
  | child => exact counted_child hs h

theorem counted_start (n : ℕ) (go : ℕ → ℕ → Bool) : Counted n go start := rfl

theorem counted_run {schedule : List Agent} (h : run (step n go) schedule start = some s) :
    Counted n go s :=
  run_invariant (fun _ _ _ => counted_step) (counted_start n go) h

/-- Where every launch succeeds, the body waits for the children it has launched. -/
theorem Counted.canLeave (hs : Counted n go s) (hgo : ∀ it < n, ∀ i < schedBatch, go it i) :
    CanLeave s := by
  intro it hbody
  obtain ⟨pc, done, running⟩ := s
  obtain rfl : pc = .wait it := hbody
  obtain ⟨hit, hlaunched⟩ := hs
  rcases hlaunched.ended with hall | hfail
  · exact Nat.le_of_eq hall.symm
  · by_contra hlt
    simp [hgo it hit _ (Nat.lt_of_not_le hlt)] at hfail

theorem CanLeave.not_stuck (hs : CanLeave s) : ¬ Stuck s := by
  rintro ⟨it, hbody, hrunning, hdone⟩
  have h := hs it hbody
  omega

/-! ## Reaching a failed launch -/

theorem reaches_launch {it i : ℕ} (hi : i ≤ schedBatch) (hgo : ∀ j < i, go it j) :
    Reaches (step n go) ⟨.launch it 0, 0, 0⟩ ⟨.launch it i, 0, i⟩ := by
  induction i with
  | zero => exact Reaches.refl _
  | succ i ih =>
    have hrest := ih (Nat.le_of_succ_le hi) (fun j hj => hgo j (Nat.lt_succ_of_lt hj))
    have hlast := hgo i (Nat.lt_succ_self i)
    have hlaunch : step n go .body ⟨.launch it i, 0, i⟩ = some ⟨.launch it (i + 1), 0, i + 1⟩ := by
      simp [step, batchBody, hlast, Nat.lt_of_succ_le hi]
    exact hrest.trans (Reaches.single hlaunch)

theorem reaches_counted (n : ℕ) (go : ℕ → ℕ → Bool) (pc : BodyPc) (done running : ℕ) :
    Reaches (step n go) ⟨pc, done, running⟩ ⟨pc, done + running, 0⟩ := by
  induction running generalizing done with
  | zero => exact Reaches.refl _
  | succ running ih =>
    have hrest := ih (done + 1)
    rw [Nat.add_right_comm, Nat.add_assoc] at hrest
    have hcounts : step n go .child ⟨pc, done, running + 1⟩ = some ⟨pc, done + 1, running⟩ := by
      simp [step, batchChild]
    exact Reaches.head hcounts hrest

/-- An iteration launches up to its first failure, and what it launched then finishes. -/
theorem reaches_wait {it k : ℕ} (done : ℕ) (hit : it < n) (hgo : ∀ j < k, go it j) (hk : Launched go it k) :
    Reaches (step n go) ⟨.loop it, done, 0⟩ ⟨.wait it, k, 0⟩ := by
  have hfirst : step n go .body ⟨.loop it, done, 0⟩ = some ⟨.store it, done, 0⟩ := by
    simp [step, batchBody, hit]
  have hreset : step n go .body ⟨.store it, done, 0⟩ = some ⟨.launch it 0, 0, 0⟩ := rfl
  have hended : step n go .body ⟨.launch it k, 0, k⟩ = some ⟨.wait it, 0, k⟩ := by
    rcases hk.ended with rfl | hfail
    · simp [step, batchBody]
    · simp [step, batchBody, hfail]
  have hdone := reaches_counted n go (.wait it) 0 k
  rw [Nat.zero_add] at hdone
  have hlaunched := (reaches_launch hk.le hgo).trans (Reaches.head hended hdone)
  exact Reaches.head hfirst (Reaches.head hreset hlaunched)

theorem reaches_loop {it : ℕ} (hit : it ≤ n) (hgo : ∀ j < it, ∀ i < schedBatch, go j i) :
    ∃ done, Reaches (step n go) start ⟨.loop it, done, 0⟩ := by
  induction it with
  | zero => exact ⟨0, Reaches.refl _⟩
  | succ it ih =>
    obtain ⟨done, hbefore⟩ := ih (Nat.le_of_succ_le hit) (fun j hj => hgo j (Nat.lt_succ_of_lt hj))
    have hwait := reaches_wait done hit (hgo it (Nat.lt_succ_self it)) ⟨le_rfl, Or.inl rfl⟩
    have hleave : step n go .body ⟨.wait it, schedBatch, 0⟩ = some ⟨.loop (it + 1), schedBatch, 0⟩ := by
      simp [step, batchBody]
    exact ⟨schedBatch, hbefore.trans (hwait.trans (Reaches.single hleave))⟩

/-- The first launch that fails leaves the body waiting for more children than there are. -/
theorem reaches_stuck {it i : ℕ} (hit : it < n) (hi : i < schedBatch) (hgo : go it i = false) :
    ∃ s, Reaches (step n go) start s ∧ Stuck s := by
  have hfails : ∃ it, it < n ∧ ∃ i, i < schedBatch ∧ go it i = false := ⟨it, hit, i, hi, hgo⟩
  obtain ⟨hfirst, hlaunch⟩ := Nat.find_spec hfails
  obtain ⟨hlt, hfail⟩ := Nat.find_spec hlaunch
  have hbefore : ∀ j < Nat.find hfails, ∀ i < schedBatch, go j i := by
    intro j hj i hi
    by_contra hne
    exact Nat.find_min hfails hj ⟨Nat.lt_trans hj hfirst, i, hi, by simpa using hne⟩
  have hlaunched : ∀ j < Nat.find hlaunch, go (Nat.find hfails) j := by
    intro j hj
    by_contra hne
    exact Nat.find_min hlaunch hj ⟨Nat.lt_trans hj hlt, by simpa using hne⟩
  obtain ⟨done, hloop⟩ := reaches_loop (Nat.le_of_lt hfirst) hbefore
  have hwait := reaches_wait done hfirst hlaunched ⟨Nat.le_of_lt hlt, Or.inr hfail⟩
  exact ⟨_, hloop.trans hwait, _, rfl, rfl, hlt⟩

/-- No run gets stuck, and every wait is for children that were launched, exactly when no
launch of any iteration fails. -/
theorem batch_leaves_iff (n : ℕ) (go : ℕ → ℕ → Bool) :
    (∀ schedule s, run (step n go) schedule start = some s → CanLeave s ∧ ¬ Stuck s) ↔
      ∀ it < n, ∀ i < schedBatch, go it i := by
  constructor
  · intro hruns it hit i hi
    by_contra hne
    obtain ⟨s, ⟨schedule, hrun⟩, hstuck⟩ := reaches_stuck hit hi (by simpa using hne)
    exact (hruns schedule s hrun).2 hstuck
  · intro hgo schedule s hrun
    have hleave := (counted_run hrun).canLeave hgo
    exact ⟨hleave, hleave.not_stuck⟩

/-- One iteration whose first launch fails. -/
theorem batch_stuck : ¬ ∀ (n : ℕ) (go : ℕ → ℕ → Bool) (schedule : List Agent) (s : State),
    run (step n go) schedule start = some s → CanLeave s ∧ ¬ Stuck s := by
  intro h
  have hrun : run (step 1 fun _ _ => false) [.body, .body, .body] start = some ⟨.wait 0, 0, 0⟩ := by
    decide
  exact (h 1 _ _ _ hrun).2 ⟨0, rfl, rfl, by decide⟩

end BurrowBench.Scheduler.Batch
