import BurrowBench.Foundation.Interleaving
import BurrowBench.Foundation.Tally

/-! # Firing a burst of timers

Each turn of burst_body sets a counter to zero, arms every timer for now and yields until the
counter has reached the number of timers; a timer that is due launches its callback, and the
callback adds one. The clock runs from the first arming to the last callback. The start is
after the timers are made and stopped.
-/
namespace BurrowBench.Scheduler.TimerBurst
open Interleaving Tally

inductive BodyPc where
  | loop (i : ℕ)
  | store (i : ℕ)
  | resume (i : ℕ)
  | reset (i k : ℕ)
  | wait (i : ℕ)
  | pause (i : ℕ)
  | free (k : ℕ)
  | returned
  deriving DecidableEq

/-- A timer is in the heap or not, and so many of its callbacks have been launched and have not
added to the counter yet. -/
structure Timer where
  armed : Bool
  callbacks : ℕ
  deriving DecidableEq

def idle : Timer := ⟨false, 0⟩

/-- `running` is the clock of the harness. `ran` is a ghost, the callbacks that have run. -/
structure State where
  body : BodyPc
  timers : List Timer
  fired : ℕ
  running : Bool
  ran : ℕ
  deriving DecidableEq

def start (burst : ℕ) : State where
  body := .loop 0
  timers := List.replicate burst idle
  fired := 0
  running := false
  ran := 0

def burstBody (burst n : ℕ) (s : State) : Option State :=
  match s.body with
  | .loop i => some { s with body := if i < n then .store i else .free 0 }
  | .store i => some { s with fired := 0, body := .resume i }
  | .resume i => some { s with running := true, body := .reset i 0 }
  | .reset i k =>
    if k < burst then
      s.timers[k]?.map fun t =>
        { s with timers := s.timers.set k { t with armed := true }, body := .reset i (k + 1) }
    else some { s with body := .wait i }
  | .wait i => some (if s.fired < burst then s else { s with body := .pause i })
  | .pause i => some { s with running := false, body := .loop (i + 1) }
  | .free k => some { s with body := if k < burst then .free (k + 1) else .returned }
  | .returned => none

/-- A timer that is due leaves the heap and launches its callback. -/
def fire (k : ℕ) (s : State) : Option State :=
  match s.timers[k]? with
  | some t =>
    if t.armed then
      some { s with timers := s.timers.set k { armed := false, callbacks := t.callbacks + 1 } }
    else none
  | none => none

def onFire (k : ℕ) (s : State) : Option State :=
  match s.timers[k]? with
  | some t =>
    if 0 < t.callbacks then
      some { s with
        timers := s.timers.set k { t with callbacks := t.callbacks - 1 }
        fired := s.fired + 1, ran := s.ran + 1 }
    else none
  | none => none

inductive Agent where
  | body
  | fire (k : ℕ)
  | onFire (k : ℕ)
  deriving DecidableEq

def step (burst n : ℕ) : Agent → State → Option State
  | .body, s => burstBody burst n s
  | .fire k, s => fire k s
  | .onFire k, s => onFire k s

/-! ## What is counted -/

def Timer.outstanding (t : Timer) : ℕ := t.armed.toNat + t.callbacks

/-- What the timers still owe the counter. -/
def outstanding (s : State) : ℕ := tally Timer.outstanding s.timers

/-- The clock is on. -/
@[simp] def BodyPc.timed : BodyPc → Bool
  | .reset _ _ | .wait _ | .pause _ => true
  | _ => false

/-- Between a reset of the counter and the end of the wait the timers armed so far have been
counted or will be. Outside of that none is armed and no callback is on its way. -/
def Counts (burst n : ℕ) (s : State) : Prop :=
  match s.body with
  | .loop i => i ≤ n ∧ outstanding s = 0 ∧ s.ran = i * burst
  | .store i => i < n ∧ outstanding s = 0 ∧ s.ran = i * burst
  | .resume i => i < n ∧ outstanding s = 0 ∧ s.fired = 0 ∧ s.ran = i * burst
  | .reset i k =>
    i < n ∧ k ≤ burst ∧ s.fired + outstanding s = k ∧ (∀ t ∈ s.timers.drop k, t = idle) ∧
      s.ran = i * burst + s.fired
  | .wait i => i < n ∧ s.fired + outstanding s = burst ∧ s.ran = i * burst + s.fired
  | .pause i => i < n ∧ outstanding s = 0 ∧ s.ran = (i + 1) * burst
  | .free k => k ≤ burst ∧ outstanding s = 0 ∧ s.ran = n * burst
  | .returned => outstanding s = 0 ∧ s.ran = n * burst

structure Kept (burst n : ℕ) (s : State) : Prop where
  length_eq : s.timers.length = burst
  running : s.running = s.body.timed
  fired_le : s.fired ≤ burst
  counts : Counts burst n s

variable {burst n k : ℕ} {s s' : State} {t : Timer}

theorem tally_replicate_idle (burst : ℕ) : tally Timer.outstanding (List.replicate burst idle) = 0 := by
  rw [tally_eq_mul _ (m := 0), Nat.zero_mul]
  intro t ht
  rw [List.eq_of_mem_replicate ht]
  rfl

theorem kept_start (burst n : ℕ) : Kept burst n (start burst) where
  length_eq := List.length_replicate
  running := rfl
  fired_le := Nat.zero_le burst
  counts := ⟨Nat.zero_le n, tally_replicate_idle burst, (Nat.zero_mul burst).symm⟩

theorem outstanding_get (h : s.timers[k]? = some t) : t.outstanding ≤ outstanding s :=
  le_tally _ (List.mem_of_getElem? h)

theorem Timer.eq_idle (h : t.outstanding = 0) : t = idle := by
  obtain ⟨armed, callbacks⟩ := t
  cases armed <;> simp_all [Timer.outstanding, idle]

theorem mem_drop {l : List Timer} (h : l[k]? = some t) : t ∈ l.drop k :=
  List.mem_of_getElem? (i := 0) (by rw [List.getElem?_drop, Nat.add_zero, h])

theorem mem_of_mem_drop_set {l : List Timer} {j : ℕ} {t' : Timer} (hkj : k < j) (h : t ∈ (l.set k t').drop j) :
    t ∈ l.drop j := by
  rwa [List.drop_set, if_pos hkj] at h

theorem Kept.body_step (hs : Kept burst n s) (h : burstBody burst n s = some s') : Kept burst n s' := by
  obtain ⟨body, timers, fired, running, ran⟩ := s
  obtain ⟨hlength, hrunning, hfired, hcounts⟩ := hs
  cases body with
  | loop i =>
    obtain rfl := Option.some.inj h
    obtain ⟨hi, hquiet, hran⟩ := hcounts
    by_cases hin : i < n
    · simp only [hin, if_true]
      exact ⟨hlength, hrunning, hfired, hin, hquiet, hran⟩
    · obtain rfl : i = n := by omega
      simp only [hin, if_false]
      exact ⟨hlength, hrunning, hfired, Nat.zero_le _, hquiet, hran⟩
  | store i =>
    obtain rfl := Option.some.inj h
    obtain ⟨hi, hquiet, hran⟩ := hcounts
    exact ⟨hlength, hrunning, Nat.zero_le _, hi, hquiet, rfl, hran⟩
  | resume i =>
    obtain rfl := Option.some.inj h
    obtain ⟨hi, hquiet, hzero, hran⟩ := hcounts
    obtain rfl : fired = 0 := hzero
    refine ⟨hlength, rfl, hfired, hi, Nat.zero_le _, ?_, ?_, hran⟩
    · exact (Nat.zero_add _).trans hquiet
    · intro t ht
      have hle : t.outstanding ≤ tally Timer.outstanding timers := le_tally _ (List.mem_of_mem_drop ht)
      exact Timer.eq_idle (Nat.le_zero.mp (Nat.le_trans hle (Nat.le_of_eq hquiet)))
  | reset i k =>
    obtain ⟨hi, hk, hsum, hidle, hran⟩ := hcounts
    unfold burstBody at h
    dsimp only at h hidle hsum hlength
    split at h
    · rename_i hkb
      obtain ⟨t, ht, rfl⟩ := Option.map_eq_some_iff.mp h
      have htidle : t = idle := hidle t (mem_drop ht)
      subst htidle
      have hset := tally_set Timer.outstanding ht { idle with armed := true }
      refine ⟨by simpa using hlength, hrunning, hfired, hi, hkb, ?_, ?_, hran⟩
      · simp only [outstanding, Timer.outstanding, idle, Bool.toNat_false, Bool.toNat_true] at hset hsum ⊢
        omega
      · intro t' ht'
        have hmem := mem_of_mem_drop_set (Nat.lt_succ_self k) ht'
        exact hidle t' (List.drop_subset_drop_left _ (Nat.le_succ k) hmem)
    · obtain rfl := Option.some.inj h
      obtain rfl : k = burst := by omega
      exact ⟨hlength, hrunning, hfired, hi, hsum, hran⟩
  | wait i =>
    obtain rfl := Option.some.inj h
    obtain ⟨hi, hsum, hran⟩ := hcounts
    by_cases hlt : fired < burst
    · simp only [hlt, if_true]
      exact ⟨hlength, hrunning, hfired, hi, hsum, hran⟩
    · simp only [hlt, if_false]
      dsimp only [outstanding] at hsum hran
      refine ⟨hlength, hrunning, hfired, hi, ?_, ?_⟩
      · dsimp only [outstanding]
        omega
      · dsimp only
        rw [hran, Nat.succ_mul]
        omega
  | pause i =>
    obtain rfl := Option.some.inj h
    obtain ⟨hi, hquiet, hran⟩ := hcounts
    exact ⟨hlength, rfl, hfired, hi, hquiet, hran⟩
  | free k =>
    obtain rfl := Option.some.inj h
    obtain ⟨hk, hquiet, hran⟩ := hcounts
    by_cases hkb : k < burst
    · simp only [hkb, if_true]
      exact ⟨hlength, hrunning, hfired, hkb, hquiet, hran⟩
    · simp only [hkb, if_false]
      exact ⟨hlength, hrunning, hfired, hquiet, hran⟩
  | returned => cases h

/-- A timer moves on: what it no longer owes has been counted. -/
theorem Kept.timer_goto (hs : Kept burst n s) (ht : s.timers[k]? = some t) {t' : Timer} (counted : ℕ)
    (howes : t'.outstanding + counted = t.outstanding) (hbusy : 0 < t.outstanding) :
    Kept burst n { s with timers := s.timers.set k t', fired := s.fired + counted, ran := s.ran + counted } := by
  obtain ⟨body, timers, fired, running, ran⟩ := s
  obtain ⟨hlength, hrunning, hfired, hcounts⟩ := hs
  have hset := tally_set Timer.outstanding ht t'
  have hle := outstanding_get ht
  dsimp only [outstanding] at ht hset hle
  have hlength' : (timers.set k t').length = burst := by simpa using hlength
  cases body with
  | reset i j =>
    obtain ⟨hi, hj, hsum, hidle, hran⟩ := hcounts
    dsimp only [outstanding] at hsum hidle hran
    have hkj : k < j := by
      by_contra hge
      have hmem : t ∈ timers.drop j := List.drop_subset_drop_left _ (Nat.le_of_not_lt hge) (mem_drop ht)
      rw [hidle t hmem] at hbusy
      exact Nat.lt_irrefl 0 hbusy
    refine ⟨hlength', hrunning, ?_, hi, hj, ?_, fun u hu => hidle u (mem_of_mem_drop_set hkj hu), ?_⟩
    · dsimp only
      omega
    · dsimp only [outstanding]
      omega
    · dsimp only
      omega
  | wait i =>
    obtain ⟨hi, hsum, hran⟩ := hcounts
    dsimp only [outstanding] at hsum hran
    refine ⟨hlength', hrunning, ?_, hi, ?_, ?_⟩
    · dsimp only
      omega
    · dsimp only [outstanding]
      omega
    · dsimp only
      omega
  | loop i =>
    have hquiet : tally Timer.outstanding timers = 0 := hcounts.2.1
    omega
  | store i =>
    have hquiet : tally Timer.outstanding timers = 0 := hcounts.2.1
    omega
  | resume i =>
    have hquiet : tally Timer.outstanding timers = 0 := hcounts.2.1
    omega
  | pause i =>
    have hquiet : tally Timer.outstanding timers = 0 := hcounts.2.1
    omega
  | free j =>
    have hquiet : tally Timer.outstanding timers = 0 := hcounts.2.1
    omega
  | returned =>
    have hquiet : tally Timer.outstanding timers = 0 := hcounts.1
    omega

theorem fire_cases (h : fire k s = some s') : ∃ t, s.timers[k]? = some t ∧ t.armed = true ∧
    s' = { s with timers := s.timers.set k { armed := false, callbacks := t.callbacks + 1 } } := by
  unfold fire at h
  split at h
  · rename_i t ht
    split at h
    · exact ⟨t, ht, ‹_›, (Option.some.inj h).symm⟩
    · cases h
  · cases h

theorem onFire_cases (h : onFire k s = some s') : ∃ t, s.timers[k]? = some t ∧ 0 < t.callbacks ∧
    s' = { s with timers := s.timers.set k { t with callbacks := t.callbacks - 1 }
                  fired := s.fired + 1, ran := s.ran + 1 } := by
  unfold onFire at h
  split at h
  · rename_i t ht
    split at h
    · exact ⟨t, ht, ‹_›, (Option.some.inj h).symm⟩
    · cases h
  · cases h

theorem Kept.step {a : Agent} (hs : Kept burst n s) (h : step burst n a s = some s') : Kept burst n s' := by
  cases a with
  | body => exact hs.body_step h
  | fire k =>
    obtain ⟨t, ht, harmed, rfl⟩ := fire_cases h
    refine hs.timer_goto ht 0 ?_ ?_
    · simp [Timer.outstanding, harmed, Nat.add_comm]
    · simp only [Timer.outstanding, harmed, Bool.toNat_true]
      omega
  | onFire k =>
    obtain ⟨t, ht, hcallback, rfl⟩ := onFire_cases h
    refine hs.timer_goto ht 1 ?_ ?_
    · simp only [Timer.outstanding]
      omega
    · simp only [Timer.outstanding]
      omega

/-! ## Progress -/

def Timer.left (t : Timer) : ℕ := 2 * t.armed.toNat + t.callbacks

/-- The steps of one turn. -/
def turn (burst : ℕ) : ℕ := 3 * burst + 6

@[simp] def BodyPc.left (burst n : ℕ) : BodyPc → ℕ
  | .loop i => (n - i) * turn burst + (burst + 2)
  | .store i => (n - (i + 1)) * turn burst + (4 * burst + 7)
  | .resume i => (n - (i + 1)) * turn burst + (4 * burst + 6)
  | .reset i k => (n - (i + 1)) * turn burst + (4 * burst + 5 - 3 * k)
  | .wait i => (n - (i + 1)) * turn burst + (burst + 4)
  | .pause i => (n - (i + 1)) * turn burst + (burst + 3)
  | .free k => burst - k + 1
  | .returned => 0

def stepsLeft (burst n : ℕ) (s : State) : ℕ := s.body.left burst n + tally Timer.left s.timers

theorem turn_split (burst : ℕ) {i : ℕ} (h : i < n) :
    (n - i) * turn burst = (n - (i + 1)) * turn burst + (3 * burst + 6) := by
  have hsub : n - i = n - (i + 1) + 1 := by omega
  rw [hsub, Nat.succ_mul]
  rfl

theorem Kept.lowers_body (hs : Kept burst n s) (h : burstBody burst n s = some s') (hne : s' ≠ s) :
    stepsLeft burst n s' < stepsLeft burst n s := by
  obtain ⟨body, timers, fired, running, ran⟩ := s
  have hcounts := hs.counts
  cases body with
  | loop i =>
    obtain rfl := Option.some.inj h
    by_cases hin : i < n
    · have hsplit := turn_split burst hin
      simp only [stepsLeft, hin, if_true, BodyPc.left]
      omega
    · simp only [stepsLeft, hin, if_false, BodyPc.left]
      omega
  | store i =>
    obtain rfl := Option.some.inj h
    simp [stepsLeft]
  | resume i =>
    obtain rfl := Option.some.inj h
    simp [stepsLeft]
  | reset i k =>
    obtain ⟨hi, hk, hsum, hidle, hran⟩ := hcounts
    unfold burstBody at h
    dsimp only at h hidle
    split at h
    · rename_i hkb
      obtain ⟨t, ht, rfl⟩ := Option.map_eq_some_iff.mp h
      have htidle : t = idle := hidle t (mem_drop ht)
      subst htidle
      have hset := tally_set Timer.left ht { idle with armed := true }
      simp only [stepsLeft, BodyPc.left, Timer.left, idle, Bool.toNat_false, Bool.toNat_true] at hset ⊢
      omega
    · obtain rfl := Option.some.inj h
      simp only [stepsLeft, BodyPc.left]
      omega
  | wait i =>
    obtain rfl := Option.some.inj h
    by_cases hlt : fired < burst
    · simp [hlt] at hne
    · simp [stepsLeft, hlt]
  | pause i =>
    obtain rfl := Option.some.inj h
    simp [stepsLeft]
  | free k =>
    obtain rfl := Option.some.inj h
    by_cases hkb : k < burst
    · simp only [stepsLeft, hkb, if_true, BodyPc.left]
      omega
    · simp only [stepsLeft, hkb, if_false, BodyPc.left]
      omega
  | returned => cases h

theorem Kept.lowers {a : Agent} (hs : Kept burst n s) (h : TimerBurst.step burst n a s = some s')
    (hne : s' ≠ s) : stepsLeft burst n s' < stepsLeft burst n s := by
  cases a with
  | body => exact hs.lowers_body h hne
  | fire k =>
    obtain ⟨t, ht, harmed, rfl⟩ := fire_cases h
    have hset := tally_set Timer.left ht { armed := false, callbacks := t.callbacks + 1 }
    simp only [stepsLeft, Timer.left, harmed, Bool.toNat_false, Bool.toNat_true] at hset ⊢
    omega
  | onFire k =>
    obtain ⟨t, ht, hcallback, rfl⟩ := onFire_cases h
    have hset := tally_set Timer.left ht { t with callbacks := t.callbacks - 1 }
    simp only [stepsLeft, Timer.left] at hset ⊢
    omega

/-- A timer that owes something can fire or run its callback. -/
theorem owing_moves (burst n : ℕ) (h : 0 < outstanding s) :
    ∃ a s', TimerBurst.step burst n a s = some s' ∧ s' ≠ s := by
  obtain ⟨t, hmem, howes⟩ := exists_of_tally_pos _ h
  obtain ⟨k, ht⟩ := List.mem_iff_getElem?.mp hmem
  have hlt := (List.getElem?_eq_some_iff.mp ht).1
  have hmoved : ∀ s' : State, s'.timers[k]? ≠ some t → s' ≠ s := fun s' hne heq => hne (heq ▸ ht)
  by_cases harmed : t.armed = true
  · have hstep : fire k s =
        some { s with timers := s.timers.set k { armed := false, callbacks := t.callbacks + 1 } } := by
      simp only [fire, ht, harmed, if_true]
    refine ⟨.fire k, _, hstep, hmoved _ ?_⟩
    rw [List.getElem?_set_self hlt]
    intro heq
    rw [← Option.some.inj heq] at harmed
    cases harmed
  · have hpos : 0 < t.callbacks := by simpa [Timer.outstanding, harmed] using howes
    have hstep : onFire k s = some { s with
        timers := s.timers.set k { t with callbacks := t.callbacks - 1 }
        fired := s.fired + 1, ran := s.ran + 1 } := by
      simp only [onFire, ht, hpos, if_true]
    refine ⟨.onFire k, _, hstep, hmoved _ ?_⟩
    rw [List.getElem?_set_self hlt]
    intro heq
    have hcallbacks := congrArg Timer.callbacks (Option.some.inj heq)
    dsimp only at hcallbacks
    omega

/-- Before the body returns something can move: the body, or a timer that the body waits for. -/
theorem Kept.progress (hs : Kept burst n s) :
    s.body = .returned ∨ ∃ a s', TimerBurst.step burst n a s = some s' ∧ s' ≠ s := by
  have hmoved : ∀ s' : State, s'.body ≠ s.body → s' ≠ s := fun s' hne heq => hne (heq ▸ rfl)
  obtain ⟨body, timers, fired, running, ran⟩ := s
  have hcounts := hs.counts
  cases body with
  | loop i =>
    refine Or.inr ⟨.body, _, rfl, hmoved _ ?_⟩
    dsimp only
    split <;> simp
  | store i => exact Or.inr ⟨.body, _, rfl, hmoved _ (by simp)⟩
  | resume i => exact Or.inr ⟨.body, _, rfl, hmoved _ (by simp)⟩
  | reset i k =>
    by_cases hk : k < burst
    · have hget : ∃ t, timers[k]? = some t := ⟨_, List.getElem?_eq_getElem (hs.length_eq.symm ▸ hk)⟩
      obtain ⟨t, ht⟩ := hget
      have hstep : burstBody burst n ⟨.reset i k, timers, fired, running, ran⟩ =
          some ⟨.reset i (k + 1), timers.set k { t with armed := true }, fired, running, ran⟩ := by
        simp only [burstBody, hk, if_true, ht, Option.map_some]
      refine Or.inr ⟨.body, _, hstep, hmoved _ ?_⟩
      simp
    · refine Or.inr ⟨.body, _, if_neg hk, hmoved _ ?_⟩
      simp
  | wait i =>
    by_cases hlt : fired < burst
    · have hsum : fired + tally Timer.outstanding timers = burst := hcounts.2.1
      have howes : 0 < tally Timer.outstanding timers := by omega
      exact Or.inr (owing_moves burst n howes)
    · refine Or.inr ⟨.body, _, rfl, hmoved _ ?_⟩
      simp [hlt]
  | pause i => exact Or.inr ⟨.body, _, rfl, hmoved _ (by simp)⟩
  | free k =>
    refine Or.inr ⟨.body, _, rfl, hmoved _ ?_⟩
    dsimp only
    split <;> simp
  | returned => exact Or.inl rfl

/-! ## The row -/

/-- Whenever the counter is set to zero, and when the timers are freed, none is armed and no
callback is on its way, so that every wait is for the callbacks of its own burst; the clock is
on from the first arming of a burst to its last callback. A run that goes on ends, with as many
callbacks as there were armings. -/
theorem burst_counts (burst n : ℕ) (schedule : List Agent) (s : State)
    (h : run (step burst n) schedule (start burst) = some s) :
    ((∃ i, s.body = .store i) ∨ (∃ k, s.body = .free k) → ∀ t ∈ s.timers, t = idle) ∧
    (∀ i, s.body = .wait i → s.fired + outstanding s = burst ∧ s.ran = i * burst + s.fired) ∧
    s.fired ≤ burst ∧ s.running = s.body.timed ∧ (s.body = .returned → s.ran = n * burst) ∧
    (s.body = .returned ∨ ∃ a s', step burst n a s = some s' ∧ s' ≠ s) ∧
    changes (step burst n) schedule (start burst) ≤ n * (3 * burst + 6) + burst + 2 := by
  have hs : Kept burst n s := run_invariant (fun _ _ _ => Kept.step) (kept_start burst n) h
  have hcounts := hs.counts
  unfold Counts at hcounts
  refine ⟨?_, ?_, hs.fired_le, hs.running, ?_, hs.progress, ?_⟩
  · intro hbody t ht
    have hquiet : outstanding s = 0 := by
      rcases hbody with ⟨i, hbody⟩ | ⟨k, hbody⟩ <;> rw [hbody] at hcounts <;> exact hcounts.2.1
    exact Timer.eq_idle (Nat.le_zero.mp (hquiet ▸ le_tally Timer.outstanding ht))
  · intro i hbody
    rw [hbody] at hcounts
    exact hcounts.2
  · intro hbody
    rw [hbody] at hcounts
    exact hcounts.2
  · have hchanges : changes (step burst n) schedule (start burst) ≤ stepsLeft burst n (start burst) :=
      changes_le (fun _ _ _ => Kept.step) (fun _ _ _ => Kept.lowers) schedule (kept_start burst n)
    have hidle : tally Timer.left (List.replicate burst idle) = 0 := by
      rw [tally_eq_mul _ (m := 0), Nat.zero_mul]
      intro t ht
      rw [List.eq_of_mem_replicate ht]
      rfl
    refine Nat.le_trans hchanges ?_
    simp only [stepsLeft, start, BodyPc.left, hidle, turn, Nat.sub_zero]
    omega

/-- Two bursts of two timers. -/
theorem burst_counts_two :
    let s : State := { body := .returned, timers := [idle, idle], fired := 2, running := false, ran := 4 }
    s.running = s.body.timed ∧ s.ran = 2 * 2 := by
  intro s
  have h := burst_counts 2 2
    (List.replicate 6 .body ++ [.fire 1, .onFire 1, .fire 0, .onFire 0] ++ List.replicate 8 .body ++
      [.fire 1, .fire 0, .onFire 0, .onFire 1] ++ List.replicate 6 .body) s (by decide)
  exact ⟨h.2.2.2.1, h.2.2.2.2.1 rfl⟩

end BurrowBench.Scheduler.TimerBurst
