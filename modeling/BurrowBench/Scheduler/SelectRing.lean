import BurrowBench.Foundation.Interleaving
import Mathlib.Data.Int.Notation
import Mathlib.Logic.ExistsUnique
import Mathlib.Logic.Function.Iterate

/-! # The select rows with one ready arm

uncontended_body and eight_arms_body put one value into channels of capacity one, and every
turn receives it from whichever arm can run and sends it to the channel that follows. Which
arm a select takes, among those that can run, is up to the schedule. The start is after the
channels are made.
-/
namespace BurrowBench.Scheduler.SelectRing
open Interleaving Function

def arms : ℕ := 8

variable {ι : Type*}

inductive Pc (ι : Type*) where
  | seed
  | loop (i : ℕ)
  | select (i : ℕ)
  | send (i : ℕ) (which : ι) (got : ℤ)
  | paused
  deriving DecidableEq

/-- What is in each channel, the oldest value first. -/
structure State (ι : Type*) where
  pc : Pc ι
  chans : ι → List ℤ

def start : State ι where
  pc := .seed
  chans _ := []

section
variable [DecidableEq ι]

/-- A send waits for room, so there is none on a full channel. -/
def chanSend (chans : ι → List ℤ) (j : ι) (v : ℤ) : Option (ι → List ℤ) :=
  if (chans j).length < 1 then some (update chans j (chans j ++ [v])) else none

/-- A row that seeds the channel `first` and sends on `next which` what it got on `which`. A
select takes an arm that has a value and waits if it has none. -/
def selectBody (next : ι → ι) (first : ι) (n : ℕ) (arm : ι) (s : State ι) : Option (State ι) :=
  match s.pc with
  | .seed => (chanSend s.chans first 1).map fun chans => ⟨.loop 0, chans⟩
  | .loop i => some { s with pc := if i < n then .select i else .paused }
  | .select i =>
    match s.chans arm with
    | [] => none
    | got :: rest => some ⟨.send i arm got, update s.chans arm rest⟩
  | .send i which got => (chanSend s.chans (next which) got).map fun chans => ⟨.loop (i + 1), chans⟩
  | .paused => none

end

/-- c1 is 0 and c2 is 1. -/
def uncontendedNext (which : Fin 2) : Fin 2 := if which = 0 then 1 else 0

def uncontendedBody : ℕ → Fin 2 → State (Fin 2) → Option (State (Fin 2)) := selectBody uncontendedNext 0

/-- `wide[(which + 1) % ARMS]` -/
def eightArmsNext (which : Fin arms) : Fin arms := ⟨(which + 1) % arms, Nat.mod_lt _ (by decide)⟩

def eightArmsBody : ℕ → Fin arms → State (Fin arms) → Option (State (Fin arms)) :=
  selectBody eightArmsNext ⟨0, by decide⟩

/-! ## One value -/

section
variable [DecidableEq ι] {next : ι → ι} {first : ι} {n : ℕ} {s s' : State ι}

/-- One channel holds the value and the others nothing. -/
def holding (j : ι) : ι → List ℤ := update (fun _ => []) j [1]

/-- After i turns the value is where i steps from the first channel lead, and in a turn it is
in no channel. -/
def Circulating (next : ι → ι) (first : ι) (n : ℕ) (s : State ι) : Prop :=
  match s.pc with
  | .seed => s.chans = fun _ => []
  | .loop i => i ≤ n ∧ s.chans = holding (next^[i] first)
  | .select i => i < n ∧ s.chans = holding (next^[i] first)
  | .send i which got => i < n ∧ which = next^[i] first ∧ got = 1 ∧ s.chans = fun _ => []
  | .paused => s.chans = holding (next^[n] first)

def left (n : ℕ) (s : State ι) : ℕ :=
  match s.pc with
  | .seed => 3 * n + 2
  | .loop i => 3 * (n - i) + 1
  | .select i => 3 * (n - i)
  | .send i _ _ => 3 * (n - i) - 1
  | .paused => 0

theorem holding_apply (j arm : ι) : holding j arm = if arm = j then [1] else [] := by
  by_cases h : arm = j
  · rw [h, holding, update_self, if_pos rfl]
  · rw [holding, update_of_ne h, if_neg h]

theorem holding_take (j : ι) : update (holding j) j [] = fun _ => [] := by
  rw [holding, update_idem, update_eq_self]

theorem circulating_start (next : ι → ι) (first : ι) (n : ℕ) :
    Circulating next first n start := rfl

theorem circulating_step {arm : ι} (h : Circulating next first n s)
    (hstep : selectBody next first n arm s = some s') :
    Circulating next first n s' ∧ left n s' < left n s := by
  obtain ⟨pc, chans⟩ := s
  cases pc with
  | seed =>
    obtain rfl : chans = fun _ => [] := h
    cases hstep
    exact ⟨⟨Nat.zero_le n, rfl⟩, by simp [left]⟩
  | loop i =>
    obtain ⟨hi, rfl⟩ : i ≤ n ∧ chans = holding (next^[i] first) := h
    cases hstep
    by_cases hin : i < n
    · simp only [if_pos hin]
      exact ⟨⟨hin, rfl⟩, by simp [left]⟩
    · obtain rfl : i = n := by omega
      simp only [if_neg hin]
      exact ⟨rfl, by simp [left]⟩
  | select i =>
    obtain ⟨hi, rfl⟩ : i < n ∧ chans = holding (next^[i] first) := h
    by_cases harm : arm = next^[i] first
    · subst harm
      have htake : selectBody next first n (next^[i] first) ⟨.select i, holding (next^[i] first)⟩ =
          some ⟨.send i (next^[i] first) 1, fun _ => []⟩ := by
        simp only [selectBody, holding_apply, if_true, holding_take]
      rw [htake] at hstep
      cases hstep
      refine ⟨⟨hi, rfl, rfl, rfl⟩, ?_⟩
      simp only [left]
      omega
    · have hempty : holding (next^[i] first) arm = [] := by rw [holding_apply, if_neg harm]
      simp only [selectBody, hempty] at hstep
      cases hstep
  | send i which got =>
    obtain ⟨hi, rfl, rfl, rfl⟩ : i < n ∧ which = next^[i] first ∧ got = 1 ∧ chans = fun _ => [] := h
    cases hstep
    refine ⟨⟨hi, ?_⟩, ?_⟩
    · rw [iterate_succ_apply']
      rfl
    · simp only [left]
      omega
  | paused => cases hstep

theorem circulating_progress (h : Circulating next first n s) :
    s.pc = .paused ∨ ∃ arm, (selectBody next first n arm s).isSome := by
  obtain ⟨pc, chans⟩ := s
  cases pc with
  | seed =>
    obtain rfl : chans = fun _ => [] := h
    exact .inr ⟨first, rfl⟩
  | loop i => exact .inr ⟨first, rfl⟩
  | select i =>
    obtain ⟨hi, rfl⟩ : i < n ∧ chans = holding (next^[i] first) := h
    refine .inr ⟨next^[i] first, ?_⟩
    simp only [selectBody, holding_apply, if_true]
    rfl
  | send i which got =>
    obtain ⟨hi, rfl, rfl, rfl⟩ : i < n ∧ which = next^[i] first ∧ got = 1 ∧ chans = fun _ => [] := h
    exact .inr ⟨first, rfl⟩
  | paused => exact .inl rfl

theorem terminates (next : ι → ι) (first : ι) (n : ℕ) :
    Terminates (selectBody next first n) (Circulating next first n) (fun s => s.pc = .paused)
      (left n) where
  keep _ _ _ hs hstep := (circulating_step hs hstep).1
  lower _ _ _ hs hstep := (circulating_step hs hstep).2
  progress _ hs := circulating_progress hs

end

/-! ## Round the ring -/

/-- The turns that are over, unless a value is under way in the middle of one. -/
def Pc.turns (n : ℕ) : Pc ι → Option ℕ
  | .loop k | .select k => some k
  | .paused => some n
  | .seed | .send _ _ _ => none

/-- The value is in channel k mod m after k turns; a select finds one arm ready and can take
it, a send finds room, and the row goes on to its end. -/
structure OneValue (m : ℕ) (next : Fin m → Fin m) (step : Fin m → State (Fin m) → Option (State (Fin m)))
    (n : ℕ) (s : State (Fin m)) : Prop where
  holds : ∀ k, s.pc.turns n = some k → ∀ arm, s.chans arm = if arm.val = k % m then [1] else []
  one_ready : ∀ k, s.pc = .select k → ∃! arm, s.chans arm ≠ []
  room : ∀ k which got, s.pc = .send k which got → s.chans (next which) = []
  seed_room : s.pc = .seed → ∀ arm, s.chans arm = []
  goes_on : s.pc = .paused ∨ ∃ arm, (step arm s).isSome
  ends : ∃ s', Reaches step s s' ∧ s'.pc = .paused

variable {m n : ℕ} {next : Fin m → Fin m} {first : Fin m} {s : State (Fin m)}

theorem iterate_val (hnext : ∀ j, (next j).val = (j.val + 1) % m) (hfirst : first.val = 0) (k : ℕ) :
    (next^[k] first).val = k % m := by
  induction k with
  | zero => rw [iterate_zero_apply, hfirst, Nat.zero_mod]
  | succ k ih => rw [iterate_succ_apply', hnext, ih, Nat.mod_add_mod]

theorem holding_iterate (hnext : ∀ j, (next j).val = (j.val + 1) % m) (hfirst : first.val = 0)
    (k : ℕ) (arm : Fin m) :
    holding (next^[k] first) arm = if arm.val = k % m then [1] else [] := by
  simp only [holding_apply, Fin.ext_iff, iterate_val hnext hfirst]

theorem oneValue_of_run (hnext : ∀ j, (next j).val = (j.val + 1) % m) (hfirst : first.val = 0)
    {schedule : List (Fin m)} (h : run (selectBody next first n) schedule start = some s) :
    OneValue m next (selectBody next first n) n s := by
  obtain ⟨hcirculating, -, hprogress⟩ := (terminates next first n).run_spec (circulating_start next first n) h
  obtain ⟨s', hreaches, -, hend⟩ := (terminates next first n).reaches_end hcirculating
  obtain ⟨pc, chans⟩ := s
  refine ⟨fun k hk arm => ?_, fun k hk => ?_, fun k which got hk => ?_, fun hk arm => ?_, hprogress,
    s', hreaches, hend⟩
  · cases pc with
    | loop i =>
      obtain ⟨-, rfl⟩ : i ≤ n ∧ chans = holding (next^[i] first) := hcirculating
      cases hk
      exact holding_iterate hnext hfirst k arm
    | select i =>
      obtain ⟨-, rfl⟩ : i < n ∧ chans = holding (next^[i] first) := hcirculating
      cases hk
      exact holding_iterate hnext hfirst k arm
    | paused =>
      obtain rfl : chans = holding (next^[n] first) := hcirculating
      cases hk
      exact holding_iterate hnext hfirst n arm
    | seed => cases hk
    | send i which got => cases hk
  · obtain rfl : pc = .select k := hk
    obtain ⟨-, rfl⟩ : _ ∧ chans = holding (next^[k] first) := hcirculating
    refine ⟨next^[k] first, ?_, fun arm harm => ?_⟩
    · simp [holding_apply]
    · by_contra hother
      exact harm (by simp [holding_apply, hother])
  · obtain rfl : pc = .send k which got := hk
    obtain ⟨-, -, -, rfl⟩ : _ ∧ _ ∧ _ ∧ chans = fun _ => [] := hcirculating
    rfl
  · obtain rfl : pc = .seed := hk
    obtain rfl : chans = fun _ => [] := hcirculating
    rfl

theorem length_le_of_run {schedule : List (Fin m)}
    (h : run (selectBody next first n) schedule start = some s) : schedule.length ≤ 3 * n + 2 :=
  ((terminates next first n).run_spec (circulating_start next first n) h).2.1

/-- Whatever arms the selects take among those that can run. -/
theorem one_value_circulates (n : ℕ) :
    (∀ schedule s, run (uncontendedBody n) schedule start = some s →
      OneValue 2 uncontendedNext (uncontendedBody n) n s ∧ schedule.length ≤ 3 * n + 2) ∧
    (∀ schedule s, run (eightArmsBody n) schedule start = some s →
      OneValue arms eightArmsNext (eightArmsBody n) n s ∧ schedule.length ≤ 3 * n + 2) :=
  ⟨fun _ _ h => ⟨oneValue_of_run (by decide) rfl h, length_le_of_run h⟩,
    fun _ _ h => ⟨oneValue_of_run (fun _ => rfl) rfl h, length_le_of_run h⟩⟩

/-- Two turns of either row; the arms that matter are those of the selects. -/
theorem one_value_circulates_two :
    (∃ s, run (uncontendedBody 2) [0, 0, 0, 0, 0, 1, 0, 0] start = some s ∧ s.pc = .paused ∧
      s.chans 0 = [1] ∧ s.chans 1 = []) ∧
    ∃ s, run (eightArmsBody 2) [⟨0, by decide⟩, ⟨0, by decide⟩, ⟨0, by decide⟩, ⟨0, by decide⟩,
        ⟨0, by decide⟩, ⟨1, by decide⟩, ⟨0, by decide⟩, ⟨0, by decide⟩] start = some s ∧ s.pc = .paused ∧
      s.chans ⟨2, by decide⟩ = [1] := by
  obtain ⟨huncontended, harms⟩ := one_value_circulates 2
  have htwo := (huncontended [0, 0, 0, 0, 0, 1, 0, 0] _ rfl).1.holds 2 rfl
  have height := (harms [⟨0, by decide⟩, ⟨0, by decide⟩, ⟨0, by decide⟩, ⟨0, by decide⟩,
    ⟨0, by decide⟩, ⟨1, by decide⟩, ⟨0, by decide⟩, ⟨0, by decide⟩] _ rfl).1.holds 2 rfl
  exact ⟨⟨_, rfl, rfl, htwo 0, htwo 1⟩, _, rfl, rfl, height ⟨2, by decide⟩⟩

end BurrowBench.Scheduler.SelectRing
