import BurrowBench.Foundation.CheckedArithmetic
import BurrowBench.Foundation.SampledStopwatch
import BurrowBench.Harness.Timer
import Mathlib.Algebra.Order.Field.Basic
import Mathlib.Algebra.Order.Ring.Rat
import Mathlib.Data.Int.ConditionallyCompleteOrder
import Mathlib.Tactic.Linarith

/-! # The clock on Windows

bench_now_ns turns a tick count into nanoseconds with two divisions, so that no product
takes the whole count. The timer runs on these readings; the time it stands for is that
of the ticks.
-/
namespace BurrowBench.Harness
open CheckedArithmetic Stopwatch

/-- bench_now_ns where the counter of the given frequency stands at t. -/
def benchNowNs (freq t : ℤ) : Option ℤ := do
  let whole ← div 64 t freq
  let part ← rem 64 t freq
  let a ← mul 64 whole 1000000000
  let p ← mul 64 part 1000000000
  let b ← div 64 p freq
  add 64 a b

def nanos (freq t : ℤ) : ℤ := t * 1000000000 / freq

/-- One thing that a body does, with a tick count for the clock. A pause of a stopped timer
and a resume of a running one return before they read it. -/
def performTicks (freq : ℤ) (w : World) : Action → Option World
  | .advance d => some (w.1, w.2 + d)
  | .pause => if !w.1.running then some w else (benchNowNs freq w.2).map fun now => (benchPause w.1 now, w.2)
  | .resume => if w.1.running then some w else (benchNowNs freq w.2).map fun now => (benchResume w.1 now, w.2)
  | .reportAllocs bytes allocs => some (benchReportAllocs w.1 bytes allocs, w.2)

def runTicks (freq : ℤ) (w : World) (as : List Action) : Option World := as.foldlM (performTicks freq) w

/-! ## One reading -/

theorem nanos_eq_split {freq : ℤ} (hfreq : 0 < freq) (t : ℤ) :
    nanos freq t = t / freq * 1000000000 + t % freq * 1000000000 / freq := by
  have hsplit : t * 1000000000 = t % freq * 1000000000 + freq * (t / freq * 1000000000) := by
    rw [← mul_assoc, ← add_mul, Int.emod_add_mul_ediv]
  rw [nanos, hsplit, Int.add_mul_ediv_left _ _ hfreq.ne', add_comm]

/-- Up to the frequency at which a second's worth of ticks is out of range, the split
computes the floor and nothing in it overflows. -/
theorem benchNowNs_eq {freq t : ℤ} (hfreq : 1 ≤ freq) (hmax : freq ≤ 9223372036) (ht : 0 ≤ t)
    (hrange : nanos freq t < 2 ^ 63) : benchNowNs freq t = some (nanos freq t) := by
  have hpos : 0 < freq := hfreq
  have hwhole : 0 ≤ t / freq := Int.ediv_nonneg ht hpos.le
  have hpart := Int.emod_nonneg t hpos.ne'
  have hlt := Int.emod_lt_of_pos t hpos
  have hp : 0 ≤ t % freq * 1000000000 := by omega
  have hb : 0 ≤ t % freq * 1000000000 / freq := Int.ediv_nonneg hp hpos.le
  rw [nanos_eq_split hpos] at hrange ⊢
  norm_num at hrange
  have hquotient : Fits 64 (t / freq) := (fits64_iff hwhole).mpr (by omega)
  have hproduct : Fits 64 (t % freq * 1000000000) := (fits64_iff hp).mpr (by omega)
  have hseconds : Fits 64 (t / freq * 1000000000) := (fits64_iff (by omega)).mpr (by omega)
  have hsum : Fits 64 (t / freq * 1000000000 + t % freq * 1000000000 / freq) :=
    (fits64_iff (by omega)).mpr (by omega)
  simp only [benchNowNs, div_of_quotient_fits ht hpos hquotient, rem_of_quotient_fits ht hpos hquotient,
    Option.bind_eq_bind, Option.bind_some, mul, checked_of_fits hseconds, checked_of_fits hproduct,
    div_of_fits hproduct hp hpos, add, checked_of_fits hsum]

theorem nanos_mono {freq : ℤ} (hfreq : 0 < freq) : Monotone (nanos freq) :=
  fun _ _ h => Int.ediv_le_ediv hfreq (Int.mul_le_mul_of_nonneg_right h (by norm_num))

theorem nanos_nonneg {freq t : ℤ} (hfreq : 0 < freq) (ht : 0 ≤ t) : 0 ≤ nanos freq t :=
  Int.ediv_nonneg (by omega) hfreq.le

/-! ## A run of the timer -/

theorem elapsedOf_cons (a : Action) (as : List Action) :
    elapsedOf (a :: as) = elapsedOf [a] + elapsedOf as := by
  rw [← elapsedOf_append, List.singleton_append]

theorem performTicks_timer {freq t : ℤ} (hnow : benchNowNs freq t = some (nanos freq t)) (b : Bench)
    (a : Action) :
    ∃ b', performTicks freq (b, t) a = some (b', t + elapsedOf [a]) ∧
      (b'.timer, t + elapsedOf [a]) = sampled (nanos freq) (b.timer, t) (history [a]) := by
  cases a with
  | advance d => exact ⟨b, by simp [performTicks, elapsedOf, elapsed, history, Action.event],
      by simp [sampled, sampledStep, elapsedOf, elapsed, history, Action.event]⟩
  | pause =>
    refine ⟨benchPause b (nanos freq t), ?_, ?_⟩
    · cases hrunning : b.running <;>
        simp [performTicks, benchPause, hrunning, hnow, elapsedOf, elapsed, history, Action.event]
    · simp [sampled, sampledStep, benchPause_timer, elapsedOf, elapsed, history, Action.event]
  | resume =>
    refine ⟨benchResume b (nanos freq t), ?_, ?_⟩
    · cases hrunning : b.running <;>
        simp [performTicks, benchResume, hrunning, hnow, elapsedOf, elapsed, history, Action.event]
    · simp [sampled, sampledStep, benchResume_timer, elapsedOf, elapsed, history, Action.event]
  | reportAllocs bytes allocs =>
    have hnone : history [.reportAllocs bytes allocs] = [] := rfl
    exact ⟨benchReportAllocs b bytes allocs, by simp [performTicks, elapsedOf, elapsed, hnone],
      by simp [sampled, elapsedOf, elapsed, hnone, benchReportAllocs, Bench.timer]⟩

/-- Where the readings stay in range, the timer is the stopwatch that samples them. -/
theorem runTicks_timer {freq : ℤ} (hfreq : 1 ≤ freq) (hmax : freq ≤ 9223372036) {as : List Action} {b : Bench}
    {t : ℤ} (ht : 0 ≤ t) (hrange : nanos freq (t + elapsedOf as) < 2 ^ 63) :
    ∃ w, runTicks freq (b, t) as = some w ∧
      (w.1.timer, w.2) = sampled (nanos freq) (b.timer, t) (history as) := by
  induction as generalizing b t with
  | nil => exact ⟨(b, t), rfl, rfl⟩
  | cons a as ih =>
    rw [elapsedOf_cons, ← add_assoc] at hrange
    have hfirst := elapsedOf_nonneg [a]
    have hrest := elapsedOf_nonneg as
    have hnow : benchNowNs freq t = some (nanos freq t) :=
      benchNowNs_eq hfreq hmax ht ((nanos_mono hfreq (by omega)).trans_lt hrange)
    obtain ⟨b', hstep, htimer⟩ := performTicks_timer hnow b a
    obtain ⟨w, hrun, hw⟩ := ih (b := b') (by omega) hrange
    refine ⟨w, ?_, ?_⟩
    · rw [runTicks, List.foldlM_cons, hstep, Option.bind_eq_bind, Option.bind_some]
      exact hrun
    · have hcons : history (a :: as) = history [a] ++ history as := history_append [a] as
      rw [hw, htimer, hcons, sampled, sampled, sampled, List.foldl_append]

/-! ## The drift -/

def exactNanos (freq : ℤ) : ℤ →+ ℚ := (AddMonoidHom.mulRight (1000000000 / freq : ℚ)).comp (Int.castAddHom ℚ)

theorem exactNanos_apply (freq t : ℤ) : exactNanos freq t = t * 1000000000 / freq := by
  simp [exactNanos, mul_div_assoc]

/-- A reading is less than a nanosecond behind the ticks. -/
theorem nanos_lag {freq : ℤ} (hfreq : 0 < freq) (t : ℤ) :
    0 ≤ exactNanos freq t - nanos freq t ∧ exactNanos freq t - nanos freq t < 1 := by
  have hpos : (0 : ℚ) < freq := by exact_mod_cast hfreq
  have hnonneg := Int.emod_nonneg (t * 1000000000) hfreq.ne'
  have hlt := Int.emod_lt_of_pos (t * 1000000000) hfreq
  have hlag : exactNanos freq t - nanos freq t = (t * 1000000000 % freq : ℤ) / freq := by
    have hsplit := Int.emod_add_mul_ediv (t * 1000000000) freq
    have hcast : ((t * 1000000000 % freq : ℤ) : ℚ) + freq * (t * 1000000000 / freq : ℤ) = t * 1000000000 := by
      exact_mod_cast hsplit
    rw [exactNanos_apply, nanos, eq_div_iff hpos.ne', sub_mul, div_mul_cancel₀ _ hpos.ne']
    linarith
  rw [hlag]
  constructor
  · positivity
  · rw [div_lt_one hpos]
    exact_mod_cast hlt

theorem nanos_sub_error {freq : ℤ} (hfreq : 0 < freq) (s t : ℤ) :
    |Int.castAddHom ℚ (nanos freq t - nanos freq s) - exactNanos freq (t - s)| < 1 := by
  obtain ⟨hs, hs'⟩ := nanos_lag hfreq s
  obtain ⟨ht, ht'⟩ := nanos_lag hfreq t
  change |((nanos freq t - nanos freq s : ℤ) : ℚ) - exactNanos freq (t - s)| < 1
  rw [map_sub, Int.cast_sub, abs_lt]
  constructor <;> linarith

def stopped : Stamped ℤ := ⟨0, 0, false⟩

theorem fresh_beside {freq : ℤ} (hfreq : 0 < freq) (t : ℤ) (es : List (Event ℤ)) :
    Beside (exactNanos freq) (Int.castAddHom ℚ) (nanos freq) 1 (laps false es)
      (sampled (nanos freq) (stopped, t) es).1 (Stamped.run (stopped, t) es).1 := by
  have hstart : Beside (exactNanos freq) (Int.castAddHom ℚ) (nanos freq) 1 0 stopped stopped :=
    ⟨rfl, nofun, Or.inl ⟨rfl, by simp [stopped]⟩⟩
  have h := sampled_beside (nanos_sub_error hfreq) es t hstart
  rwa [Nat.zero_add] at h

theorem fresh_plausible {freq : ℤ} (hfreq : 0 < freq) (t : ℤ) {es : List (Event ℤ)} (hes : Forward es) :
    Plausible (nanos freq) (nanos freq t) (sampled (nanos freq) (stopped, t) es) :=
  sampled_plausible (nanos_mono hfreq) hes ⟨le_rfl, nofun, by simp [stopped, Stamped.reading]⟩

structure KeepsTime (freq : ℤ) (as : List Action) (b : Bench) : Prop where
  nonneg : 0 ≤ b.accumNs
  in_range : b.accumNs < 2 ^ 63
  drift : Off 1 (laps false (history as)) (b.accumNs - lapped none (history as) * 1000000000 / freq : ℚ)
  stopped : b.running = false → lapped none (history as) = timed false (history as)

theorem runTicks_keepsTime {freq : ℤ} (hfreq : 1 ≤ freq) (hmax : freq ≤ 9223372036) (e : Entry) (n : ℤ) {t : ℤ}
    (ht : 0 ≤ t) {as : List Action} (hrange : nanos freq (t + elapsedOf as) < 2 ^ 63) :
    ∃ w, runTicks freq (freshBench e n, t) as = some w ∧ KeepsTime freq as w.1 := by
  obtain ⟨w, hrun, hw⟩ := runTicks_timer (b := freshBench e n) hfreq hmax ht hrange
  change (w.1.timer, w.2) = sampled (nanos freq) (stopped, t) (history as) at hw
  have hbeside := fresh_beside hfreq t (history as)
  have hplausible := fresh_plausible hfreq t (history_forward as)
  have hclock := sampled_clock (nanos freq) (stopped, t) (history as)
  have haccum := run_accum stopped t (history as)
  rw [← hw] at hbeside hplausible hclock
  refine ⟨w, hrun, hplausible.nonneg, ?_, ?_, ?_⟩
  · have hle := hplausible.accum_le.trans hplausible.le
    have hfirst := nanos_nonneg hfreq ht
    dsimp only [Bench.timer] at hle hclock
    rw [hclock] at hle
    change nanos freq (t + elapsed (history as)) < 2 ^ 63 at hrange
    omega
  · have hdrift := hbeside.accum
    rwa [haccum, exactNanos_apply, stopped, zero_add] at hdrift
  · intro hstopped
    exact lapped_eq_timed rfl (hbeside.running.symm.trans hstopped)

/-- The split is exact and in range, readings never go back, and what a timer adds up from
them is never negative and less than a nanosecond off for each interval. -/
theorem windows_clock (freq : ℤ) (hfreq : 1 ≤ freq) (hmax : freq ≤ 9223372036) :
    (∀ t, 0 ≤ t → t * 1000000000 / freq < 2 ^ 63 → benchNowNs freq t = some (t * 1000000000 / freq)) ∧
    (∀ s t, 0 ≤ s → s ≤ t → t * 1000000000 / freq < 2 ^ 63 →
      ∃ x y, benchNowNs freq s = some x ∧ benchNowNs freq t = some y ∧ x ≤ y) ∧
    ∀ (e : Entry) (n t : ℤ) (as : List Action), 0 ≤ t →
      (t + elapsedOf as) * 1000000000 / freq < 2 ^ 63 →
      ∃ w, runTicks freq (freshBench e n, t) as = some w ∧ KeepsTime freq as w.1 := by
  refine ⟨fun t => benchNowNs_eq hfreq hmax, fun s t hs hst hrange => ?_, fun e n t as ht hrange => ?_⟩
  · have hmono : nanos freq s ≤ nanos freq t := nanos_mono hfreq hst
    exact ⟨_, _, benchNowNs_eq hfreq hmax hs (hmono.trans_lt hrange),
      benchNowNs_eq hfreq hmax (hs.trans hst) hrange, hmono⟩
  · exact runTicks_keepsTime hfreq hmax e n ht hrange

theorem windows_clock_day : benchNowNs 10000000 864000000000 = some 86400000000000 :=
  (windows_clock 10000000 (by norm_num) (by norm_num)).1 864000000000 (by norm_num) (by norm_num)

end BurrowBench.Harness
