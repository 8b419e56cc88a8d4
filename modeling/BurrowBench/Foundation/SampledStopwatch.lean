import BurrowBench.Foundation.Stopwatch
import Mathlib.Algebra.Order.Group.Abs
import Mathlib.Algebra.Group.Hom.Basic

/-! # Stopwatches behind a rounding clock

A stamped timer sees time only through the readings of a clock. Where the readings of any
two moments differ from the time between them by less than some bound, what the timer has
added up is off by less than that bound for each interval that it has added.
-/
namespace BurrowBench.Stopwatch

section Sampled
variable {T U : Type*} [AddCommGroup T] [AddCommGroup U]

def sampledStep (read : T → U) (p : Stamped U × T) : Event T → Stamped U × T
  | .advance d => (p.1, p.2 + d)
  | .stop => (p.1.stop (read p.2), p.2)
  | .start => (p.1.start (read p.2), p.2)

def sampled (read : T → U) (p : Stamped U × T) (es : List (Event T)) : Stamped U × T :=
  es.foldl (sampledStep read) p

theorem sampled_clock (read : T → U) (p : Stamped U × T) (es : List (Event T)) :
    (sampled read p es).2 = p.2 + elapsed es := by
  induction es generalizing p with
  | nil => simp [sampled, elapsed]
  | cons e es ih =>
    rw [sampled, List.foldl_cons, ← sampled, ih]
    cases e <;> simp [sampledStep, elapsed, add_assoc]

end Sampled

/-- How many running intervals a history ends. -/
def laps {T : Type*} : Bool → List (Event T) → ℕ
  | _, [] => 0
  | on, .advance _ :: es => laps on es
  | on, .stop :: es => (if on then 1 else 0) + laps false es
  | _, .start :: es => laps true es

section Lapped
variable {T : Type*} [AddCommGroup T]

/-- The time of the running intervals that a history ends. The option is how long the one
that is under way has lasted. -/
def lapped : Option T → List (Event T) → T
  | _, [] => 0
  | lap, .advance d :: es => lapped (lap.map (· + d)) es
  | lap, .stop :: es => lap.getD 0 + lapped none es
  | lap, .start :: es => lapped (some (lap.getD 0)) es

def Stamped.lap (s : Stamped T) (now : T) : Option T := if s.running then some (now - s.started) else none

/-- A timer that counts the time itself adds up the intervals that end. -/
theorem run_accum (s : Stamped T) (now : T) (es : List (Event T)) :
    (Stamped.run (s, now) es).1.accum = s.accum + lapped (s.lap now) es := by
  induction es generalizing s now with
  | nil => simp [Stamped.run, lapped]
  | cons e es ih =>
    rw [Stamped.run, List.foldl_cons, ← Stamped.run]
    cases e with
    | advance d =>
      have hlap : s.lap (now + d) = (s.lap now).map (· + d) := by
        cases h : s.running with
        | false => simp [Stamped.lap, h]
        | true => simp [Stamped.lap, h, add_sub_right_comm]
      rw [Stamped.step, ih, hlap, lapped]
    | stop =>
      rw [Stamped.step, ih]
      cases h : s.running <;> simp [Stamped.stop, Stamped.lap, lapped, h, add_assoc]
    | start =>
      rw [Stamped.step, ih]
      cases h : s.running <;> simp [Stamped.start, Stamped.lap, lapped, h]

/-- On a timer that has been stopped nothing but ended intervals counts. -/
theorem lapped_eq_timed {s : Stamped T} {now : T} {es : List (Event T)} (hs : s.running = false)
    (h : (Stamped.run (s, now) es).1.running = false) : lapped none es = timed false es := by
  have haccum := run_accum s now es
  have hreading := Stamped.run_reading (s, now) es
  rw [Stamped.reading_of_stopped h, haccum] at hreading
  simpa [Stamped.reading, Stamped.lap, hs] using hreading

end Lapped

/-! ## The error -/

section Error
variable {K : Type*} [AddCommGroup K] [LinearOrder K] [IsOrderedAddMonoid K]

/-- Off by less than ε for each of k intervals, and by nothing for none. -/
def Off (ε : K) (k : ℕ) (x : K) : Prop := (k = 0 ∧ x = 0) ∨ |x| < k • ε

theorem Off.succ {ε x e : K} {k : ℕ} (h : Off ε k x) (he : |e| < ε) : Off ε (k + 1) (x + e) := by
  right
  rcases h with ⟨rfl, rfl⟩ | h
  · rwa [Nat.zero_add, one_nsmul, zero_add]
  · rw [succ_nsmul]
    exact (abs_add_le x e).trans_lt (add_lt_add h he)

variable {T U : Type*} [AddCommGroup T] [AddCommGroup U]
variable {exact : T →+ K} {value : U →+ K} {read : T → U} {ε : K}

/-- A sampled timer beside one that counts the time itself. -/
structure Beside (exact : T →+ K) (value : U →+ K) (read : T → U) (ε : K) (k : ℕ)
    (a : Stamped U) (b : Stamped T) : Prop where
  running : a.running = b.running
  started : b.running → a.started = read b.started
  accum : Off ε k (value a.accum - exact b.accum)

theorem Beside.stop (hread : ∀ s t, |value (read t - read s) - exact (t - s)| < ε) {k : ℕ}
    {a : Stamped U} {b : Stamped T} (h : Beside exact value read ε k a b) (now : T) :
    Beside exact value read ε (k + if b.running then 1 else 0) (a.stop (read now)) (b.stop now) := by
  cases hb : b.running with
  | false =>
    have ha := h.running.trans hb
    simpa [Stamped.stop, ha, hb] using h
  | true =>
    have ha := h.running.trans hb
    have hstarted := h.started hb
    have hoff := h.accum.succ (hread b.started now)
    have hsum : value (a.accum + (read now - a.started)) - exact (b.accum + (now - b.started)) =
        value a.accum - exact b.accum + (value (read now - read b.started) - exact (now - b.started)) := by
      rw [hstarted, map_add, map_add]
      abel
    refine ⟨by simp, by simp, ?_⟩
    simp only [Stamped.stop, ha, hb, if_true, hsum]
    exact hoff

omit [IsOrderedAddMonoid K] in
theorem Beside.start {k : ℕ} {a : Stamped U} {b : Stamped T} (h : Beside exact value read ε k a b)
    (now : T) : Beside exact value read ε k (a.start (read now)) (b.start now) := by
  cases hb : b.running with
  | false =>
    have ha := h.running.trans hb
    refine ⟨by simp, fun _ => ?_, ?_⟩
    · simp [Stamped.start, ha, hb]
    · simpa [Stamped.start, ha, hb] using h.accum
  | true =>
    have ha := h.running.trans hb
    simpa [Stamped.start, ha, hb] using h

/-- Over any history the two stay beside each other, with the intervals it ends counted. -/
theorem sampled_beside (hread : ∀ s t, |value (read t - read s) - exact (t - s)| < ε)
    (es : List (Event T)) {k : ℕ} {a : Stamped U} {b : Stamped T} (now : T)
    (h : Beside exact value read ε k a b) :
    Beside exact value read ε (k + laps b.running es) (sampled read (a, now) es).1
      (Stamped.run (b, now) es).1 := by
  induction es generalizing k a b now with
  | nil => simpa [sampled, Stamped.run, laps] using h
  | cons e es ih =>
    cases e with
    | advance d => exact ih (now + d) h
    | stop =>
      have hrest := ih now (h.stop hread now)
      rw [Stamped.stop_running, Nat.add_assoc] at hrest
      exact hrest
    | start =>
      have hrest := ih now (h.start now)
      rw [Stamped.start_running] at hrest
      exact hrest

end Error

/-! ## The sign -/

section Sign
variable {T U : Type*} [AddCommGroup T] [PartialOrder T] [IsOrderedAddMonoid T]
variable [AddCommGroup U] [PartialOrder U] [IsOrderedAddMonoid U]

/-- A timer has added up no negative time, and no more than has passed since the reading
`first`. -/
structure Plausible (read : T → U) (first : U) (p : Stamped U × T) : Prop where
  nonneg : 0 ≤ p.1.accum
  started : p.1.running → p.1.started ≤ read p.2
  le : p.1.reading (read p.2) ≤ read p.2 - first

variable {read : T → U} {first : U} {p : Stamped U × T}

omit [AddCommGroup T] [PartialOrder T] [IsOrderedAddMonoid T] in
theorem Plausible.accum_le (h : Plausible read first p) : p.1.accum ≤ p.1.reading (read p.2) := by
  unfold Stamped.reading
  cases hrunning : p.1.running with
  | false => simp
  | true => simpa using h.started hrunning

theorem plausible_step (hread : Monotone read) (h : Plausible read first p) {e : Event T}
    (he : ∀ d, e = .advance d → 0 ≤ d) : Plausible read first (sampledStep read p e) := by
  obtain ⟨s, now⟩ := p
  have hnonneg := h.nonneg.trans h.accum_le
  cases e with
  | advance d =>
    have hlater : read now ≤ read (now + d) := hread (le_add_of_nonneg_right (he d rfl))
    refine ⟨h.nonneg, fun hrunning => (h.started hrunning).trans hlater, ?_⟩
    have hle := h.le
    change s.reading (read (now + d)) ≤ read (now + d) - first
    have hsplit : read (now + d) = read now + (read (now + d) - read now) := by abel
    rw [hsplit, Stamped.reading_advance]
    cases s.running with
    | false =>
      rw [if_neg Bool.false_ne_true, add_zero, add_sub_right_comm]
      exact hle.trans (le_add_of_nonneg_right (sub_nonneg.mpr hlater))
    | true =>
      rw [if_pos rfl, add_sub_right_comm]
      exact add_le_add_left hle _
  | stop =>
    have haccum := Stamped.reading_of_stopped (s.stop_running (read now)) (read now)
    rw [Stamped.reading_stop] at haccum
    refine ⟨hnonneg.trans_eq haccum, by simp [sampledStep], ?_⟩
    change (s.stop (read now)).reading (read now) ≤ _
    rw [Stamped.reading_stop]
    exact h.le
  | start =>
    have hstart := h.le
    rw [← Stamped.reading_start] at hstart
    cases hrunning : s.running with
    | false =>
      have hs : sampledStep read (s, now) .start = (⟨s.accum, read now, true⟩, now) := by
        simp [sampledStep, Stamped.start, hrunning]
      rw [hs]
      refine ⟨h.nonneg, fun _ => le_rfl, ?_⟩
      simpa [Stamped.start, hrunning] using hstart
    | true =>
      have hs : sampledStep read (s, now) .start = (s, now) := by
        simp [sampledStep, Stamped.start, hrunning]
      rw [hs]
      exact h

theorem sampled_plausible (hread : Monotone read) {es : List (Event T)} (hes : Forward es)
    (h : Plausible read first p) : Plausible read first (sampled read p es) := by
  induction es generalizing p with
  | nil => exact h
  | cons e es ih =>
    exact ih hes.tail (plausible_step hread h fun d hd => hes d (hd ▸ List.mem_cons_self))

end Sign

end BurrowBench.Stopwatch
