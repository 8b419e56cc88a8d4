import Mathlib.Algebra.BigOperators.Group.List.Basic
import Mathlib.Algebra.Order.Group.Defs
import Mathlib.Tactic.Abel

/-! # Stopwatches over event histories

A history is a finite sequence of clock advances and of start and stop calls. The
abstract watch adds up the advances made while it is on. A stamped timer holds only
an accumulator and the reading at which it was last started, so between two calls it
has to be read relative to the clock; that reading is the abstract total.
-/
namespace BurrowBench.Stopwatch

inductive Event (T : Type*) where
  | advance (d : T)
  | stop
  | start

variable {T : Type*}

def elapsed [AddMonoid T] : List (Event T) → T
  | [] => 0
  | .advance d :: es => d + elapsed es
  | .stop :: es => elapsed es
  | .start :: es => elapsed es

/-- The part of a history's clock time that passes while the watch is on. -/
def timed [AddMonoid T] : Bool → List (Event T) → T
  | _, [] => 0
  | on, .advance d :: es => (if on then d else 0) + timed on es
  | _, .stop :: es => timed false es
  | _, .start :: es => timed true es

def Forward [AddMonoid T] [LE T] (es : List (Event T)) : Prop :=
  ∀ d, Event.advance d ∈ es → 0 ≤ d

/-- Histories that touch the clock only. -/
def Untouched (es : List (Event T)) : Prop := ∀ e ∈ es, ∃ d, e = Event.advance d

theorem elapsed_append [AddMonoid T] (es fs : List (Event T)) :
    elapsed (es ++ fs) = elapsed es + elapsed fs := by
  induction es with
  | nil => simp [elapsed]
  | cons e es ih => cases e <;> simp [elapsed, ih, add_assoc]

theorem timed_of_untouched [AddMonoid T] {es : List (Event T)} (h : Untouched es) :
    timed true es = elapsed es := by
  induction es with
  | nil => rfl
  | cons e es ih =>
    obtain ⟨d, rfl⟩ := h e List.mem_cons_self
    have hr := ih (fun e he => h e (List.mem_cons_of_mem _ he))
    simp [timed, elapsed, hr]

/-- A part of a history that never touches the watch is timed by itself. -/
theorem timed_append_of_untouched [AddMonoid T] {es : List (Event T)} (h : Untouched es)
    (fs : List (Event T)) : timed true (es ++ fs) = timed true es + timed true fs := by
  induction es with
  | nil => simp [timed]
  | cons e es ih =>
    obtain ⟨d, rfl⟩ := h e List.mem_cons_self
    have hr := ih (fun e he => h e (List.mem_cons_of_mem _ he))
    simp [timed, hr, add_assoc]

section Ordered
variable [AddCommGroup T] [PartialOrder T] [IsOrderedAddMonoid T]

omit [IsOrderedAddMonoid T] in
theorem Forward.tail {e : Event T} {es : List (Event T)} (h : Forward (e :: es)) : Forward es :=
  fun d hd => h d (List.mem_cons_of_mem _ hd)

theorem elapsed_nonneg {es : List (Event T)} (h : Forward es) : 0 ≤ elapsed es := by
  induction es with
  | nil => exact le_rfl
  | cons e es ih =>
    have hr := ih h.tail
    cases e with
    | advance d => exact add_nonneg (h d List.mem_cons_self) hr
    | stop => exact hr
    | start => exact hr

theorem timed_nonneg {es : List (Event T)} (h : Forward es) (on : Bool) : 0 ≤ timed on es := by
  induction es generalizing on with
  | nil => exact le_rfl
  | cons e es ih =>
    have hr := ih h.tail
    cases e with
    | advance d =>
      have hd := h d List.mem_cons_self
      cases on
      · simpa [timed] using hr false
      · simpa [timed] using add_nonneg hd (hr true)
    | stop => exact hr false
    | start => exact hr true

theorem timed_le_elapsed {es : List (Event T)} (h : Forward es) (on : Bool) :
    timed on es ≤ elapsed es := by
  induction es generalizing on with
  | nil => exact le_rfl
  | cons e es ih =>
    have hr := ih h.tail
    cases e with
    | advance d =>
      have hd := h d List.mem_cons_self
      cases on
      · simpa [timed, elapsed] using add_le_add hd (hr false)
      · simpa [timed, elapsed] using hr true
    | stop => exact hr false
    | start => exact hr true

end Ordered

/-- A timer that keeps an accumulator and the reading of its last start. -/
structure Stamped (T : Type*) where
  accum : T
  started : T
  running : Bool

namespace Stamped
variable [AddCommGroup T]

def stop (s : Stamped T) (now : T) : Stamped T :=
  if s.running then { s with accum := s.accum + (now - s.started), running := false } else s

def start (s : Stamped T) (now : T) : Stamped T :=
  if s.running then s else { s with started := now, running := true }

/-- What the timer would show if it were stopped at this reading. -/
def reading (s : Stamped T) (now : T) : T :=
  s.accum + if s.running then now - s.started else 0

def step (p : Stamped T × T) : Event T → Stamped T × T
  | .advance d => (p.1, p.2 + d)
  | .stop => (p.1.stop p.2, p.2)
  | .start => (p.1.start p.2, p.2)

def run (p : Stamped T × T) (es : List (Event T)) : Stamped T × T := es.foldl step p

@[simp] theorem stop_running (s : Stamped T) (now : T) : (s.stop now).running = false := by
  cases h : s.running <;> simp [stop, h]

omit [AddCommGroup T] in
@[simp] theorem start_running (s : Stamped T) (now : T) : (s.start now).running = true := by
  cases h : s.running <;> simp [start, h]

/-- Stopping keeps the reading: redundant stops included. -/
@[simp] theorem reading_stop (s : Stamped T) (now : T) : (s.stop now).reading now = s.reading now := by
  cases h : s.running <;> simp [stop, reading, h]

@[simp] theorem reading_start (s : Stamped T) (now : T) : (s.start now).reading now = s.reading now := by
  cases h : s.running <;> simp [start, reading, h]

theorem reading_of_stopped {s : Stamped T} (h : s.running = false) (now : T) :
    s.reading now = s.accum := by
  simp [reading, h]

theorem reading_advance (s : Stamped T) (now d : T) :
    s.reading (now + d) = s.reading now + if s.running then d else 0 := by
  unfold reading
  cases s.running
  · simp
  · simp only [if_true]
    abel

theorem run_clock (p : Stamped T × T) (es : List (Event T)) : (run p es).2 = p.2 + elapsed es := by
  induction es generalizing p with
  | nil => simp [run, elapsed]
  | cons e es ih =>
    rw [run, List.foldl_cons, ← run, ih]
    cases e <;> simp [step, elapsed, add_assoc]

/-- The stamped timer implements the abstract watch: over any history its reading
grows by exactly the time that passes while it is on. -/
theorem run_reading (p : Stamped T × T) (es : List (Event T)) :
    (run p es).1.reading (run p es).2 = p.1.reading p.2 + timed p.1.running es := by
  induction es generalizing p with
  | nil => simp [run, timed]
  | cons e es ih =>
    rw [run, List.foldl_cons, ← run, ih]
    cases e with
    | advance d => simp [step, timed, reading_advance, add_assoc]
    | stop => simp [step, timed]
    | start => simp [step, timed]

end Stamped

/-! ## Parts of a history -/

section Parts
variable [AddMonoid T] {on on' on'' : Bool} {es fs : List (Event T)} {t u : T}

/-- From a watch that is on, or off, the part is timed for `t` and leaves the watch on, or off. -/
def Takes (on : Bool) (es : List (Event T)) (t : T) (on' : Bool) : Prop :=
  ∀ rest, timed on (es ++ rest) = t + timed on' rest

namespace Takes

theorem timed_eq (h : Takes on es t on') : timed on es = t := by
  have hall := h []
  rwa [List.append_nil, timed, add_zero] at hall

theorem nil (on : Bool) : Takes on ([] : List (Event T)) 0 on := fun _ => (zero_add _).symm

theorem advance_on (d : T) : Takes true [.advance d] d true := fun _ => rfl

theorem advance_off (d : T) : Takes false [.advance d] 0 false := fun _ => rfl

theorem stop (on : Bool) : Takes on ([.stop] : List (Event T)) 0 false := fun _ => (zero_add _).symm

theorem start (on : Bool) : Takes on ([.start] : List (Event T)) 0 true := fun _ => (zero_add _).symm

theorem append (hes : Takes on es t on') (hfs : Takes on' fs u on'') : Takes on (es ++ fs) (t + u) on'' := by
  intro rest
  rw [List.append_assoc, hes, hfs, add_assoc]

/-- A loop whose turns leave the watch as they find it. -/
theorem loop {turn : ℕ → List (Event T)} {time : ℕ → T} (h : ∀ i, Takes on (turn i) (time i) on) (n : ℕ) :
    Takes on ((List.range n).map turn).flatten ((List.range n).map time).sum on := by
  induction n with
  | zero => exact nil on
  | succ n ih =>
    rw [List.range_succ, List.map_append, List.map_append, List.flatten_append, List.sum_append,
      List.map_singleton, List.map_singleton, List.flatten_singleton, List.sum_singleton]
    exact ih.append (h n)

end Takes

end Parts

end BurrowBench.Stopwatch
