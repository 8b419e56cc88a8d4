import BurrowBench.Harness.Timer

/-! # What a measured run reports

The accounting is exact for every body, whatever it does with the timer. What it is
exact about is the time between the harness's own resume and pause, so everything a
body does outside `BENCH_LOOP` is in the number unless the body pauses around it.
-/
namespace BurrowBench.Harness
open Stopwatch

/-- Whatever a body does with its timer, a run ends stopped, reports exactly the time
the timer was on for, and reports no more of it than wall time. -/
theorem runMeasured_accounting (e : Entry) (n clock : ℤ) (before after : ℕ) :
    (runMeasured e n clock before after).1.running = false ∧
    (runMeasured e n clock before after).1.ns = timedOf (e.fn n) ∧
    0 ≤ (runMeasured e n clock before after).1.ns ∧
    (runMeasured e n clock before after).1.ns ≤ (runMeasured e n clock before after).2 := by
  obtain ⟨hrunning, hns, hwall⟩ := runMeasured_spec e n clock before after
  have hnonneg := timed_nonneg (history_forward (e.fn n)) true
  have hle := timed_le_elapsed (history_forward (e.fn n)) true
  refine ⟨hrunning, hns, hns ▸ hnonneg, ?_⟩
  rw [hns, hwall, timedOf, elapsedOf]
  omega

def PauseFree (as : List Action) : Prop := ∀ a ∈ as, a ≠ .pause ∧ a ≠ .resume

instance (as : List Action) : Decidable (PauseFree as) :=
  inferInstanceAs (Decidable (∀ a ∈ as, a ≠ .pause ∧ a ≠ .resume))

theorem PauseFree.append {as bs : List Action} (ha : PauseFree as) (hb : PauseFree bs) :
    PauseFree (as ++ bs) := by
  intro a h
  rcases List.mem_append.mp h with h | h
  · exact ha a h
  · exact hb a h

theorem PauseFree.benchLoop {iteration : ℕ → List Action} (h : ∀ i, PauseFree (iteration i))
    (n : ℤ) : PauseFree (benchLoop n iteration) := by
  intro a ha
  obtain ⟨i, _, hi⟩ := List.mem_flatMap.mp ha
  exact h i a hi

theorem PauseFree.untouched {as : List Action} (h : PauseFree as) : Untouched (history as) := by
  intro ev hev
  obtain ⟨a, ha, he⟩ := List.mem_filterMap.mp hev
  cases a with
  | advance d => exact ⟨d, (Option.some.inj he).symm⟩
  | pause => exact absurd rfl (h _ ha).1
  | resume => exact absurd rfl (h _ ha).2
  | reportAllocs bytes allocs => cases he

theorem PauseFree.timedOf {as : List Action} (h : PauseFree as) : timedOf as = elapsedOf as :=
  timed_of_untouched h.untouched

/-- The shape every benchmark of the repository has. -/
def shapedBody (pre : List Action) (iteration : ℕ → List Action) (suf : List Action) : BenchFunc :=
  fun n => pre ++ benchLoop n iteration ++ suf

theorem runMeasured_shapedBody {pre suf : List Action} {iteration : ℕ → List Action}
    (hpre : PauseFree pre) (hiter : ∀ i, PauseFree (iteration i)) (hsuf : PauseFree suf)
    (name : Text) (n clock : ℤ) (before after : ℕ) :
    (runMeasured ⟨name, shapedBody pre iteration suf⟩ n clock before after).1.ns =
      elapsedOf pre + elapsedOf (benchLoop n iteration) + elapsedOf suf := by
  have hfree := (hpre.append (PauseFree.benchLoop hiter n)).append hsuf
  rw [(runMeasured_spec _ _ _ _ _).2.1]
  change timedOf (pre ++ benchLoop n iteration ++ suf) = _
  rw [hfree.timedOf, elapsedOf_append, elapsedOf_append]

/-- Without pauses the loop alone is reported exactly when no time passes before and
after it, and two bodies around one loop report the same time exactly when as much
passes outside the loop in one as in the other. -/
theorem ns_eq_loop_iff {pre suf : List Action} {iteration : ℕ → List Action}
    (hpre : PauseFree pre) (hiter : ∀ i, PauseFree (iteration i)) (hsuf : PauseFree suf)
    (name : Text) (n clock : ℤ) (before after : ℕ) :
    ((runMeasured ⟨name, shapedBody pre iteration suf⟩ n clock before after).1.ns =
        elapsedOf (benchLoop n iteration) ↔ elapsedOf pre = 0 ∧ elapsedOf suf = 0) ∧
    ∀ (name' : Text) (clock' : ℤ) (before' after' : ℕ) (pre' suf' : List Action),
      PauseFree pre' → PauseFree suf' →
      ((runMeasured ⟨name, shapedBody pre iteration suf⟩ n clock before after).1.ns =
          (runMeasured ⟨name', shapedBody pre' iteration suf'⟩ n clock' before' after').1.ns ↔
        elapsedOf pre + elapsedOf suf = elapsedOf pre' + elapsedOf suf') := by
  have hns := runMeasured_shapedBody hpre hiter hsuf name n clock before after
  refine ⟨?_, ?_⟩
  · have hp := elapsedOf_nonneg pre
    have hs := elapsedOf_nonneg suf
    rw [hns]
    constructor
    · intro h
      constructor <;> omega
    · rintro ⟨hp0, hs0⟩
      omega
  · intro name' clock' before' after' pre' suf' hpre' hsuf'
    rw [hns, runMeasured_shapedBody hpre' hiter hsuf' name' n clock' before' after']
    constructor <;> intro h <;> omega

theorem ns_eq_loop_iff_setup :
    ((runMeasured ⟨"setup".toList, shapedBody [.advance 900] (fun _ => [.advance 100]) []⟩
        1 0 0 0).1.ns = elapsedOf (benchLoop 1 fun _ => [.advance 100]) ↔
      elapsedOf [.advance 900] = 0 ∧ elapsedOf [] = 0) ∧
    ∀ (name' : Text) (clock' : ℤ) (before' after' : ℕ) (pre' suf' : List Action),
      PauseFree pre' → PauseFree suf' →
      ((runMeasured ⟨"setup".toList, shapedBody [.advance 900] (fun _ => [.advance 100]) []⟩
          1 0 0 0).1.ns =
          (runMeasured ⟨name', shapedBody pre' (fun _ => [.advance 100]) suf'⟩
            1 clock' before' after').1.ns ↔
        elapsedOf [.advance 900] + elapsedOf [] = elapsedOf pre' + elapsedOf suf') :=
  ns_eq_loop_iff (by decide) (fun _ => by decide) (by decide) "setup".toList 1 0 0 0

/-- One iteration of 100 ns after 900 ns of setup is reported as 1000 ns, and as 100 ns
without the setup. -/
theorem setup_is_timed :
    PauseFree [.advance 900] ∧ PauseFree [.advance 100] ∧
    (runMeasured ⟨"setup".toList, shapedBody [.advance 900] (fun _ => [.advance 100]) []⟩
      1 0 0 0).1.ns = 1000 ∧
    elapsedOf (benchLoop 1 fun _ => [.advance 100]) = 100 ∧
    (runMeasured ⟨"setup".toList, shapedBody [] (fun _ => [.advance 100]) []⟩ 1 0 0 0).1.ns = 100 := by
  decide

end BurrowBench.Harness
