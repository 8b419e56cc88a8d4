import BurrowBench.Foundation.CheckedArithmetic
import BurrowBench.Harness.MeasuredRun

/-! # The search for an iteration count

`pick_n` measures, scales its count and measures again. A measurement is what the two
clocks of one run showed, and the search sees the benchmark through its measurements
alone, one for each round. The arithmetic is that of int64: a round whose products or
sums leave the range has no next count.
-/
namespace BurrowBench.Harness
open CheckedArithmetic

structure Measurement where
  ns : ℤ
  wall : ℤ
  ns_nonneg : 0 ≤ ns
  ns_le_wall : ns ≤ wall

theorem runMeasured_ns_nonneg (e : Entry) (n clock : ℤ) (before after : ℕ) :
    0 ≤ (runMeasured e n clock before after).1.ns := by
  obtain ⟨_, hns, _⟩ := runMeasured_spec e n clock before after
  exact hns ▸ Stopwatch.timed_nonneg (history_forward _) _

theorem runMeasured_ns_le_wall (e : Entry) (n clock : ℤ) (before after : ℕ) :
    (runMeasured e n clock before after).1.ns ≤ (runMeasured e n clock before after).2 := by
  obtain ⟨_, hns, hwall⟩ := runMeasured_spec e n clock before after
  have h := Stopwatch.timed_le_elapsed (history_forward (e.fn n)) true
  rw [hns, hwall, timedOf, elapsedOf]
  omega

/-- What `run_measured` hands back is a measurement, whatever the body did. -/
def measurementOf (e : Entry) (n clock : ℤ) (before after : ℕ) : Measurement where
  ns := (runMeasured e n clock before after).1.ns
  wall := (runMeasured e n clock before after).2
  ns_nonneg := runMeasured_ns_nonneg e n clock before after
  ns_le_wall := runMeasured_ns_le_wall e n clock before after

def nMax : ℤ := 1000000000
def maxRounds : ℕ := 30

/-- `x = n * target_ns / d; x += x / 5` -/
def scaled (target n d : ℤ) : Option ℤ := do
  let product ← mul 64 n target
  let x ← div 64 product d
  add 64 x (x.tdiv 5)

/-- `if (next <= n) next = n + 1` -/
def oneMore (n next : ℤ) : Option ℤ := if next ≤ n then add 64 n 1 else some next

/-- The next count by the timed clock, a hundred times the count at most. -/
def byTimed (target n ns : ℤ) : Option ℤ :=
  if ns ≤ 0 then mul 64 n 100
  else do
    let next ← scaled target n ns
    let cap ← mul 64 n 100
    oneMore n (if next > cap then cap else next)

/-- The cut-back by the wall clock when the untimed part dominates. -/
def byWall (target n wall next : ℤ) : Option ℤ := do
  let cut ← scaled target n wall
  oneMore n (if cut < next then cut else next)

def nextCount (target n : ℤ) (m : Measurement) : Option ℤ := do
  let next ← byTimed target n m.ns
  if m.wall > 0 ∧ m.wall > m.ns then byWall target n m.wall next else some next

structure Search where
  count : ℤ
  log : List (ℤ × Measurement)

def pickRounds (target : ℤ) (measure : ℕ → ℤ → Measurement) : ℕ → ℕ → ℤ → Option Search
  | 0, _, n => some ⟨n, []⟩
  | left + 1, round, n =>
    let m := measure round n
    if m.ns ≥ target ∨ m.wall ≥ target ∨ n ≥ nMax then some ⟨n, [(n, m)]⟩
    else do
      let next ← nextCount target n m
      if next > nMax then some ⟨nMax, [(n, m)]⟩
      else do
        let rest ← pickRounds target measure left (round + 1) next
        some ⟨rest.count, (n, m) :: rest.log⟩

def pickN (target : ℤ) (measure : ℕ → ℤ → Measurement) : Option Search :=
  pickRounds target measure maxRounds 0 1

/-! ## One round -/

def fifthMore (x : ℤ) : ℤ := x + x / 5

def timedEstimate (target n ns : ℤ) : ℤ :=
  if ns ≤ 0 then n * 100 else max (n + 1) (min (fifthMore (n * target / ns)) (n * 100))

def estimate (target n : ℤ) (m : Measurement) : ℤ :=
  if m.wall > 0 ∧ m.wall > m.ns then
    max (n + 1) (min (timedEstimate target n m.ns) (fifthMore (n * target / m.wall)))
  else timedEstimate target n m.ns

theorem le_fifthMore {x : ℤ} (hx : 0 ≤ x) : x ≤ fifthMore x := by
  unfold fifthMore
  omega

theorem fifthMore_mono {x y : ℤ} (h : x ≤ y) : fifthMore x ≤ fifthMore y := by
  unfold fifthMore
  omega

theorem small_fits {x : ℤ} (h0 : 0 ≤ x) (h : x ≤ nMax * 100) : Fits 64 x := by
  rw [fits64_iff h0]
  unfold nMax at h
  omega

theorem scaled_eq_some_iff {target n d x : ℤ} (hp : 0 ≤ n * target) (hd : 0 < d) :
    scaled target n d = some x ↔
      (Fits 64 (n * target) ∧ Fits 64 (fifthMore (n * target / d))) ∧
        x = fifthMore (n * target / d) := by
  have hq : 0 ≤ n * target / d := Int.ediv_nonneg hp hd.le
  by_cases hfit : Fits 64 (n * target)
  · simp only [scaled, mul, checked_of_fits hfit, Option.bind_eq_bind, Option.bind_some,
      div_of_fits hfit hp hd, add, Int.tdiv_eq_ediv_of_nonneg hq, checked_eq_some, fifthMore, hfit,
      true_and]
  · simp [scaled, mul, checked, hfit]

theorem oneMore_eq {n : ℤ} (hn : 1 ≤ n) (hmax : n ≤ nMax) (next : ℤ) :
    oneMore n next = some (max (n + 1) next) := by
  have hsucc : add 64 n 1 = some (n + 1) :=
    checked_of_fits (small_fits (by omega) (by unfold nMax at *; omega))
  unfold oneMore
  split
  · rw [hsucc, max_eq_left (by omega)]
  · rw [max_eq_right (by omega)]

theorem byTimed_eq_some_iff {target n ns next : ℤ} (hn : 1 ≤ n) (hmax : n ≤ nMax)
    (hT : 0 ≤ target) :
    byTimed target n ns = some next ↔
      (0 < ns → Fits 64 (n * target) ∧ Fits 64 (fifthMore (n * target / ns))) ∧
        next = timedEstimate target n ns := by
  have hcap : mul 64 n 100 = some (n * 100) := checked_of_fits (small_fits (by omega) (by omega))
  by_cases hns : ns ≤ 0
  · simp only [byTimed, timedEstimate, if_pos hns, hcap, Option.some.injEq, eq_comm,
      not_lt.mpr hns, false_implies, true_and]
  · have hp : 0 ≤ n * target := by positivity
    simp only [byTimed, timedEstimate, if_neg hns, hcap, Option.bind_eq_bind, Option.bind_some,
      oneMore_eq hn hmax, Option.bind_eq_some_iff, scaled_eq_some_iff hp (not_le.mp hns),
      not_le.mp hns, true_implies, Option.some.injEq]
    constructor
    · rintro ⟨x, ⟨hfit, rfl⟩, h⟩
      exact ⟨hfit, by rw [← h]; congr 1; omega⟩
    · rintro ⟨hfit, h⟩
      exact ⟨_, ⟨hfit, rfl⟩, by rw [h]; congr 1; omega⟩

theorem byWall_eq_some_iff {target n wall next x : ℤ} (hn : 1 ≤ n) (hmax : n ≤ nMax)
    (hT : 0 ≤ target) (hwall : 0 < wall) :
    byWall target n wall next = some x ↔
      (Fits 64 (n * target) ∧ Fits 64 (fifthMore (n * target / wall))) ∧
        x = max (n + 1) (min next (fifthMore (n * target / wall))) := by
  have hp : 0 ≤ n * target := by positivity
  simp only [byWall, Option.bind_eq_bind, oneMore_eq hn hmax, Option.bind_eq_some_iff,
    scaled_eq_some_iff hp hwall, Option.some.injEq]
  constructor
  · rintro ⟨cut, ⟨hfit, rfl⟩, h⟩
    exact ⟨hfit, by rw [← h]; congr 1; omega⟩
  · rintro ⟨hfit, h⟩
    exact ⟨_, ⟨hfit, rfl⟩, by rw [h]; congr 1; omega⟩

/-- What one round does: it has a next count exactly when the intermediates it forms
fit, and then the next count is the exact estimate. -/
theorem nextCount_eq_some_iff {target n next : ℤ} {m : Measurement} (hn : 1 ≤ n) (hmax : n ≤ nMax)
    (hT : 0 ≤ target) :
    nextCount target n m = some next ↔
      (0 < m.ns → Fits 64 (n * target) ∧ Fits 64 (fifthMore (n * target / m.ns))) ∧
      (m.ns < m.wall → Fits 64 (n * target) ∧ Fits 64 (fifthMore (n * target / m.wall))) ∧
        next = estimate target n m := by
  simp only [nextCount, Option.bind_eq_bind, Option.bind_eq_some_iff,
    byTimed_eq_some_iff hn hmax hT]
  by_cases hcut : m.wall > 0 ∧ m.wall > m.ns
  · simp only [if_pos hcut, byWall_eq_some_iff hn hmax hT hcut.1, estimate]
    constructor
    · rintro ⟨x, ⟨htimed, rfl⟩, hwall, h⟩
      exact ⟨htimed, fun _ => hwall, h⟩
    · rintro ⟨htimed, hwall, h⟩
      exact ⟨_, ⟨htimed, rfl⟩, hwall hcut.2, h⟩
  · have hnot : ¬ m.ns < m.wall := fun h => hcut ⟨m.ns_nonneg.trans_lt h, h⟩
    simp only [if_neg hcut, estimate, Option.some.injEq]
    constructor
    · rintro ⟨x, ⟨htimed, rfl⟩, h⟩
      exact ⟨htimed, fun h => absurd h hnot, h.symm⟩
    · rintro ⟨htimed, _, h⟩
      exact ⟨_, ⟨htimed, rfl⟩, h.symm⟩

theorem lt_estimate (target : ℤ) {n : ℤ} (m : Measurement) (hn : 1 ≤ n) : n < estimate target n m := by
  have htimed : n < timedEstimate target n m.ns := by
    unfold timedEstimate
    split <;> omega
  unfold estimate
  split <;> omega

/-! ## The rounds -/

/-- A round measures a count below the ceiling on which neither clock reached the target. -/
def Continues (target n : ℤ) (m : Measurement) : Prop :=
  m.ns < target ∧ m.wall < target ∧ n < nMax

theorem pickRounds_stop {target n : ℤ} {measure : ℕ → ℤ → Measurement} {round : ℕ}
    (h : ¬ Continues target n (measure round n)) (left : ℕ) :
    pickRounds target measure (left + 1) round n = some ⟨n, [(n, measure round n)]⟩ := by
  rw [pickRounds, if_pos (by unfold Continues at h; omega)]

theorem pickRounds_go {target n : ℤ} {measure : ℕ → ℤ → Measurement} {round : ℕ}
    (h : Continues target n (measure round n)) (left : ℕ) :
    pickRounds target measure (left + 1) round n =
      (nextCount target n (measure round n)).bind fun next =>
        if next > nMax then some ⟨nMax, [(n, measure round n)]⟩
        else (pickRounds target measure left (round + 1) next).bind fun rest =>
          some ⟨rest.count, (n, measure round n) :: rest.log⟩ := by
  obtain ⟨hns, hwall, hmax⟩ := h
  rw [pickRounds, if_neg (by omega)]
  rfl

/-- Everything one round of a search that returns can do. -/
theorem pickRounds_cases {target n : ℤ} {measure : ℕ → ℤ → Measurement} {left round : ℕ} {s : Search}
    (hn : 1 ≤ n) (hT : 0 ≤ target) (h : pickRounds target measure (left + 1) round n = some s) :
    (¬ Continues target n (measure round n) ∧ s = ⟨n, [(n, measure round n)]⟩) ∨
    (Continues target n (measure round n) ∧ nMax < estimate target n (measure round n) ∧
      s = ⟨nMax, [(n, measure round n)]⟩) ∨
    (Continues target n (measure round n) ∧ estimate target n (measure round n) ≤ nMax ∧
      ∃ rest, pickRounds target measure left (round + 1) (estimate target n (measure round n)) =
        some rest ∧ s = ⟨rest.count, (n, measure round n) :: rest.log⟩) := by
  by_cases hc : Continues target n (measure round n)
  · rw [pickRounds_go hc] at h
    obtain ⟨next, hnext, h⟩ := Option.bind_eq_some_iff.mp h
    obtain rfl := ((nextCount_eq_some_iff hn hc.2.2.le hT).mp hnext).2.2
    by_cases hclamp : estimate target n (measure round n) > nMax
    · rw [if_pos hclamp] at h
      exact Or.inr (Or.inl ⟨hc, hclamp, (Option.some.inj h).symm⟩)
    · rw [if_neg hclamp] at h
      obtain ⟨rest, hrest, h⟩ := Option.bind_eq_some_iff.mp h
      exact Or.inr (Or.inr ⟨hc, not_lt.mp hclamp, rest, hrest, (Option.some.inj h).symm⟩)
  · rw [pickRounds_stop hc] at h
    exact Or.inl ⟨hc, (Option.some.inj h).symm⟩

theorem pickRounds_invariant {target : ℤ} {measure : ℕ → ℤ → Measurement} {I : ℤ → Prop}
    (hT : 0 ≤ target)
    (hnext : ∀ round n, 1 ≤ n → I n → Continues target n (measure round n) →
      I (min nMax (estimate target n (measure round n))))
    {left round : ℕ} {n : ℤ} {s : Search} (hn : 1 ≤ n) (hI : I n)
    (h : pickRounds target measure left round n = some s) : I s.count := by
  induction left generalizing round n s with
  | zero => exact Option.some.inj h ▸ hI
  | succ left ih =>
    have hlt := lt_estimate target (measure round n) hn
    rcases pickRounds_cases hn hT h with ⟨_, rfl⟩ | ⟨hc, hmax, rfl⟩ | ⟨hc, hmax, rest, hrest, rfl⟩
    · exact hI
    · have hi := hnext round n hn hI hc
      rwa [min_eq_left hmax.le] at hi
    · have hi := hnext round n hn hI hc
      rw [min_eq_right hmax] at hi
      exact ih (s := rest) (by omega) hi hrest

theorem pickRounds_isSome {target : ℤ} {measure : ℕ → ℤ → Measurement} (hT : 0 ≤ target)
    (hround : ∀ n m, 1 ≤ n → Continues target n m → (nextCount target n m).isSome)
    {left round : ℕ} {n : ℤ} (hn : 1 ≤ n) :
    (pickRounds target measure left round n).isSome := by
  induction left generalizing round n with
  | zero => rfl
  | succ left ih =>
    by_cases hc : Continues target n (measure round n)
    · obtain ⟨next, hnext⟩ := Option.isSome_iff_exists.mp (hround n _ hn hc)
      have hlt := lt_estimate target (measure round n) hn
      rw [← ((nextCount_eq_some_iff hn hc.2.2.le hT).mp hnext).2.2] at hlt
      rw [pickRounds_go hc, hnext, Option.bind_some]
      split
      · rfl
      · obtain ⟨rest, hrest⟩ := Option.isSome_iff_exists.mp
          (@ih (round + 1) next (by omega))
        rw [hrest]
        rfl
    · rw [pickRounds_stop hc]
      rfl

theorem pickRounds_none {target n : ℤ} {measure : ℕ → ℤ → Measurement} {left round : ℕ}
    (hn : 1 ≤ n) (hT : 0 ≤ target) (hc : Continues target n (measure round n))
    (hmax : estimate target n (measure round n) ≤ nMax)
    (h : pickRounds target measure left (round + 1) (estimate target n (measure round n)) = none) :
    pickRounds target measure (left + 1) round n = none := by
  cases hs : pickRounds target measure (left + 1) round n with
  | none => rfl
  | some s =>
    rcases pickRounds_cases hn hT hs with ⟨hstop, _⟩ | ⟨_, hclamp, _⟩ | ⟨_, _, rest, hrest, _⟩
    · exact absurd hc hstop
    · omega
    · rw [h] at hrest
      cases hrest

end BurrowBench.Harness
