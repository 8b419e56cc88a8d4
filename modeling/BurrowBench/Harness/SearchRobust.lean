import BurrowBench.Harness.SearchOverflow
import Mathlib.Data.List.Chain

/-! # The search under noise

Nothing relates the measurements of one round to those of another. Whatever the rules of
a round make of them, the next count is over the count and under the x100 cap, so that the
counts grow and the search ends for one of three reasons. A sum that overflows changes none
of this where the machine gives it some value.
-/
namespace BurrowBench.Harness
open CheckedArithmetic

/-! ## The loop over any rule -/

/-- A rule for the next count: it is larger, and a hundred times the count at most. -/
structure Rule where
  next : ℤ → Measurement → Option ℤ
  grows : ∀ {n m x}, 1 ≤ n → n < nMax → next n m = some x → n < x ∧ x ≤ n * 100

namespace Rule

/-- The loop of `pick_n`. -/
def search (rule : Rule) (target : ℤ) (measure : ℕ → ℤ → Measurement) : ℕ → ℕ → ℤ → Option Search
  | 0, _, n => some ⟨n, []⟩
  | left + 1, round, n =>
    let m := measure round n
    if m.ns ≥ target ∨ m.wall ≥ target ∨ n ≥ nMax then some ⟨n, [(n, m)]⟩
    else do
      let next ← rule.next n m
      if next > nMax then some ⟨nMax, [(n, m)]⟩
      else do
        let rest ← rule.search target measure left (round + 1) next
        some ⟨rest.count, (n, m) :: rest.log⟩

/-- The counts that a search measures, with their rounds. -/
inductive Reached (rule : Rule) (target : ℤ) (measure : ℕ → ℤ → Measurement) : ℕ → ℤ → Prop where
  | first : Reached rule target measure 0 1
  | next {round : ℕ} {n x : ℤ} (h : Reached rule target measure round n)
      (hgoes : Continues target n (measure round n)) (hnext : rule.next n (measure round n) = some x)
      (hmax : x ≤ nMax) : Reached rule target measure (round + 1) x

/-- The candidate after the last measurement of a log, n where there is none. -/
def candidate (rule : Rule) (n : ℤ) (log : List (ℤ × Measurement)) : Option ℤ :=
  match log.getLast? with
  | none => some n
  | some a => rule.next a.1 a.2

end Rule

/-- What a search of so many rounds measures and returns. -/
structure Trail (rule : Rule) (target : ℤ) (measure : ℕ → ℤ → Measurement) (rounds round : ℕ) (n : ℤ)
    (s : Search) : Prop where
  measured : ∀ k a, s.log[k]? = some a → a.2 = measure (round + k) a.1
  first : 0 < rounds → s.log.head? = some (n, measure round n)
  grows : s.log.IsChain fun a b => a.1 < b.1 ∧ b.1 ≤ a.1 * 100
  counts : ∀ a ∈ s.log, 1 ≤ a.1 ∧ a.1 ≤ nMax
  length_le : s.log.length ≤ rounds
  count : 1 ≤ s.count ∧ s.count ≤ nMax
  ended : (∃ m, s.log.getLast? = some (s.count, m) ∧ (m.ns ≥ target ∨ m.wall ≥ target)) ∨
    s.count = nMax ∨ (s.log.length = rounds ∧ rule.candidate n s.log = some s.count)

variable {rule : Rule} {target n x : ℤ} {measure : ℕ → ℤ → Measurement} {left round : ℕ} {s rest : Search}

namespace Rule

theorem search_stop (rule : Rule) (hstop : ¬ Continues target n (measure round n)) (left : ℕ) :
    rule.search target measure (left + 1) round n = some ⟨n, [(n, measure round n)]⟩ := by
  rw [search, if_pos (by unfold Continues at hstop; omega)]

theorem search_go (rule : Rule) (hgoes : Continues target n (measure round n)) (left : ℕ) :
    rule.search target measure (left + 1) round n =
      (rule.next n (measure round n)).bind fun x =>
        if x > nMax then some ⟨nMax, [(n, measure round n)]⟩
        else (rule.search target measure left (round + 1) x).bind fun rest =>
          some ⟨rest.count, (n, measure round n) :: rest.log⟩ := by
  obtain ⟨hns, hwall, hmax⟩ := hgoes
  rw [search, if_neg (by omega)]
  rfl

theorem candidate_cons (hnext : rule.next n (measure round n) = some x) (log : List (ℤ × Measurement)) :
    rule.candidate n ((n, measure round n) :: log) = rule.candidate x log := by
  unfold candidate
  rw [List.getLast?_cons]
  cases log.getLast? with
  | none => exact hnext
  | some a => rfl

end Rule

theorem trail_single {count : ℤ} (hn : 1 ≤ n) (hmax : n ≤ nMax) (hcount : 1 ≤ count ∧ count ≤ nMax)
    (hended : count = n ∧ ((measure round n).ns ≥ target ∨ (measure round n).wall ≥ target) ∨ count = nMax) :
    Trail rule target measure (left + 1) round n ⟨count, [(n, measure round n)]⟩ where
  measured k a h := by
    obtain ⟨rfl, rfl⟩ : k = 0 ∧ (n, measure round n) = a := by
      cases k <;> simp_all
    rfl
  first _ := rfl
  grows := .singleton _
  counts a ha := by
    obtain rfl := List.mem_singleton.mp ha
    exact ⟨hn, hmax⟩
  length_le := Nat.succ_le_succ (Nat.zero_le left)
  count := hcount
  ended := by
    rcases hended with ⟨rfl, hreached⟩ | hceiling
    · exact Or.inl ⟨measure round count, rfl, hreached⟩
    · exact Or.inr (Or.inl hceiling)

theorem trail_stop (hn : 1 ≤ n) (hmax : n ≤ nMax) (hstop : ¬ Continues target n (measure round n)) :
    Trail rule target measure (left + 1) round n ⟨n, [(n, measure round n)]⟩ := by
  apply trail_single hn hmax ⟨hn, hmax⟩
  by_cases hlt : n < nMax
  · unfold Continues at hstop
    exact Or.inl ⟨rfl, by omega⟩
  · exact Or.inr (le_antisymm hmax (not_lt.mp hlt))

theorem trail_clamp (hn : 1 ≤ n) (hgoes : Continues target n (measure round n)) :
    Trail rule target measure (left + 1) round n ⟨nMax, [(n, measure round n)]⟩ :=
  trail_single hn hgoes.2.2.le ⟨by norm_num [nMax], le_rfl⟩ (Or.inr rfl)

theorem Trail.cons (hn : 1 ≤ n) (hgoes : Continues target n (measure round n))
    (hnext : rule.next n (measure round n) = some x)
    (h : Trail rule target measure left (round + 1) x rest) :
    Trail rule target measure (left + 1) round n ⟨rest.count, (n, measure round n) :: rest.log⟩ where
  measured k a hk := by
    cases k with
    | zero =>
      obtain rfl := Option.some.inj hk
      rfl
    | succ k =>
      have hrest := h.measured k a hk
      rwa [Nat.add_right_comm, Nat.add_assoc] at hrest
  first _ := rfl
  grows := by
    refine h.grows.cons fun b hb => ?_
    have hpos : 0 < left := by
      have hlength := h.length_le
      cases hlog : rest.log with
      | nil => simp [hlog] at hb
      | cons c log =>
        rw [hlog, List.length_cons] at hlength
        omega
    rw [h.first hpos] at hb
    obtain rfl := Option.some.inj hb
    exact rule.grows hn hgoes.2.2 hnext
  counts a ha := by
    rcases List.mem_cons.mp ha with rfl | ha
    · exact ⟨hn, hgoes.2.2.le⟩
    · exact h.counts a ha
  length_le := Nat.succ_le_succ h.length_le
  count := h.count
  ended := by
    rcases h.ended with ⟨m, hlast, hreached⟩ | hmax | ⟨hlength, hcount⟩
    · exact Or.inl ⟨m, by rw [List.getLast?_cons, hlast]; rfl, hreached⟩
    · exact Or.inr (Or.inl hmax)
    · refine Or.inr (Or.inr ⟨congrArg Nat.succ hlength, ?_⟩)
      rw [Rule.candidate_cons hnext]
      exact hcount

theorem search_trail (rule : Rule) (hn : 1 ≤ n) (hmax : n ≤ nMax)
    (h : rule.search target measure left round n = some s) :
    Trail rule target measure left round n s := by
  induction left generalizing round n s with
  | zero =>
    obtain rfl := Option.some.inj h
    exact ⟨by simp, fun h => absurd h (lt_irrefl 0), .nil, by simp, le_rfl, ⟨hn, hmax⟩,
      Or.inr (Or.inr ⟨rfl, rfl⟩)⟩
  | succ left ih =>
    by_cases hgoes : Continues target n (measure round n)
    · rw [rule.search_go hgoes] at h
      obtain ⟨x, hnext, h⟩ := Option.bind_eq_some_iff.mp h
      have hgrows := (rule.grows hn hgoes.2.2 hnext).1
      split at h
      · obtain rfl := Option.some.inj h
        exact trail_clamp hn hgoes
      · obtain ⟨rest, hrest, h⟩ := Option.bind_eq_some_iff.mp h
        obtain rfl := Option.some.inj h
        exact (ih (by omega) (not_lt.mp ‹_›) hrest).cons hn hgoes hnext
    · rw [rule.search_stop hgoes] at h
      obtain rfl := Option.some.inj h
      exact trail_stop hn hmax hgoes

theorem Rule.search_invariant {I : ℤ → Prop} (hn : 1 ≤ n) (hI : I n)
    (hnext : ∀ round n x, 1 ≤ n → I n → Continues target n (measure round n) →
      rule.next n (measure round n) = some x → I (min nMax x))
    (h : rule.search target measure left round n = some s) : I s.count := by
  induction left generalizing round n s with
  | zero => exact Option.some.inj h ▸ hI
  | succ left ih =>
    by_cases hgoes : Continues target n (measure round n)
    · rw [rule.search_go hgoes] at h
      obtain ⟨x, hx, h⟩ := Option.bind_eq_some_iff.mp h
      have hlt := (rule.grows hn hgoes.2.2 hx).1
      have hi := hnext round n x hn hI hgoes hx
      split at h
      · obtain rfl := Option.some.inj h
        rwa [min_eq_left (by omega)] at hi
      · obtain ⟨rest, hrest, h⟩ := Option.bind_eq_some_iff.mp h
        obtain rfl := Option.some.inj h
        rw [min_eq_right (by omega)] at hi
        exact ih (s := rest) (by omega) hi hrest
    · rw [rule.search_stop hgoes] at h
      exact Option.some.inj h ▸ hI

theorem Rule.Reached.one_le (h : rule.Reached target measure round n) : 1 ≤ n := by
  induction h with
  | first => exact le_rfl
  | next h hgoes hnext hmax ih => exact ih.trans (rule.grows ih hgoes.2.2 hnext).1.le

theorem search_isSome (left : ℕ)
    (hrule : ∀ round n, rule.Reached target measure round n → Continues target n (measure round n) →
      (rule.next n (measure round n)).isSome)
    (hreached : rule.Reached target measure round n) :
    (rule.search target measure left round n).isSome := by
  induction left generalizing round n with
  | zero => rfl
  | succ left ih =>
    by_cases hgoes : Continues target n (measure round n)
    · obtain ⟨x, hnext⟩ := Option.isSome_iff_exists.mp (hrule round n hreached hgoes)
      rw [rule.search_go hgoes, hnext, Option.bind_some]
      split
      · rfl
      · obtain ⟨rest, hrest⟩ := Option.isSome_iff_exists.mp
          (ih (hreached.next hgoes hnext (not_lt.mp ‹_›)))
        rw [hrest]
        rfl
    · rw [rule.search_stop hgoes]
      rfl

/-! ## The rules of pick_n over any addition -/

/-- A round divides `n * target_ns` by a clock. -/
inductive Divides (m : Measurement) : ℤ → Prop where
  | timed (h : 0 < m.ns) : Divides m m.ns
  | wall (h : m.ns < m.wall) : Divides m m.wall

theorem Divides.pos {m : Measurement} {d : ℤ} (h : Divides m d) : 0 < d := by
  cases h with
  | timed h => exact h
  | wall h => exact m.ns_nonneg.trans_lt h

/-- An int64 addition: the sum where it is in range, and anything or nothing elsewhere. -/
structure Addition where
  plus : ℤ → ℤ → Option ℤ
  exact : ∀ {x y}, Fits 64 (x + y) → plus x y = some (x + y)

namespace Addition

/-- A sum that overflows has no value. -/
def checked : Addition := ⟨add 64, fun h => checked_of_fits h⟩

/-- A sum that overflows has the value that `overflowed` gives it. -/
def total (overflowed : ℤ → ℤ → ℤ) : Addition where
  plus x y := some (if Fits 64 (x + y) then x + y else overflowed x y)
  exact h := by rw [if_pos h]

variable (a : Addition)

def scaled (target n d : ℤ) : Option ℤ := do
  let product ← mul 64 n target
  let x ← div 64 product d
  a.plus x (x.tdiv 5)

def oneMore (n next : ℤ) : Option ℤ := if next ≤ n then a.plus n 1 else some next

def byTimed (target n ns : ℤ) : Option ℤ :=
  if ns ≤ 0 then mul 64 n 100
  else do
    let next ← a.scaled target n ns
    let cap ← mul 64 n 100
    a.oneMore n (if next > cap then cap else next)

def byWall (target n wall next : ℤ) : Option ℤ := do
  let cut ← a.scaled target n wall
  a.oneMore n (if cut < next then cut else next)

def nextCount (target n : ℤ) (m : Measurement) : Option ℤ := do
  let next ← a.byTimed target n m.ns
  if m.wall > 0 ∧ m.wall > m.ns then a.byWall target n m.wall next else some next

variable {a} {m : Measurement}

theorem oneMore_eq (hn : 1 ≤ n) (hmax : n < nMax) (next : ℤ) : a.oneMore n next = some (max (n + 1) next) := by
  have hsucc : a.plus n 1 = some (n + 1) :=
    a.exact (small_fits (by omega) (by unfold nMax at *; omega))
  unfold oneMore
  split
  · rw [hsucc, max_eq_left (by omega)]
  · rw [max_eq_right (by omega)]

theorem cap_eq (hn : 1 ≤ n) (hmax : n < nMax) : mul 64 n 100 = some (n * 100) :=
  checked_of_fits (small_fits (by omega) (by omega))

theorem byTimed_grows {ns : ℤ} (hn : 1 ≤ n) (hmax : n < nMax) (h : a.byTimed target n ns = some x) :
    n < x ∧ x ≤ n * 100 := by
  unfold byTimed at h
  rw [cap_eq hn hmax] at h
  split at h
  · obtain rfl := Option.some.inj h
    omega
  · obtain ⟨next, -, h⟩ := Option.bind_eq_some_iff.mp h
    rw [Option.bind_eq_bind, Option.bind_some, oneMore_eq hn hmax] at h
    obtain rfl := Option.some.inj h
    split <;> omega

theorem byWall_grows {wall next : ℤ} (hn : 1 ≤ n) (hmax : n < nMax) (hnext : n < next ∧ next ≤ n * 100)
    (h : a.byWall target n wall next = some x) : n < x ∧ x ≤ n * 100 := by
  unfold byWall at h
  obtain ⟨cut, -, h⟩ := Option.bind_eq_some_iff.mp h
  rw [oneMore_eq hn hmax] at h
  obtain rfl := Option.some.inj h
  split <;> omega

theorem nextCount_grows (hn : 1 ≤ n) (hmax : n < nMax) (h : a.nextCount target n m = some x) :
    n < x ∧ x ≤ n * 100 := by
  unfold nextCount at h
  obtain ⟨next, htimed, h⟩ := Option.bind_eq_some_iff.mp h
  have hgrows := byTimed_grows hn hmax htimed
  split at h
  · exact byWall_grows hn hmax hgrows h
  · exact Option.some.inj h ▸ hgrows

theorem scaled_eq {d : ℤ} (hp : 0 ≤ n * target) (hfit : Fits 64 (n * target)) (hd : 0 < d) :
    a.scaled target n d = a.plus (n * target / d) (n * target / d / 5) := by
  have hq : 0 ≤ n * target / d := Int.ediv_nonneg hp hd.le
  rw [scaled, mul, checked_of_fits hfit, Option.bind_eq_bind, Option.bind_some, div_of_fits hfit hp hd,
    Option.bind_some, Int.tdiv_eq_ediv_of_nonneg hq]

/-- Whatever an overflowing sum gives, the quotient under it is over the x100 cap. -/
theorem scaled_eq_or {d : ℤ} (hp : 0 ≤ n * target) (hd : 0 < d) (h : a.scaled target n d = some x) :
    x = fifthMore (n * target / d) ∨ nMax * 100 < fifthMore (n * target / d) := by
  obtain ⟨product, hproduct, -⟩ := Option.bind_eq_some_iff.mp h
  have hq : 0 ≤ n * target / d := Int.ediv_nonneg hp hd.le
  have hle := le_fifthMore hq
  rw [scaled_eq hp (checked_eq_some.mp hproduct).1 hd] at h
  by_cases hsum : Fits 64 (fifthMore (n * target / d))
  · rw [a.exact hsum] at h
    exact Or.inl (Option.some.inj h).symm
  · right
    rw [fits64_iff (hq.trans hle)] at hsum
    unfold nMax
    omega

/-- The next count is one more, or over the share of the wall clock by a fifth at most. -/
theorem nextCount_le (hn : 1 ≤ n) (hmax : n < nMax) (hT : 0 ≤ target) (hwall : 0 < m.wall)
    (h : a.nextCount target n m = some x) : x ≤ max (n + 1) (fifthMore (n * target / m.wall)) := by
  have hp : 0 ≤ n * target := by positivity
  have hcap := (nextCount_grows hn hmax h).2
  obtain ⟨next, htimed, h⟩ := Option.bind_eq_some_iff.mp h
  by_cases hcut : m.wall > 0 ∧ m.wall > m.ns
  · rw [if_pos hcut] at h
    obtain ⟨cut, hscaled, h⟩ := Option.bind_eq_some_iff.mp h
    rw [oneMore_eq hn hmax] at h
    have hx := Option.some.inj h
    rcases scaled_eq_or hp hwall hscaled with hcut | hover
    · split at hx <;> omega
    · omega
  · rw [if_neg hcut] at h
    obtain rfl := Option.some.inj h
    have hns : m.ns = m.wall := by
      have hle := m.ns_le_wall
      omega
    rw [byTimed, if_neg (by omega), hns] at htimed
    obtain ⟨cut, hscaled, htimed⟩ := Option.bind_eq_some_iff.mp htimed
    rw [cap_eq hn hmax, Option.bind_eq_bind, Option.bind_some, oneMore_eq hn hmax] at htimed
    have hx := Option.some.inj htimed
    rcases scaled_eq_or hp hwall hscaled with hcut | hover
    · split at hx <;> omega
    · omega

/-- A round has a next count where the product fits and its fifth can be added. -/
theorem nextCount_isSome (hn : 1 ≤ n) (hmax : n < nMax) (hT : 0 ≤ target)
    (hfits : ∀ d, Divides m d → Fits 64 (n * target))
    (hadds : ∀ d, Divides m d → (a.plus (n * target / d) (n * target / d / 5)).isSome) :
    (a.nextCount target n m).isSome := by
  have hp : 0 ≤ n * target := by positivity
  have hscaled : ∀ d, Divides m d → ∃ x, a.scaled target n d = some x := by
    intro d hd
    rw [scaled_eq hp (hfits d hd) hd.pos]
    exact Option.isSome_iff_exists.mp (hadds d hd)
  have htimed : ∃ next, a.byTimed target n m.ns = some next := by
    unfold byTimed
    rw [cap_eq hn hmax]
    split
    · exact ⟨_, rfl⟩
    · obtain ⟨x, hx⟩ := hscaled m.ns (.timed (not_le.mp ‹_›))
      rw [hx, Option.bind_eq_bind, Option.bind_some, Option.bind_some, oneMore_eq hn hmax]
      exact ⟨_, rfl⟩
  obtain ⟨next, hnext⟩ := htimed
  rw [nextCount, hnext, Option.bind_eq_bind, Option.bind_some]
  split
  · rename_i hcut
    obtain ⟨x, hx⟩ := hscaled m.wall (.wall hcut.2)
    rw [byWall, hx, Option.bind_eq_bind, Option.bind_some, oneMore_eq hn hmax]
    rfl
  · rfl

def pickRule (a : Addition) (target : ℤ) : Rule := ⟨a.nextCount target, nextCount_grows⟩

/-- With checked sums it is the rule of the model. -/
theorem checked_pickRule (target : ℤ) : (checked.pickRule target).next = Harness.nextCount target := rfl

/-- No product of a round that the search reaches overflows. -/
def ProductsFit (a : Addition) (target : ℤ) (measure : ℕ → ℤ → Measurement) : Prop :=
  ∀ round n, (a.pickRule target).Reached target measure round n → Continues target n (measure round n) →
    ∀ d, Divides (measure round n) d → Fits 64 (n * target)

def SumsDefined (a : Addition) (target : ℤ) (measure : ℕ → ℤ → Measurement) : Prop :=
  ∀ round n, (a.pickRule target).Reached target measure round n → Continues target n (measure round n) →
    ∀ d, Divides (measure round n) d → (a.plus (n * target / d) (n * target / d / 5)).isSome

theorem pickRule_trail (a : Addition) (target : ℤ) (measure : ℕ → ℤ → Measurement)
    (hproducts : a.ProductsFit target measure) (hsums : a.SumsDefined target measure) :
    ∃ s, (a.pickRule target).search target measure maxRounds 0 1 = some s ∧
      Trail (a.pickRule target) target measure maxRounds 0 1 s := by
  have hrule : ∀ round n, (a.pickRule target).Reached target measure round n →
      Continues target n (measure round n) → (a.nextCount target n (measure round n)).isSome := by
    intro round n hreached hgoes
    have hT : 0 ≤ target := ((measure round n).ns_nonneg.trans_lt hgoes.1).le
    exact nextCount_isSome hreached.one_le hgoes.2.2 hT (hproducts round n hreached hgoes)
      (hsums round n hreached hgoes)
  obtain ⟨s, hs⟩ := Option.isSome_iff_exists.mp (search_isSome maxRounds hrule .first)
  exact ⟨s, hs, search_trail _ le_rfl (by decide) hs⟩

end Addition

/-! ## The search of pick_n -/

theorem pickRounds_eq_search (target : ℤ) (measure : ℕ → ℤ → Measurement) (left round : ℕ) (n : ℤ) :
    pickRounds target measure left round n =
      (Addition.checked.pickRule target).search target measure left round n := by
  induction left generalizing round n with
  | zero => rfl
  | succ left ih =>
    rw [pickRounds, Rule.search, Addition.checked_pickRule]
    simp only [ih]

def NoOverflow (target : ℤ) (measure : ℕ → ℤ → Measurement) : Prop :=
  ∀ round n, (Addition.checked.pickRule target).Reached target measure round n →
    Continues target n (measure round n) → ∀ d, Divides (measure round n) d →
      Fits 64 (n * target) ∧ Fits 64 (fifthMore (n * target / d))

theorem noOverflow_of_safe (hT : 0 ≤ target) (hsafe : target ≤ safeTarget)
    (measure : ℕ → ℤ → Measurement) : NoOverflow target measure := by
  intro round n hreached hgoes d hd
  have hn := hreached.one_le
  have hp : 0 ≤ n * target := by positivity
  have hfits := fifthMore_fits_of_safe hn hgoes.2.2 hT hsafe
  exact ⟨hfits.mono hp (le_fifthMore hp), fifthMore_div_fits hp hd.pos hfits⟩

theorem Addition.productsFit_of_safe (a : Addition) (hT : 0 ≤ target) (hsafe : target ≤ safeTarget)
    (measure : ℕ → ℤ → Measurement) : a.ProductsFit target measure := by
  intro round n hreached hgoes _ _
  have hn := hreached.one_le
  have hp : 0 ≤ n * target := by positivity
  exact (fifthMore_fits_of_safe hn hgoes.2.2 hT hsafe).mono hp (le_fifthMore hp)

/-- Whatever the clocks show, a search in which nothing overflows divides by no zero, and
measures growing counts until a clock reached the target, the ceiling or its last round. So
does one in which sums overflow, where these have some value or other. -/
theorem pickN_robust (target : ℤ) (measure : ℕ → ℤ → Measurement) :
    (NoOverflow target measure → ∃ s, pickN target measure = some s ∧
      Trail (Addition.checked.pickRule target) target measure maxRounds 0 1 s) ∧
    ∀ overflowed : ℤ → ℤ → ℤ, (Addition.total overflowed).ProductsFit target measure →
      ∃ s, ((Addition.total overflowed).pickRule target).search target measure maxRounds 0 1 = some s ∧
        Trail ((Addition.total overflowed).pickRule target) target measure maxRounds 0 1 s := by
  constructor
  · intro hfits
    rw [pickN, pickRounds_eq_search]
    apply Addition.pickRule_trail
    · exact fun round n hreached hgoes d hd => (hfits round n hreached hgoes d hd).1
    · intro round n hreached hgoes d hd
      have hsum := (hfits round n hreached hgoes d hd).2
      exact Option.isSome_iff_exists.mpr ⟨_, checked_of_fits hsum⟩
  · intro overflowed hproducts
    exact Addition.pickRule_trail _ target measure hproducts fun _ _ _ _ _ _ => rfl

/-- A second's target on a clock that shows 7 ns for every count. -/
theorem pickN_robust_second : ∃ s, pickN 1000000000 (fun _ _ => both 7) = some s ∧
    Trail (Addition.checked.pickRule 1000000000) 1000000000 (fun _ _ => both 7) maxRounds 0 1 s :=
  (pickN_robust 1000000000 (fun _ _ => both 7)).1
    (noOverflow_of_safe (by norm_num) (by norm_num [safeTarget]) _)

end BurrowBench.Harness
