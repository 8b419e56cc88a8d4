import BurrowBench.Harness.AffineCost

/-! # Which targets the search can be asked for

The largest count a round continues from is one below the ceiling, and a clock may
show a single nanosecond, so a target is safe exactly when that count, times the target
and a fifth more, is an int64. That is about 7.69 seconds. Beyond it, six measurements
are enough to leave the range.
-/
namespace BurrowBench.Harness
open CheckedArithmetic

def safeTarget : ℤ := 7686143371

theorem fifthMore_fits_of_safe {target n : ℤ} (hn : 1 ≤ n) (hmax : n < nMax) (hT : 0 ≤ target)
    (hsafe : target ≤ safeTarget) : Fits 64 (fifthMore (n * target)) := by
  have hp : 0 ≤ n * target := by positivity
  have hbound : n * target ≤ 999999999 * 7686143371 := by
    unfold nMax at hmax
    unfold safeTarget at hsafe
    exact mul_le_mul (by omega) hsafe hT (by norm_num)
  rw [fits64_iff (hp.trans (le_fifthMore hp))]
  unfold fifthMore
  omega

theorem fifthMore_div_fits {p d : ℤ} (hp : 0 ≤ p) (hd : 0 < d) (h : Fits 64 (fifthMore p)) :
    Fits 64 (fifthMore (p / d)) := by
  have hq : 0 ≤ p / d := Int.ediv_nonneg hp hd.le
  exact h.mono (hq.trans (le_fifthMore hq)) (fifthMore_mono (Int.ediv_le_self d hp))

theorem nextCount_isSome_of_safe {target n : ℤ} {m : Measurement} (hT : 0 ≤ target)
    (hsafe : target ≤ safeTarget) (hn : 1 ≤ n) (hc : Continues target n m) :
    (nextCount target n m).isSome := by
  have hp : 0 ≤ n * target := by positivity
  have hfits := fifthMore_fits_of_safe hn hc.2.2 hT hsafe
  have hproduct : Fits 64 (n * target) := hfits.mono hp (le_fifthMore hp)
  have hnext := (nextCount_eq_some_iff (m := m) hn hc.2.2.le hT).mpr
    ⟨fun hns => ⟨hproduct, fifthMore_div_fits hp hns hfits⟩,
      fun hwall => ⟨hproduct, fifthMore_div_fits hp (m.ns_nonneg.trans_lt hwall) hfits⟩, rfl⟩
  rw [hnext]
  rfl

theorem pickN_isSome_of_safe {target : ℤ} (hT : 0 ≤ target) (hsafe : target ≤ safeTarget)
    (measure : ℕ → ℤ → Measurement) : (pickN target measure).isSome :=
  pickRounds_isSome hT (fun _ _ hn hc => nextCount_isSome_of_safe hT hsafe hn hc) le_rfl

/-! ## Six measurements that overflow every larger target -/

def both (ns : ℕ) : Measurement := ⟨ns, ns, Int.natCast_nonneg ns, le_rfl⟩

/-- Four times nothing, then what makes the estimate one below the ceiling, then 1 ns. -/
def climb (target : ℤ) (round : ℕ) : Measurement :=
  if round < 4 then both 0
  else if round = 4 then both (100000000 * target / 833333333).toNat
  else both 1

theorem estimate_both (target n : ℤ) (ns : ℕ) :
    estimate target n (both ns) = timedEstimate target n ns := by
  simp [estimate, both]

theorem estimate_both_zero (target n : ℤ) : estimate target n (both 0) = n * 100 := by
  simp [estimate_both, timedEstimate]

theorem continues_both {target n : ℤ} {ns : ℕ} (hns : (ns : ℤ) < target) (hmax : n < nMax) :
    Continues target n (both ns) := ⟨hns, hns, hmax⟩

theorem estimate_fifth {target : ℤ} (hT : safeTarget < target) :
    estimate target 100000000 (both (100000000 * target / 833333333).toNat) = 999999999 ∧
    ((100000000 * target / 833333333).toNat : ℤ) < target := by
  have hT' : (7686143371 : ℤ) < target := hT
  obtain ⟨w, hw⟩ : ∃ w, w = 100000000 * target / 833333333 := ⟨_, rfl⟩
  have hpos : 833333333 < w := by omega
  have hcast : (w.toNat : ℤ) = w := Int.toNat_of_nonneg (by omega)
  have hq : 100000000 * target / w = 833333333 := by
    apply le_antisymm
    · exact Int.lt_add_one_iff.mp (Int.ediv_lt_of_lt_mul (by omega) (by omega))
    · exact (Int.le_ediv_iff_mul_le (by omega)).mpr (by omega)
  rw [← hw, hcast, estimate_both, hcast, timedEstimate, if_neg (by omega), hq]
  refine ⟨by norm_num [fifthMore], by omega⟩

theorem nextCount_last {target : ℤ} (hT : safeTarget < target) :
    nextCount target 999999999 (both 1) = none := by
  cases h : nextCount target 999999999 (both 1) with
  | none => rfl
  | some next =>
    have hT' : (7686143371 : ℤ) < target := hT
    have hfits := (((nextCount_eq_some_iff (by norm_num) (by norm_num [nMax])
      (by omega)).mp h).1 (by norm_num [both])).2
    have hone : ((both 1).ns : ℤ) = 1 := rfl
    rw [hone, Int.ediv_one, fits64_iff (by unfold fifthMore; omega)] at hfits
    unfold fifthMore at hfits
    omega

theorem climb_untimed {target n : ℤ} {left round : ℕ} (hT : safeTarget < target) (hround : round < 4)
    (hn : 1 ≤ n) (hmax : n * 100 ≤ nMax)
    (h : pickRounds target (fun round _ => climb target round) left (round + 1) (n * 100) = none) :
    pickRounds target (fun round _ => climb target round) (left + 1) round n = none := by
  have hclimb : climb target round = both 0 := if_pos hround
  unfold safeTarget at hT
  refine pickRounds_none hn (by omega) ?_ ?_ ?_ <;> simp only [hclimb, estimate_both_zero]
  · exact continues_both (by omega) (by omega)
  · exact hmax
  · exact h

theorem pickN_climb {target : ℤ} (hT : safeTarget < target) :
    pickN target (fun round _ => climb target round) = none := by
  have hT' : (7686143371 : ℤ) < target := hT
  obtain ⟨hfifth, hbelow⟩ := estimate_fifth hT
  have hmax : nMax = 1000000000 := rfl
  unfold pickN maxRounds
  -- 1, 100, 10^4, 10^6 and 10^8 iterations
  apply climb_untimed hT (by norm_num) (by norm_num) (by norm_num [nMax])
  apply climb_untimed hT (by norm_num) (by norm_num) (by norm_num [nMax])
  apply climb_untimed hT (by norm_num) (by norm_num) (by norm_num [nMax])
  apply climb_untimed hT (by norm_num) (by norm_num) (by norm_num [nMax])
  apply pickRounds_none (by norm_num) (by omega)
  · exact continues_both hbelow (by norm_num [nMax])
  · exact hfifth.trans_le (by norm_num [nMax])
  · change pickRounds target (fun round _ => climb target round) 25 5
      (estimate target 100000000 (both (100000000 * target / 833333333).toNat)) = none
    have hlast : Continues target 999999999 (both 1) :=
      continues_both (by push_cast; omega) (by norm_num [nMax])
    have hclimb : climb target 5 = both 1 := rfl
    rw [hfifth, pickRounds_go (hclimb ▸ hlast), hclimb, nextCount_last hT]
    rfl

/-- The search never overflows, whatever it measures, exactly for the safe targets. -/
theorem pickN_no_overflow_iff {target : ℤ} (hlo : 1000000 ≤ target) (hhi : target < 2 ^ 63) :
    (∀ measure : ℕ → ℤ → Measurement, (∀ round n, (measure round n).wall < 2 ^ 63) →
      pickN target measure ≠ none) ↔ target ≤ safeTarget := by
  constructor
  · intro h
    by_contra hsafe
    have hT : safeTarget < target := not_le.mp hsafe
    refine h (fun round _ => climb target round) ?_ (pickN_climb hT)
    intro round n
    have hbelow := (estimate_fifth hT).2
    change (climb target round).wall < 2 ^ 63
    unfold climb
    split
    · norm_num [both]
    · split
      · exact hbelow.trans hhi
      · norm_num [both]
  · intro hsafe measure _
    exact Option.isSome_iff_ne_none.mp (pickN_isSome_of_safe (by omega) hsafe measure)

theorem pickN_no_overflow_second :
    (∀ measure : ℕ → ℤ → Measurement, (∀ round n, (measure round n).wall < 2 ^ 63) →
      pickN 1000000000 measure ≠ none) ↔ (1000000000 : ℤ) ≤ safeTarget :=
  pickN_no_overflow_iff (by norm_num) (by norm_num)

/-- One nanosecond an iteration and a target of a hundred seconds: 10^8 iterations are
too few, and scaling them forms 10^19. -/
theorem pickN_overflows :
    pickN 100000000000 (fun _ n => (AffineCost.measure ⟨0, 1, 0, 1, le_rfl, le_rfl⟩ n)) = none ∧
    ¬ Fits 64 (100000000 * 100000000000) := by
  refine ⟨rfl, by decide⟩

end BurrowBench.Harness
