import Mathlib.Algebra.Order.Ring.Int
import Mathlib.Data.List.Basic
import Mathlib.Tactic.NormNum

/-! # Signed machine arithmetic that notices overflow

Signed overflow is undefined in C, so an operation here has no result when the exact
one does not fit the width, and none when it divides by zero. Division truncates. A word that
wraps has a result for every operation; where the checked operation has one as well, both are the
same number.
-/
namespace BurrowBench.CheckedArithmetic

def Fits (width : ℕ) (x : ℤ) : Prop := -(2 : ℤ) ^ (width - 1) ≤ x ∧ x < 2 ^ (width - 1)

instance (width : ℕ) (x : ℤ) : Decidable (Fits width x) :=
  inferInstanceAs (Decidable (_ ∧ _))

def checked (width : ℕ) (x : ℤ) : Option ℤ := if Fits width x then some x else none
def add (width : ℕ) (x y : ℤ) : Option ℤ := checked width (x + y)
def mul (width : ℕ) (x y : ℤ) : Option ℤ := checked width (x * y)
def div (width : ℕ) (x y : ℤ) : Option ℤ :=
  if y = 0 then none else checked width (x.tdiv y)

/-- The remainder that goes with `div`, and undefined where that is. -/
def rem (width : ℕ) (x y : ℤ) : Option ℤ := (div width x y).map fun _ => x.tmod y

theorem Fits.mono {width : ℕ} {x y : ℤ} (hy : Fits width y) (hx : 0 ≤ x) (h : x ≤ y) :
    Fits width x := by
  refine ⟨?_, h.trans_lt hy.2⟩
  have hp : (0 : ℤ) ≤ 2 ^ (width - 1) := by positivity
  omega

theorem checked_eq_some {width : ℕ} {x y : ℤ} :
    checked width x = some y ↔ Fits width x ∧ y = x := by
  unfold checked
  split
  · simp [*, eq_comm]
  · simp [*]

theorem checked_of_fits {width : ℕ} {x : ℤ} (h : Fits width x) : checked width x = some x :=
  checked_eq_some.mpr ⟨h, rfl⟩

theorem div_of_quotient_fits {width : ℕ} {x y : ℤ} (hx0 : 0 ≤ x) (hy : 0 < y) (hq : Fits width (x / y)) :
    div width x y = some (x / y) := by
  rw [div, if_neg hy.ne', Int.tdiv_eq_ediv_of_nonneg hx0, checked_of_fits hq]

theorem div_of_fits {width : ℕ} {x y : ℤ} (hx : Fits width x) (hx0 : 0 ≤ x) (hy : 0 < y) :
    div width x y = some (x / y) :=
  div_of_quotient_fits hx0 hy (hx.mono (Int.ediv_nonneg hx0 hy.le) (Int.ediv_le_self y hx0))

theorem rem_of_quotient_fits {width : ℕ} {x y : ℤ} (hx0 : 0 ≤ x) (hy : 0 < y) (hq : Fits width (x / y)) :
    rem width x y = some (x % y) := by
  rw [rem, div_of_quotient_fits hx0 hy hq, Option.map_some, Int.tmod_eq_emod_of_nonneg hx0]

theorem fits64_iff {x : ℤ} (hx : 0 ≤ x) : Fits 64 x ↔ x ≤ 9223372036854775807 := by
  unfold Fits
  norm_num
  omega

/-! ## Beside words that wrap -/

section
variable {width : ℕ} {x y z : ℤ}

/-- A shift to the left has no result for a negative number, for a count that reaches the width,
and where the power of two takes the number out of range. -/
def shl (width : ℕ) (x : ℤ) (count : ℕ) : Option ℤ :=
  if 0 ≤ x ∧ count < width then checked width (x * 2 ^ count) else none

theorem checked_isSome {x : ℤ} : (checked width x).isSome ↔ Fits width x := by
  unfold checked
  split <;> simp [*]

theorem toInt_ofInt (hwidth : 0 < width) (hx : Fits width x) : (BitVec.ofInt width x).toInt = x := by
  refine BitVec.toInt_ofInt_eq_self hwidth ?_ ?_
  · exact_mod_cast hx.1
  · exact_mod_cast hx.2

theorem ofInt_of_add (h : add width x y = some z) :
    BitVec.ofInt width z = BitVec.ofInt width x + BitVec.ofInt width y := by
  rw [(checked_eq_some.mp h).2, BitVec.ofInt_add]

theorem ofInt_of_mul (h : mul width x y = some z) :
    BitVec.ofInt width z = BitVec.ofInt width x * BitVec.ofInt width y := by
  rw [(checked_eq_some.mp h).2, BitVec.ofInt_mul]

theorem ofInt_of_div (hwidth : 0 < width) (hx : Fits width x) (hy : Fits width y)
    (h : div width x y = some z) :
    BitVec.ofInt width z = (BitVec.ofInt width x).sdiv (BitVec.ofInt width y) := by
  unfold div at h
  split at h
  · cases h
  · obtain ⟨hfits, rfl⟩ := checked_eq_some.mp h
    apply BitVec.eq_of_toInt_eq
    rw [BitVec.toInt_sdiv, toInt_ofInt hwidth hx, toInt_ofInt hwidth hy, BitVec.toInt_ofInt]

theorem ofInt_of_rem (hwidth : 0 < width) (hx : Fits width x) (hy : Fits width y)
    (h : rem width x y = some z) :
    BitVec.ofInt width z = (BitVec.ofInt width x).srem (BitVec.ofInt width y) := by
  obtain ⟨q, -, rfl⟩ := Option.map_eq_some_iff.mp h
  apply BitVec.eq_of_toInt_eq
  have hsrem := BitVec.toInt_srem (BitVec.ofInt width x) (BitVec.ofInt width y)
  rw [toInt_ofInt hwidth hx, toInt_ofInt hwidth hy] at hsrem
  rw [← hsrem, BitVec.ofInt_toInt]

theorem ofInt_two_pow (width count : ℕ) : BitVec.ofInt width (2 ^ count) = BitVec.twoPow width count := by
  have hcast : (2 : ℤ) ^ count = ((2 ^ count : ℕ) : ℤ) := by norm_num
  apply BitVec.eq_of_toNat_eq
  rw [hcast, BitVec.ofInt_natCast, BitVec.toNat_ofNat, BitVec.toNat_twoPow]

end

end BurrowBench.CheckedArithmetic
