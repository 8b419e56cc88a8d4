import Mathlib.Data.BitVec
import Mathlib.Data.Set.Finite.Basic
import Mathlib.Dynamics.PeriodicPts.Lemmas

/-! # Mixing steps on words

Steps of random number generators that can be undone: a word xored with its own shift, and
a product with a constant that has an inverse. What maps a finite set into itself without
a collision goes round in it.
-/
namespace BurrowBench.WordMixing
open Function

variable {w : ℕ}

def xorShiftLeft (k : ℕ) (x : BitVec w) : BitVec w := x ^^^ (x <<< k)

def xorShiftRight (k : ℕ) (x : BitVec w) : BitVec w := x ^^^ (x >>> k)

/-- The low k bits are kept, and each bit above is known once the one k below it is. -/
theorem xorShiftLeft_injective {k : ℕ} (hk : 0 < k) : Injective (xorShiftLeft (w := w) k) := by
  intro x y h
  have hbits : ∀ i, x.getLsbD i = y.getLsbD i := by
    intro i
    induction i using Nat.strongRecOn with
    | ind i ih =>
      have hshift : (x <<< k).getLsbD i = (y <<< k).getLsbD i := by
        by_cases hlow : i < k
        · simp [hlow]
        · rw [BitVec.getLsbD_shiftLeft, BitVec.getLsbD_shiftLeft, ih (i - k) (by omega)]
      have hbit := congrArg (fun z : BitVec w => z.getLsbD i) h
      simp only [xorShiftLeft, BitVec.getLsbD_xor, hshift] at hbit
      exact Bool.xor_left_inj.mp hbit
  exact BitVec.eq_of_getLsbD_eq fun i _ => hbits i

/-- The high k bits are kept, and each bit below is known once the one k above it is. -/
theorem xorShiftRight_injective {k : ℕ} (hk : 0 < k) : Injective (xorShiftRight (w := w) k) := by
  intro x y h
  have hbits : ∀ d i, w ≤ i + d → x.getLsbD i = y.getLsbD i := by
    intro d
    induction d using Nat.strongRecOn with
    | ind d ih =>
      intro i hi
      by_cases hd : d = 0
      · rw [BitVec.getLsbD_of_ge x i (by omega), BitVec.getLsbD_of_ge y i (by omega)]
      · have habove := ih (d - k) (by omega) (k + i) (by omega)
        have hbit := congrArg (fun z : BitVec w => z.getLsbD i) h
        simp only [xorShiftRight, BitVec.getLsbD_xor, BitVec.getLsbD_ushiftRight, habove] at hbit
        exact Bool.xor_left_inj.mp hbit
  exact BitVec.eq_of_getLsbD_eq fun i _ => hbits w i (by omega)

theorem mul_injective {c d : BitVec w} (h : c * d = 1) : Injective fun x : BitVec w => x * c := by
  intro x y hxy
  have hinverse := congrArg (· * d) hxy
  simpa [mul_assoc, h] using hinverse

theorem bijective_of_injective {f : BitVec w → BitVec w} (h : Injective f) : Bijective f := by
  have : Finite (BitVec w) := Finite.of_equiv _ BitVec.equivFin.symm.toEquiv
  exact Finite.injective_iff_bijective.mp h

theorem finite_words (s : Set (BitVec w)) : s.Finite := by
  have : Finite (BitVec w) := Finite.of_equiv _ BitVec.equivFin.symm.toEquiv
  exact Set.toFinite s

/-! ## Going round -/

variable {α : Type*} {f : α → α} {s : Set α} {x : α}

/-- From a word that nothing else maps to, and that maps to itself, no other word gets there. -/
theorem iterate_ne {z : α} (hf : Injective f) (hz : f z = z) (hx : x ≠ z) (k : ℕ) : f^[k] x ≠ z := by
  intro h
  have hfixed : f^[k] z = z := iterate_fixed hz k
  exact hx (hf.iterate k (h.trans hfixed.symm))

theorem exists_period (hs : s.Finite) (hmaps : Set.MapsTo f s s) (hinj : Set.InjOn f s) (hx : x ∈ s) :
    ∃ p, 0 < p ∧ ∀ i, f^[i + p] x = f^[i] x := by
  have : Finite s := hs
  have hrestrict : Injective (hmaps.restrict f s s) := hmaps.restrict_inj.mpr hinj
  obtain ⟨p, hp, hperiod⟩ := mem_periodicPts.mp (hrestrict.mem_periodicPts ⟨x, hx⟩)
  have hreturn : f^[p] x = x := by
    have hval := congrArg Subtype.val hperiod
    rwa [hmaps.iterate_restrict] at hval
  exact ⟨p, hp, fun i => by rw [iterate_add_apply, hreturn]⟩

end BurrowBench.WordMixing
