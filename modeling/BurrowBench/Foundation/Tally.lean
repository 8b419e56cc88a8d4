import Mathlib.Algebra.Ring.Nat
import Mathlib.Tactic.Common

/-! # Tallies

The sum of a measure over a list of components, and how it moves when one component is
replaced and when one is added.
-/
namespace BurrowBench.Tally
variable {α : Type*} (f : α → ℕ)

def tally (l : List α) : ℕ := (l.map f).sum

@[simp] theorem tally_nil : tally f [] = 0 := rfl

@[simp] theorem tally_cons (a : α) (l : List α) : tally f (a :: l) = f a + tally f l := rfl

@[simp] theorem tally_append_singleton (l : List α) (a : α) : tally f (l ++ [a]) = tally f l + f a := by
  simp [tally]

/-- A replaced component takes its own share out and puts the new one's in. -/
theorem tally_set {l : List α} {k : ℕ} {a : α} (h : l[k]? = some a) (b : α) :
    tally f (l.set k b) + f a = tally f l + f b := by
  induction l generalizing k with
  | nil => simp at h
  | cons c l ih =>
    cases k with
    | zero =>
      obtain rfl : c = a := by simpa using h
      simp only [List.set_cons_zero, tally_cons]
      omega
    | succ k =>
      have hrest := ih (k := k) (by simpa using h)
      simp only [List.set_cons_succ, tally_cons]
      omega

theorem tally_eq_mul {l : List α} {m : ℕ} (h : ∀ a ∈ l, f a = m) : tally f l = m * l.length := by
  induction l with
  | nil => simp
  | cons a l ih =>
    rw [tally_cons, ih fun b hb => h b (List.mem_cons_of_mem a hb), h a List.mem_cons_self,
      List.length_cons, Nat.mul_succ, Nat.add_comm]

theorem le_tally {l : List α} {a : α} (h : a ∈ l) : f a ≤ tally f l := by
  induction l with
  | nil => cases h
  | cons b l ih =>
    rw [tally_cons]
    rcases List.mem_cons.mp h with rfl | h
    · exact Nat.le_add_right _ _
    · exact Nat.le_trans (ih h) (Nat.le_add_left _ _)

theorem exists_of_tally_pos {l : List α} (h : 0 < tally f l) : ∃ a ∈ l, 0 < f a := by
  by_contra hnone
  have hzero : ∀ a ∈ l, f a = 0 := fun a ha => Nat.le_zero.mp (Nat.le_of_not_lt fun hpos => hnone ⟨a, ha, hpos⟩)
  rw [tally_eq_mul f hzero, Nat.zero_mul] at h
  exact Nat.lt_irrefl 0 h

theorem tally_le_length {l : List α} (hf : ∀ a, f a ≤ 1) : tally f l ≤ l.length := by
  induction l with
  | nil => exact Nat.le_refl 0
  | cons a l ih =>
    have ha := hf a
    rw [tally_cons, List.length_cons]
    omega

/-- A measure of at most one a component that adds up to the length is one everywhere. -/
theorem eq_one_of_length_le {l : List α} (hf : ∀ a, f a ≤ 1) (h : l.length ≤ tally f l) :
    ∀ a ∈ l, f a = 1 := by
  induction l with
  | nil => simp
  | cons b l ih =>
    have hle := tally_le_length f (l := l) hf
    have hb := hf b
    rw [tally_cons, List.length_cons] at h
    intro a ha
    rcases List.mem_cons.mp ha with rfl | ha
    · omega
    · exact ih (by omega) a ha

end BurrowBench.Tally
