import Mathlib.Data.Multiset.Sort
import Mathlib.Algebra.Order.Field.Basic
import Mathlib.Order.Bounds.Basic
import Mathlib.Tactic.Linarith

/-! # Order statistics of a multiset

The middle element and the two extremes depend on a multiset of values and not on the
order they came in. A list sorted by any means has the median in its middle; a scan that
keeps the best value so far ends on an extreme.
-/
namespace BurrowBench.OrderStatistics

theorem getD_mem {α : Type*} {v : List α} {i : ℕ} (d : α) (h : i < v.length) : v.getD i d ∈ v := by
  simp [List.getD, h]

section Median
variable {K : Type*} [Field K] [LinearOrder K]

/-- The element in the middle, or the mean of the two that are nearest to it. -/
def middle (v : List K) : K :=
  if v.length % 2 = 1 then v.getD (v.length / 2) 0
  else (v.getD (v.length / 2 - 1) 0 + v.getD (v.length / 2) 0) / 2

def median (s : Multiset K) : K := middle s.sort

theorem median_eq_middle {v : List K} {s : Multiset K} (hperm : (v : Multiset K) = s)
    (hsorted : v.Pairwise (· ≤ ·)) : median s = middle v := by
  have hv : s.sort = v := by
    apply List.Perm.eq_of_pairwise' (r := (· ≤ ·)) (s.pairwise_sort _) hsorted
    rw [← Multiset.coe_eq_coe, Multiset.sort_eq, hperm]
  rw [median, hv]

variable [IsStrictOrderedRing K]

theorem le_middle {v : List K} (hne : v ≠ []) {lo : K} (h : ∀ x ∈ v, lo ≤ x) : lo ≤ middle v := by
  have hlen : 0 < v.length := List.length_pos_iff.mpr hne
  have hi : lo ≤ v.getD (v.length / 2) 0 := h _ (getD_mem 0 (by omega))
  have hj : lo ≤ v.getD (v.length / 2 - 1) 0 := h _ (getD_mem 0 (by omega))
  unfold middle
  split
  · exact hi
  · linarith

theorem middle_le {v : List K} (hne : v ≠ []) {hi : K} (h : ∀ x ∈ v, x ≤ hi) : middle v ≤ hi := by
  have hlen : 0 < v.length := List.length_pos_iff.mpr hne
  have hi' : v.getD (v.length / 2) 0 ≤ hi := h _ (getD_mem 0 (by omega))
  have hj : v.getD (v.length / 2 - 1) 0 ≤ hi := h _ (getD_mem 0 (by omega))
  unfold middle
  split
  · exact hi'
  · linarith

theorem median_mem_Icc {s : Multiset K} (hne : s ≠ 0) {lo hi : K} (h : ∀ x ∈ s, lo ≤ x ∧ x ≤ hi) :
    lo ≤ median s ∧ median s ≤ hi := by
  have hsort : s.sort ≠ [] := by
    intro hnil
    apply hne
    rw [← s.sort_eq (· ≤ ·), hnil]
    rfl
  exact ⟨le_middle hsort fun x hx => (h x ((Multiset.mem_sort _).mp hx)).1,
    middle_le hsort fun x hx => (h x ((Multiset.mem_sort _).mp hx)).2⟩

end Median

section Scan
variable {α : Type*} (r : α → α → Prop) [DecidableRel r]

/-- A scan that replaces what it holds by whatever is better. -/
def scan (first : α) (rest : List α) : α := rest.foldl (fun b x => if r x b then x else b) first

def best : List α → Option α
  | [] => none
  | x :: xs => some (scan r x xs)

theorem best_concat (xs : List α) (x : α) :
    best r (xs ++ [x]) = if (best r xs).all (r x ·) then some x else best r xs := by
  cases xs with
  | nil => rfl
  | cons y ys =>
    simp only [List.cons_append, best, scan, List.foldl_append, List.foldl_cons, List.foldl_nil,
      Option.all_some, decide_eq_true_eq]
    split <;> rfl

end Scan

section Extremes
variable {α : Type*} [LinearOrder α]

def least : α → List α → α := scan (· < ·)
def greatest : α → List α → α := scan (· > ·)

theorem least_isLeast (first : α) (rest : List α) :
    IsLeast {x | x ∈ first :: rest} (least first rest) := by
  induction rest generalizing first with
  | nil => simp [least, scan, IsLeast, lowerBounds]
  | cons x xs ih =>
    obtain ⟨hmem, hle⟩ := ih (if x < first then x else first)
    have hfirst : least first (x :: xs) = least (if x < first then x else first) xs := rfl
    have hmin : (if x < first then x else first) = min x first := by
      rcases lt_or_ge x first with h | h
      · rw [if_pos h, min_eq_left h.le]
      · rw [if_neg h.not_gt, min_eq_right h]
    rw [hmin] at hmem hle hfirst
    rw [hfirst]
    constructor
    · rcases List.mem_cons.mp hmem with heq | hxs
      · have hchoice : least (min x first) xs = x ∨ least (min x first) xs = first := by
          rw [heq]
          exact min_choice x first
        rcases hchoice with h | h <;> simp [h]
      · exact List.mem_cons_of_mem _ (List.mem_cons_of_mem _ hxs)
    · intro y hy
      have hhead : least (min x first) xs ≤ min x first := hle List.mem_cons_self
      rcases List.mem_cons.mp hy with rfl | hy
      · exact hhead.trans (min_le_right _ _)
      · rcases List.mem_cons.mp hy with rfl | hy
        · exact hhead.trans (min_le_left _ _)
        · exact hle (List.mem_cons_of_mem _ hy)

theorem greatest_isGreatest (first : α) (rest : List α) :
    IsGreatest {x | x ∈ first :: rest} (greatest first rest) :=
  least_isLeast (α := αᵒᵈ) first rest

end Extremes

end BurrowBench.OrderStatistics
