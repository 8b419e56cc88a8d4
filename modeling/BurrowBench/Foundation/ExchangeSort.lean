import Mathlib.Data.List.Nodup
import Mathlib.Data.List.Range
import Mathlib.Logic.Equiv.Basic
import Mathlib.Order.Lattice

/-! # Insertion sort by exchanges

An array is a function of its index and is sorted in place on the segment 1..n. The
element at j is exchanged with the one before it for as long as it is smaller. The
invariant is that all pairs are in order but those whose later member is the one that is
still on its way down; what the exchanges do is permute the indices of the segment.
-/
namespace BurrowBench.ExchangeSort
variable {α : Type*}

def exchange (a : ℕ → α) (i j : ℕ) : ℕ → α := Function.update (Function.update a j (a i)) i (a j)

theorem exchange_eq_comp (a : ℕ → α) (i j : ℕ) : exchange a i j = a ∘ Equiv.swap i j :=
  (Equiv.comp_swap_eq_update i j a).symm

/-! ## What exchanges do to a segment -/

/-- `b` is `a` with the indices of the segment permuted. -/
def PermutesTo (a b : ℕ → α) (n : ℕ) : Prop :=
  ∃ σ : Equiv.Perm ℕ, (∀ k, σ k ≠ k → 1 ≤ k ∧ k ≤ n) ∧ b = a ∘ σ

theorem PermutesTo.refl (a : ℕ → α) (n : ℕ) : PermutesTo a a n :=
  ⟨Equiv.refl ℕ, fun _ hk => absurd rfl hk, rfl⟩

theorem PermutesTo.mono {a b : ℕ → α} {m n : ℕ} (h : PermutesTo a b m) (hmn : m ≤ n) :
    PermutesTo a b n := by
  obtain ⟨σ, hσ, hb⟩ := h
  exact ⟨σ, fun k hk => ⟨(hσ k hk).1, (hσ k hk).2.trans hmn⟩, hb⟩

theorem PermutesTo.trans {a b c : ℕ → α} {n : ℕ} (hab : PermutesTo a b n) (hbc : PermutesTo b c n) :
    PermutesTo a c n := by
  obtain ⟨σ, hσ, rfl⟩ := hab
  obtain ⟨τ, hτ, rfl⟩ := hbc
  refine ⟨τ.trans σ, ?_, rfl⟩
  intro k hk
  by_cases hτk : τ k = k
  · exact hσ k (by simpa [hτk] using hk)
  · exact hτ k hτk

theorem exchange_permutes (a : ℕ → α) {j n : ℕ} (hj : 1 ≤ j) (hn : j + 1 ≤ n) :
    PermutesTo a (exchange a (j + 1) j) n := by
  refine ⟨Equiv.swap (j + 1) j, ?_, exchange_eq_comp a _ _⟩
  intro k hk
  have hmem : k = j + 1 ∨ k = j := by
    by_contra hne
    rw [not_or] at hne
    exact hk (Equiv.swap_apply_of_ne_of_ne hne.1 hne.2)
  omega

theorem mem_segment_iff {σ : Equiv.Perm ℕ} {n : ℕ} (hσ : ∀ k, σ k ≠ k → 1 ≤ k ∧ k ≤ n) (k : ℕ) :
    (1 ≤ σ k ∧ σ k ≤ n) ↔ (1 ≤ k ∧ k ≤ n) := by
  by_cases hk : σ k = k
  · rw [hk]
  · have himage : σ (σ k) ≠ σ k := fun h => hk (σ.injective h)
    exact iff_of_true (hσ _ himage) (hσ k hk)

def segment (a : ℕ → α) (n : ℕ) : List α := (List.range' 1 n).map a

theorem PermutesTo.perm {a b : ℕ → α} {n : ℕ} (h : PermutesTo a b n) :
    (segment b n).Perm (segment a n) := by
  obtain ⟨σ, hσ, rfl⟩ := h
  have hindex : ((List.range' 1 n).map σ).Perm (List.range' 1 n) := by
    refine (List.perm_ext_iff_of_nodup ((List.nodup_range' (s := 1) (n := n)).map σ.injective) List.nodup_range').mpr ?_
    intro k
    rw [List.mem_map, List.mem_range'_1]
    constructor
    · rintro ⟨i, hi, rfl⟩
      rw [List.mem_range'_1] at hi
      have himage := (mem_segment_iff hσ i).mpr
      omega
    · intro hk
      have hmem := mem_segment_iff hσ (σ.symm k)
      rw [σ.apply_symm_apply] at hmem
      exact ⟨σ.symm k, List.mem_range'_1.mpr (by omega), σ.apply_symm_apply k⟩
  unfold segment
  rw [← List.map_map]
  exact hindex.map a

theorem length_segment (a : ℕ → α) (n : ℕ) : (segment a n).length = n := by simp [segment]

theorem segment_update (a : ℕ → α) (n : ℕ) (x : α) :
    segment (Function.update a (n + 1) x) (n + 1) = segment a n ++ [x] := by
  have hbelow : ∀ k ∈ List.range' 1 n, Function.update a (n + 1) x k = a k := by
    intro k hk
    rw [List.mem_range'_1] at hk
    exact Function.update_of_ne (by omega) _ _
  rw [segment, List.range'_1_concat, List.map_append, List.map_congr_left hbelow, Nat.add_comm 1 n]
  simp [segment]

theorem getD_segment (a : ℕ → α) {n k : ℕ} (h : k < n) (d : α) : (segment a n).getD k d = a (k + 1) := by
  simp [segment, List.getD, h, Nat.add_comm 1 k]

section Sorting
variable [LinearOrder α]

/-- `for (; j > 1 && a[j] < a[j-1]; j--)` exchange `a[j]` and `a[j-1]`. -/
def sink (a : ℕ → α) : ℕ → ℕ → α
  | 0 => a
  | 1 => a
  | j + 2 => if a (j + 2) < a (j + 1) then sink (exchange a (j + 2) (j + 1)) (j + 1) else a

/-- `for (i = 2; i <= n; i++)` sink the element at `i`. -/
def insertionSort (a : ℕ → α) : ℕ → ℕ → α
  | 0 => a
  | 1 => a
  | n + 2 => sink (insertionSort a (n + 1)) (n + 2)

/-! ## Order and permutation -/

def SortedTo (a : ℕ → α) (n : ℕ) : Prop := ∀ p q, 1 ≤ p → p < q → q ≤ n → a p ≤ a q

/-- In order but for the pairs that end at `j`. -/
def SortedExcept (a : ℕ → α) (n j : ℕ) : Prop :=
  ∀ p q, 1 ≤ p → p < q → q ≤ n → q ≠ j → a p ≤ a q

theorem SortedTo.sortedExcept {a : ℕ → α} {n : ℕ} (h : SortedTo a n) :
    SortedExcept a (n + 1) (n + 1) := fun p q hp hpq hq hne => h p q hp hpq (by omega)

/-- An element that is not below its neighbour has arrived. -/
theorem SortedExcept.sortedTo {a : ℕ → α} {n j : ℕ} (h : SortedExcept a n j)
    (hj : 1 < j → a (j - 1) ≤ a j) : SortedTo a n := by
  intro p q hp hpq hq
  by_cases hqj : q = j
  · subst hqj
    have hlast : a (q - 1) ≤ a q := hj (by omega)
    by_cases hp' : p = q - 1
    · rwa [hp']
    · exact (h p (q - 1) hp (by omega) (by omega) (by omega)).trans hlast
  · exact h p q hp hpq hq hqj

theorem SortedExcept.exchange {a : ℕ → α} {n j : ℕ} (h : SortedExcept a n (j + 1)) (hj : 1 ≤ j)
    (hlt : a (j + 1) < a j) : SortedExcept (exchange a (j + 1) j) n j := by
  have hat : ExchangeSort.exchange a (j + 1) j (j + 1) = a j := by simp [ExchangeSort.exchange]
  have hbelow : ExchangeSort.exchange a (j + 1) j j = a (j + 1) := by simp [ExchangeSort.exchange]
  have helse : ∀ k, k ≠ j → k ≠ j + 1 → ExchangeSort.exchange a (j + 1) j k = a k := by
    intro k hk hk'
    simp [ExchangeSort.exchange, hk, hk']
  intro p q hp hpq hq hqj
  by_cases hq' : q = j + 1
  · subst hq'
    rw [hat]
    by_cases hpj : p = j
    · rw [hpj, hbelow]
      exact hlt.le
    · rw [helse p hpj (by omega)]
      exact h p j hp (by omega) (by omega) (by omega)
  · rw [helse q hqj hq']
    by_cases hpj : p = j
    · rw [hpj, hbelow]
      exact h (j + 1) q (by omega) (by omega) hq hq'
    · by_cases hpj' : p = j + 1
      · rw [hpj', hat]
        exact h j q hj (by omega) hq hq'
      · rw [helse p hpj hpj']
        exact h p q hp hpq hq hq'

theorem sink_sorted {a : ℕ → α} {n : ℕ} (j : ℕ) (h : SortedExcept a n j) : SortedTo (sink a j) n := by
  fun_induction sink a j with
  | case1 a => exact h.sortedTo fun hj => absurd hj (by omega)
  | case2 a => exact h.sortedTo fun hj => absurd hj (by omega)
  | case3 a j hlt ih => exact ih (h.exchange (by omega) hlt)
  | case4 a j hlt => exact h.sortedTo fun _ => not_lt.mp hlt

theorem insertionSort_sorted (a : ℕ → α) (n : ℕ) : SortedTo (insertionSort a n) n := by
  fun_induction insertionSort a n with
  | case1 => exact fun p q hp hpq hq => absurd hq (by omega)
  | case2 => exact fun p q hp hpq hq => absurd hq (by omega)
  | case3 n ih => exact sink_sorted (n + 2) ih.sortedExcept

theorem sink_permutes (a : ℕ → α) (j : ℕ) : PermutesTo a (sink a j) j := by
  fun_induction sink a j with
  | case1 a => exact PermutesTo.refl a _
  | case2 a => exact PermutesTo.refl a _
  | case3 a j hlt ih => exact (exchange_permutes a (Nat.le_add_left 1 j) le_rfl).trans (ih.mono (Nat.le_succ _))
  | case4 a j hlt => exact PermutesTo.refl a _

theorem insertionSort_permutes (a : ℕ → α) (n : ℕ) : PermutesTo a (insertionSort a n) n := by
  fun_induction insertionSort a n with
  | case1 => exact PermutesTo.refl a _
  | case2 => exact PermutesTo.refl a _
  | case3 n ih => exact (ih.mono (Nat.le_succ _)).trans (sink_permutes _ _)

theorem SortedTo.pairwise {a : ℕ → α} {n : ℕ} (h : SortedTo a n) :
    (segment a n).Pairwise (· ≤ ·) := by
  rw [segment, List.pairwise_map]
  apply (List.pairwise_lt_range' (s := 1) (n := n)).imp_of_mem
  intro p q hp hq hpq
  rw [List.mem_range'_1] at hp hq
  exact h _ _ hp.1 hpq (by omega)

end Sorting

end BurrowBench.ExchangeSort
