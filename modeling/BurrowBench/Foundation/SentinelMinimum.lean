import Mathlib.Order.BoundedOrder.Lattice
import Mathlib.Data.List.Basic

/-! # A running minimum behind a sentinel

A fold keeps the element with the smaller key, and takes the least key of all for the mark
that nothing has been kept yet. A list whose keys can be the mark confuses it.
-/
namespace BurrowBench.SentinelMinimum
variable {α K : Type*} [LinearOrder K] [OrderBot K] (key : α → K)

def keep (a b : α) : α := if key a = ⊥ ∨ key b < key a then b else a

def best (start : α) (xs : List α) : α := xs.foldl (keep key) start

def LeastIn (xs : List α) (a : α) : Prop := a ∈ xs ∧ ∀ b ∈ xs, key a ≤ key b

variable {key} {a b start : α} {xs : List α}

theorem keep_of_bot (h : key b = ⊥) : keep key a b = b := by
  apply if_pos
  by_cases ha : key a = ⊥
  · exact Or.inl ha
  · exact Or.inr (h ▸ bot_lt_iff_ne_bot.mpr ha)

theorem keep_ne_bot (h : key b ≠ ⊥) : key (keep key a b) ≠ ⊥ := by
  unfold keep
  split
  · exact h
  · rename_i hkept
    exact fun ha => hkept (Or.inl ha)

theorem keep_le (h : key a ≠ ⊥) : key (keep key a b) ≤ key a ∧ key (keep key a b) ≤ key b := by
  unfold keep
  split
  · rename_i htaken
    exact ⟨(htaken.resolve_left h).le, le_rfl⟩
  · rename_i hkept
    exact ⟨le_rfl, not_lt.mp fun hlt => hkept (Or.inr hlt)⟩

theorem keep_eq (a b : α) : keep key a b = a ∨ keep key a b = b := by
  unfold keep
  split
  · exact Or.inr rfl
  · exact Or.inl rfl

/-- Past the first element, a fold that never meets the mark keeps a least element. -/
theorem best_leastIn (ha : key a ≠ ⊥) (h : ∀ x ∈ xs, key x ≠ ⊥) : LeastIn key (a :: xs) (best key a xs) := by
  induction xs generalizing a with
  | nil => exact ⟨List.mem_cons_self, by simp [best]⟩
  | cons b xs ih =>
    have hb := h b List.mem_cons_self
    obtain ⟨hmem, hle⟩ := ih (keep_ne_bot (a := a) hb) fun x hx => h x (List.mem_cons_of_mem b hx)
    obtain ⟨hkeepa, hkeepb⟩ := keep_le (b := b) ha
    have hkept := hle _ List.mem_cons_self
    refine ⟨?_, ?_⟩
    · rcases List.mem_cons.mp hmem with heq | hmem
      · change best key (keep key a b) xs ∈ _
        rw [heq]
        have hkeep : keep key a b = a ∨ keep key a b = b := keep_eq a b
        rcases hkeep with h | h <;> simp [h]
      · exact List.mem_cons_of_mem a (List.mem_cons_of_mem b hmem)
    · intro x hx
      rcases List.mem_cons.mp hx with rfl | hx
      · exact hkept.trans hkeepa
      · rcases List.mem_cons.mp hx with rfl | hx
        · exact hkept.trans hkeepb
        · exact hle x (List.mem_cons_of_mem _ hx)

theorem best_concat (start : α) (xs : List α) (b : α) :
    best key start (xs ++ [b]) = keep key (best key start xs) b := by
  simp [best]

/-- From the mark, a fold keeps a least element exactly when no key is the mark or the
last one is. -/
theorem best_leastIn_iff (hstart : key start = ⊥) (hne : xs ≠ []) :
    LeastIn key xs (best key start xs) ↔ (∀ x ∈ xs, key x ≠ ⊥) ∨ key (xs.getLast hne) = ⊥ := by
  constructor
  · intro hleast
    by_contra hnot
    rw [not_or] at hnot
    obtain ⟨hmarked, hlast⟩ := hnot
    apply hmarked
    intro x hx hbot
    have hzero : key (best key start xs) = ⊥ := le_bot_iff.mp (hbot ▸ hleast.2 x hx)
    obtain ⟨ys, b, rfl⟩ : ∃ ys b, xs = ys ++ [b] := ⟨_, _, (List.dropLast_append_getLast hne).symm⟩
    rw [List.getLast_append_singleton] at hlast
    rw [best_concat] at hzero
    exact keep_ne_bot hlast hzero
  · rintro (hfree | hlast)
    · cases xs with
      | nil => exact absurd rfl hne
      | cons a xs =>
        have hfirst : keep key start a = a := if_pos (Or.inl hstart)
        have h := best_leastIn (hfree a List.mem_cons_self) fun x hx => hfree x (List.mem_cons_of_mem a hx)
        change LeastIn key (a :: xs) (best key (keep key start a) xs)
        rwa [hfirst]
    · obtain ⟨ys, b, rfl⟩ : ∃ ys b, xs = ys ++ [b] := ⟨_, _, (List.dropLast_append_getLast hne).symm⟩
      rw [List.getLast_append_singleton] at hlast
      rw [best_concat, keep_of_bot hlast]
      exact ⟨List.mem_append_right ys List.mem_cons_self, fun x _ => hlast ▸ bot_le⟩

end BurrowBench.SentinelMinimum
