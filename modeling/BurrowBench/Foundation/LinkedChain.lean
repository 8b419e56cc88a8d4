import Mathlib.Data.List.Nodup
import Mathlib.Logic.Function.Basic

/-! # Chains of cells

A list kept in the cells themselves: each holds the cell after it, the last one none. A chain
that comes to its end goes through no cell twice, and what happens to other cells leaves it
alone.
-/
namespace BurrowBench.LinkedChain
open Function

variable {α : Type*}

/-- From head on, next goes through the cells of the list and ends. -/
def Linked (next : α → Option α) : Option α → List α → Prop
  | head, [] => head = none
  | head, a :: l => head = some a ∧ Linked next (next a) l

variable {next : α → Option α} {head : Option α} {a : α} {l l' : List α}

theorem linked_none_iff : Linked next none l ↔ l = [] := by
  cases l with
  | nil => simp [Linked]
  | cons b l => simp [Linked]

theorem linked_some_iff : Linked next (some a) l ↔ ∃ rest, l = a :: rest ∧ Linked next (next a) rest := by
  cases l with
  | nil => simp [Linked]
  | cons b l =>
    simp only [Linked, Option.some.injEq, List.cons.injEq]
    constructor
    · rintro ⟨rfl, hrest⟩
      exact ⟨l, ⟨rfl, rfl⟩, hrest⟩
    · rintro ⟨_, ⟨rfl, rfl⟩, hrest⟩
      exact ⟨rfl, hrest⟩

theorem Linked.unique (h : Linked next head l) (h' : Linked next head l') : l = l' := by
  induction l generalizing head l' with
  | nil =>
    obtain rfl : head = none := h
    exact (linked_none_iff.mp h').symm
  | cons a l ih =>
    obtain ⟨rfl, hrest⟩ := h
    obtain ⟨rest, rfl, hrest'⟩ := linked_some_iff.mp h'
    rw [ih hrest hrest']

theorem Linked.suffix {l₁ l₂ : List α} (h : Linked next head (l₁ ++ a :: l₂)) :
    Linked next (some a) (a :: l₂) := by
  induction l₁ generalizing head with
  | nil => exact ⟨rfl, h.2⟩
  | cons b l₁ ih => exact ih h.2

/-- A cell met again would be followed by the same cells again, without an end. -/
theorem Linked.nodup (h : Linked next head l) : l.Nodup := by
  induction l generalizing head with
  | nil => exact List.nodup_nil
  | cons a l ih =>
    refine List.nodup_cons.mpr ⟨fun hagain => ?_, ih h.2⟩
    obtain ⟨l₁, l₂, rfl⟩ := List.append_of_mem hagain
    have hwhole : Linked next (some a) (a :: (l₁ ++ a :: l₂)) := ⟨rfl, h.2⟩
    have hlength := congrArg List.length (hwhole.unique h.2.suffix)
    simp only [List.length_cons, List.length_append] at hlength
    omega

section
variable [DecidableEq α]

theorem Linked.update (h : Linked next head l) (ha : a ∉ l) (value : Option α) :
    Linked (update next a value) head l := by
  induction l generalizing head with
  | nil => exact h
  | cons b l ih =>
    rw [List.mem_cons, not_or] at ha
    obtain ⟨hab, hl⟩ := ha
    refine ⟨h.1, ?_⟩
    rw [update_of_ne (Ne.symm hab)]
    exact ih h.2 hl

/-- A cell that is not in the chain is put before it. -/
theorem Linked.push (h : Linked next head l) (ha : a ∉ l) :
    Linked (Function.update next a head) (some a) (a :: l) := by
  refine ⟨rfl, ?_⟩
  rw [update_self]
  exact h.update ha head

end

end BurrowBench.LinkedChain
