import Mathlib.Data.Nat.Notation
import Mathlib.Tactic.Common

/-! # Patterns for whole lines

The part of basic regular expressions that has a symbol for any character and a star for
any number of the one before it. A pattern without either matches itself and nothing else.
-/
namespace BurrowBench.LinePattern
variable {α : Type*} [DecidableEq α]

structure Item (α : Type*) where
  symbol : Option α
  starred : Bool

def Item.accepts (item : Item α) (c : α) : Bool := item.symbol.all (· = c)

def symbolOf (dot c : α) : Option α := if c = dot then none else some c

/-- The items of a pattern; a star that nothing stands before is an ordinary character. -/
def items (dot star : α) : List α → List (Item α)
  | [] => []
  | [c] => [⟨symbolOf dot c, false⟩]
  | c :: d :: rest =>
    if d = star then ⟨symbolOf dot c, true⟩ :: items dot star rest
    else ⟨symbolOf dot c, false⟩ :: items dot star (d :: rest)

def matchesWhole : List (Item α) → List α → Bool
  | [], line => line.isEmpty
  | item :: rest, line =>
    if item.starred then
      (List.range (line.length + 1)).any fun k =>
        (line.take k).all item.accepts && matchesWhole rest (line.drop k)
    else
      match line with
      | [] => false
      | c :: cs => item.accepts c && matchesWhole rest cs

def literal (c : α) : Item α := ⟨some c, false⟩

variable {dot star : α} {p : List α}

theorem items_literal (h : ∀ c ∈ p, c ≠ dot ∧ c ≠ star) : items dot star p = p.map literal := by
  induction p with
  | nil => rfl
  | cons c p ih =>
    have hc := (h c List.mem_cons_self).1
    have hrest := ih fun d hd => h d (List.mem_cons_of_mem c hd)
    cases p with
    | nil => simp [items, symbolOf, hc, literal]
    | cons d p =>
      have hd := (h d (List.mem_cons_of_mem c List.mem_cons_self)).2
      rw [items, if_neg hd, hrest]
      simp [symbolOf, hc, literal]

theorem matchesWhole_literal (p line : List α) : matchesWhole (p.map literal) line ↔ p = line := by
  induction p generalizing line with
  | nil => cases line <;> simp [matchesWhole]
  | cons c p ih =>
    cases line with
    | nil => simp [matchesWhole, literal]
    | cons d line => simp [matchesWhole, literal, Item.accepts, ih]

/-- A pattern of ordinary characters is found among the lines exactly when it is one. -/
theorem any_matchesWhole_iff (h : ∀ c ∈ p, c ≠ dot ∧ c ≠ star) (lines : List (List α)) :
    lines.any (matchesWhole (items dot star p)) ↔ p ∈ lines := by
  rw [items_literal h, List.any_eq_true]
  simp only [matchesWhole_literal]
  constructor
  · rintro ⟨line, hline, rfl⟩
    exact hline
  · exact fun hmem => ⟨p, hmem, rfl⟩

end BurrowBench.LinePattern
