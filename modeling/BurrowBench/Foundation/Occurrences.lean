import Mathlib.Data.List.TakeWhile
import Mathlib.Tactic.Common

/-! # Occurrences of a bracketed word

A scan from left to right takes each match as it comes and goes on behind it. The first
symbol of these patterns stands nowhere else in a match, so that no two matches overlap and the
scan finds all of them.
-/
namespace BurrowBench.Occurrences
variable {α : Type*}

/-- An opening, a word of symbols of one kind and a closing. -/
structure Bracket (α : Type*) where
  first : α
  more : List α
  inside : α → Bool
  closing : α
  first_notMem : first ∉ more
  first_outside : inside first = false
  first_ne : first ≠ closing
  closing_outside : inside closing = false

namespace Bracket
variable (p : Bracket α)

def opening : List α := p.first :: p.more

def whole (word : List α) : List α := p.opening ++ (word ++ [p.closing])

def Occurs (word line : List α) : Prop := (∀ c ∈ word, p.inside c) ∧ p.whole word <:+: line

/-- Behind its first symbol a match has no other one of that kind. -/
theorem ne_first_of_mem {word : List α} (hinside : ∀ c ∈ word, p.inside c) {c : α}
    (hc : c ∈ p.more ++ (word ++ [p.closing])) : c ≠ p.first := by
  rintro rfl
  rcases List.mem_append.mp hc with hmore | hrest
  · exact p.first_notMem hmore
  · rcases List.mem_append.mp hrest with hword | hclosing
    · have hfirst := hinside _ hword
      rw [p.first_outside] at hfirst
      cases hfirst
    · exact p.first_ne (List.mem_singleton.mp hclosing)

variable [DecidableEq α]

/-- The word of a match that starts here. -/
def wordAt (line : List α) : Option (List α) :=
  if p.opening <+: line then
    let rest := line.drop p.opening.length
    if (rest.dropWhile p.inside).head? = some p.closing then some (rest.takeWhile p.inside) else none
  else none

/-- The words of the matches; the first `skip` symbols belong to a match already taken. -/
def scan : ℕ → List α → List (List α)
  | _, [] => []
  | skip + 1, _ :: line => scan skip line
  | 0, c :: line =>
    match p.wordAt (c :: line) with
    | some word => word :: scan ((p.whole word).length - 1) line
    | none => scan 0 line

variable {p} {word line : List α}

theorem wordAt_eq_some_iff :
    p.wordAt line = some word ↔ (∀ c ∈ word, p.inside c) ∧ p.whole word <+: line := by
  constructor
  · intro h
    unfold wordAt at h
    split at h
    · rename_i hopening
      obtain ⟨rest, rfl⟩ := hopening
      rw [List.drop_left] at h
      obtain ⟨hclosing, hword⟩ := Option.ite_none_right_eq_some.mp h
      obtain rfl := Option.some.inj hword
      obtain ⟨post, hpost⟩ := List.head?_eq_some_iff.mp hclosing
      refine ⟨fun c hc => List.mem_takeWhile_imp hc, post, ?_⟩
      have hsplit := List.takeWhile_append_dropWhile (p := p.inside) (l := rest)
      rw [hpost] at hsplit
      simpa [whole] using hsplit
    · cases h
  · rintro ⟨hinside, post, rfl⟩
    have hrest : (p.whole word ++ post).drop p.opening.length = word ++ p.closing :: post := by
      simp [whole]
    have htake : (word ++ p.closing :: post).takeWhile p.inside = word := by
      rw [List.takeWhile_append_of_pos hinside, List.takeWhile_cons_of_neg (by simp [p.closing_outside]),
        List.append_nil]
    have hdrop : (word ++ p.closing :: post).dropWhile p.inside = p.closing :: post := by
      rw [List.dropWhile_append_of_pos hinside, List.dropWhile_cons_of_neg (by simp [p.closing_outside])]
    have hopening : p.opening <+: p.whole word ++ post := ⟨word ++ p.closing :: post, by simp [whole]⟩
    rw [wordAt, if_pos hopening, hrest]
    dsimp only
    rw [htake, hdrop, List.head?_cons, if_pos rfl]

theorem occurs_cons_iff {c : α} :
    p.Occurs word (c :: line) ↔ p.wordAt (c :: line) = some word ∨ p.Occurs word line := by
  rw [wordAt_eq_some_iff, Occurs, Occurs, List.infix_cons_iff]
  tauto

/-- The scan finds the words that occur, whatever it has been told to skip, as long as no match
starts in there. -/
theorem mem_scan_iff {skip : ℕ} (hskip : ∀ c ∈ line.take skip, c ≠ p.first) :
    word ∈ p.scan skip line ↔ p.Occurs word line := by
  induction line generalizing skip with
  | nil => simp [scan, Occurs, whole]
  | cons c line ih =>
    cases skip with
    | succ skip =>
      have hc : c ≠ p.first := hskip c (by simp)
      have hnone : p.wordAt (c :: line) ≠ some word := by
        intro h
        obtain ⟨-, post, hpost⟩ := wordAt_eq_some_iff.mp h
        exact hc (List.cons.inj hpost).1.symm
      rw [scan, ih fun d hd => hskip d (by simp [hd]), occurs_cons_iff]
      simp only [hnone, false_or]
    | zero =>
      unfold scan
      cases hat : p.wordAt (c :: line) with
      | none =>
        rw [occurs_cons_iff, hat]
        simp only [reduceCtorEq, false_or]
        exact ih (by simp)
      | some found =>
        obtain ⟨hinside, post, hpost⟩ := wordAt_eq_some_iff.mp hat
        have hline : line = p.more ++ (found ++ [p.closing]) ++ post := (List.cons.inj hpost).2.symm
        have htaken : line.take ((p.whole found).length - 1) = p.more ++ (found ++ [p.closing]) := by
          rw [hline]
          exact List.take_left
        rw [occurs_cons_iff, hat, Option.some.injEq]
        dsimp only
        rw [List.mem_cons, ih (htaken ▸ fun d hd => p.ne_first_of_mem hinside hd), eq_comm]

end Bracket

end BurrowBench.Occurrences
