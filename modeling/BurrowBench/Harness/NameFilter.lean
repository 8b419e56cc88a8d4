import BurrowBench.Harness.Timer
import Mathlib.Data.List.Infix

/-! # Which benchmarks a filter names

A substring of the name, or the whole name when the filter ends in `$`. The pattern of a
filter is what is left of it without that `$`; every name it matches contains it.
-/
namespace BurrowBench.Harness

def nameMatches (name filter : Text) : Bool :=
  let n := filter.length
  if n > 0 ∧ filter.getLast? = some '$' then
    name.length == n - 1 && name.take (n - 1) == filter.take (n - 1)
  else decide (filter <:+: name)

def selected (entries : List Text) (filter : Option Text) : List Text :=
  entries.filter fun name => filter.all (nameMatches name)

def pattern (filter : Text) : Text :=
  if filter.getLast? = some '$' then filter.dropLast else filter

def isWord (c : Char) : Bool := c.isAlphanum || c == '_'

def Identifier (name : Text) : Prop := name ≠ [] ∧ ∀ c ∈ name, isWord c

instance (name : Text) : Decidable (Identifier name) :=
  decidable_of_iff (name ≠ [] ∧ name.all isWord) (and_congr_right fun _ => List.all_eq_true)

theorem nameMatches_exact {filter : Text} (h : filter.getLast? = some '$') (name : Text) :
    nameMatches name filter = decide (name = pattern filter) := by
  obtain ⟨f, rfl⟩ := List.getLast?_eq_some_iff.mp h
  have hmatch : nameMatches name (f ++ ['$']) =
      (name.length == f.length && name.take f.length == f) := by
    simp [nameMatches]
  rw [hmatch, pattern, if_pos h, List.dropLast_concat, Bool.eq_iff_iff]
  simp only [Bool.and_eq_true, beq_iff_eq, decide_eq_true_eq]
  constructor
  · rintro ⟨hlen, htake⟩
    rwa [← hlen, List.take_length] at htake
  · rintro rfl
    exact ⟨rfl, List.take_length⟩

theorem nameMatches_substring {filter : Text} (h : filter.getLast? ≠ some '$') (name : Text) :
    nameMatches name filter = decide (pattern filter <:+: name) := by
  simp [nameMatches, pattern, h]

theorem pattern_within {name filter : Text} (h : nameMatches name filter) :
    pattern filter <:+: name := by
  by_cases hlast : filter.getLast? = some '$'
  · rw [nameMatches_exact hlast, decide_eq_true_eq] at h
    exact h ▸ List.infix_rfl
  · rwa [nameMatches_substring hlast, decide_eq_true_eq] at h

theorem pattern_ne_nil {name filter : Text} (h : nameMatches name filter) (hname : name ≠ [])
    (hfilter : filter ≠ []) : pattern filter ≠ [] := by
  by_cases hlast : filter.getLast? = some '$'
  · rw [nameMatches_exact hlast, decide_eq_true_eq] at h
    exact h ▸ hname
  · rwa [pattern, if_neg hlast]

theorem mem_filter_word {name filter : Text} (hname : Identifier name) (h : nameMatches name filter)
    {c : Char} (hc : c ∈ filter) : isWord c ∨ c = '$' := by
  have hpattern : ∀ c ∈ pattern filter, isWord c :=
    fun c hc => hname.2 c ((pattern_within h).subset hc)
  by_cases hlast : filter.getLast? = some '$'
  · obtain ⟨f, rfl⟩ := List.getLast?_eq_some_iff.mp hlast
    rw [pattern, if_pos hlast, List.dropLast_concat] at hpattern
    rcases List.mem_append.mp hc with hf | hd
    · exact Or.inl (hpattern c hf)
    · exact Or.inr (List.mem_singleton.mp hd)
  · rw [pattern, if_neg hlast] at hpattern
    exact Or.inl (hpattern c hc)

theorem shared_char {a b filter : Text} (ha : nameMatches a filter) (hb : nameMatches b filter)
    (hne : b ≠ []) (hfilter : filter ≠ []) : ∃ c ∈ a, c ∈ b := by
  obtain ⟨c, hc⟩ := List.exists_mem_of_ne_nil _ (pattern_ne_nil hb hne hfilter)
  exact ⟨c, (pattern_within ha).subset hc, (pattern_within hb).subset hc⟩

end BurrowBench.Harness
