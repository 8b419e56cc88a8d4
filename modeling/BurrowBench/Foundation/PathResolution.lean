import Mathlib.Data.List.Basic

/-! # Paths and the directories they lead to

A directory is the names that lead to it from the root. A path is walked component by
component: an empty one and a dot stay, two dots go up, and the root is its own parent.
Links are not followed.
-/
namespace BurrowBench.PathResolution
variable {α : Type*} [DecidableEq α]

/-- A component that is a name. -/
def Proper (dot : α) (c : List α) : Prop := c ≠ [] ∧ c ≠ [dot] ∧ c ≠ [dot, dot]

instance (dot : α) (c : List α) : Decidable (Proper dot c) :=
  inferInstanceAs (Decidable (c ≠ [] ∧ c ≠ [dot] ∧ c ≠ [dot, dot]))

structure Dir (dot : α) where
  names : List (List α)
  proper : ∀ name ∈ names, Proper dot name

variable {dot : α}

def Dir.root : Dir dot := ⟨[], by simp⟩

def Dir.parent (d : Dir dot) : Dir dot :=
  ⟨d.names.dropLast, fun name h => d.proper name ((List.dropLast_prefix d.names).subset h)⟩

def Dir.child (d : Dir dot) (c : List α) (hc : Proper dot c) : Dir dot :=
  ⟨d.names ++ [c], by
    intro name h
    rcases List.mem_append.mp h with h | h
    · exact d.proper name h
    · exact List.mem_singleton.mp h ▸ hc⟩

def Dir.enter (d : Dir dot) (c : List α) : Dir dot :=
  if hc : Proper dot c then d.child c hc
  else if c = [dot, dot] then d.parent
  else d

def Dir.walk (d : Dir dot) (sep : α) (path : List α) : Dir dot := (path.splitOn sep).foldl Dir.enter d

/-- The directory of a path: from the root when it starts with a separator. -/
def resolve (cwd : Dir dot) (sep : α) (path : List α) : Dir dot :=
  if path.head? = some sep then Dir.root.walk sep path else cwd.walk sep path

def StrictlyInside (outer inner : Dir dot) : Prop :=
  outer.names <+: inner.names ∧ outer.names ≠ inner.names

instance (outer inner : Dir dot) : Decidable (StrictlyInside outer inner) :=
  inferInstanceAs (Decidable (outer.names <+: inner.names ∧ outer.names ≠ inner.names))

theorem walk_append (d : Dir dot) (sep : α) (p q : List α) :
    d.walk sep (p ++ sep :: q) = (d.walk sep p).walk sep q := by
  rw [Dir.walk, List.splitOn_append_cons_self, List.foldl_append, Dir.walk, Dir.walk]

/-- What follows a path is walked from where the path leads. -/
theorem resolve_append (cwd : Dir dot) {sep : α} {p : List α} (hp : p ≠ []) (q : List α) :
    resolve cwd sep (p ++ sep :: q) = (resolve cwd sep p).walk sep q := by
  have hhead : (p ++ sep :: q).head? = p.head? := by
    cases p with
    | nil => exact absurd rfl hp
    | cons c p => rfl
  unfold resolve
  rw [hhead]
  split <;> exact walk_append _ _ _ _

/-- A walk that never goes up adds the names it meets. -/
theorem foldl_enter_names (d : Dir dot) {components : List (List α)}
    (h : ∀ c ∈ components, c ≠ [dot, dot]) :
    (components.foldl Dir.enter d).names = d.names ++ components.filter (Proper dot ·) := by
  induction components generalizing d with
  | nil => simp
  | cons c components ih =>
    rw [List.foldl_cons, ih _ fun c' hc' => h c' (List.mem_cons_of_mem c hc')]
    by_cases hc : Proper dot c
    · simp [Dir.enter, Dir.child, hc]
    · simp [Dir.enter, hc, h c List.mem_cons_self]

theorem walk_strictlyInside (d : Dir dot) {sep : α} {path : List α}
    (h : ∀ c ∈ path.splitOn sep, c ≠ [dot, dot])
    (hname : ∃ c ∈ path.splitOn sep, Proper dot c) : StrictlyInside d (d.walk sep path) := by
  obtain ⟨c, hc, hproper⟩ := hname
  have hmem : c ∈ (path.splitOn sep).filter (Proper dot ·) :=
    List.mem_filter.mpr ⟨hc, by simpa using hproper⟩
  unfold StrictlyInside Dir.walk
  rw [foldl_enter_names d h]
  refine ⟨List.prefix_append _ _, fun heq => ?_⟩
  rw [List.self_eq_append_right.mp heq] at hmem
  cases hmem

end BurrowBench.PathResolution
