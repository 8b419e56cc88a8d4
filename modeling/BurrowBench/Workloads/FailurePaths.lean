import BurrowBench.Foundation.Ownership
import Mathlib.Data.List.Range
import Mathlib.Data.List.TakeWhile

/-! # What a row does when something is refused

Most rows need a channel, a goroutine, a timer or a stack before they can measure anything, and give
up when they do not get it. Some release what they have got by then and some leave it.
-/
namespace BurrowBench.Workloads.FailurePaths
open Ownership

/-- What the rows acquire. A goroutine or a thread is released when it has left. -/
inductive Res where
  | c1
  | c2
  | quit
  | wide (i : ℕ)
  | child
  | timer
  | timers (i : ℕ)
  | note
  | toWorker
  | toMain
  | thread
  | stack
  | attached
  | made
  | chain (i : ℕ)
  | parent
  | kid (i : ℕ)
  deriving DecidableEq

section
variable (grants : Res → Bool)

/-! ## chan_bench.c -/

/-- uncontended_body and nonblocking_body -/
def chanAlone : Own Res Unit := do
  if !(← acquire grants .c1) then return
  use [.c1]
  release .c1

/-- Both channels are made before either is looked at. -/
def chanPingpong : Own Res Unit := do
  let first ← acquire grants .c1
  let second ← acquire grants .c2
  if !first || !second then return
  if !(← acquire grants .child) then return
  use [.c1, .c2]
  release .child
  release .c1
  release .c2

def prodcons : Own Res Unit := do
  if !(← acquire grants .c1) then return
  if !(← acquire grants .child) then return
  use [.c1]
  release .child
  release .c1

/-! ## select_bench.c -/

/-- uncontended_body and default_body -/
def selectAlone : Own Res Unit := do
  let first ← acquire grants .c1
  let second ← acquire grants .c2
  if !first || !second then return
  use [.c1, .c2]
  release .c1
  release .c2

def arms : List Res := (List.range 8).map .wide

def eightArms : Own Res Unit := do
  if !(← acquireAll grants arms) then return
  use arms
  releaseAll arms

def selectPingpong : Own Res Unit := do
  let first ← acquire grants .c1
  let second ← acquire grants .c2
  let third ← acquire grants .quit
  if !first || !second || !third then return
  if !(← acquire grants .child) then return
  use [.c1, .c2, .quit]
  release .child
  release .c1
  release .c2
  release .quit

/-! ## timer_bench.c -/

def resetStop : Own Res Unit := do
  if !(← acquire grants .timer) then return
  use [.timer]
  release .timer

def deep : List Res := (List.range 1000).map .timers

def resetStopDeep : Own Res Unit := do
  if !(← acquireAll grants deep) then return
  if !(← acquire grants .timer) then return
  use [.timer]
  release .timer
  releaseAll deep

def burst : List Res := (List.range 1000).map .timers

def burstBody : Own Res Unit := do
  if !(← acquireAll grants burst) then return
  use burst
  releaseAll burst

/-! ## sync_bench.c and clock_bench.c -/

/-- note_cycle, note_timeout_hit and note_timeout_poll -/
def noteAlone : Own Res Unit := do
  if !(← acquire grants .note) then return
  use [.note]
  release .note

def notePingpong : Own Res Unit := do
  if !(← acquire grants .toWorker) then return
  if !(← acquire grants .toMain) then
    release .toWorker
    return
  if !(← acquire grants .thread) then
    release .toMain
    release .toWorker
    return
  use [.toWorker, .toMain]
  release .thread
  release .toMain
  release .toWorker

/-! ## runtime_bench.c -/

def mcontextSwitch : Own Res Unit := do
  if !(← acquire grants .stack) then return
  if !(← acquire grants .attached) then
    release .stack
    return
  if !(← acquire grants .made) then
    release .attached
    release .stack
    return
  use [.stack, .attached, .made]
  release .made
  release .attached
  release .stack

end

section
variable (grants : ℕ → Res → Bool) (n : ℕ)

/-- A turn that acquires one thing and gives it back, and ends the loop when it is refused. -/
def inTurn (r : Res) (i : ℕ) : Own Res Bool := do
  if !(← acquire (grants i) r) then return false
  use [r]
  release r
  return true

def threadStartJoin : Own Res Unit := turnsFrom (inTurn grants .thread) 0 n

/-- stack_alloc_free_min and stack_alloc_free_large -/
def stackAllocFree : Own Res Unit := turnsFrom (inTurn grants .stack) 0 n

def armStop : Own Res Unit := turnsFrom (inTurn grants .timer) 0 n

/-- The stack is there once, the contexts one a turn. -/
def mcontextMake (stack : Bool) : Own Res Unit := do
  if !(← acquire (fun _ => stack) .stack) then return
  turnsFrom (inTurn grants .made) 0 n
  release .stack

end

/-! ## context_bench.c -/

def depth : ℕ := 8
def fanout : ℕ := 64

/-- A context is released after those that were made under it. -/
def contextRelease (r : Res) (under : List Res) : Own Res Unit := fun owned =>
  if r ∈ owned ∧ ∀ u ∈ under, u ∉ owned then some ((), owned.erase r) else none

/-- The contexts from the i-th on, each under those that `parents` gives, up to the first refusal. -/
def buildFrom (grants : Res → Bool) (name : ℕ → Res) (parents : ℕ → List Res) : ℕ → ℕ → Own Res ℕ
  | 0, i => pure i
  | k + 1, i => do
    use (parents i)
    if !(← acquire grants (name i)) then return i
    buildFrom grants name parents k (i + 1)

def unbuild (name : ℕ → Res) : ℕ → Own Res Unit
  | 0 => pure ()
  | n + 1 => do
    contextRelease (name n) [name (n + 1)]
    unbuild name n

def build (grants : Res → Bool) : Own Res ℕ :=
  buildFrom grants .chain (fun i => if i = 0 then [] else [.chain (i - 1)]) depth 0

/-- value_deep_body and value_miss_body -/
def valueChain (grants : Res → Bool) : Own Res Unit := do
  let n ← build grants
  if n ≠ depth then
    unbuild .chain n
    return
  use ((List.range depth).map .chain)
  unbuild .chain n

/-- Nothing looks whether the parent was made. -/
def cancelTurn (grants : ℕ → Res → Bool) (i : ℕ) : Own Res Bool := do
  let _ ← acquire (grants i) .parent
  let made ← buildFrom (grants i) .kid (fun _ => [.parent]) fanout 0
  use [.parent]
  unbuild .kid made
  contextRelease .parent ((List.range fanout).map .kid)
  return true

def cancelTree (grants : ℕ → Res → Bool) (n : ℕ) : Own Res Unit := turnsFrom (cancelTurn grants) 0 n

/-! ## Loops over contexts -/

section Contexts
variable {name : ℕ → Res} {base : Multiset Res}

theorem range_succ_add (name : ℕ → Res) (n : ℕ) (base : Multiset Res) :
    (((List.range (n + 1)).map name : List Res) : Multiset Res) + base =
      name n ::ₘ (((List.range n).map name : List Res) + base) := by
  rw [List.range_succ, List.map_append, List.map_singleton, ← Multiset.coe_add, Multiset.coe_singleton,
    add_assoc, ← Multiset.singleton_add, add_left_comm]

theorem buildFrom_yields (grants : Res → Bool) (parents : ℕ → List Res)
    (hparents : ∀ i, ∀ r ∈ parents i, r ∈ (((List.range i).map name : List Res) : Multiset Res) + base) (k i : ℕ) :
    ∃ m ≤ i + k, Yields (buildFrom grants name parents k i) (((List.range i).map name : List Res) + base) m
      (((List.range m).map name : List Res) + base) := by
  induction k generalizing i with
  | zero => exact ⟨i, le_rfl, Yields.pure i _⟩
  | succ k ih =>
    cases hi : grants (name i) with
    | false =>
      refine ⟨i, Nat.le_add_right i _, ?_⟩
      exact Yields.bind (Yields.use (hparents i)) (Yields.bind (Yields.refused hi) (Yields.pure i _))
    | true =>
      obtain ⟨m, hm, hrest⟩ := ih (i + 1)
      rw [range_succ_add] at hrest
      refine ⟨m, by omega, ?_⟩
      exact Yields.bind (Yields.use (hparents i)) (Yields.bind (Yields.granted hi) hrest)

theorem contextRelease_yields {r : Res} {under : List Res} {owned : Multiset Res}
    (h : ∀ u ∈ under, u ∉ r ::ₘ owned) : Yields (contextRelease r under) (r ::ₘ owned) () owned := by
  refine (if_pos ⟨Multiset.mem_cons_self r owned, h⟩).trans ?_
  rw [Multiset.erase_cons_head]

theorem unbuild_yields (hname : Function.Injective name) (hbase : ∀ i, name i ∉ base) (n : ℕ) :
    Yields (unbuild name n) (((List.range n).map name : List Res) + base) () base := by
  induction n with
  | zero =>
    rw [List.range_zero, List.map_nil, Multiset.coe_nil, zero_add]
    exact Yields.pure () base
  | succ n ih =>
    rw [range_succ_add]
    refine Yields.bind (contextRelease_yields fun u hu => ?_) ih
    rw [List.mem_singleton.mp hu, Multiset.mem_cons, Multiset.mem_add, Multiset.mem_coe, List.mem_map]
    rintro (heq | ⟨j, hj, heq⟩ | hmem)
    · exact absurd (hname heq) (by omega)
    · have hlt := List.mem_range.mp hj
      exact absurd (hname heq) (by omega)
    · exact hbase _ hmem

end Contexts

/-! ## What is left -/

/-- The row does not fault, and leaves these. -/
def Leaves (p : Own Res Unit) (left : List Res) : Prop := Yields p 0 () left

section
variable (grants : Res → Bool)

theorem chanAlone_leaves : Leaves (chanAlone grants) [] := by
  cases h : grants .c1 with
  | false => exact Yields.bind (Yields.refused h) (Yields.pure () 0)
  | true => exact Yields.bind (Yields.granted h) (Yields.bind (Yields.use (by simp)) Yields.release)

theorem resetStop_leaves : Leaves (resetStop grants) [] := by
  cases h : grants .timer with
  | false => exact Yields.bind (Yields.refused h) (Yields.pure () 0)
  | true => exact Yields.bind (Yields.granted h) (Yields.bind (Yields.use (by simp)) Yields.release)

theorem noteAlone_leaves : Leaves (noteAlone grants) [] := by
  cases h : grants .note with
  | false => exact Yields.bind (Yields.refused h) (Yields.pure () 0)
  | true => exact Yields.bind (Yields.granted h) (Yields.bind (Yields.use (by simp)) Yields.release)

theorem notePingpong_leaves : Leaves (notePingpong grants) [] := by
  cases hworker : grants .toWorker <;> cases hmain : grants .toMain <;> cases hthread : grants .thread <;>
    simp [Leaves, Yields, notePingpong, hworker, hmain, hthread]

theorem mcontextSwitch_leaves : Leaves (mcontextSwitch grants) [] := by
  cases hstack : grants .stack <;> cases hattached : grants .attached <;> cases hmade : grants .made <;>
    simp [Leaves, Yields, mcontextSwitch, hstack, hattached, hmade]

/-- The last thing acquired comes first. -/
theorem chanPingpong_leaves : Leaves (chanPingpong grants)
    (if [.c1, .c2, .child].all grants then [] else [.c2, .c1].filter grants) := by
  cases hfirst : grants .c1 <;> cases hsecond : grants .c2 <;> cases hchild : grants .child <;>
    simp [Leaves, Yields, chanPingpong, hfirst, hsecond, hchild]
  rfl

theorem prodcons_leaves : Leaves (prodcons grants)
    (if [.c1, .child].all grants then [] else [.c1].filter grants) := by
  cases hfirst : grants .c1 <;> cases hchild : grants .child <;>
    simp [Leaves, Yields, prodcons, hfirst, hchild]

theorem selectAlone_leaves : Leaves (selectAlone grants)
    (if [.c1, .c2].all grants then [] else [.c2, .c1].filter grants) := by
  cases hfirst : grants .c1 <;> cases hsecond : grants .c2 <;>
    simp [Leaves, Yields, selectAlone, hfirst, hsecond]

theorem selectPingpong_leaves : Leaves (selectPingpong grants)
    (if [.c1, .c2, .quit, .child].all grants then [] else [.quit, .c2, .c1].filter grants) := by
  cases hfirst : grants .c1 <;> cases hsecond : grants .c2 <;> cases hquit : grants .quit <;>
    cases hchild : grants .child <;>
    simp [Leaves, Yields, selectPingpong, hfirst, hsecond, hquit, hchild] <;> rfl

theorem takeWhile_of_all {grants : Res → Bool} {rs : List Res} (h : rs.all grants = true) :
    rs.takeWhile grants = rs := List.takeWhile_eq_self_iff.mpr (List.all_eq_true.mp h)

theorem acquireAll_leaves {rs : List Res} {rest : Own Res Unit} {left : List Res}
    (h : rs.all grants = true → Yields rest rs () left) :
    Leaves (do if !(← acquireAll grants rs) then return
               rest) (if rs.all grants then left else rs.takeWhile grants) := by
  have hacquire := Yields.acquireAll grants rs 0
  rw [add_zero] at hacquire
  cases hall : rs.all grants with
  | false =>
    rw [hall] at hacquire
    exact Yields.bind hacquire (Yields.pure () _)
  | true =>
    rw [hall, takeWhile_of_all hall] at hacquire
    exact Yields.bind hacquire (h hall)

theorem releaseAll_yields (rs : List Res) : Yields (releaseAll rs) rs () ([] : List Res) := by
  have hrelease := Yields.releaseAll rs 0
  rwa [add_zero] at hrelease

theorem eightArms_leaves : Leaves (eightArms grants)
    (if arms.all grants then [] else arms.takeWhile grants) :=
  acquireAll_leaves grants fun _ =>
    Yields.bind (Yields.use fun _ hr => Multiset.mem_coe.mpr hr) (releaseAll_yields arms)

theorem burstBody_leaves : Leaves (burstBody grants)
    (if burst.all grants then [] else burst.takeWhile grants) :=
  acquireAll_leaves grants fun _ =>
    Yields.bind (Yields.use fun _ hr => Multiset.mem_coe.mpr hr) (releaseAll_yields burst)

theorem resetStopDeep_leaves : Leaves (resetStopDeep grants)
    (if deep.all grants then (if grants .timer then [] else deep) else deep.takeWhile grants) := by
  refine acquireAll_leaves grants fun _ => ?_
  cases htimer : grants .timer with
  | false => exact Yields.bind (Yields.refused htimer) (Yields.pure () _)
  | true =>
    have huse : ∀ r ∈ [Res.timer], r ∈ Res.timer ::ₘ (deep : Multiset Res) := by
      intro r hr
      rw [List.mem_singleton.mp hr]
      exact Multiset.mem_cons_self _ _
    exact Yields.bind (Yields.granted htimer) (Yields.bind (Yields.use huse)
      (Yields.bind Yields.release (releaseAll_yields deep)))

theorem valueChain_leaves : Leaves (valueChain grants) [] := by
  have hparents : ∀ i, ∀ r ∈ (if i = 0 then [] else [Res.chain (i - 1)]),
      r ∈ (((List.range i).map .chain : List Res) : Multiset Res) + 0 := by
    intro i r hr
    split at hr
    · cases hr
    · rw [List.mem_singleton.mp hr, add_zero, Multiset.mem_coe]
      exact List.mem_map_of_mem (List.mem_range.mpr (by omega))
  have hinjective : Function.Injective Res.chain := fun _ _ h => Res.chain.inj h
  obtain ⟨m, -, hbuild⟩ := buildFrom_yields grants _ hparents depth 0
  have hunbuild : Yields (unbuild .chain m) (((List.range m).map .chain : List Res) + 0) () 0 :=
    unbuild_yields hinjective (fun _ => Multiset.notMem_zero _) m
  refine Yields.bind hbuild ?_
  by_cases hm : m = depth
  · subst hm
    have huse : ∀ r ∈ (List.range depth).map Res.chain,
        r ∈ (((List.range depth).map .chain : List Res) : Multiset Res) + 0 := by
      intro r hr
      rw [add_zero]
      exact Multiset.mem_coe.mpr hr
    exact Yields.bind (Yields.use huse) hunbuild
  · have hstop := Yields.bind (f := fun _ => pure ()) hunbuild (Yields.pure () 0)
    simpa [hm] using hstop

end

section
variable (grants : ℕ → Res → Bool)

theorem inTurn_yields (r : Res) (i : ℕ) (owned : Multiset Res) :
    ∃ ok, Yields (inTurn grants r i) owned ok owned := by
  cases h : grants i r with
  | false => exact ⟨false, Yields.bind (Yields.refused h) (Yields.pure false owned)⟩
  | true =>
    exact ⟨true, Yields.bind (Yields.granted h) (Yields.bind (Yields.use (by simp))
      (Yields.bind Yields.release (Yields.pure true owned)))⟩

theorem turns_leave (r : Res) (n : ℕ) : Leaves (turnsFrom (inTurn grants r) 0 n) [] :=
  Yields.turnsFrom fun i _ _ => inTurn_yields grants r i 0

theorem mcontextMake_leaves (n : ℕ) (stack : Bool) : Leaves (mcontextMake grants n stack) [] := by
  cases stack with
  | false => exact Yields.bind (Yields.refused rfl) (Yields.pure () 0)
  | true =>
    exact Yields.bind (Yields.granted rfl)
      (Yields.bind (Yields.turnsFrom fun i _ _ => inTurn_yields grants .made i _) Yields.release)

theorem cancelTurn_yields {i : ℕ} (hparent : grants i .parent = true) :
    Yields (cancelTurn grants i) 0 true 0 := by
  have hinjective : Function.Injective Res.kid := fun _ _ h => Res.kid.inj h
  have hparents : ∀ k, ∀ r ∈ [Res.parent], r ∈ (((List.range k).map .kid : List Res) : Multiset Res) + {.parent} := by
    intro k r hr
    rw [List.mem_singleton.mp hr]
    exact Multiset.mem_add.mpr (.inr (Multiset.mem_singleton_self _))
  obtain ⟨m, -, hbuild⟩ := buildFrom_yields (grants i) (fun _ => [.parent]) hparents fanout 0
  have hunbuild : Yields (unbuild .kid m) (((List.range m).map .kid : List Res) + {.parent}) () {.parent} :=
    unbuild_yields hinjective (by simp) m
  have hrelease : Yields (contextRelease .parent ((List.range fanout).map .kid)) (.parent ::ₘ 0) () 0 :=
    contextRelease_yields (by simp)
  exact Yields.bind (Yields.granted hparent) (Yields.bind hbuild (Yields.bind (Yields.use (hparents m))
    (Yields.bind hunbuild (Yields.bind hrelease (Yields.pure true 0)))))

/-- Without a parent the first child already asks for it. -/
theorem cancelTurn_faults {i : ℕ} (hparent : grants i .parent = false) : Faults (cancelTurn grants i) 0 :=
  Faults.bind_right (Yields.refused hparent)
    (Faults.bind (Faults.bind (Faults.use (List.mem_singleton_self _) (Multiset.notMem_zero _))))

theorem cancelTurn_total (i : ℕ) : Yields (cancelTurn grants i) 0 true 0 ∨ Faults (cancelTurn grants i) 0 := by
  cases hparent : grants i .parent with
  | false => exact .inr (cancelTurn_faults grants hparent)
  | true => exact .inl (cancelTurn_yields grants hparent)

theorem cancelTree_leaves (n : ℕ) :
    if ∀ i < n, grants i .parent = true then Leaves (cancelTree grants n) [] else Faults (cancelTree grants n) 0 := by
  by_cases hparent : ∀ i < n, grants i .parent = true
  · rw [if_pos hparent]
    exact Yields.turnsFrom fun i _ hi => ⟨true, cancelTurn_yields grants (hparent i (by omega))⟩
  · rw [if_neg hparent]
    obtain ⟨i, hi, hrefused⟩ : ∃ i < n, grants i .parent = false := by simpa using hparent
    exact Faults.turnsFrom (cancelTurn_total grants)
      ⟨i, Nat.zero_le i, by omega, cancelTurn_faults grants hrefused⟩

end

end BurrowBench.Workloads.FailurePaths
