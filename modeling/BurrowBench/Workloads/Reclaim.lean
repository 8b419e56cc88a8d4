import BurrowBench.Foundation.Interleaving
import BurrowBench.Foundation.LinkedChain

/-! # The boxes of the reclaim row

reclaim_retire keeps its boxes on a free list that goes through the boxes themselves. A box
it hands to burrow__retire comes back through box_free, at any moment that suits the
reclaimer, and what is left comes back from burrow__reclaim_drain. Which box is collected
when, and what the allocator gives, are the choices of a schedule.
-/
namespace BurrowBench.Workloads.Reclaim
open Interleaving LinkedChain

variable {α : Type*}

/-- `reuse` is that field of every box, whatever it holds in memory that is no box.
`allocated` and `freed` are what the heap has given and taken back. -/
structure Store (α : Type*) where
  pool : Option α
  reuse : α → Option α
  allocated : List α
  freed : List α

def Store.Live (m : Store α) (x : α) : Prop := x ∈ m.allocated ∧ x ∉ m.freed

instance [DecidableEq α] (m : Store α) (x : α) : Decidable (m.Live x) :=
  inferInstanceAs (Decidable (_ ∧ _))

section
variable [DecidableEq α]

/-- `x->reuse = pool; pool = x;`, and none when x is no box. -/
def boxFree (x : α) (m : Store α) : Option (Store α) :=
  if m.Live x then some { m with reuse := Function.update m.reuse x m.pool, pool := some x } else none

/-- The box and what it leaves. `given` is what BURROW_NEW comes to if it is asked. -/
def boxGet (given : Option α) (m : Store α) : Option (Option α × Store α) :=
  match m.pool with
  | some x => if m.Live x then some (some x, { m with pool := m.reuse x }) else none
  | none => some (given, { m with allocated := given.toList ++ m.allocated })

/-- `pool = x->reuse; mem_free(x);` -/
def freeHead (x : α) (m : Store α) : Option (Store α) :=
  if m.Live x then some { m with pool := m.reuse x, freed := x :: m.freed } else none

end

inductive Pc (α : Type*) where
  | loop (i : ℕ)
  | retire (i : ℕ) (x : α)
  | retiring (i : ℕ)
  | drain
  | free
  | done
  | fault

structure State (α : Type*) where
  pc : Pc α
  store : Store α
  retired : List α

/-- The pool of an earlier run was left NULL. -/
def start (reuse : α → Option α) : State α where
  pc := .loop 0
  store := ⟨none, reuse, [], []⟩
  retired := []

inductive Move (α : Type*) where
  | go (given : Option α)
  | collect (x : α)

section
variable [DecidableEq α]

/-- retire_body and what reclaim_retire does after it. -/
def reclaimRetire (n : ℕ) (given : Option α) (s : State α) : Option (State α) :=
  match s.pc with
  | .loop i =>
    if i < n then
      match boxGet given s.store with
      | some (some x, store) => some { s with store := store, pc := .retire i x }
      | some (none, store) => some { s with store := store, pc := .drain }
      | none => some { s with pc := .fault }
    else some { s with pc := .drain }
  | .retire i x =>
    if s.store.Live x then some { s with retired := x :: s.retired, pc := .retiring i }
    else some { s with pc := .fault }
  | .retiring i => some { s with pc := .loop (i + 1) }
  | .drain => if s.retired = [] then some { s with pc := .free } else none
  | .free =>
    match s.store.pool with
    | none => some { s with pc := .done }
    | some x =>
      match freeHead x s.store with
      | some store => some { s with store := store }
      | none => some { s with pc := .fault }
  | .done | .fault => none

/-- The allocator gives no box that is in use, and only what is retired is collected. -/
def step (n : ℕ) (move : Move α) (s : State α) : Option (State α) :=
  match move with
  | .go given => if ∀ x ∈ given.toList, ¬ s.store.Live x then reclaimRetire n given s else none
  | .collect x =>
    if x ∈ s.retired then
      match boxFree x s.store with
      | some store => some { s with store := store, retired := s.retired.erase x }
      | none => some { s with pc := .fault }
    else none

end

/-! ## Whose the boxes are -/

/-- Every box is in the pool, or among those out, or was freed, and in one place only. -/
structure Owned (m : Store α) (out chain : List α) : Prop where
  linked : Linked m.reuse m.pool chain
  perm : (chain ++ out ++ m.freed).Perm m.allocated
  nodup : m.allocated.Nodup

namespace Owned
variable {m : Store α} {out out' chain : List α} {x : α}

theorem nodup_all (h : Owned m out chain) : (chain ++ out ++ m.freed).Nodup :=
  h.perm.nodup_iff.mpr h.nodup

theorem of_perm (h : Owned m out chain) (hout : out.Perm out') : Owned m out' chain :=
  ⟨h.linked, ((hout.append_left chain).append_right m.freed).symm.trans h.perm, h.nodup⟩

theorem live (h : Owned m out chain) (hx : x ∈ chain ++ out) : m.Live x := by
  refine ⟨h.perm.mem_iff.mp (List.mem_append_left _ hx), fun hfreed => ?_⟩
  exact (List.disjoint_of_nodup_append h.nodup_all) hx hfreed

variable [DecidableEq α]

/-- The box goes from those out to the head of the pool. -/
theorem boxFree (h : Owned m (x :: out) chain) :
    ∃ m', boxFree x m = some m' ∧ Owned m' out (x :: chain) ∧
      m'.allocated = m.allocated ∧ m'.freed = m.freed := by
  have hlive := h.live (List.mem_append_right chain List.mem_cons_self)
  have hmiddle : (chain ++ x :: out ++ m.freed).Perm (x :: chain ++ out ++ m.freed) :=
    List.perm_middle.append_right m.freed
  have hchain : x ∉ chain := by
    have hnodup := hmiddle.nodup_iff.mp h.nodup_all
    rw [List.cons_append, List.cons_append, List.nodup_cons] at hnodup
    exact fun hx => hnodup.1 (List.mem_append_left _ (List.mem_append_left _ hx))
  exact ⟨_, if_pos hlive, ⟨h.linked.push hchain, hmiddle.symm.trans h.perm, h.nodup⟩, rfl, rfl⟩

/-- The head of the pool, or else what the allocator gives, is out. -/
theorem boxGet {given : Option α} (h : Owned m out chain) (hfreed : m.freed = [])
    (hgiven : ∀ x ∈ given.toList, ¬ m.Live x) :
    ∃ box m' chain', boxGet given m = some (box, m') ∧ Owned m' (box.toList ++ out) chain' ∧
      m'.freed = [] ∧ m'.allocated.length ≤ m.allocated.length + 1 := by
  unfold Reclaim.boxGet
  cases hpool : m.pool with
  | some x =>
    obtain ⟨rest, rfl, hrest⟩ := linked_some_iff.mp (hpool ▸ h.linked)
    have hlive := h.live (List.mem_append_left out List.mem_cons_self)
    refine ⟨some x, _, rest, if_pos hlive, ⟨hrest, ?_, h.nodup⟩, hfreed, Nat.le_succ _⟩
    refine List.Perm.trans ?_ h.perm
    exact List.perm_middle.append_right m.freed
  | none =>
    obtain rfl := linked_none_iff.mp (hpool ▸ h.linked)
    refine ⟨given, _, [], rfl, ⟨?_, ?_, ?_⟩, hfreed, ?_⟩
    · exact linked_none_iff.mpr rfl
    · simpa [hfreed] using (h.perm.append_left given.toList)
    · cases given with
      | none => exact h.nodup
      | some x =>
        have hnew : x ∉ m.allocated := fun hx => hgiven x (by simp) ⟨hx, by simp [hfreed]⟩
        exact List.nodup_cons.mpr ⟨hnew, h.nodup⟩
    · cases given <;> simp

theorem freeHead (h : Owned m [] chain) (hpool : m.pool = some x) :
    ∃ m' rest, freeHead x m = some m' ∧ Owned m' [] rest ∧
      m'.allocated = m.allocated ∧ m'.freed = x :: m.freed := by
  obtain ⟨rest, rfl, hrest⟩ := linked_some_iff.mp (hpool ▸ h.linked)
  have hlive := h.live (List.mem_append_left [] List.mem_cons_self)
  refine ⟨_, rest, if_pos hlive, ⟨hrest, ?_, h.nodup⟩, rfl, rfl⟩
  refine List.Perm.trans ?_ h.perm
  simp only [List.append_nil, List.cons_append]
  exact List.perm_middle

end Owned

/-! ## Along a run -/

def Pc.held : Pc α → List α
  | .retire _ x => [x]
  | _ => []

/-- The box between box_get and burrow__retire, and those retired and not yet collected. -/
def State.inFlight (s : State α) : List α := s.pc.held ++ s.retired

def Pc.Emptying : Pc α → Prop
  | .free | .done => True
  | _ => False

structure Good (s : State α) (chain : List α) : Prop where
  owned : Owned s.store s.inFlight chain
  no_fault : s.pc ≠ .fault
  freed : ¬ s.pc.Emptying → s.store.freed = []
  drained : s.pc.Emptying → s.retired = []
  emptied : s.pc = .done → s.store.pool = none

/-- What the program counter leaves to be done, when a turn of the loop may add one box and
one retirement. -/
def Pc.left (n : ℕ) : Pc α → ℕ
  | .loop i => 5 * (n - i) + 3
  | .retire i _ => 5 * (n - (i + 1)) + 6
  | .retiring i => 5 * (n - (i + 1)) + 4
  | .drain => 2
  | .free => 1
  | .done | .fault => 0

def left (n : ℕ) (s : State α) : ℕ :=
  s.pc.left n + s.retired.length + (s.store.allocated.length - s.store.freed.length)

variable {n : ℕ} {s s' : State α} {chain : List α}

theorem good_start (reuse : α → Option α) : Good (start reuse) [] where
  owned := ⟨rfl, by simp [start, State.inFlight, Pc.held], List.nodup_nil⟩
  no_fault := by simp [start]
  freed _ := rfl
  drained _ := rfl
  emptied h := by simp [start] at h

theorem good_running {pc : Pc α} {store : Store α} {retired : List α}
    (howned : Owned store (pc.held ++ retired) chain) (hfreed : store.freed = []) (hpc : ¬ pc.Emptying)
    (hfault : pc ≠ .fault) : Good ⟨pc, store, retired⟩ chain where
  owned := howned
  no_fault := hfault
  freed _ := hfreed
  drained h := absurd h hpc
  emptied := by
    rintro rfl
    exact absurd trivial hpc

section
variable [DecidableEq α]

theorem good_go {given : Option α} (h : Good s chain) (hgiven : ∀ x ∈ given.toList, ¬ s.store.Live x)
    (hgo : reclaimRetire n given s = some s') : ∃ chain', Good s' chain' ∧ left n s' < left n s := by
  obtain ⟨pc, store, retired⟩ := s
  obtain ⟨howned, hfault, hfreed, hdrained, hemptied⟩ := h
  cases pc with
  | loop i =>
    have hnone : store.freed = [] := hfreed id
    simp only [reclaimRetire] at hgo
    split at hgo
    · obtain ⟨box, store', chain', hget, howned', hfreed', hlength⟩ := howned.boxGet hnone hgiven
      simp only [hget] at hgo
      simp only at hlength
      refine ⟨chain', ?_⟩
      cases box with
      | none =>
        cases hgo
        refine ⟨good_running howned' hfreed' id (by simp), ?_⟩
        simp only [left, Pc.left, hfreed', hnone, List.length_nil]
        omega
      | some x =>
        cases hgo
        refine ⟨good_running howned' hfreed' id (by simp), ?_⟩
        simp only [left, Pc.left, hfreed', hnone, List.length_nil]
        omega
    · cases hgo
      refine ⟨chain, good_running howned hnone id (by simp), ?_⟩
      simp only [left, Pc.left]
      omega
  | retire i x =>
    have hlive : store.Live x := howned.live (List.mem_append_right chain List.mem_cons_self)
    simp only [reclaimRetire, if_pos hlive, Option.some.injEq] at hgo
    subst hgo
    refine ⟨chain, good_running howned (hfreed id) id (by simp), ?_⟩
    simp only [left, Pc.left, List.length_cons]
    omega
  | retiring i =>
    cases hgo
    refine ⟨chain, good_running howned (hfreed id) id (by simp), ?_⟩
    simp only [left, Pc.left]
    omega
  | drain =>
    simp only [reclaimRetire] at hgo
    split at hgo
    · rename_i hempty
      cases hgo
      refine ⟨chain, ⟨howned, by simp, by simp [Pc.Emptying], fun _ => hempty, by simp⟩, ?_⟩
      simp only [left, Pc.left]
      omega
    · cases hgo
  | free =>
    obtain rfl : retired = [] := hdrained trivial
    simp only [reclaimRetire] at hgo
    cases hpool : store.pool with
    | none =>
      simp only [hpool, Option.some.injEq] at hgo
      subst hgo
      refine ⟨chain, ⟨howned, by simp, by simp [Pc.Emptying], fun _ => rfl, fun _ => hpool⟩, ?_⟩
      simp only [left, Pc.left]
      omega
    | some x =>
      obtain ⟨store', rest, hfree, howned', hallocated, hlist⟩ := howned.freeHead hpool
      simp only [hpool, hfree, Option.some.injEq] at hgo
      subst hgo
      refine ⟨rest, ⟨howned', by simp, by simp [Pc.Emptying], fun _ => rfl, by simp⟩, ?_⟩
      have hroom := howned'.perm.length_eq
      simp only [List.length_append, hlist, hallocated, List.length_cons] at hroom
      simp only [left, Pc.left, hallocated, hlist, List.length_cons]
      omega
  | done => cases hgo
  | fault => cases hgo

theorem good_collect {x : α} (h : Good s chain) (hstep : step n (.collect x) s = some s') :
    ∃ chain', Good s' chain' ∧ left n s' < left n s := by
  obtain ⟨pc, store, retired⟩ := s
  obtain ⟨howned, hfault, hfreed, hdrained, hemptied⟩ := h
  simp only [step] at hstep
  split at hstep
  · rename_i hx
    have hout : (pc.held ++ retired).Perm (x :: (pc.held ++ retired.erase x)) :=
      ((List.perm_cons_erase hx).append_left pc.held).trans List.perm_middle
    obtain ⟨store', hfree, howned', hallocated, hlist⟩ := (howned.of_perm hout).boxFree
    have hrunning : ¬ pc.Emptying := by
      intro hemptying
      have hempty : retired = [] := hdrained hemptying
      rw [hempty] at hx
      cases hx
    simp only [hfree, Option.some.injEq] at hstep
    subst hstep
    refine ⟨x :: chain, good_running howned' (hlist.trans (hfreed hrunning)) hrunning hfault, ?_⟩
    have hlength := List.length_pos_of_mem hx
    simp only [left, hallocated, hlist, List.length_erase_of_mem hx]
    omega
  · cases hstep

theorem good_step {move : Move α} (h : Good s chain) (hstep : step n move s = some s') :
    ∃ chain', Good s' chain' ∧ left n s' < left n s := by
  cases move with
  | go given =>
    simp only [step] at hstep
    split at hstep
    · exact good_go h ‹_› hstep
    · cases hstep
  | collect x => exact good_collect h hstep

/-- Without a box from the allocator the program goes on, and in the drain the reclaimer does. -/
theorem good_progress (n : ℕ) (h : Good s chain) : s.pc = .done ∨ ∃ move, (step n move s).isSome := by
  obtain ⟨pc, store, retired⟩ := s
  have hgo : step n (.go none) ⟨pc, store, retired⟩ = reclaimRetire n none ⟨pc, store, retired⟩ := by
    simp [step]
  cases pc with
  | loop i =>
    refine .inr ⟨.go none, ?_⟩
    rw [hgo]
    simp only [reclaimRetire]
    split
    · split <;> rfl
    · rfl
  | retire i x =>
    refine .inr ⟨.go none, ?_⟩
    rw [hgo]
    simp only [reclaimRetire]
    split <;> rfl
  | retiring i => exact .inr ⟨.go none, rfl⟩
  | drain =>
    cases retired with
    | nil => exact .inr ⟨.go none, rfl⟩
    | cons x rest =>
      refine .inr ⟨.collect x, ?_⟩
      simp only [step, List.mem_cons_self, if_true]
      split <;> rfl
  | free =>
    refine .inr ⟨.go none, ?_⟩
    rw [hgo]
    simp only [reclaimRetire]
    split
    · rfl
    · split <;> rfl
  | done => exact .inl rfl
  | fault => exact absurd rfl h.no_fault

theorem terminates (n : ℕ) :
    Terminates (step (α := α) n) (fun s => ∃ chain, Good s chain) (fun s => s.pc = .done) (left n) where
  keep := by
    rintro move s s' ⟨chain, hs⟩ hstep
    obtain ⟨chain', hs', -⟩ := good_step hs hstep
    exact ⟨chain', hs'⟩
  lower := by
    rintro move s s' ⟨chain, hs⟩ hstep
    obtain ⟨-, -, hless⟩ := good_step hs hstep
    exact hless
  progress := fun s ⟨_, hs⟩ => good_progress n hs

/-- At every moment the pool and what is in flight are the boxes allocated and not freed, each
once. No run is longer than the bound, and one that cannot go on has freed every box once. -/
theorem pool_never_loses (n : ℕ) (reuse : α → Option α) {schedule : List (Move α)} {s : State α}
    (h : run (step n) schedule (start reuse) = some s) :
    (∃ chain, Linked s.store.reuse s.store.pool chain ∧ chain.Nodup ∧ chain.Disjoint s.inFlight ∧
      (chain ++ s.inFlight ++ s.store.freed).Perm s.store.allocated) ∧
    s.store.allocated.Nodup ∧ (¬ s.pc.Emptying → s.store.freed = []) ∧ s.pc ≠ .fault ∧
    schedule.length ≤ 5 * n + 3 ∧
    (s.pc = .done ∨ ∃ move, (step n move s).isSome) ∧
    (s.pc = .done → s.store.pool = none ∧ s.inFlight = [] ∧ s.store.freed.Perm s.store.allocated) := by
  obtain ⟨⟨chain, hgood⟩, hbound, hprogress⟩ := (terminates n).run_spec ⟨[], good_start reuse⟩ h
  have hdisjoint := List.disjoint_of_nodup_append (List.nodup_append.mp hgood.owned.nodup_all).1
  refine ⟨⟨chain, hgood.owned.linked, hgood.owned.linked.nodup, hdisjoint, hgood.owned.perm⟩,
    hgood.owned.nodup, hgood.freed, hgood.no_fault, by simpa [left, start, Pc.left] using hbound,
    hprogress, fun hdone => ?_⟩
  have hempty : s.inFlight = [] := by
    rw [State.inFlight, hgood.drained (hdone ▸ trivial), hdone]
    rfl
  have hpool := hgood.emptied hdone
  obtain rfl := linked_none_iff.mp (hpool ▸ hgood.owned.linked)
  have hperm := hgood.owned.perm
  rw [hempty] at hperm
  exact ⟨hpool, hempty, by simpa using hperm⟩

/-- One box serves two turns: it comes back in the first retire, and in the drain. -/
theorem pool_never_loses_two_turns : ∃ s : State ℕ,
    run (step 2) [.go (some 7), .go none, .collect 7, .go none, .go none, .go none, .go none, .go none,
      .collect 7, .go none, .go none, .go none] (start fun _ => none) = some s ∧
    s.store.pool = none ∧ s.store.freed.Perm s.store.allocated ∧ s.store.allocated = [7] := by
  have hrun : run (step 2) [.go (some 7), .go none, .collect 7, .go none, .go none, .go none, .go none,
      .go none, .collect 7, .go none, .go none, .go none] (start fun _ => none) = some _ := rfl
  have hend := (pool_never_loses 2 _ hrun).2.2.2.2.2.2 rfl
  exact ⟨_, hrun, hend.1, hend.2.2, rfl⟩

end

end BurrowBench.Workloads.Reclaim
