import BurrowBench.Foundation.Interleaving
import BurrowBench.Foundation.Tally
import BurrowBench.Scheduler.LaunchLoops

/-! # Contended locks

run_contended splits the iteration count over four workers, and the body of a row
launches them and yields until all four are counted. A launch that fails is counted as a
worker that is done, so that no failure hangs the row; it does none of its share. In
mutex_contended a lock waits for the holder, in rw_mutex_contended_read there are only
readers and none waits.
-/
namespace BurrowBench.Scheduler.Contended
open Interleaving Tally Harness

def mutexWorkers : ℕ := 4

/-- `b->n / MUTEX_WORKERS`, and at least one. -/
def each (n : ℕ) : ℕ := if n / mutexWorkers < 1 then 1 else n / mutexWorkers

inductive BodyPc where
  | launch (i : ℕ)
  | wait
  | paused
  deriving DecidableEq

inductive ChildPc where
  | loop (i : ℕ)
  | lock (i : ℕ)
  | unlock (i : ℕ)
  | add
  | returned
  deriving DecidableEq

/-- The children are those that were launched. `pairs` is a ghost, the lock and unlock
pairs that were performed. -/
structure State where
  body : BodyPc
  children : List ChildPc
  workersDone : ℕ
  holders : ℕ
  pairs : ℕ
  deriving DecidableEq

def start : State where
  body := .launch 0
  children := []
  workersDone := 0
  holders := 0
  pairs := 0

/-- mutex_contended_body and rw_contended_body. `go i` is whether launch i succeeds. -/
def contendedBody (go : ℕ → Bool) (s : State) : Option State :=
  match s.body with
  | .launch i =>
    if i < mutexWorkers then
      if go i then some { s with children := s.children ++ [.loop 0], body := .launch (i + 1) }
      else some { s with workersDone := s.workersDone + 1, body := .launch (i + 1) }
    else some { s with body := .wait }
  | .wait => some (if s.workersDone < mutexWorkers then s else { s with body := .paused })
  | .paused => none

/-- A worker of `share` iterations on a lock that excludes other holders or does not. -/
def contendedChild (exclusive : Bool) (share k : ℕ) (s : State) : Option State :=
  match s.children[k]? with
  | some (.loop i) => some { s with children := s.children.set k (if i < share then .lock i else .add) }
  | some (.lock i) =>
    if exclusive ∧ s.holders ≠ 0 then none
    else some { s with children := s.children.set k (.unlock i), holders := s.holders + 1 }
  | some (.unlock i) =>
    some { s with
      children := s.children.set k (.loop (i + 1)), holders := s.holders - 1, pairs := s.pairs + 1 }
  | some .add =>
    some { s with children := s.children.set k .returned, workersDone := s.workersDone + 1 }
  | some .returned | none => none

inductive Agent where
  | body
  | child (k : ℕ)
  deriving DecidableEq

def step (exclusive : Bool) (share : ℕ) (go : ℕ → Bool) : Agent → State → Option State
  | .body, s => contendedBody go s
  | .child k, s => contendedChild exclusive share k s

def mutexContended (n : ℕ) (go : ℕ → Bool) : Agent → State → Option State := step true (each n) go

def rwMutexContendedRead (n : ℕ) (go : ℕ → Bool) : Agent → State → Option State := step false (each n) go

/-- How many of the first i launches succeed. -/
def launched (go : ℕ → Bool) (i : ℕ) : ℕ := (List.range i).countP go

theorem launched_succ (go : ℕ → Bool) (i : ℕ) :
    launched go (i + 1) = launched go i + if go i then 1 else 0 := by
  simp [launched, List.range_succ, List.countP_singleton]

theorem launched_le (go : ℕ → Bool) (i : ℕ) : launched go i ≤ i :=
  List.countP_le_length.trans_eq List.length_range

/-! ## What is tallied -/

def BodyPc.issued : BodyPc → ℕ
  | .launch i => i
  | .wait | .paused => mutexWorkers

def finished : ChildPc → ℕ
  | .returned => 1
  | _ => 0

def holding : ChildPc → ℕ
  | .unlock _ => 1
  | _ => 0

def performed (share : ℕ) : ChildPc → ℕ
  | .loop i | .lock i | .unlock i => i
  | .add | .returned => share

def ChildPc.Within (share : ℕ) : ChildPc → Prop
  | .loop i => i ≤ share
  | .lock i | .unlock i => i < share
  | .add | .returned => True

/-- The shared counters are the tallies of the children, with a launch that failed
counted as done. -/
structure Tallied (share : ℕ) (go : ℕ → Bool) (s : State) : Prop where
  issued_le : s.body.issued ≤ mutexWorkers
  length_eq : s.children.length = launched go s.body.issued
  done : s.workersDone + launched go s.body.issued = tally finished s.children + s.body.issued
  holders : s.holders = tally holding s.children
  pairs : s.pairs = tally (performed share) s.children
  within : ∀ c ∈ s.children, c.Within share
  paused : s.body = .paused → mutexWorkers ≤ s.workersDone

variable {exclusive : Bool} {share : ℕ} {go : ℕ → Bool} {s s' : State} {k : ℕ} {c : ChildPc}

theorem tallied_start (share : ℕ) (go : ℕ → Bool) : Tallied share go start where
  issued_le := Nat.zero_le _
  length_eq := rfl
  done := rfl
  holders := rfl
  pairs := rfl
  within c hc := by cases hc
  paused h := by cases h

theorem tallied_body (hs : Tallied share go s) (h : contendedBody go s = some s') :
    Tallied share go s' := by
  obtain ⟨pc, children, done, holders, pairs⟩ := s
  obtain ⟨hissued, hlaunched, hdone, hholders, hpairs, hwithin, hpaused⟩ := hs
  dsimp only at *
  cases pc with
  | launch i =>
    have hnext := launched_succ go i
    unfold contendedBody at h
    dsimp only [BodyPc.issued] at h hissued hlaunched hdone
    split at h
    · split at h
      · rename_i hi hgo
        obtain rfl := Option.some.inj h
        simp only [hgo, if_true] at hnext
        refine ⟨hi, ?_, ?_, ?_, ?_, ?_, by simp⟩
        · simp [BodyPc.issued, hlaunched, hnext]
        · simp only [BodyPc.issued, tally_append_singleton, finished]
          omega
        · simpa [holding] using hholders
        · simpa [performed] using hpairs
        · intro c hc
          rcases List.mem_append.mp hc with hc | hc
          · exact hwithin c hc
          · obtain rfl := List.mem_singleton.mp hc
            exact Nat.zero_le _
      · rename_i hi hgo
        obtain rfl := Option.some.inj h
        simp only [hgo, Bool.false_eq_true, if_false, Nat.add_zero] at hnext
        refine ⟨hi, ?_, ?_, hholders, hpairs, hwithin, by simp⟩
        · simpa [BodyPc.issued, hnext] using hlaunched
        · simp only [BodyPc.issued]
          omega
    · obtain rfl := Option.some.inj h
      obtain rfl : i = mutexWorkers := by omega
      exact ⟨le_rfl, hlaunched, hdone, hholders, hpairs, hwithin, by simp⟩
  | wait =>
    obtain rfl := Option.some.inj h
    by_cases hlt : done < mutexWorkers
    · simp only [hlt, if_true]
      exact ⟨hissued, hlaunched, hdone, hholders, hpairs, hwithin, hpaused⟩
    · simp only [hlt, if_false]
      exact ⟨hissued, hlaunched, hdone, hholders, hpairs, hwithin, fun _ => Nat.le_of_not_lt hlt⟩
  | paused => cases h

/-- A child moves: the counters follow its share of each tally. -/
theorem Tallied.child_goto (hs : Tallied share go s) (hk : s.children[k]? = some c)
    (hc : finished c = 0) {c' : ChildPc} {done holders pairs : ℕ} (hdone : done = s.workersDone + finished c')
    (hholders : holders + holding c = s.holders + holding c')
    (hpairs : pairs + performed share c = s.pairs + performed share c') (hwithin : c'.Within share) :
    Tallied share go
      { s with children := s.children.set k c', workersDone := done, holders := holders, pairs := pairs } := by
  have hfinished := tally_set finished hk c'
  have hholding := tally_set holding hk c'
  have hperformed := tally_set (performed share) hk c'
  have hd := hs.done
  have hh := hs.holders
  have hp := hs.pairs
  refine ⟨hs.issued_le, ?_, ?_, ?_, ?_, ?_, ?_⟩
  · simpa using hs.length_eq
  · dsimp only
    omega
  · dsimp only
    omega
  · dsimp only
    omega
  · intro x hx
    rcases List.mem_or_eq_of_mem_set hx with hx | rfl
    · exact hs.within x hx
    · exact hwithin
  · intro hbody
    have hle := hs.paused hbody
    dsimp only
    omega

theorem Tallied.within_get (hs : Tallied share go s) (hk : s.children[k]? = some c) : c.Within share :=
  hs.within c (List.mem_of_getElem? hk)

theorem tallied_child (hs : Tallied share go s) (h : contendedChild exclusive share k s = some s') :
    Tallied share go s' := by
  unfold contendedChild at h
  split at h
  · rename_i i hk
    obtain rfl := Option.some.inj h
    have hi : i ≤ share := hs.within_get hk
    by_cases hlt : i < share
    · simp only [hlt, if_true]
      exact hs.child_goto hk rfl rfl rfl rfl hlt
    · simp only [hlt, if_false]
      obtain rfl : i = share := by omega
      exact hs.child_goto hk rfl rfl rfl rfl trivial
  · rename_i i hk
    split at h
    · cases h
    · obtain rfl := Option.some.inj h
      have hi : i < share := hs.within_get hk
      exact hs.child_goto hk rfl rfl rfl rfl hi
  · rename_i i hk
    obtain rfl := Option.some.inj h
    have hheld := le_tally holding (List.mem_of_getElem? hk)
    have hholders := hs.holders
    have hi : i < share := hs.within_get hk
    simp only [holding] at hheld
    refine hs.child_goto hk rfl rfl ?_ ?_ (Nat.succ_le_of_lt hi)
    · simp only [holding]
      omega
    · simp only [performed]
      omega
  · rename_i hk
    obtain rfl := Option.some.inj h
    exact hs.child_goto hk rfl rfl rfl rfl trivial
  · cases h
  · cases h

theorem tallied_step {a : Agent} (hs : Tallied share go s) (h : step exclusive share go a s = some s') :
    Tallied share go s' := by
  cases a with
  | body => exact tallied_body hs h
  | child k => exact tallied_child hs h

theorem tallied_run {schedule : List Agent} (h : run (step exclusive share go) schedule start = some s) :
    Tallied share go s :=
  run_invariant (fun _ _ _ => tallied_step) (tallied_start share go) h

/-! ## The rows -/

theorem finished_le_one (c : ChildPc) : finished c ≤ 1 := by
  cases c <;> simp [finished]

/-- A row that has stopped its clock has had every worker it launched do all of its share. -/
theorem Tallied.pairs_of_paused (hs : Tallied share go s) (hpaused : s.body = .paused) :
    s.pairs = share * launched go mutexWorkers := by
  have hdone := hs.done
  have hlength := hs.length_eq
  have hle := hs.paused hpaused
  rw [hpaused, BodyPc.issued] at hdone hlength
  have hall := eq_one_of_length_le finished finished_le_one (l := s.children) (by omega)
  have hshare : ∀ c ∈ s.children, performed share c = share := by
    intro c hc
    have hreturned := hall c hc
    cases c <;> simp_all [finished, performed]
  rw [hs.pairs, tally_eq_mul _ hshare, hlength]

/-- A child that has not returned moves on, unless it waits for a holder. -/
theorem child_moves (hk : s.children[k]? = some c) (hc : c ≠ .returned)
    (hfree : s.holders = 0 ∨ ∀ i, c ≠ .lock i) :
    ∃ s', contendedChild exclusive share k s = some s' ∧ s' ≠ s := by
  have hlt := (List.getElem?_eq_some_iff.mp hk).1
  have hmoved : ∀ s' : State, s'.children[k]? ≠ some c → s' ≠ s := fun s' hne heq => hne (heq ▸ hk)
  cases c with
  | loop i =>
    simp only [contendedChild, hk]
    refine ⟨_, rfl, hmoved _ ?_⟩
    simp only [List.getElem?_set_self hlt]
    split <;> simp
  | lock i =>
    have hzero := hfree.resolve_right fun h => h i rfl
    simp only [contendedChild, hk, hzero, ne_eq, not_true, and_false, if_false]
    exact ⟨_, rfl, hmoved _ (by simp [hlt])⟩
  | unlock i =>
    simp only [contendedChild, hk]
    exact ⟨_, rfl, hmoved _ (by simp [hlt])⟩
  | add =>
    simp only [contendedChild, hk]
    exact ⟨_, rfl, hmoved _ (by simp [hlt])⟩
  | returned => exact absurd rfl hc

/-- Where a worker is not done some worker moves: the holder if there is one. -/
theorem Tallied.some_child_moves (hs : Tallied share go s) (exclusive : Bool)
    (h : tally finished s.children < s.children.length) :
    ∃ k s', contendedChild exclusive share k s = some s' ∧ s' ≠ s := by
  by_cases hheld : ∃ c ∈ s.children, holding c ≠ 0
  · obtain ⟨c, hc, hholds⟩ := hheld
    obtain ⟨k, hk⟩ := List.mem_iff_getElem?.mp hc
    have hunlock : c ≠ .returned ∧ ∀ i, c ≠ .lock i := by
      cases c <;> simp_all [holding]
    exact ⟨k, child_moves hk hunlock.1 (Or.inr hunlock.2)⟩
  · have hzero : s.holders = 0 := by
      have hnone : ∀ c ∈ s.children, holding c = 0 := by
        intro c hc
        by_contra hne
        exact hheld ⟨c, hc, hne⟩
      rw [hs.holders, tally_eq_mul _ hnone, Nat.zero_mul]
    have hrunning : ∃ c ∈ s.children, c ≠ .returned := by
      by_contra hnone
      have hall : ∀ c ∈ s.children, finished c = 1 := by
        intro c hc
        by_contra hne
        exact hnone ⟨c, hc, fun heq => hne (by rw [heq, finished])⟩
      rw [tally_eq_mul _ hall] at h
      omega
    obtain ⟨c, hc, hne⟩ := hrunning
    obtain ⟨k, hk⟩ := List.mem_iff_getElem?.mp hc
    exact ⟨k, child_moves hk hne (Or.inl hzero)⟩

/-- Short of the end some step leads on: no failed launch leaves the body waiting for a
worker that does not exist. -/
theorem Tallied.moves (hs : Tallied share go s) (hrunning : s.body ≠ .paused) :
    ∃ a s', step exclusive share go a s = some s' ∧ s' ≠ s := by
  have hmoved : ∀ s' : State, s'.body ≠ s.body → s' ≠ s := fun s' hne heq => hne (heq ▸ rfl)
  cases hbody : s.body with
  | launch i =>
    refine ⟨.body, ?_⟩
    simp only [step, contendedBody, hbody]
    split
    · split <;> exact ⟨_, rfl, hmoved _ (by simp [hbody])⟩
    · exact ⟨_, rfl, hmoved _ (by simp [hbody])⟩
  | wait =>
    by_cases hdone : s.workersDone < mutexWorkers
    · have htally := hs.done
      have hlength := hs.length_eq
      rw [hbody, BodyPc.issued] at htally hlength
      obtain ⟨k, s', hstep, hne⟩ := hs.some_child_moves exclusive (by omega)
      exact ⟨.child k, s', hstep, hne⟩
    · refine ⟨.body, ?_⟩
      simp only [step, contendedBody, hbody, hdone, if_false]
      exact ⟨_, rfl, hmoved _ (by simp [hbody])⟩
  | paused => exact absurd hbody hrunning

/-! ## How far it is to the end -/

def ChildPc.left (share : ℕ) : ChildPc → ℕ
  | .loop i => 3 * (share - i) + 2
  | .lock i => 3 * (share - i) + 1
  | .unlock i => 3 * (share - i)
  | .add => 1
  | .returned => 0

def BodyPc.left (share : ℕ) : BodyPc → ℕ
  | .launch i => (mutexWorkers - i) * (3 * share + 3) + 2
  | .wait => 1
  | .paused => 0

def stepsLeft (share : ℕ) (s : State) : ℕ := s.body.left share + tally (ChildPc.left share) s.children

theorem Tallied.child_lowers (hs : Tallied share go s) (h : contendedChild exclusive share k s = some s') :
    stepsLeft share s' < stepsLeft share s := by
  have hset : ∀ c c' : ChildPc, s.children[k]? = some c → c'.left share < c.left share →
      tally (ChildPc.left share) (s.children.set k c') < tally (ChildPc.left share) s.children := by
    intro c c' hk hlt
    have hmoved := tally_set (ChildPc.left share) hk c'
    omega
  unfold contendedChild at h
  split at h
  · rename_i i hk
    obtain rfl := Option.some.inj h
    refine Nat.add_lt_add_left (hset _ _ hk ?_) _
    split <;> simp only [ChildPc.left] <;> omega
  · rename_i i hk
    split at h
    · cases h
    · obtain rfl := Option.some.inj h
      refine Nat.add_lt_add_left (hset _ _ hk ?_) _
      simp only [ChildPc.left]
      omega
  · rename_i i hk
    obtain rfl := Option.some.inj h
    have hi : i < share := hs.within_get hk
    refine Nat.add_lt_add_left (hset _ _ hk ?_) _
    simp only [ChildPc.left]
    omega
  · rename_i hk
    obtain rfl := Option.some.inj h
    exact Nat.add_lt_add_left (hset _ .returned hk Nat.zero_lt_one) _
  · cases h
  · cases h

theorem body_lowers (h : contendedBody go s = some s') (hne : s' ≠ s) :
    stepsLeft share s' < stepsLeft share s := by
  obtain ⟨pc, children, done, holders, pairs⟩ := s
  cases pc with
  | launch i =>
    unfold contendedBody at h
    dsimp only at h
    split at h
    · rename_i hi
      have hworker : (mutexWorkers - i) * (3 * share + 3) =
          (mutexWorkers - (i + 1)) * (3 * share + 3) + (3 * share + 3) := by
        rw [← Nat.succ_mul]
        congr 1
        omega
      split at h
      · obtain rfl := Option.some.inj h
        simp only [stepsLeft, BodyPc.left, tally_append_singleton, ChildPc.left]
        omega
      · obtain rfl := Option.some.inj h
        simp only [stepsLeft, BodyPc.left]
        omega
    · obtain rfl := Option.some.inj h
      simp only [stepsLeft, BodyPc.left]
      omega
  | wait =>
    obtain rfl := Option.some.inj h
    dsimp only at hne ⊢
    split at hne
    · exact absurd rfl hne
    · rename_i hdone
      simp [stepsLeft, BodyPc.left, hdone]
  | paused => cases h

theorem Tallied.lowers {a : Agent} (hs : Tallied share go s) (h : step exclusive share go a s = some s')
    (hne : s' ≠ s) : stepsLeft share s' < stepsLeft share s := by
  cases a with
  | body => exact body_lowers h hne
  | child k => exact hs.child_lowers h

/-- Whichever launches fail, the row comes to its end. -/
theorem contended_ends {schedule : List Agent} (h : run (step exclusive share go) schedule start = some s) :
    (∃ s', Reaches (step exclusive share go) s s' ∧ s'.body = .paused) ∧
    changes (step exclusive share go) schedule start ≤ 12 * share + 14 := by
  have hstart := tallied_start share go
  constructor
  · have hmoves : ∀ s, Tallied share go s → s.body = .paused ∨
        ∃ a s', step exclusive share go a s = some s' ∧ s' ≠ s :=
      fun s hs => or_iff_not_imp_left.mpr hs.moves
    obtain ⟨s', hreaches, _, hend⟩ := reaches_of_moves (fun _ _ _ => tallied_step)
      (fun _ _ _ => Tallied.lowers) hmoves (tallied_run h)
    exact ⟨s', hreaches, hend⟩
  · have hbound : changes (step exclusive share go) schedule start ≤ stepsLeft share start :=
      changes_le (fun _ _ _ => tallied_step) (fun _ _ _ => Tallied.lowers) schedule hstart
    have hleft : stepsLeft share start = 12 * share + 14 := by
      simp only [stepsLeft, start, BodyPc.left, mutexWorkers, tally_nil]
      omega
    exact hleft ▸ hbound

theorem each_mul_eq_iff {n ok : ℕ} (hn : 1 ≤ n) (hok : ok ≤ mutexWorkers) :
    each n * ok = n ↔ (mutexWorkers ∣ n ∧ ok = mutexWorkers) ∨ (n < mutexWorkers ∧ ok = n) := by
  unfold each mutexWorkers at *
  split
  · omega
  · rcases Nat.lt_or_ge ok 4 with hlt | hge
    · have hshort : n / 4 * ok ≤ n / 4 * 3 := Nat.mul_le_mul_left _ (Nat.le_of_lt_succ hlt)
      omega
    · obtain rfl : ok = 4 := Nat.le_antisymm hok hge
      omega

theorem contended_pairs {n : ℕ} (hn : 1 ≤ n) {schedule : List Agent}
    (h : run (step exclusive (each n) go) schedule start = some s) (hpaused : s.body = .paused) :
    s.pairs = each n * launched go mutexWorkers ∧
    (s.pairs = n ↔ (mutexWorkers ∣ n ∧ launched go mutexWorkers = mutexWorkers) ∨
      (n < mutexWorkers ∧ launched go mutexWorkers = n)) := by
  have hpairs := (tallied_run h).pairs_of_paused hpaused
  exact ⟨hpairs, hpairs ▸ each_mul_eq_iff hn (launched_le go mutexWorkers)⟩

/-- The timed part of a contended row is what its body does between resume and pause. -/
def runContended (before spent after : ℕ) : BenchFunc := fun _ => inRuntime before [.advance spent] after

theorem timedOf_runContended (before spent after n : ℕ) :
    timedOf (runContended before spent after n) = spent := by
  have hfree : PauseFree [.advance spent] := by simp [PauseFree]
  rw [runContended, timedOf_inRuntime hfree, elapsedOf_advance]

theorem contended_row {n : ℕ} (hn : 1 ≤ n) {schedule : List Agent}
    (h : run (step exclusive (each n) go) schedule start = some s) :
    (∃ s', Reaches (step exclusive (each n) go) s s' ∧ s'.body = .paused) ∧
    changes (step exclusive (each n) go) schedule start ≤ 12 * each n + 14 ∧
    (s.body = .paused → s.pairs = each n * launched go mutexWorkers ∧
      (s.pairs = n ↔ (mutexWorkers ∣ n ∧ launched go mutexWorkers = mutexWorkers) ∨
        (n < mutexWorkers ∧ launched go mutexWorkers = n))) :=
  ⟨(contended_ends h).1, (contended_ends h).2, contended_pairs hn h⟩

/-- Whichever launches fail, a contended row gets to its end, and a sample is the time of what
was done over n. A contended row performs n pairs when every worker was launched and n splits
evenly, or when n is below four and n workers were; a loop that launches performs the iterations
before the first launch that fails. -/
theorem divisor_is_work_iff (n : ℕ) (hn : 1 ≤ n) :
    (∀ (go : ℕ → Bool) (row : Agent → State → Option State),
      row = mutexContended n go ∨ row = rwMutexContendedRead n go →
      ∀ schedule s, run row schedule start = some s →
        (∃ s', Reaches row s s' ∧ s'.body = .paused) ∧
        changes row schedule start ≤ 12 * each n + 14 ∧
        (s.body = .paused → s.pairs = each n * launched go mutexWorkers ∧
          (s.pairs = n ↔ (mutexWorkers ∣ n ∧ launched go mutexWorkers = mutexWorkers) ∨
            (n < mutexWorkers ∧ launched go mutexWorkers = n)))) ∧
    (∀ (launch : ℕ → Bool) (attempt rest : ℕ → ℕ),
      let r := launchLoop launch attempt rest n 0
      (∀ i < r.2, launch i) ∧ (r.2 < n → launch r.2 = false) ∧ (r.2 = n ↔ ∀ i < n, launch i) ∧
      elapsedOf r.1 = ((List.range r.2).map fun i => attempt i + rest i).sum +
        if r.2 < n then attempt r.2 else 0) ∧
    ∀ (name : Text) (clock : ℤ) (before after setup teardown : ℕ),
      (∀ spent : ℕ,
        perOp (runMeasured ⟨name, runContended setup spent teardown⟩ n clock before after).1.ns n =
          (spent : ℚ) / n) ∧
      ∀ (launch : ℕ → Bool) (attempt rest : ℕ → ℕ),
        perOp (runMeasured ⟨name, goroutineStart launch attempt rest setup teardown⟩
            n clock before after).1.ns n =
          (elapsedOf (launchLoop launch attempt rest n 0).1 : ℚ) / n ∧
        perOp (runMeasured ⟨name, threadStartJoin launch attempt rest teardown⟩
            n clock before after).1.ns n =
          (elapsedOf (launchLoop launch attempt rest n 0).1 + teardown : ℚ) / n := by
  refine ⟨?_, fun launch attempt rest => ?_, ?_⟩
  · rintro go row (rfl | rfl) schedule s h
    · exact contended_row hn h
    · exact contended_row hn h
  · refine ⟨fun i hi => ?_, fun hlt => ?_, launchLoop_eq_iff n, (elapsedOf_launchLoop n 0).trans ?_⟩
    · simpa using launch_of_lt hi
    · simpa using launch_of_stopped hlt
    · simp only [Nat.zero_add]
  · intro name clock before after setup teardown
    refine ⟨fun spent => ?_, fun launch attempt rest => ⟨?_, ?_⟩⟩
    · rw [sample_eq hn, timedOf_runContended, Int.cast_natCast]
    · rw [sample_eq hn, timedOf_goroutineStart]
    · rw [sample_eq hn, timedOf_threadStartJoin, Int.cast_add, Int.cast_natCast]

/-- Five iterations with every launch a success, one worker after the other. -/
def fiveSchedule : List Agent :=
  List.replicate 5 .body ++ (List.range mutexWorkers).flatMap (fun k => List.replicate 5 (.child k)) ++ [.body]

def fiveDone : State where
  body := .paused
  children := List.replicate mutexWorkers .returned
  workersDone := mutexWorkers
  holders := 0
  pairs := 4

theorem divisor_is_work_iff_five :
    fiveDone.pairs = each 5 * launched (fun _ => true) mutexWorkers ∧
    (fiveDone.pairs = 5 ↔ (mutexWorkers ∣ 5 ∧ launched (fun _ => true) mutexWorkers = mutexWorkers) ∨
      (5 < mutexWorkers ∧ launched (fun _ => true) mutexWorkers = 5)) :=
  ((divisor_is_work_iff 5 (by decide)).1 (fun _ => true) _ (Or.inl rfl) fiveSchedule fiveDone
    (by decide)).2.2 rfl

/-- A count that does not split evenly is not performed in full, and neither is one whose
first launch fails. -/
theorem divisor_is_not_work :
    (¬ ∀ n, 1 ≤ n → ∀ (go : ℕ → Bool) (schedule : List Agent) (s : State),
      run (mutexContended n go) schedule start = some s → s.body = .paused → s.pairs = n) ∧
    ¬ ∀ n, 1 ≤ n → ∀ (launch : ℕ → Bool) (attempt rest : ℕ → ℕ),
      (launchLoop launch attempt rest n 0).2 = n := by
  constructor
  · intro h
    exact absurd (h 5 (by decide) (fun _ => true) fiveSchedule fiveDone (by decide) rfl) (by decide)
  · intro h
    exact absurd (h 1 (by decide) (fun _ => false) (fun _ => 0) fun _ => 0) (by decide)

end BurrowBench.Scheduler.Contended
