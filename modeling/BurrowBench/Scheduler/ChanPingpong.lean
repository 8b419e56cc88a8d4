import BurrowBench.Scheduler.Gate
import Mathlib.Data.Int.Notation

/-! # The ping pong over two channels

pingpong sends on c1 and receives on c2, pingpong_child the other way round. A channel
is a queue of bounded length; a send on one without room, or with a receiver waiting,
hands its value over in one step. The start is after a successful launch of the child.
-/
namespace BurrowBench.Scheduler.ChanPingpong
open Interleaving

/-- A value on a channel. The ghost is the number of sends on c1 before its own. -/
structure Message where
  value : ℤ
  number : ℕ
  deriving DecidableEq

inductive MainPc where
  | loop (i : ℕ)
  | send (r : Round)
  | recv (i : ℕ)
  | stop
  | poll
  | freeC1
  | freeC2
  | returned
  deriving DecidableEq

/-- Where pingpong_child stands, with the value it has received. -/
inductive ChildPc where
  | recv
  | load (m : Message)
  | send (m : Message)
  | leave (m : Message)
  | returned
  deriving DecidableEq

/-- The channels, the shared variables and both goroutines. Two fields are ghosts: the
number of sends on c1 and what main has received. -/
structure State where
  main : MainPc
  child : ChildPc
  c1 : List Message
  c2 : List Message
  stop : Bool
  gone : ℕ
  sent : ℕ
  replies : List Message
  deriving DecidableEq

def start : State where
  main := .loop 0
  child := .recv
  c1 := []
  c2 := []
  stop := false
  gone := 0
  sent := 0
  replies := []

def value : Round → ℤ
  | .timed _ => 1
  | .shutdown => 0

def afterSend : Round → MainPc
  | .timed i => .recv i
  | .shutdown => .poll

def mainStep (cap n : ℕ) (s : State) : Option State :=
  match s.main with
  | .loop i => some { s with main := if i < n then .send (.timed i) else .stop }
  | .send r =>
    if s.c1.length < cap then
      some { s with c1 := s.c1 ++ [⟨value r, s.sent⟩], sent := s.sent + 1, main := afterSend r }
    else none
  | .recv i =>
    match s.c2 with
    | [] => none
    | m :: rest => some { s with c2 := rest, replies := s.replies ++ [m], main := .loop (i + 1) }
  | .stop => some { s with stop := true, main := .send .shutdown }
  | .poll => some (if s.gone = 0 then s else { s with main := .freeC1 })
  | .freeC1 => some { s with main := .freeC2 }
  | .freeC2 => some { s with main := .returned }
  | .returned => none

def childStep (cap : ℕ) (s : State) : Option State :=
  match s.child with
  | .recv =>
    match s.c1 with
    | [] => none
    | m :: rest => some { s with c1 := rest, child := .load m }
  | .load m => some { s with child := if s.stop then .leave m else .send m }
  | .send m => if s.c2.length < cap then some { s with c2 := s.c2 ++ [m], child := .recv } else none
  | .leave _ => some { s with gone := s.gone + 1, child := .returned }
  | .returned => none

/-- A value goes straight from a sender to a receiver on an empty channel. -/
def handOver (s : State) : Option State :=
  match s.main, s.child with
  | .send r, .recv =>
    if s.c1 = [] then
      some { s with sent := s.sent + 1, main := afterSend r, child := .load ⟨value r, s.sent⟩ }
    else none
  | .recv i, .send m =>
    if s.c2 = [] then
      some { s with replies := s.replies ++ [m], main := .loop (i + 1), child := .recv }
    else none
  | _, _ => none

inductive Agent where
  | main
  | child
  | both
  deriving DecidableEq

def step (cap n : ℕ) : Agent → State → Option State
  | .main, s => mainStep cap n s
  | .child, s => childStep cap s
  | .both, s => handOver s

def reply (k : ℕ) : Message := ⟨1, k⟩

/-- Where a ping pong of n rounds ends. -/
def final (n : ℕ) : State where
  main := .returned
  child := .returned
  c1 := []
  c2 := []
  stop := true
  gone := 1
  sent := n + 1
  replies := (List.range n).map reply

/-! ## The phases of a round -/

/-- Main is ahead of its send, the value is in c1, the child reads the stop flag or
answers, the answer is in c2; the child leaves, and has left. -/
inductive Phase where
  | ahead (pc : MainPc)
  | sent (r : Round)
  | reading (r : Round)
  | answering (i : ℕ)
  | answered (i : ℕ)
  | leaving
  | finished (pc : MainPc)
  deriving DecidableEq

/-- How many rounds are over when main is ahead of a send. -/
@[simp] def completed (n : ℕ) : MainPc → ℕ
  | .loop i => i
  | .send r => r.index n
  | _ => n

def message (n : ℕ) (r : Round) : Message := ⟨value r, r.index n⟩

@[simp] def Phase.state (n : ℕ) : Phase → State
  | .ahead pc =>
    { main := pc, child := .recv, c1 := [], c2 := [], stop := pc = .send .shutdown, gone := 0
      sent := completed n pc, replies := (List.range (completed n pc)).map reply }
  | .sent r =>
    { main := afterSend r, child := .recv, c1 := [message n r], c2 := [], stop := r = .shutdown, gone := 0
      sent := r.index n + 1, replies := (List.range (r.index n)).map reply }
  | .reading r =>
    { main := afterSend r, child := .load (message n r), c1 := [], c2 := [], stop := r = .shutdown
      gone := 0, sent := r.index n + 1, replies := (List.range (r.index n)).map reply }
  | .answering i =>
    { main := .recv i, child := .send (reply i), c1 := [], c2 := [], stop := false, gone := 0
      sent := i + 1, replies := (List.range i).map reply }
  | .answered i =>
    { main := .recv i, child := .recv, c1 := [], c2 := [reply i], stop := false, gone := 0
      sent := i + 1, replies := (List.range i).map reply }
  | .leaving =>
    { main := .poll, child := .leave (message n .shutdown), c1 := [], c2 := [], stop := true, gone := 0
      sent := n + 1, replies := (List.range n).map reply }
  | .finished pc =>
    { main := pc, child := .returned, c1 := [], c2 := [], stop := true, gone := 1
      sent := n + 1, replies := (List.range n).map reply }

@[simp] def Ahead (n : ℕ) : MainPc → Prop
  | .loop i => i ≤ n
  | .send r => r.Within n
  | .stop => True
  | _ => False

@[simp] def Finished : MainPc → Prop
  | .poll | .freeC1 | .freeC2 | .returned => True
  | _ => False

@[simp] def Phase.Valid (n : ℕ) : Phase → Prop
  | .ahead pc => Ahead n pc
  | .sent r | .reading r => r.Within n
  | .answering i | .answered i => i < n
  | .leaving => True
  | .finished pc => Finished pc

def mainPhase (cap n : ℕ) : Phase → Option Phase
  | .ahead (.loop i) => some (.ahead (if i < n then .send (.timed i) else .stop))
  | .ahead (.send r) => if 0 < cap then some (.sent r) else none
  | .ahead .stop => some (.ahead (.send .shutdown))
  | .sent .shutdown => some (.sent .shutdown)
  | .reading .shutdown => some (.reading .shutdown)
  | .answered i => some (.ahead (.loop (i + 1)))
  | .leaving => some .leaving
  | .finished .poll => some (.finished .freeC1)
  | .finished .freeC1 => some (.finished .freeC2)
  | .finished .freeC2 => some (.finished .returned)
  | _ => none

def childPhase (cap : ℕ) : Phase → Option Phase
  | .sent r => some (.reading r)
  | .reading (.timed i) => some (.answering i)
  | .reading .shutdown => some .leaving
  | .answering i => if 0 < cap then some (.answered i) else none
  | .leaving => some (.finished .poll)
  | _ => none

def bothPhase : Phase → Option Phase
  | .ahead (.send r) => some (.reading r)
  | .answering i => some (.ahead (.loop (i + 1)))
  | _ => none

def phaseStep (cap n : ℕ) : Agent → Phase → Option Phase
  | .main, p => mainPhase cap n p
  | .child, p => childPhase cap p
  | .both, p => bothPhase p

variable {cap n : ℕ} {p p' : Phase}

theorem mainPhase_valid (hp : p.Valid n) (h : mainPhase cap n p = some p') : p'.Valid n := by
  unfold mainPhase at h
  split at h
  · obtain rfl := Option.some.inj h
    split <;> simp [Round.Within, *]
  · split at h
    · exact Option.some.inj h ▸ hp
    · cases h
  · obtain rfl := Option.some.inj h
    trivial
  · exact Option.some.inj h ▸ hp
  · exact Option.some.inj h ▸ hp
  · exact Option.some.inj h ▸ hp
  · exact Option.some.inj h ▸ hp
  · exact Option.some.inj h ▸ hp
  · exact Option.some.inj h ▸ hp
  · exact Option.some.inj h ▸ hp
  · cases h

theorem childPhase_valid (hp : p.Valid n) (h : childPhase cap p = some p') : p'.Valid n := by
  unfold childPhase at h
  split at h
  · exact Option.some.inj h ▸ hp
  · exact Option.some.inj h ▸ hp
  · exact Option.some.inj h ▸ hp
  · split at h
    · exact Option.some.inj h ▸ hp
    · cases h
  · obtain rfl := Option.some.inj h
    trivial
  · cases h

theorem bothPhase_valid (hp : p.Valid n) (h : bothPhase p = some p') : p'.Valid n := by
  unfold bothPhase at h
  split at h
  · exact Option.some.inj h ▸ hp
  · exact Option.some.inj h ▸ hp
  · cases h

theorem mainStep_state (hp : p.Valid n) :
    mainStep cap n (p.state n) = (mainPhase cap n p).map (Phase.state n) := by
  cases p with
  | ahead pc =>
    cases pc with
    | loop i =>
      have hi : i ≤ n := hp
      by_cases hin : i < n
      · simp [mainStep, mainPhase, hin, Round.index]
      · obtain rfl : i = n := by omega
        simp [mainStep, mainPhase]
    | send r =>
      by_cases hcap : 0 < cap
      · simp [mainStep, mainPhase, hcap, message]
      · simp [mainStep, mainPhase, hcap]
    | stop => simp [mainStep, mainPhase, Round.index]
    | _ => exact absurd hp id
  | sent r => cases r <;> simp [mainStep, mainPhase, afterSend]
  | reading r => cases r <;> simp [mainStep, mainPhase, afterSend]
  | answering i => simp [mainStep, mainPhase]
  | answered i => simp [mainStep, mainPhase, List.range_succ]
  | leaving => simp [mainStep, mainPhase]
  | finished pc => cases pc <;> simp_all [mainStep, mainPhase]

theorem childStep_state (hp : p.Valid n) :
    childStep cap (p.state n) = (childPhase cap p).map (Phase.state n) := by
  cases p with
  | ahead pc => simp [childStep, childPhase]
  | sent r => simp [childStep, childPhase]
  | reading r => cases r <;> simp [childStep, childPhase, afterSend, Round.index, message, reply, value]
  | answering i =>
    by_cases hcap : 0 < cap <;> simp [childStep, childPhase, hcap]
  | answered i => simp [childStep, childPhase]
  | leaving => simp [childStep, childPhase]
  | finished pc => simp [childStep, childPhase]

theorem handOver_state (hp : p.Valid n) : handOver (p.state n) = (bothPhase p).map (Phase.state n) := by
  cases p with
  | ahead pc => cases pc <;> simp_all [handOver, bothPhase, message]
  | sent r => cases r <;> simp [handOver, bothPhase, afterSend]
  | reading r => cases r <;> simp [handOver, bothPhase, afterSend]
  | answering i => simp [handOver, bothPhase, List.range_succ]
  | answered i => simp [handOver, bothPhase]
  | leaving => simp [handOver, bothPhase]
  | finished pc => cases pc <;> simp_all [handOver, bothPhase]

def phases (cap n : ℕ) : Abstraction (step cap n) (phaseStep cap n) where
  state := Phase.state n
  Valid := Phase.Valid n
  valid
    | .main, _, _, hp, h => mainPhase_valid hp h
    | .child, _, _, hp, h => childPhase_valid hp h
    | .both, _, _, hp, h => bothPhase_valid hp h
  step_state
    | .main, _, hp => mainStep_state hp
    | .child, _, hp => childStep_state hp
    | .both, _, hp => handOver_state hp

theorem covers_start (cap n : ℕ) : (phases cap n).Covers start :=
  ⟨.ahead (.loop 0), Nat.zero_le n, by simp [phases, start]⟩

/-! ## Progress -/

@[simp] def mainLeft (n : ℕ) : MainPc → ℕ
  | .loop i => 8 * (n - i) + 12
  | .send (.timed i) => 8 * (n - i) + 11
  | .recv i => 8 * (n - i) + 6
  | .stop => 11
  | .send .shutdown => 10
  | .poll => 4
  | .freeC1 => 3
  | .freeC2 => 2
  | .returned => 0

@[simp] def childLeft : ChildPc → ℕ
  | .load _ => 3
  | .send _ => 2
  | .leave _ => 1
  | _ => 0

def stepsLeft (n : ℕ) (s : State) : ℕ :=
  mainLeft n s.main + childLeft s.child + 4 * s.c1.length + s.c2.length

/-- A step of main brings the end nearer, or was a poll that found nothing. -/
theorem mainPhase_lowers (hp : p.Valid n) (h : mainPhase cap n p = some p') :
    p' = p ∨ stepsLeft n (p'.state n) < stepsLeft n (p.state n) := by
  unfold mainPhase at h
  split at h
  · right
    obtain rfl := Option.some.inj h
    split <;> simp [stepsLeft]
  · right
    split at h
    · obtain rfl := Option.some.inj h
      rename_i r _
      cases r <;> simp [stepsLeft, afterSend]
    · cases h
  · right
    obtain rfl := Option.some.inj h
    simp [stepsLeft]
  · exact Or.inl (Option.some.inj h).symm
  · exact Or.inl (Option.some.inj h).symm
  · right
    rename_i i
    have hi : i < n := hp
    obtain rfl := Option.some.inj h
    simp [stepsLeft]
    omega
  · exact Or.inl (Option.some.inj h).symm
  · right
    obtain rfl := Option.some.inj h
    simp [stepsLeft]
  · right
    obtain rfl := Option.some.inj h
    simp [stepsLeft]
  · right
    obtain rfl := Option.some.inj h
    simp [stepsLeft]
  · cases h

theorem childPhase_lowers (h : childPhase cap p = some p') :
    stepsLeft n (p'.state n) < stepsLeft n (p.state n) := by
  unfold childPhase at h
  split at h
  · obtain rfl := Option.some.inj h
    simp [stepsLeft]
  · obtain rfl := Option.some.inj h
    simp [stepsLeft, afterSend]
  · obtain rfl := Option.some.inj h
    simp [stepsLeft, afterSend]
  · split at h
    · obtain rfl := Option.some.inj h
      simp [stepsLeft]
    · cases h
  · obtain rfl := Option.some.inj h
    simp [stepsLeft]
  · cases h

theorem bothPhase_lowers (hp : p.Valid n) (h : bothPhase p = some p') :
    stepsLeft n (p'.state n) < stepsLeft n (p.state n) := by
  unfold bothPhase at h
  split at h
  · obtain rfl := Option.some.inj h
    rename_i r
    cases r <;> simp [stepsLeft, afterSend]
  · rename_i i
    have hi : i < n := hp
    obtain rfl := Option.some.inj h
    simp [stepsLeft]
    omega
  · cases h

theorem step_lowers {a : Agent} {s s' : State} (hs : (phases cap n).Covers s)
    (h : step cap n a s = some s') (hne : s' ≠ s) : stepsLeft n s' < stepsLeft n s := by
  obtain ⟨p, hp, rfl⟩ := hs
  have hstep := (phases cap n).step_state a p hp
  change step cap n a (p.state n) = some s' at h
  change step cap n a (p.state n) = (phaseStep cap n a p).map (Phase.state n) at hstep
  rw [h] at hstep
  obtain ⟨p', hp', rfl⟩ := Option.map_eq_some_iff.mp hstep.symm
  cases a with
  | main =>
    rcases mainPhase_lowers hp hp' with rfl | hlt
    · exact absurd rfl hne
    · exact hlt
  | child => exact childPhase_lowers hp'
  | both => exact bothPhase_lowers hp hp'

/-- Short of the end some step brings it nearer. -/
theorem Phase.moves (cap : ℕ) (hp : p.Valid n) :
    p = .finished .returned ∨ ∃ a p', phaseStep cap n a p = some p' ∧
      stepsLeft n (p'.state n) < stepsLeft n (p.state n) := by
  have hmain : ∀ {p'}, mainPhase cap n p = some p' → p' ≠ p → ∃ a p', phaseStep cap n a p = some p' ∧
      stepsLeft n (p'.state n) < stepsLeft n (p.state n) :=
    fun h hne => ⟨.main, _, h, (mainPhase_lowers hp h).resolve_left hne⟩
  have hchild : ∀ {p'}, childPhase cap p = some p' → ∃ a p', phaseStep cap n a p = some p' ∧
      stepsLeft n (p'.state n) < stepsLeft n (p.state n) :=
    fun h => ⟨.child, _, h, childPhase_lowers h⟩
  have hboth : ∀ {p'}, bothPhase p = some p' → ∃ a p', phaseStep cap n a p = some p' ∧
      stepsLeft n (p'.state n) < stepsLeft n (p.state n) :=
    fun h => ⟨.both, _, h, bothPhase_lowers hp h⟩
  cases p with
  | ahead pc =>
    cases pc with
    | loop i => exact Or.inr (hmain rfl (by split <;> simp))
    | send r => exact Or.inr (hboth rfl)
    | stop => exact Or.inr (hmain rfl (by simp))
    | _ => exact absurd hp id
  | sent r => exact Or.inr (hchild rfl)
  | reading r => cases r <;> exact Or.inr (hchild rfl)
  | answering i => exact Or.inr (hboth rfl)
  | answered i => exact Or.inr (hmain rfl (by simp))
  | leaving => exact Or.inr (hchild rfl)
  | finished pc =>
    cases pc with
    | returned => exact Or.inl rfl
    | poll => exact Or.inr (hmain rfl (by simp))
    | freeC1 => exact Or.inr (hmain rfl (by simp))
    | freeC2 => exact Or.inr (hmain rfl (by simp))
    | _ => exact absurd hp id

theorem Phase.eq_finished (hp : p.Valid n) (h : (p.state n).main = .freeC1 ∨ (p.state n).main = .freeC2 ∨
    (p.state n).main = .returned) : ∃ pc, p = .finished pc := by
  cases p with
  | ahead pc =>
    have hpc : pc = .freeC1 ∨ pc = .freeC2 ∨ pc = .returned := h
    rcases hpc with rfl | rfl | rfl <;> exact absurd hp id
  | sent r => cases r <;> simp [afterSend] at h
  | reading r => cases r <;> simp [afterSend] at h
  | finished pc => exact ⟨pc, rfl⟩
  | _ => simp at h

theorem Phase.eq_final (hp : p.Valid n) (h : (p.state n).main = .returned) : p.state n = final n := by
  obtain ⟨pc, rfl⟩ := Phase.eq_finished hp (Or.inr (Or.inr h))
  obtain rfl : pc = .returned := h
  rfl

/-! ## The ping pong -/

/-- What holds of a state whatever the schedule was. -/
structure ShutsDown (n : ℕ) (s : State) : Prop where
  replies_sent : ∀ (k : ℕ) (m : Message), s.replies[k]? = some m → m = ⟨1, k⟩
  replies_le : s.replies.length ≤ n
  stop_set : ∀ r, s.main = .send r → s.sent = r.index n ∧ (s.stop ↔ r = .shutdown)
  all_received : s.stop → s.replies.length = n
  leaves : ∀ m, s.child = .leave m → m = ⟨0, n⟩ ∧ s.stop
  leaves_once : s.gone = if s.child = .returned then 1 else 0
  freed : s.main = .freeC1 ∨ s.main = .freeC2 ∨ s.main = .returned →
    s.c1 = [] ∧ s.c2 = [] ∧ s.child = .returned

theorem getElem?_replies {j k : ℕ} {m : Message} (h : ((List.range j).map reply)[k]? = some m) :
    m = ⟨1, k⟩ := by
  rw [List.getElem?_map, Option.map_eq_some_iff] at h
  obtain ⟨i, hi, rfl⟩ := h
  obtain ⟨_, rfl⟩ := List.getElem?_eq_some_iff.mp hi
  simp [reply]

theorem Ahead.completed_le {pc : MainPc} (h : Ahead n pc) : completed n pc ≤ n := by
  cases pc with
  | loop i => exact h
  | send r => exact Round.Within.index_le h
  | stop => exact Nat.le_refl n
  | _ => exact absurd h id

theorem Phase.shutsDown (hp : p.Valid n) : ShutsDown n (p.state n) where
  replies_sent k m h := by cases p <;> exact getElem?_replies h
  replies_le := by
    cases p with
    | ahead pc => simpa using hp.completed_le
    | sent r => simpa using hp.index_le
    | reading r => simpa using hp.index_le
    | answering i => simpa using Nat.le_of_lt hp
    | answered i => simpa using Nat.le_of_lt hp
    | _ => simp
  stop_set r h := by
    cases p with
    | ahead pc =>
      obtain rfl : pc = .send r := h
      simp
    | sent r' => cases r' <;> simp [afterSend] at h
    | reading r' => cases r' <;> simp [afterSend] at h
    | finished pc => simp_all
    | _ => simp at h
  all_received h := by
    cases p with
    | ahead pc => simp_all [Round.index]
    | sent r => simp_all [Round.index]
    | reading r => simp_all [Round.index]
    | answering i => simp at h
    | answered i => simp at h
    | _ => simp
  leaves m h := by
    cases p with
    | leaving => simp_all [message, value, Round.index]
    | _ => simp at h
  leaves_once := by cases p <;> simp
  freed h := by
    cases p with
    | ahead pc =>
      have hpc : pc = .freeC1 ∨ pc = .freeC2 ∨ pc = .returned := h
      rcases hpc with rfl | rfl | rfl <;> exact absurd hp id
    | sent r => cases r <;> simp [afterSend] at h
    | reading r => cases r <;> simp [afterSend] at h
    | finished pc => simp
    | _ => simp at h

/-- At every capacity and whatever the schedule, the k-th reply is the k-th value sent, the
child leaves on the last one, and a run that goes on ends with both channels freed. -/
theorem chan_shuts_down (cap n : ℕ) (schedule : List Agent) (s : State)
    (h : run (step cap n) schedule start = some s) :
    ShutsDown n s ∧ (s = final n ∨ ∃ a s', step cap n a s = some s' ∧ s' ≠ s) ∧
    (∀ a, step cap n a (final n) = none) ∧ changes (step cap n) schedule start ≤ 8 * n + 12 := by
  have hcovers := (phases cap n).covers_run (covers_start cap n) h
  refine ⟨?_, ?_, fun a => by cases a <;> rfl, ?_⟩
  · obtain ⟨p, hp, rfl⟩ := hcovers
    exact Phase.shutsDown hp
  · obtain ⟨p, hp, rfl⟩ := hcovers
    rcases Phase.moves cap hp with rfl | ⟨a, p', hstep, hlower⟩
    · exact Or.inl rfl
    · refine Or.inr ⟨a, p'.state n, ?_, ?_⟩
      · exact ((phases cap n).step_state a p hp).trans (congrArg (Option.map (Phase.state n)) hstep)
      · intro heq
        rw [heq] at hlower
        exact Nat.lt_irrefl _ hlower
  · exact changes_le (fun _ _ _ => (phases cap n).covers_step) (fun _ _ _ => step_lowers) schedule
      (covers_start cap n)

/-- A buffered run of one round with its shutdown. -/
theorem chan_shuts_down_one : ShutsDown 1 (final 1) :=
  (chan_shuts_down 1 1 [.main, .main, .child, .child, .child, .main, .main, .main, .main, .child,
    .child, .main, .child, .main, .main, .main] (final 1) (by decide)).1

end BurrowBench.Scheduler.ChanPingpong
