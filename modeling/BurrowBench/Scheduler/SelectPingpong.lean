import BurrowBench.Scheduler.ChanPingpong

/-! # The ping pong through selects

In select_pingpong the four operations of a volley are selects whose second arm receives on a
quit channel. The stop volley is a plain send. Which arm a select takes, among those that can
run, is up to the schedule. The start is after a successful launch of the child.
-/
namespace BurrowBench.Scheduler.SelectPingpong
open Interleaving ChanPingpong

inductive MainPc where
  | loop (i : ℕ)
  | selectSend (i : ℕ)
  | selectRecv (i : ℕ)
  | stop
  | send
  | poll
  | freeC1
  | freeC2
  | freeQuit
  | returned
  deriving DecidableEq

/-- The child's places are those of the channel ping pong, with selects for its two
operations; it leaves with what it got from c1 or from quit. -/
structure State where
  main : MainPc
  child : ChanPingpong.ChildPc
  c1 : List Message
  c2 : List Message
  quit : List Message
  stop : Bool
  gone : ℕ
  sent : ℕ
  replies : List Message
  deriving DecidableEq

def start : State where
  main := .loop 0
  child := .recv
  c1 := []
  c2 := []
  quit := []
  stop := false
  gone := 0
  sent := 0
  replies := []

/-- pingpong_body, where a select takes its first arm. -/
def pingpongBody (cap n : ℕ) (s : State) : Option State :=
  match s.main with
  | .loop i => some { s with main := if i < n then .selectSend i else .stop }
  | .selectSend i =>
    if s.c1.length < cap then
      some { s with c1 := s.c1 ++ [⟨1, s.sent⟩], sent := s.sent + 1, main := .selectRecv i }
    else none
  | .selectRecv i =>
    match s.c2 with
    | [] => none
    | m :: rest => some { s with c2 := rest, replies := s.replies ++ [m], main := .loop (i + 1) }
  | .stop => some { s with stop := true, main := .send }
  | .send =>
    if s.c1.length < cap then
      some { s with c1 := s.c1 ++ [⟨0, s.sent⟩], sent := s.sent + 1, main := .poll }
    else none
  | .poll => some (if s.gone = 0 then s else { s with main := .freeC1 })
  | .freeC1 => some { s with main := .freeC2 }
  | .freeC2 => some { s with main := .freeQuit }
  | .freeQuit => some { s with main := .returned }
  | .returned => none

/-- A select of pingpong_body that takes the quit arm. Its result is not looked at. -/
def quitBody (s : State) : Option State :=
  match s.quit, s.main with
  | _ :: rest, .selectSend i => some { s with quit := rest, main := .selectRecv i }
  | _ :: rest, .selectRecv i => some { s with quit := rest, main := .loop (i + 1) }
  | _, _ => none

/-- pingpong_child, where a select takes its first arm. -/
def pingpongChild (cap : ℕ) (s : State) : Option State :=
  match s.child with
  | .recv =>
    match s.c1 with
    | [] => none
    | m :: rest => some { s with c1 := rest, child := .load m }
  | .load m => some { s with child := if s.stop then .leave m else .send m }
  | .send m => if s.c2.length < cap then some { s with c2 := s.c2 ++ [m], child := .recv } else none
  | .leave _ => some { s with gone := s.gone + 1, child := .returned }
  | .returned => none

/-- A select of pingpong_child that takes the quit arm, on which it breaks. -/
def quitChild (s : State) : Option State :=
  match s.quit, s.child with
  | m :: rest, .recv => some { s with quit := rest, child := .leave m }
  | m :: rest, .send _ => some { s with quit := rest, child := .leave m }
  | _, _ => none

/-- Two parties that wait on one channel meet. -/
def handOver (s : State) : Option State :=
  match s.main, s.child with
  | .selectSend i, .recv =>
    if s.c1 = [] then
      some { s with sent := s.sent + 1, main := .selectRecv i, child := .load ⟨1, s.sent⟩ }
    else none
  | .send, .recv =>
    if s.c1 = [] then some { s with sent := s.sent + 1, main := .poll, child := .load ⟨0, s.sent⟩ }
    else none
  | .selectRecv i, .send m =>
    if s.c2 = [] then
      some { s with replies := s.replies ++ [m], main := .loop (i + 1), child := .recv }
    else none
  | _, _ => none

inductive Agent where
  | main
  | mainQuit
  | child
  | childQuit
  | both
  deriving DecidableEq

def step (cap n : ℕ) : Agent → State → Option State
  | .main, s => pingpongBody cap n s
  | .mainQuit, s => quitBody s
  | .child, s => pingpongChild cap s
  | .childQuit, s => quitChild s
  | .both, s => handOver s

/-- Where a ping pong of n rounds ends. -/
def final (n : ℕ) : State where
  main := .returned
  child := .returned
  c1 := []
  c2 := []
  quit := []
  stop := true
  gone := 1
  sent := n + 1
  replies := (List.range n).map reply

/-! ## The channel ping pong underneath -/

@[simp] def MainPc.view : MainPc → ChanPingpong.MainPc
  | .loop i => .loop i
  | .selectSend i => .send (.timed i)
  | .selectRecv i => .recv i
  | .stop => .stop
  | .send => .send .shutdown
  | .poll => .poll
  | .freeC1 => .freeC1
  | .freeC2 => .freeC2
  | .freeQuit | .returned => .returned

/-- The state of the ping pong with plain sends and receives. -/
@[simp] def State.view (s : State) : ChanPingpong.State where
  main := s.main.view
  child := s.child
  c1 := s.c1
  c2 := s.c2
  stop := s.stop
  gone := s.gone
  sent := s.sent
  replies := s.replies

/-- The quit channel is empty, and the rest is a state of the channel ping pong. -/
structure Plain (cap n : ℕ) (s : State) : Prop where
  quit_empty : s.quit = []
  covers : (ChanPingpong.phases cap n).Covers s.view

variable {cap n : ℕ} {s s' : State}

theorem plain_start (cap n : ℕ) : Plain cap n start := ⟨rfl, ChanPingpong.covers_start cap n⟩

theorem pingpongBody_view (cap n : ℕ) (hmain : s.main ≠ .freeQuit) :
    (pingpongBody cap n s).map State.view = mainStep cap n s.view := by
  obtain ⟨main, child, c1, c2, quit, stop, gone, sent, replies⟩ := s
  cases main with
  | loop i => by_cases hin : i < n <;> simp [pingpongBody, mainStep, hin]
  | selectSend i => by_cases hroom : c1.length < cap <;> simp [pingpongBody, mainStep, hroom, value, afterSend]
  | selectRecv i => cases c2 <;> simp [pingpongBody, mainStep]
  | send => by_cases hroom : c1.length < cap <;> simp [pingpongBody, mainStep, hroom, value, afterSend]
  | poll => by_cases hgone : gone = 0 <;> simp [pingpongBody, mainStep, hgone]
  | freeQuit => exact absurd rfl hmain
  | _ => simp [pingpongBody, mainStep]

theorem pingpongChild_view (cap : ℕ) (s : State) :
    (pingpongChild cap s).map State.view = ChanPingpong.childStep cap s.view := by
  obtain ⟨main, child, c1, c2, quit, stop, gone, sent, replies⟩ := s
  cases child with
  | recv => cases c1 <;> simp [pingpongChild, ChanPingpong.childStep]
  | load m => cases stop <;> simp [pingpongChild, ChanPingpong.childStep]
  | send m => by_cases hroom : c2.length < cap <;> simp [pingpongChild, ChanPingpong.childStep, hroom]
  | _ => simp [pingpongChild, ChanPingpong.childStep]

theorem handOver_view (s : State) : (handOver s).map State.view = ChanPingpong.handOver s.view := by
  obtain ⟨main, child, c1, c2, quit, stop, gone, sent, replies⟩ := s
  cases main <;> cases child <;> cases c1 <;> cases c2 <;>
    simp [handOver, ChanPingpong.handOver, value, afterSend]

theorem pingpongBody_quit (h : pingpongBody cap n s = some s') : s'.quit = s.quit := by
  unfold pingpongBody at h
  grind

theorem pingpongChild_quit (h : pingpongChild cap s = some s') : s'.quit = s.quit := by
  unfold pingpongChild at h
  grind

theorem handOver_quit (h : handOver s = some s') : s'.quit = s.quit := by
  unfold handOver at h
  grind

theorem quitBody_eq_none (hquit : s.quit = []) : quitBody s = none := by
  unfold quitBody
  rw [hquit]

theorem quitChild_eq_none (hquit : s.quit = []) : quitChild s = none := by
  unfold quitChild
  rw [hquit]

/-- A step is one of the channel ping pong, or frees the quit channel after it. -/
theorem step_cases {a : Agent} (hquit : s.quit = []) (h : step cap n a s = some s') :
    s'.quit = [] ∧ ((s.main = .freeQuit ∧ s' = { s with main := .returned }) ∨
      ∃ b, ChanPingpong.step cap n b s.view = some s'.view) := by
  cases a with
  | main =>
    refine ⟨(pingpongBody_quit h).trans hquit, ?_⟩
    by_cases hmain : s.main = .freeQuit
    · left
      change pingpongBody cap n s = some s' at h
      rw [pingpongBody, hmain] at h
      exact ⟨hmain, (Option.some.inj h).symm⟩
    · refine Or.inr ⟨.main, ?_⟩
      have hview := pingpongBody_view cap n hmain
      rw [show pingpongBody cap n s = some s' from h] at hview
      exact hview.symm
  | child =>
    refine ⟨(pingpongChild_quit h).trans hquit, Or.inr ⟨.child, ?_⟩⟩
    have hview := pingpongChild_view cap s
    rw [show pingpongChild cap s = some s' from h] at hview
    exact hview.symm
  | both =>
    refine ⟨(handOver_quit h).trans hquit, Or.inr ⟨.both, ?_⟩⟩
    have hview := handOver_view s
    rw [show handOver s = some s' from h] at hview
    exact hview.symm
  | mainQuit =>
    change quitBody s = some s' at h
    rw [quitBody_eq_none hquit] at h
    cases h
  | childQuit =>
    change quitChild s = some s' at h
    rw [quitChild_eq_none hquit] at h
    cases h

def plain (cap n : ℕ) : Refinement (step cap n) (ChanPingpong.step cap n) where
  view := State.view
  Inv := Plain cap n
  keep _ s s' hs h := by
    obtain ⟨hquit', ⟨hmain, rfl⟩ | ⟨b, hb⟩⟩ := step_cases hs.quit_empty h
    · refine ⟨hquit', ?_⟩
      have hcovers := hs.covers
      simpa [hmain] using hcovers
    · exact ⟨hquit', (ChanPingpong.phases cap n).covers_step hs.covers hb⟩
  step_view _ s s' hs h := by
    obtain ⟨_, ⟨hmain, rfl⟩ | hb⟩ := step_cases hs.quit_empty h
    · left
      simp [hmain]
    · exact Or.inr hb

/-! ## Progress -/

def left (n : ℕ) (s : State) : ℕ := ChanPingpong.stepsLeft n s.view + if s.main = .returned then 0 else 1

theorem MainPc.view_injective {pc pc' : MainPc} (h : pc'.view = pc.view) (hpc : pc.view ≠ .returned) :
    pc' = pc := by
  cases pc <;> cases pc' <;> simp_all

theorem eq_of_view (hquit : s'.quit = s.quit) (hmain : s.view.main ≠ .returned) (h : s'.view = s.view) :
    s' = s := by
  obtain ⟨main, child, c1, c2, quit, stop, gone, sent, replies⟩ := s
  obtain ⟨main', child', c1', c2', quit', stop', gone', sent', replies'⟩ := s'
  obtain rfl : quit' = quit := hquit
  simp only [State.view, ChanPingpong.State.mk.injEq] at h
  obtain ⟨hview, rfl, rfl, rfl, rfl, rfl, rfl, rfl⟩ := h
  rw [MainPc.view_injective hview hmain]

theorem Plain.view_eq_final (hs : Plain cap n s) (h : s.view.main = .returned) :
    s.view = ChanPingpong.final n := by
  obtain ⟨p, hp, hview⟩ := hs.covers
  have hmain : (p.state n).main = .returned := by
    rw [← h, hview]
    rfl
  rw [hview]
  exact ChanPingpong.Phase.eq_final hp hmain

/-- The channel ping pong has no step from its end. -/
theorem Plain.view_moves (hs : Plain cap n s) {b : ChanPingpong.Agent} {k : ChanPingpong.State}
    (h : ChanPingpong.step cap n b s.view = some k) : s.view.main ≠ .returned := by
  intro hmain
  rw [hs.view_eq_final hmain] at h
  cases b <;> cases h

theorem Plain.lowers {a : Agent} (hs : Plain cap n s) (h : step cap n a s = some s') (hne : s' ≠ s) :
    left n s' < left n s := by
  obtain ⟨hquit', ⟨hmain, rfl⟩ | ⟨b, hb⟩⟩ := step_cases hs.quit_empty h
  · simp [left, hmain, ChanPingpong.stepsLeft]
  · have hmain := hs.view_moves hb
    have hview : s'.view ≠ s.view := fun heq => hne (eq_of_view (hquit'.trans hs.quit_empty.symm) hmain heq)
    have hlower := ChanPingpong.step_lowers hs.covers hb hview
    have hreturned : s.main ≠ .returned := by
      intro heq
      exact hmain (by simp [heq])
    unfold left
    rw [if_neg hreturned]
    split <;> omega

/-- What the channel ping pong can do, the selects can. -/
theorem exists_step_of_view {b : ChanPingpong.Agent} {k : ChanPingpong.State} (hmain : s.main ≠ .freeQuit)
    (h : ChanPingpong.step cap n b s.view = some k) : ∃ a s', step cap n a s = some s' ∧ s'.view = k := by
  cases b with
  | main =>
    have hview := (pingpongBody_view cap n hmain).trans h
    obtain ⟨s', hs', hk⟩ := Option.map_eq_some_iff.mp hview
    exact ⟨.main, s', hs', hk⟩
  | child =>
    have hview := (pingpongChild_view cap s).trans h
    obtain ⟨s', hs', hk⟩ := Option.map_eq_some_iff.mp hview
    exact ⟨.child, s', hs', hk⟩
  | both =>
    have hview := (handOver_view s).trans h
    obtain ⟨s', hs', hk⟩ := Option.map_eq_some_iff.mp hview
    exact ⟨.both, s', hs', hk⟩

theorem Plain.progress (hs : Plain cap n s) : s = final n ∨ ∃ a s', step cap n a s = some s' ∧ s' ≠ s := by
  by_cases hmain : s.view.main = .returned
  · have hfinal := hs.view_eq_final hmain
    obtain ⟨main, child, c1, c2, quit, stop, gone, sent, replies⟩ := s
    obtain rfl : quit = [] := hs.quit_empty
    simp only [State.view, ChanPingpong.final, ChanPingpong.State.mk.injEq] at hfinal
    obtain ⟨hreturned, rfl, rfl, rfl, rfl, rfl, rfl, rfl⟩ := hfinal
    cases main with
    | freeQuit => exact Or.inr ⟨.main, _, rfl, by simp⟩
    | returned => exact Or.inl rfl
    | _ => cases hreturned
  · right
    obtain ⟨p, hp, hview⟩ := hs.covers
    rcases ChanPingpong.Phase.moves cap hp with rfl | ⟨b, p', hstep, hlower⟩
    · exact absurd (congrArg ChanPingpong.State.main hview) hmain
    · have hb : ChanPingpong.step cap n b s.view = some (p'.state n) := by
        rw [hview]
        exact ((ChanPingpong.phases cap n).step_state b p hp).trans
          (congrArg (Option.map (ChanPingpong.Phase.state n)) hstep)
      have hfree : s.main ≠ .freeQuit := fun heq => hmain (by simp [heq])
      obtain ⟨a, s', hs', hk⟩ := exists_step_of_view hfree hb
      refine ⟨a, s', hs', ?_⟩
      rintro rfl
      rw [← hk, hview] at hlower
      exact Nat.lt_irrefl _ hlower

/-- The ping pong through selects is the one over plain channels: no select ever takes its
quit arm, each volley is answered, the child leaves on the last value, and a run that goes on
ends with the three channels freed after the child has left. -/
theorem select_refines_chan (cap n : ℕ) (schedule : List Agent) (s : State)
    (h : run (step cap n) schedule start = some s) :
    Reaches (ChanPingpong.step cap n) ChanPingpong.start s.view ∧ ShutsDown n s.view ∧
    (quitBody s = none ∧ quitChild s = none) ∧
    (s = final n ∨ ∃ a s', step cap n a s = some s' ∧ s' ≠ s) ∧
    changes (step cap n) schedule start ≤ 8 * n + 13 := by
  have hs := (plain cap n).run_inv (plain_start cap n) h
  refine ⟨(plain cap n).reaches (plain_start cap n) h, ?_, ?_, hs.progress, ?_⟩
  · obtain ⟨p, hp, hview⟩ := hs.covers
    rw [hview]
    exact ChanPingpong.Phase.shutsDown hp
  · exact ⟨quitBody_eq_none hs.quit_empty, quitChild_eq_none hs.quit_empty⟩
  · exact changes_le (plain cap n).keep (fun _ _ _ => Plain.lowers) schedule (plain_start cap n)

/-- A run of one volley, with its shutdown. -/
theorem select_refines_chan_one : ShutsDown 1 (final 1).view :=
  (select_refines_chan 0 1 [.main, .both, .child, .both, .main, .main, .both, .child, .child, .main, .main,
    .main, .main] (final 1) (by decide)).2.1

end BurrowBench.Scheduler.SelectPingpong
