import BurrowBench.Scheduler.ChanPingpong

/-! # The ping pong in a bubble

synctest_chan_pingpong runs the volleys of the channel ping pong in a bubble. In place of the
poll for the child the body waits until the child is blocked or has exited and returns, the
bubble is over when the child has exited, and the channels are freed after it. The start is
after a successful launch of the child.
-/
namespace BurrowBench.Scheduler.SynctestPingpong
open Interleaving ChanPingpong

/-- pingpong_body, then pingpong_top from the return of the body on. -/
inductive BodyPc where
  | loop (i : ℕ)
  | send (r : Round)
  | recv (i : ℕ)
  | stop
  | wait
  | bubble
  | freeC1
  | freeC2
  | returned
  deriving DecidableEq

structure State where
  body : BodyPc
  child : ChanPingpong.ChildPc
  c1 : List Message
  c2 : List Message
  stop : Bool
  gone : ℕ
  sent : ℕ
  replies : List Message
  deriving DecidableEq

def start : State where
  body := .loop 0
  child := .recv
  c1 := []
  c2 := []
  stop := false
  gone := 0
  sent := 0
  replies := []

def afterSend : Round → BodyPc
  | .timed i => .recv i
  | .shutdown => .wait

/-- The child waits on a channel and nobody on the other side of it can come: the body does
neither send nor receive. -/
def blocked (cap : ℕ) (s : State) : Bool :=
  match s.child with
  | .recv => s.c1 = []
  | .send _ => ¬s.c2.length < cap
  | _ => false

def pingpongBody (cap n : ℕ) (s : State) : Option State :=
  match s.body with
  | .loop i => some { s with body := if i < n then .send (.timed i) else .stop }
  | .send r =>
    if s.c1.length < cap then
      some { s with c1 := s.c1 ++ [⟨value r, s.sent⟩], sent := s.sent + 1, body := afterSend r }
    else none
  | .recv i =>
    match s.c2 with
    | [] => none
    | m :: rest => some { s with c2 := rest, replies := s.replies ++ [m], body := .loop (i + 1) }
  | .stop => some { s with stop := true, body := .send .shutdown }
  | .wait => if blocked cap s ∨ s.child = .returned then some { s with body := .bubble } else none
  | .bubble => if s.child = .returned then some { s with body := .freeC1 } else none
  | .freeC1 => some { s with body := .freeC2 }
  | .freeC2 => some { s with body := .returned }
  | .returned => none

def pingpongChild (cap : ℕ) (s : State) : Option State :=
  match s.child with
  | .recv =>
    match s.c1 with
    | [] => none
    | m :: rest => some { s with c1 := rest, child := .load m }
  | .load m => some { s with child := if s.stop then .leave m else .send m }
  | .send m => if s.c2.length < cap then some { s with c2 := s.c2 ++ [m], child := .recv } else none
  | .leave _ => some { s with gone := s.gone + 1, child := .returned }
  | .returned => none

def handOver (s : State) : Option State :=
  match s.body, s.child with
  | .send r, .recv =>
    if s.c1 = [] then
      some { s with sent := s.sent + 1, body := afterSend r, child := .load ⟨value r, s.sent⟩ }
    else none
  | .recv i, .send m =>
    if s.c2 = [] then
      some { s with replies := s.replies ++ [m], body := .loop (i + 1), child := .recv }
    else none
  | _, _ => none

def step (cap n : ℕ) : Agent → State → Option State
  | .main, s => pingpongBody cap n s
  | .child, s => pingpongChild cap s
  | .both, s => handOver s

/-- Where a ping pong of n rounds ends. -/
def final (n : ℕ) : State where
  body := .returned
  child := .returned
  c1 := []
  c2 := []
  stop := true
  gone := 1
  sent := n + 1
  replies := (List.range n).map reply

/-! ## The channel ping pong underneath -/

/-- The two waits stand for the poll of the channel ping pong. -/
@[simp] def BodyPc.view : BodyPc → MainPc
  | .loop i => .loop i
  | .send r => .send r
  | .recv i => .recv i
  | .stop => .stop
  | .wait | .bubble => .poll
  | .freeC1 => .freeC1
  | .freeC2 => .freeC2
  | .returned => .returned

@[simp] def State.view (s : State) : ChanPingpong.State where
  main := s.body.view
  child := s.child
  c1 := s.c1
  c2 := s.c2
  stop := s.stop
  gone := s.gone
  sent := s.sent
  replies := s.replies

/-- The body is past synctest_wait only when the child has exited. -/
structure InBubble (cap n : ℕ) (s : State) : Prop where
  covers : (ChanPingpong.phases cap n).Covers s.view
  exited : s.body = .bubble → s.child = .returned

variable {cap n : ℕ} {s s' : State}

theorem phase_of_poll {p : ChanPingpong.Phase} (hp : p.Valid n) (h : (p.state n).main = .poll) :
    p = .sent .shutdown ∨ p = .reading .shutdown ∨ p = .leaving ∨ p = .finished .poll := by
  cases p with
  | ahead pc =>
    obtain rfl : pc = .poll := h
    exact absurd hp id
  | sent r =>
    cases r with
    | timed i => cases h
    | shutdown => exact Or.inl rfl
  | reading r =>
    cases r with
    | timed i => cases h
    | shutdown => exact Or.inr (Or.inl rfl)
  | leaving => exact Or.inr (Or.inr (Or.inl rfl))
  | finished pc =>
    obtain rfl : pc = .poll := h
    exact Or.inr (Or.inr (Or.inr rfl))
  | _ => cases h

/-- At the waits the last value is on its way, and a child that has exited is counted. -/
theorem InBubble.polling (hs : InBubble cap n s) (h : s.body.view = .poll) :
    blocked cap s = false ∧ (s.child = .returned ↔ s.gone ≠ 0) := by
  obtain ⟨body, child, c1, c2, stop, gone, sent, replies⟩ := s
  obtain ⟨p, hp, hview⟩ := hs.covers
  have hview : State.view _ = p.state n := hview
  have hpoll : (p.state n).main = .poll := hview ▸ h
  simp only [State.view] at hview
  rcases phase_of_poll hp hpoll with rfl | rfl | rfl | rfl <;>
    simp only [ChanPingpong.Phase.state, ChanPingpong.State.mk.injEq] at hview <;>
    obtain ⟨_, rfl, rfl, _, _, rfl, _, _⟩ := hview <;> simp [blocked]

theorem pingpongBody_view (cap n : ℕ) (hbody : s.body.view ≠ .poll) :
    (pingpongBody cap n s).map State.view = mainStep cap n s.view := by
  obtain ⟨body, child, c1, c2, stop, gone, sent, replies⟩ := s
  cases body with
  | loop i => by_cases hin : i < n <;> simp [pingpongBody, mainStep, hin]
  | send r =>
    by_cases hroom : c1.length < cap <;> cases r <;>
      simp [pingpongBody, mainStep, hroom, afterSend, ChanPingpong.afterSend]
  | recv i => cases c2 <;> simp [pingpongBody, mainStep]
  | wait => exact absurd rfl hbody
  | bubble => exact absurd rfl hbody
  | _ => simp [pingpongBody, mainStep]

theorem pingpongChild_view (cap : ℕ) (s : State) :
    (pingpongChild cap s).map State.view = ChanPingpong.childStep cap s.view := by
  obtain ⟨body, child, c1, c2, stop, gone, sent, replies⟩ := s
  cases child with
  | recv => cases c1 <;> simp [pingpongChild, ChanPingpong.childStep]
  | load m => cases stop <;> simp [pingpongChild, ChanPingpong.childStep]
  | send m => by_cases hroom : c2.length < cap <;> simp [pingpongChild, ChanPingpong.childStep, hroom]
  | _ => simp [pingpongChild, ChanPingpong.childStep]

theorem handOver_view (s : State) : (handOver s).map State.view = ChanPingpong.handOver s.view := by
  obtain ⟨body, child, c1, c2, stop, gone, sent, replies⟩ := s
  cases body with
  | send r =>
    cases r <;> cases child <;> cases c1 <;>
      simp [handOver, ChanPingpong.handOver, afterSend, ChanPingpong.afterSend]
  | recv i => cases child <;> cases c2 <;> simp [handOver, ChanPingpong.handOver]
  | _ => cases child <;> simp [handOver, ChanPingpong.handOver]

theorem afterSend_ne_bubble (r : Round) : afterSend r ≠ .bubble := by cases r <;> exact BodyPc.noConfusion

theorem pingpongBody_ne_bubble (hbody : s.body ≠ .wait) (h : pingpongBody cap n s = some s') :
    s'.body ≠ .bubble := by
  have hsend := afterSend_ne_bubble
  unfold pingpongBody at h
  grind

theorem pingpongChild_body (h : pingpongChild cap s = some s') : s'.body = s.body := by
  unfold pingpongChild at h
  grind

theorem handOver_ne_bubble (h : handOver s = some s') : s'.body ≠ .bubble := by
  have hsend := afterSend_ne_bubble
  unfold handOver at h
  grind

/-- A step is one of the channel ping pong, or ends the first wait. -/
theorem InBubble.step_cases {a : Agent} (hs : InBubble cap n s) (h : step cap n a s = some s') :
    (s.body = .wait ∧ s.child = .returned ∧ s' = { s with body := .bubble }) ∨
      ((s'.body = .bubble → s.body = .bubble) ∧ (a = .main → s.body ≠ .wait) ∧
        ChanPingpong.step cap n a s.view = some s'.view) := by
  cases a with
  | main =>
    change pingpongBody cap n s = some s' at h
    by_cases hpoll : s.body.view = .poll
    · obtain ⟨hblocked, hgone⟩ := hs.polling hpoll
      obtain ⟨body, child, c1, c2, stop, gone, sent, replies⟩ := s
      cases body with
      | wait =>
        left
        obtain ⟨hpass, h⟩ := Option.ite_none_right_eq_some.mp h
        rw [hblocked] at hpass
        exact ⟨rfl, hpass.resolve_left Bool.false_ne_true, (Option.some.inj h).symm⟩
      | bubble =>
        right
        obtain ⟨hreturned, h⟩ := Option.ite_none_right_eq_some.mp h
        obtain rfl := Option.some.inj h
        have hcounted : gone ≠ 0 := hgone.mp hreturned
        refine ⟨?_, ?_, ?_⟩
        · intro hbody
          cases hbody
        · intro _ hbody
          cases hbody
        · simp [ChanPingpong.step, mainStep, hcounted]
      | _ => cases hpoll
    · right
      have hwait : s.body ≠ .wait := fun heq => hpoll (by rw [heq]; rfl)
      have hview := pingpongBody_view cap n hpoll
      rw [h] at hview
      exact ⟨fun hbody => absurd hbody (pingpongBody_ne_bubble hwait h), fun _ => hwait, hview.symm⟩
  | child =>
    right
    have hview := pingpongChild_view cap s
    rw [show pingpongChild cap s = some s' from h] at hview
    refine ⟨fun hbody => (pingpongChild_body h).symm.trans hbody, ?_, hview.symm⟩
    intro ha
    cases ha
  | both =>
    right
    have hview := handOver_view s
    rw [show handOver s = some s' from h] at hview
    refine ⟨fun hbody => absurd hbody (handOver_ne_bubble h), ?_, hview.symm⟩
    intro ha
    cases ha

/-- Nothing moves a child that has exited. -/
theorem child_returned {b : Agent} {k k' : ChanPingpong.State} (hk : k.child = .returned)
    (h : ChanPingpong.step cap n b k = some k') : k'.child = .returned := by
  cases b with
  | main =>
    change mainStep cap n k = some k' at h
    unfold mainStep at h
    grind
  | child =>
    change ChanPingpong.childStep cap k = some k' at h
    simp [ChanPingpong.childStep, hk] at h
  | both =>
    change ChanPingpong.handOver k = some k' at h
    simp [ChanPingpong.handOver, hk] at h

def inBubble (cap n : ℕ) : Refinement (step cap n) (ChanPingpong.step cap n) where
  view := State.view
  Inv := InBubble cap n
  keep _ s s' hs h := by
    rcases hs.step_cases h with ⟨hbody, hreturned, rfl⟩ | ⟨hstays, _, hb⟩
    · refine ⟨?_, fun _ => hreturned⟩
      simpa [hbody] using hs.covers
    · refine ⟨(ChanPingpong.phases cap n).covers_step hs.covers hb, fun hbubble => ?_⟩
      have hreturned : s.view.child = .returned := hs.exited (hstays hbubble)
      exact child_returned hreturned hb
  step_view _ s s' hs h := by
    rcases hs.step_cases h with ⟨hbody, _, rfl⟩ | ⟨_, _, hb⟩
    · left
      simp [hbody]
    · exact Or.inr ⟨_, hb⟩

theorem inBubble_start (cap n : ℕ) : InBubble cap n start :=
  ⟨ChanPingpong.covers_start cap n, fun h => (nomatch h)⟩

/-! ## Progress -/

/-- One while the body has not got past the first wait. -/
def BodyPc.ahead : BodyPc → ℕ
  | .bubble | .freeC1 | .freeC2 | .returned => 0
  | _ => 1

def left (n : ℕ) (s : State) : ℕ := ChanPingpong.stepsLeft n s.view + s.body.ahead

theorem ahead_le {a : Agent} (h : step cap n a s = some s') : s'.body.ahead ≤ s.body.ahead := by
  have hsend : ∀ r, (afterSend r).ahead = 1 := fun r => by cases r <;> rfl
  cases a with
  | main =>
    change pingpongBody cap n s = some s' at h
    unfold pingpongBody at h
    grind [BodyPc.ahead]
  | child => exact Nat.le_of_eq (congrArg BodyPc.ahead (pingpongChild_body h))
  | both =>
    change handOver s = some s' at h
    unfold handOver at h
    grind [BodyPc.ahead]

/-- Only a poll that finds nothing leaves a state of the channel ping pong as it is. -/
theorem mainStep_ne {k k' : ChanPingpong.State} (hpoll : k.main = .poll → k.gone ≠ 0)
    (h : mainStep cap n k = some k') : k' ≠ k := by
  have hmain : k'.main ≠ k.main := by
    unfold mainStep at h
    cases hmain : k.main with
    | send r => cases r <;> grind [ChanPingpong.afterSend]
    | _ => grind
  exact fun heq => hmain (congrArg ChanPingpong.State.main heq)

theorem childStep_ne {k k' : ChanPingpong.State} (h : ChanPingpong.childStep cap k = some k') : k' ≠ k := by
  have hchild : k'.child ≠ k.child := by
    unfold ChanPingpong.childStep at h
    grind
  exact fun heq => hchild (congrArg ChanPingpong.State.child heq)

theorem handOver_ne {k k' : ChanPingpong.State} (h : ChanPingpong.handOver k = some k') : k' ≠ k := by
  have hchild : k'.child ≠ k.child := by
    unfold ChanPingpong.handOver at h
    grind
  exact fun heq => hchild (congrArg ChanPingpong.State.child heq)

theorem InBubble.lowers {a : Agent} (hs : InBubble cap n s) (h : step cap n a s = some s') :
    left n s' < left n s := by
  rcases hs.step_cases h with ⟨hbody, _, rfl⟩ | ⟨_, hnowait, hb⟩
  · simp [left, hbody, ChanPingpong.stepsLeft, BodyPc.ahead]
  · have hne : s'.view ≠ s.view := by
      cases a with
      | main =>
        refine mainStep_ne (fun hpoll => ?_) hb
        have hbody : s.body = .bubble := by
          have hwait := hnowait rfl
          cases hbody : s.body <;> simp_all
        exact (hs.polling hpoll).2.mp (hs.exited hbody)
      | child => exact childStep_ne hb
      | both => exact handOver_ne hb
    have hlower := ChanPingpong.step_lowers hs.covers hb hne
    have hahead := ahead_le h
    unfold left
    omega

/-- What the channel ping pong can do, other than poll, the one in the bubble can. -/
theorem isSome_of_view {b : Agent} {k : ChanPingpong.State} (hbody : b = .main → s.body.view ≠ .poll)
    (h : ChanPingpong.step cap n b s.view = some k) : (step cap n b s).isSome := by
  cases b with
  | main =>
    have hview := (pingpongBody_view cap n (hbody rfl)).trans h
    obtain ⟨s', hs', _⟩ := Option.map_eq_some_iff.mp hview
    exact Option.isSome_iff_exists.mpr ⟨s', hs'⟩
  | child =>
    have hview := (pingpongChild_view cap s).trans h
    obtain ⟨s', hs', _⟩ := Option.map_eq_some_iff.mp hview
    exact Option.isSome_iff_exists.mpr ⟨s', hs'⟩
  | both =>
    have hview := (handOver_view s).trans h
    obtain ⟨s', hs', _⟩ := Option.map_eq_some_iff.mp hview
    exact Option.isSome_iff_exists.mpr ⟨s', hs'⟩

theorem InBubble.progress (hs : InBubble cap n s) : s = final n ∨ ∃ a, (step cap n a s).isSome := by
  obtain ⟨p, hp, hview⟩ := hs.covers
  have hview : s.view = p.state n := hview
  by_cases hpoll : s.body.view = .poll
  · right
    have hmain : (p.state n).main = .poll := hview ▸ hpoll
    have hchild : ∀ {p'}, ChanPingpong.childPhase cap p = some p' → ∃ a, (step cap n a s).isSome := by
      intro p' hp'
      have hb : ChanPingpong.step cap n .child s.view = some (p'.state n) := by
        rw [hview]
        exact (ChanPingpong.childStep_state hp).trans (congrArg (Option.map (ChanPingpong.Phase.state n)) hp')
      exact ⟨.child, isSome_of_view (fun hb => (nomatch hb)) hb⟩
    rcases phase_of_poll hp hmain with rfl | rfl | rfl | rfl
    · exact hchild rfl
    · exact hchild rfl
    · exact hchild rfl
    · have hreturned : s.child = .returned := congrArg ChanPingpong.State.child hview
      refine ⟨.main, ?_⟩
      cases hbody : s.body with
      | wait => simp [step, pingpongBody, hbody, hreturned]
      | bubble => simp [step, pingpongBody, hbody, hreturned]
      | _ => simp [hbody] at hpoll
  · rcases ChanPingpong.Phase.moves cap hp with rfl | ⟨b, p', hstep, _⟩
    · left
      obtain ⟨body, child, c1, c2, stop, gone, sent, replies⟩ := s
      simp only [State.view, ChanPingpong.Phase.state, ChanPingpong.State.mk.injEq] at hview
      obtain ⟨hreturned, rfl, rfl, rfl, rfl, rfl, rfl, rfl⟩ := hview
      cases body with
      | returned => rfl
      | _ => cases hreturned
    · right
      have hb : ChanPingpong.step cap n b s.view = some (p'.state n) := by
        rw [hview]
        exact ((ChanPingpong.phases cap n).step_state b p hp).trans
          (congrArg (Option.map (ChanPingpong.Phase.state n)) hstep)
      exact ⟨b, isSome_of_view (fun _ => hpoll) hb⟩

theorem terminates (cap n : ℕ) : Terminates (step cap n) (InBubble cap n) (· = final n) (left n) where
  keep := (inBubble cap n).keep
  lower _ _ _ := InBubble.lowers
  progress _ := InBubble.progress

/-- Past the wait the child has left, with nothing in the channels. -/
theorem InBubble.past (hs : InBubble cap n s) (h : s.body.ahead = 0) :
    s.child = .returned ∧ s.gone = 1 ∧ s.c1 = [] ∧ s.c2 = [] := by
  obtain ⟨p, hp, hview⟩ := hs.covers
  have hview : s.view = p.state n := hview
  have hfinished : ∃ pc, p = .finished pc := by
    have hmain : (p.state n).main = s.body.view := hview ▸ rfl
    cases hbody : s.body with
    | bubble =>
      rw [hbody] at hmain
      have hchild : (p.state n).child = .returned := hview ▸ hs.exited hbody
      rcases phase_of_poll hp hmain with rfl | rfl | rfl | rfl
      · cases hchild
      · cases hchild
      · cases hchild
      · exact ⟨.poll, rfl⟩
    | freeC1 => exact ChanPingpong.Phase.eq_finished hp (Or.inl (hmain.trans (by rw [hbody]; rfl)))
    | freeC2 => exact ChanPingpong.Phase.eq_finished hp (Or.inr (Or.inl (hmain.trans (by rw [hbody]; rfl))))
    | returned => exact ChanPingpong.Phase.eq_finished hp (Or.inr (Or.inr (hmain.trans (by rw [hbody]; rfl))))
    | _ => simp [hbody, BodyPc.ahead] at h
  obtain ⟨pc, rfl⟩ := hfinished
  simp only [State.view, ChanPingpong.Phase.state, ChanPingpong.State.mk.injEq] at hview
  obtain ⟨_, hchild, hc1, hc2, _, hgone, _, _⟩ := hview
  exact ⟨hchild, hgone, hc1, hc2⟩

/-! ## The row -/

/-- The volleys in the bubble are those of the channel ping pong. The wait passes only when the
child has left on the last value, no goroutine is in the bubble when the body has returned, and
the channels are freed after that; every run goes on to that end. -/
theorem synctest_refines_chan (cap n : ℕ) (schedule : List Agent) (s : State)
    (h : run (step cap n) schedule start = some s) :
    Reaches (ChanPingpong.step cap n) ChanPingpong.start s.view ∧ ShutsDown n s.view ∧
    (s.body.ahead = 0 → s.child = .returned ∧ s.gone = 1 ∧ s.c1 = [] ∧ s.c2 = []) ∧
    schedule.length ≤ 8 * n + 13 ∧ Reaches (step cap n) s (final n) := by
  obtain ⟨hs, hlength, _⟩ := (terminates cap n).run_spec (inBubble_start cap n) h
  obtain ⟨s', hreaches, _, rfl⟩ := (terminates cap n).reaches_end hs
  obtain ⟨p, hp, hview⟩ := hs.covers
  have hview : s.view = p.state n := hview
  exact ⟨(inBubble cap n).reaches (inBubble_start cap n) h, hview ▸ ChanPingpong.Phase.shutsDown hp, hs.past,
    hlength, hreaches⟩

/-- A run of one volley, with its shutdown. -/
theorem synctest_refines_chan_one : ShutsDown 1 (final 1).view :=
  (synctest_refines_chan 0 1 [.main, .both, .child, .both, .main, .main, .both, .child, .child, .main, .main,
    .main, .main] (final 1) (by decide)).2.1

end BurrowBench.Scheduler.SynctestPingpong
