import BurrowBench.Scheduler.CondPingpong

/-! # Taking turns

Every step of the two goroutines, and every wakeup without a signal, keeps the turns: the
body writes only when the turn has come back to it, the partner only when it has been
handed over, and the one of them that is queued has the turn against it or a signal on
its way.
-/
namespace BurrowBench.Scheduler.CondPingpong

variable {notify : Notify} {n : ℕ} {s s' : State}

/-! ## A step of the body -/

/-- The body moves on without a write and without a signal. -/
theorem TakesTurns.body_goto (hs : TakesTurns n s) {pc : BodyPc} {mutex : Option Goroutine} {stop : Bool}
    (hoff : .body ∉ s.queue)
    (hsignals : s.queue ≠ [] → s.body.Signals → s.writes.length % 2 = 0 ∨ pc.Signals)
    (hwithin : pc.Within n) (hopened : pc.opened n = s.body.opened n)
    (hanswered : pc.Answered → s.writes.length % 2 = 0)
    (hholds : mutex = some .body ↔ pc.Holds) (hother : mutex = some .partner ↔ s.partner.Holds)
    (hstopped : stop ↔ pc.Stopped) (hreturned : pc = .returned → s.partner = .returned) :
    TakesTurns n { s with body := pc, mutex := mutex, stop := stop } :=
  { hs with
    within := hwithin
    opened := hs.opened.trans hopened.symm
    answered := hanswered
    body_holds := hholds
    partner_holds := hother
    queued := hs.queued.body_moves hoff hsignals
    stopped := hstopped
    returned := hreturned }

theorem TakesTurns.partner_free (hs : TakesTurns n s) (h : s.mutex = none ∨ s.mutex = some .body) :
    ¬ s.partner.Holds := by
  intro hholds
  have hmutex := hs.partner_holds.mpr hholds
  rcases h with h | h <;> simp [h] at hmutex

theorem TakesTurns.body_move (hs : TakesTurns n s) {pc : BodyPc} (hoff : .body ∉ s.queue)
    (hsignals : s.queue ≠ [] → s.body.Signals → s.writes.length % 2 = 0 ∨ pc.Signals)
    (hwithin : pc.Within n) (hopened : pc.opened n = s.body.opened n)
    (hanswered : pc.Answered → s.writes.length % 2 = 0) (hholds : pc.Holds ↔ s.body.Holds)
    (hstopped : pc.Stopped ↔ s.body.Stopped) (hreturned : pc = .returned → s.partner = .returned) :
    TakesTurns n { s with body := pc } :=
  hs.body_goto hoff hsignals hwithin hopened hanswered (hs.body_holds.trans hholds.symm)
    hs.partner_holds (hs.stopped.trans hstopped.symm) hreturned

theorem TakesTurns.body_acquire (hs : TakesTurns n s) {pc : BodyPc} (hoff : .body ∉ s.queue)
    (hfree : s.mutex = none) (hsignals : ¬ s.body.Signals)
    (hwithin : pc.Within n) (hopened : pc.opened n = s.body.opened n)
    (hanswered : pc.Answered → s.writes.length % 2 = 0) (hholds : pc.Holds)
    (hstopped : pc.Stopped ↔ s.body.Stopped) :
    TakesTurns n { s with mutex := some .body, body := pc } :=
  hs.body_goto hoff (fun _ h => absurd h hsignals) hwithin hopened hanswered (iff_of_true rfl hholds)
    (iff_of_false (by simp) (hs.partner_free (Or.inl hfree))) (hs.stopped.trans hstopped.symm)
    (by rintro rfl; exact hholds.elim)

theorem TakesTurns.body_release (hs : TakesTurns n s) {pc : BodyPc} (hheld : s.body.Holds)
    (hsignals : s.body.Signals → pc.Signals)
    (hwithin : pc.Within n) (hopened : pc.opened n = s.body.opened n)
    (hanswered : pc.Answered → s.writes.length % 2 = 0) (hholds : ¬ pc.Holds)
    (hstopped : pc.Stopped ↔ s.body.Stopped) (hreturned : pc ≠ .returned) :
    TakesTurns n { s.unlock with body := pc } :=
  hs.body_goto (hs.queued.body_notMem (by cases h : s.body <;> simp_all)) (fun _ h => Or.inr (hsignals h))
    hwithin hopened hanswered (iff_of_false (by simp [State.unlock]) hholds)
    (iff_of_false (by simp [State.unlock]) (hs.partner_free (Or.inr (hs.body_holds.mpr hheld))))
    (hs.stopped.trans hstopped.symm) (fun h => absurd h hreturned)

theorem TakesTurns.body_loop (hs : TakesTurns n s) {i : ℕ} (hpc : s.body = .loop i) :
    TakesTurns n { s with body := .lock (if i < n then .timed i else .shutdown) } := by
  have hi : i ≤ n := by simpa [hpc] using hs.within
  have heven := hs.answered (by simp [hpc])
  have hoff := hs.queued.body_notMem (by simp [hpc])
  split
  · apply hs.body_move hoff <;> simp [Round.index, Round.Within, *]
  · apply hs.body_move hoff <;> simp [hpc, Round.index, Round.Within, heven]
    omega

theorem TakesTurns.body_lock (hs : TakesTurns n s) {r : Round} (hpc : s.body = .lock r)
    (hfree : s.mutex = none) : TakesTurns n
      { s with mutex := some .body, body := if r = .shutdown then .setStop else .setTurn r } := by
  have hwithin : r.Within n := by simpa [hpc] using hs.within
  have heven := hs.answered (by simp [hpc])
  have hoff := hs.queued.body_notMem (by simp [hpc])
  split
  · apply hs.body_acquire hoff hfree <;> simp [Round.index, *]
  · apply hs.body_acquire hoff hfree <;> simp [*]

theorem TakesTurns.body_setStop (hs : TakesTurns n s) (hpc : s.body = .setStop) :
    TakesTurns n { s with stop := true, body := .setTurn .shutdown } := by
  have heven := hs.answered (by simp [hpc])
  have hholds := hs.body_holds
  have hoff := hs.queued.body_notMem (by simp [hpc])
  simp only [hpc, BodyPc.Holds] at hholds
  apply hs.body_goto hoff <;> simp [hpc, Round.index, Round.Within, heven, hholds, hs.partner_holds]

theorem TakesTurns.body_unlock (hs : TakesTurns n s) {r : Round} (hpc : s.body = .unlock r) :
    TakesTurns n { s.unlock with body := .signal r } := by
  have hwithin : r.Within n := by simpa [hpc] using hs.within
  apply hs.body_release <;> simp [hpc, hwithin]

theorem TakesTurns.body_relock (hs : TakesTurns n s) {i : ℕ}
    (hpc : s.body = .lockAgain i ∨ s.body = .waiting i) (hoff : .body ∉ s.queue) (hfree : s.mutex = none) :
    TakesTurns n { s with mutex := some .body, body := .test i } := by
  have hwithin := hs.within
  rcases hpc with hpc | hpc <;> simp only [hpc, BodyPc.Within] at hwithin <;>
    apply hs.body_acquire hoff hfree <;> simp [hpc, hwithin]

theorem TakesTurns.body_unlockAgain (hs : TakesTurns n s) {i : ℕ} (hpc : s.body = .unlockAgain i) :
    TakesTurns n { s.unlock with body := .loop (i + 1) } := by
  have hwithin : i < n := by simpa [hpc] using hs.within
  have hnext : i + 1 ≤ n := hwithin
  have heven := hs.answered (by simp [hpc])
  apply hs.body_release <;> simp [hpc, heven, hnext]

theorem TakesTurns.body_poll (hs : TakesTurns n s) (hpc : s.body = .poll) (hdone : s.done ≠ 0) :
    TakesTurns n { s with body := .returned } := by
  have hpartner : s.partner = .returned := by
    by_contra h
    exact hdone (hs.done.trans (if_neg h))
  have hoff := hs.queued.body_notMem (by simp [hpc])
  apply hs.body_move hoff <;> simp [hpc, hpartner]

theorem writes_concat {k : ℕ} (h : s.writes = (List.range k).map write) {w : Goroutine × ℤ}
    (hw : write k = w) : s.writes ++ [w] = (List.range (k + 1)).map write := by
  rw [h, List.range_succ, List.map_append, List.map_singleton, hw]

theorem TakesTurns.partner_idle (hs : TakesTurns n s) (h : s.mutex = some .body) : ¬ s.partner.Taking := by
  have hfree := hs.partner_free (Or.inr h)
  cases hpc : s.partner <;> simp_all

theorem TakesTurns.body_setTurn (hs : TakesTurns n s) {r : Round} (hpc : s.body = .setTurn r) :
    TakesTurns n { s.write .body 1 with body := .unlock r } := by
  have heven := hs.answered (by simp [hpc])
  have hheld := hs.body_holds.mpr (by simp [hpc])
  have hopened := hs.opened
  have hlength : (s.writes ++ [(Goroutine.body, (1 : ℤ))]).length = s.writes.length + 1 := by simp
  simp only [hpc, BodyPc.opened] at hopened
  refine { hs with writes := ?_, turn := ?_, within := ?_, opened := ?_, answered := False.elim, taking := ?_,
                   body_holds := ?_, queued := ?_, stopped := ?_, knows := ?_, returned := ?_ } <;>
    simp only [State.write, hlength]
  · exact writes_concat hs.writes (if_pos heven)
  · omega
  · simpa [hpc] using hs.within
  · simp only [BodyPc.opened]
    omega
  · exact fun h => absurd h (hs.partner_idle hheld)
  · simpa using hheld
  · rcases hs.queued with h | ⟨_, h, _⟩ | ⟨h, hwaiting, _⟩
    · exact Or.inl h
    · simp [hpc] at h
    · exact Or.inr (Or.inr ⟨h, hwaiting, Or.inr trivial⟩)
  · simpa [hpc] using hs.stopped
  · have hhalf : (s.writes.length + 1) / 2 = s.writes.length / 2 := by omega
    exact hhalf ▸ hs.knows
  · simp

/-- A queue that a signal empties. -/
theorem TakesTurns.unqueue (hs : TakesTurns n s) : TakesTurns n { s with queue := [] } :=
  { hs with queued := Or.inl rfl }

theorem TakesTurns.body_signal (hs : TakesTurns n s) {i : ℕ} (hpc : s.body = .signal (.timed i)) :
    TakesTurns n { s.signal notify with body := .lockAgain i } := by
  have hwithin : i < n := by simpa [hpc, Round.Within] using hs.within
  have hqueue : s.signal notify = { s with queue := [] } := by rw [State.signal, hs.queued.rest]
  rw [hqueue]
  apply hs.unqueue.body_move <;> simp [hpc, Round.index, hwithin]

theorem TakesTurns.body_broadcast (hs : TakesTurns n s) (hpc : s.body = .signal .shutdown) :
    TakesTurns n { s.broadcast with body := .poll } := by
  apply hs.unqueue.body_move <;> simp [hpc, Round.index]

theorem TakesTurns.body_go (hs : TakesTurns n s) {i : ℕ} (hpc : s.body = .test i) (hturn : s.turn = 0) :
    TakesTurns n { s with body := .unlockAgain i } := by
  have hwithin : i < n := by simpa [hpc] using hs.within
  have heven : s.writes.length % 2 = 0 := by
    have h := hs.turn
    omega
  have hoff := hs.queued.body_notMem (by simp [hpc])
  apply hs.body_move hoff <;> simp [hpc, hwithin, heven]

theorem TakesTurns.body_wait (hs : TakesTurns n s) {i : ℕ} (hpc : s.body = .test i) (hturn : s.turn ≠ 0) :
    TakesTurns n { s.wait .body with body := .waiting i } := by
  have hodd : s.writes.length % 2 = 1 := by
    have h := hs.turn
    omega
  have hempty : s.queue = [] := by
    rcases hs.queued with h | ⟨_, h, _⟩ | ⟨_, _, h⟩
    · exact h
    · simp [hpc] at h
    · simp [hpc, hodd] at h
  have hqueued : Queued { s.wait .body with body := .waiting i } :=
    Or.inr (Or.inl ⟨by simp [State.wait, hempty], trivial, Or.inl hodd⟩)
  have hwithin : i < n := by simpa [hpc] using hs.within
  have hreleased : TakesTurns n { s.unlock with body := .waiting i } := by
    apply hs.body_release <;> simp [hpc, hwithin]
  exact { hreleased with queued := hqueued }

theorem lock_eq_some {g : Goroutine} (h : s.lock g = some s') :
    s.mutex = none ∧ { s with mutex := some g } = s' := by
  unfold State.lock at h
  split at h
  · exact ⟨‹_›, Option.some.inj h⟩
  · cases h

theorem takesTurns_bodyStep (hs : TakesTurns n s) (h : bodyStep notify n s = some s') :
    TakesTurns n s' := by
  unfold bodyStep at h
  split at h <;> rename_i hpc
  · exact Option.some.inj h ▸ hs.body_loop hpc
  · obtain ⟨s₁, hlock, rfl⟩ := Option.map_eq_some_iff.mp h
    obtain ⟨hfree, rfl⟩ := lock_eq_some hlock
    exact hs.body_lock hpc hfree
  · exact Option.some.inj h ▸ hs.body_setStop hpc
  · exact Option.some.inj h ▸ hs.body_setTurn hpc
  · exact Option.some.inj h ▸ hs.body_unlock hpc
  · exact Option.some.inj h ▸ hs.body_signal hpc
  · exact Option.some.inj h ▸ hs.body_broadcast hpc
  · obtain ⟨s₁, hlock, rfl⟩ := Option.map_eq_some_iff.mp h
    obtain ⟨hfree, rfl⟩ := lock_eq_some hlock
    exact hs.body_relock (Or.inl hpc) (hs.queued.body_notMem (by simp [hpc])) hfree
  · split at h
    · exact Option.some.inj h ▸ hs.body_wait hpc ‹_›
    · exact Option.some.inj h ▸ hs.body_go hpc (not_not.mp ‹_›)
  · split at h
    · cases h
    · rename_i hoff
      obtain ⟨s₁, hlock, rfl⟩ := Option.map_eq_some_iff.mp h
      obtain ⟨hfree, rfl⟩ := lock_eq_some hlock
      exact hs.body_relock (Or.inr hpc) (by simpa using hoff) hfree
  · exact Option.some.inj h ▸ hs.body_unlockAgain hpc
  · obtain rfl := Option.some.inj h
    split
    · exact hs
    · exact hs.body_poll hpc ‹_›
  · cases h

/-! ## A step of the partner -/

theorem TakesTurns.partner_goto (hs : TakesTurns n s) {pc : PartnerPc} {mutex : Option Goroutine} {done : ℤ}
    (hrunning : s.partner ≠ .returned) (hoff : .partner ∉ s.queue)
    (hsignals : s.queue ≠ [] → s.partner.Signals → s.writes.length % 2 = 1 ∨ pc.Signals)
    (htaking : pc.Taking → s.writes.length % 2 = 1) (hholds : mutex = some .partner ↔ pc.Holds)
    (hother : mutex = some .body ↔ s.body.Holds) (hknows : pc.Knows n (s.writes.length / 2))
    (hdone : done = if pc = .returned then 1 else 0) :
    TakesTurns n { s with partner := pc, mutex := mutex, done := done } :=
  { hs with
    taking := htaking
    body_holds := hother
    partner_holds := hholds
    queued := hs.queued.partner_moves hoff hsignals
    knows := hknows
    done := hdone
    returned := fun h => absurd (hs.returned h) hrunning }

theorem TakesTurns.partner_move (hs : TakesTurns n s) {pc : PartnerPc} (hrunning : s.partner ≠ .returned)
    (hpc : pc ≠ .returned) (hoff : .partner ∉ s.queue)
    (hsignals : s.queue ≠ [] → s.partner.Signals → s.writes.length % 2 = 1 ∨ pc.Signals)
    (htaking : pc.Taking → s.writes.length % 2 = 1) (hholds : pc.Holds ↔ s.partner.Holds)
    (hknows : pc.Knows n (s.writes.length / 2)) : TakesTurns n { s with partner := pc } :=
  hs.partner_goto hrunning hoff hsignals htaking (hs.partner_holds.trans hholds.symm) hs.body_holds hknows
    (by rw [hs.done, if_neg hrunning, if_neg hpc])

theorem TakesTurns.body_free (hs : TakesTurns n s) (h : s.mutex = none ∨ s.mutex = some .partner) :
    ¬ s.body.Holds := by
  intro hholds
  have hmutex := hs.body_holds.mpr hholds
  rcases h with h | h <;> simp [h] at hmutex

theorem TakesTurns.partner_acquire (hs : TakesTurns n s) (hpc : s.partner = .lock ∨ s.partner = .waiting)
    (hoff : .partner ∉ s.queue) (hfree : s.mutex = none) :
    TakesTurns n { s with mutex := some .partner, partner := .test } := by
  have hknows := hs.knows
  have hdone := hs.done
  have hbody := hs.body_free (Or.inl hfree)
  have hother := iff_of_false (a := some Goroutine.partner = some .body) (by simp) hbody
  rcases hpc with hpc | hpc <;> simp only [hpc, PartnerPc.Knows] at hknows <;> simp only [hpc] at hdone <;>
    refine hs.partner_goto ?_ hoff ?_ ?_ ?_ hother ?_ ?_ <;> simp [hpc, hknows, hdone]

theorem TakesTurns.partner_release (hs : TakesTurns n s) {pc : PartnerPc} (hheld : s.partner.Holds)
    (hsignals : s.partner.Signals → pc.Signals) (htaking : ¬ pc.Taking) (hholds : ¬ pc.Holds)
    (hknows : pc.Knows n (s.writes.length / 2)) (hrunning : pc ≠ .returned) :
    TakesTurns n { s.unlock with partner := pc } := by
  have hrun : s.partner ≠ .returned := by
    intro h
    simp [h] at hheld
  have hwait : s.partner ≠ .waiting := by
    intro h
    simp [h] at hheld
  exact hs.partner_goto hrun (hs.queued.partner_notMem hwait) (fun _ h => Or.inr (hsignals h))
    (fun h => absurd h htaking) (iff_of_false (by simp [State.unlock]) hholds)
    (iff_of_false (by simp [State.unlock]) (hs.body_free (Or.inr (hs.partner_holds.mpr hheld)))) hknows
    (by simp [State.unlock, hs.done, hrun, hrunning])

theorem TakesTurns.partner_wait (hs : TakesTurns n s) (hpc : s.partner = .test) (hturn : s.turn ≠ 1) :
    TakesTurns n { s.wait .partner with partner := .waiting } := by
  have heven : s.writes.length % 2 = 0 := by
    have h := hs.turn
    omega
  have hempty : s.queue = [] := by
    rcases hs.queued with h | ⟨_, _, h⟩ | ⟨_, h, _⟩
    · exact h
    · simp [hpc, heven] at h
    · simp [hpc] at h
  have hqueued : Queued { s.wait .partner with partner := .waiting } :=
    Or.inr (Or.inr ⟨by simp [State.wait, hempty], rfl, Or.inl heven⟩)
  have hknows := hs.knows
  simp only [hpc, PartnerPc.Knows] at hknows
  have hreleased : TakesTurns n { s.unlock with partner := .waiting } := by
    apply hs.partner_release <;> simp [hpc, hknows]
  exact { hreleased with queued := hqueued }

theorem TakesTurns.partner_go (hs : TakesTurns n s) (hpc : s.partner = .test) (hturn : s.turn = 1) :
    TakesTurns n { s with partner := .load } := by
  have hodd : s.writes.length % 2 = 1 := by
    have h := hs.turn
    omega
  have hoff := hs.queued.partner_notMem (by simp [hpc])
  apply hs.partner_move <;> simp [hpc, hoff, hodd]

/-- The flag the partner reads is set exactly in turn n. -/
theorem TakesTurns.stop_eq (hs : TakesTurns n s) (hpc : s.partner = .load) :
    s.stop = decide (s.writes.length / 2 = n) := by
  have hodd := hs.taking (by simp [hpc])
  have hbody := hs.body_free (Or.inr (hs.partner_holds.mpr (by simp [hpc])))
  have hanswered := hs.answered
  have hopened := hs.opened
  have hwithin := hs.within
  have hstopped := hs.stopped
  rw [Bool.eq_iff_iff, decide_eq_true_eq, hstopped]
  cases hb : s.body with
  | signal r =>
    simp only [hb, BodyPc.opened, BodyPc.Within, BodyPc.Stopped] at hopened hwithin ⊢
    rw [← hwithin.index_eq_iff]
    omega
  | _ => simp_all <;> omega

theorem TakesTurns.partner_load (hs : TakesTurns n s) (hpc : s.partner = .load) :
    TakesTurns n { s with partner := .setTurn s.stop } := by
  have hoff := hs.queued.partner_notMem (by simp [hpc])
  have hodd := hs.taking (by simp [hpc])
  apply hs.partner_move <;> simp [hpc, hoff, hodd, hs.stop_eq hpc]

theorem TakesTurns.partner_setTurn (hs : TakesTurns n s) {stop : Bool} (hpc : s.partner = .setTurn stop) :
    TakesTurns n { s.write .partner 0 with partner := .unlock stop } := by
  have hodd := hs.taking (by simp [hpc])
  have hheld := hs.partner_holds.mpr (by simp [hpc])
  have hbody := hs.body_free (Or.inr hheld)
  have hopened := hs.opened
  have hknows := hs.knows
  have hdone := hs.done
  have hreturned := hs.returned
  have hlength : (s.writes ++ [(Goroutine.partner, (0 : ℤ))]).length = s.writes.length + 1 := by simp
  simp only [hpc, PartnerPc.Knows] at hknows
  refine { hs with writes := ?_, turn := ?_, opened := ?_, answered := ?_, taking := False.elim,
                   partner_holds := ?_, queued := ?_, knows := ?_, done := ?_, returned := ?_ } <;>
    simp only [State.write, hlength]
  · exact writes_concat hs.writes (if_neg (by omega))
  · omega
  · omega
  · intro
    omega
  · simpa using hheld
  · rcases hs.queued with h | ⟨h, hwaiting, _⟩ | ⟨_, h, _⟩
    · exact Or.inl h
    · exact Or.inr (Or.inl ⟨h, hwaiting, Or.inr trivial⟩)
    · simp [hpc] at h
  · have hhalf : (s.writes.length + 1) / 2 = s.writes.length / 2 + 1 := by omega
    simp [hhalf, hknows]
  · simpa [hpc] using hdone
  · simpa [hpc] using hreturned

theorem TakesTurns.partner_unlock (hs : TakesTurns n s) {stop : Bool} (hpc : s.partner = .unlock stop) :
    TakesTurns n { s.unlock with partner := .signal stop } := by
  have hknows := hs.knows
  simp only [hpc, PartnerPc.Knows] at hknows
  apply hs.partner_release <;> simp [hpc, hknows]

theorem TakesTurns.partner_signal (hs : TakesTurns n s) {stop : Bool} (hpc : s.partner = .signal stop) :
    TakesTurns n { s.signal notify with partner := .leave stop } := by
  have hknows := hs.knows
  have hqueue : s.signal notify = { s with queue := [] } := by rw [State.signal, hs.queued.rest]
  simp only [hpc, PartnerPc.Knows] at hknows
  rw [hqueue]
  apply hs.unqueue.partner_move <;> simp [hpc, hknows]

theorem BodyPc.Within.opened_le {pc : BodyPc} (h : pc.Within n) : pc.opened n ≤ n + 1 := by
  cases pc with
  | loop i => exact Nat.le_succ_of_le h
  | lock r => exact Nat.le_succ_of_le (Round.Within.index_le h)
  | setTurn r => exact Nat.le_succ_of_le (Round.Within.index_le h)
  | unlock r => exact Nat.succ_le_succ (Round.Within.index_le h)
  | signal r => exact Nat.succ_le_succ (Round.Within.index_le h)
  | setStop => exact Nat.le_succ n
  | lockAgain i => exact Nat.le_succ_of_le h
  | test i => exact Nat.le_succ_of_le h
  | waiting i => exact Nat.le_succ_of_le h
  | unlockAgain i => exact Nat.le_succ_of_le h
  | poll => exact Nat.le_refl _
  | returned => exact Nat.le_refl _

theorem TakesTurns.partner_leave (hs : TakesTurns n s) {stop : Bool} (hpc : s.partner = .leave stop) :
    TakesTurns n { s with partner := if stop then .store else .lock } := by
  have hknows := hs.knows
  have hopened := hs.opened
  have hle := hs.within.opened_le
  have hoff := hs.queued.partner_notMem (by simp [hpc])
  simp only [hpc, PartnerPc.Knows] at hknows
  cases stop with
  | true => apply hs.partner_move <;> simp_all
  | false =>
    apply hs.partner_move <;> simp_all
    omega

theorem TakesTurns.partner_store (hs : TakesTurns n s) (hpc : s.partner = .store) :
    TakesTurns n { s with done := 1, partner := .returned } := by
  have hknows := hs.knows
  have hheld := hs.partner_holds
  have hoff := hs.queued.partner_notMem (by simp [hpc])
  simp only [hpc, PartnerPc.Knows, PartnerPc.Holds] at hknows hheld
  refine hs.partner_goto ?_ hoff ?_ ?_ ?_ hs.body_holds ?_ ?_ <;> simp [hpc, hknows, hheld]

theorem takesTurns_partnerStep (hs : TakesTurns n s) (h : partnerStep notify s = some s') :
    TakesTurns n s' := by
  unfold partnerStep at h
  split at h <;> rename_i hpc
  · obtain ⟨s₁, hlock, rfl⟩ := Option.map_eq_some_iff.mp h
    obtain ⟨hfree, rfl⟩ := lock_eq_some hlock
    exact hs.partner_acquire (Or.inl hpc) (hs.queued.partner_notMem (by simp [hpc])) hfree
  · split at h
    · exact Option.some.inj h ▸ hs.partner_wait hpc ‹_›
    · exact Option.some.inj h ▸ hs.partner_go hpc (not_not.mp ‹_›)
  · split at h
    · cases h
    · rename_i hoff
      obtain ⟨s₁, hlock, rfl⟩ := Option.map_eq_some_iff.mp h
      obtain ⟨hfree, rfl⟩ := lock_eq_some hlock
      exact hs.partner_acquire (Or.inr hpc) (by simpa using hoff) hfree
  · exact Option.some.inj h ▸ hs.partner_load hpc
  · exact Option.some.inj h ▸ hs.partner_setTurn hpc
  · exact Option.some.inj h ▸ hs.partner_unlock hpc
  · exact Option.some.inj h ▸ hs.partner_signal hpc
  · exact Option.some.inj h ▸ hs.partner_leave hpc
  · exact Option.some.inj h ▸ hs.partner_store hpc
  · cases h

theorem Queued.erase (h : Queued s) {g : Goroutine} (hmem : g ∈ s.queue) : s.queue.erase g = [] := by
  rcases h with h | ⟨h, _⟩ | ⟨h, _⟩ <;> rw [h] at hmem ⊢
  · cases hmem
  · rw [List.mem_singleton.mp hmem]
    simp
  · rw [List.mem_singleton.mp hmem]
    simp

theorem takesTurns_step {a : Agent} (hs : TakesTurns n s) (h : step notify n a s = some s') :
    TakesTurns n s' := by
  unfold step at h
  split at h
  · exact takesTurns_bodyStep hs h
  · exact takesTurns_partnerStep hs h
  · split at h
    · rename_i hmem
      obtain rfl := Option.some.inj h
      rw [hs.queued.erase (by simpa using hmem)]
      exact hs.unqueue
    · cases h

end BurrowBench.Scheduler.CondPingpong
