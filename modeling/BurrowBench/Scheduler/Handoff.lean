import BurrowBench.Scheduler.HandoffPhases

/-! # The handoff loses no wakeup

In every phase the gates hold at most one of a waiter and a signal, a signal finds its
gate unsignalled, and what the child read of hand_stop is whether it was set before the
signal that opened the round. Every step but a poll that finds nothing brings the end
nearer, and short of the end there is such a step.
-/
namespace BurrowBench.Scheduler
open Interleaving

/-- What holds of a state whatever the schedule was. -/
structure NoLostWakeup (n : ℕ) (s : State) : Prop where
  there_exclusive : ¬ (s.there.waiter.isSome ∧ s.there.signalled)
  back_exclusive : ¬ (s.back.waiter.isSome ∧ s.back.signalled)
  there_unsignalled : ∀ v, s.body = { pc := .signal v, parked := false } → s.there.signalled = false
  back_unsignalled :
    ∀ stop, s.child = { pc := .signal stop, parked := false } → s.back.signalled = false
  body_readies : ∀ v w, s.body = { pc := .ready v w, parked := false } → w = .child ∧ s.child.parked
  child_readies :
    ∀ stop w, s.child = { pc := .ready stop w, parked := false } → w = .body ∧ s.body.parked
  one_signal_a_round :
    ∀ stop, s.child = { pc := .signal stop, parked := false } → s.opened.length = s.rounds + 1
  leaves_after_stop : ∀ stop, s.child.pc = .test stop →
    s.opened[s.rounds]? = some stop ∧ (stop → s.rounds = n + 1)
  left : s.child.pc = .leave ∨ s.child.pc = .done → s.rounds = n + 2

variable {n : ℕ} {p : Phase}

/-! ## The gates -/

theorem Phase.there_exclusive (n : ℕ) (p : Phase) :
    ¬ ((p.state n).there.waiter.isSome ∧ (p.state n).there.signalled) := by
  cases p <;> simp

theorem Phase.back_exclusive (n : ℕ) (p : Phase) :
    ¬ ((p.state n).back.waiter.isSome ∧ (p.state n).back.signalled) := by
  cases p <;> simp

theorem Phase.there_unsignalled {v : Volley}
    (h : (p.state n).body = { pc := .signal v, parked := false }) :
    (p.state n).there.signalled = false := by
  cases p with
  | sent v' b c => cases b <;> simp at h
  | _ => rfl

theorem Phase.back_unsignalled {stop : Bool}
    (h : (p.state n).child = { pc := .signal stop, parked := false }) :
    (p.state n).back.signalled = false := by
  cases p with
  | answered v c => cases c <;> simp at h
  | closing b c => cases c <;> simp at h
  | _ => rfl

/-- A goroutine about to make another ready finds it parked. -/
theorem Phase.body_readies (hp : p.Valid n) {v : Volley} {w : Goroutine}
    (h : (p.state n).body = { pc := .ready v w, parked := false }) :
    w = .child ∧ (p.state n).child.parked := by
  cases p with
  | ahead pc c =>
    obtain rfl : pc = .ready v w := by simpa using h
    exact absurd hp.1 id
  | waking v' =>
    have hw : v' = v ∧ Goroutine.child = w := by simpa using h
    exact ⟨hw.2.symm, rfl⟩
  | sent v' b c => cases b <;> simp at h
  | round v' b loaded => cases b <;> simp at h
  | answered v' c => simp at h
  | returning v' => simp at h
  | closing b c => cases b <;> simp at h

theorem Phase.child_readies {stop : Bool} {w : Goroutine}
    (h : (p.state n).child = { pc := .ready stop w, parked := false }) :
    w = .body ∧ (p.state n).body.parked := by
  cases p with
  | returning v =>
    have hw : decide (v = .shutdown) = stop ∧ Goroutine.body = w := by simpa using h
    exact ⟨hw.2.symm, rfl⟩
  | ahead pc c => cases c <;> simp at h
  | sent v b c => cases c <;> simp at h
  | waking v => simp at h
  | round v b loaded => cases loaded <;> simp at h
  | answered v c => cases c <;> simp at h
  | closing b c => cases c <;> simp at h

/-! ## The rounds -/

theorem length_openings (n k : ℕ) : (openings n k).length = k := by simp [openings]

theorem getElem?_openings {j k : ℕ} (h : j < k) : (openings n k)[j]? = some (decide (n < j)) := by
  simp [openings, h]

theorem opened_before {k m : ℕ} (hk : 0 < k) (hkn : k ≤ n + 1) (hkm : k ≤ m) :
    (openings n m)[k - 1]? = some false := by
  rw [getElem?_openings (by omega), decide_eq_false (by omega)]

theorem Volley.Within.index_le {v : Volley} (h : v.Within n) : v.index n ≤ n + 1 := by
  cases v with
  | warmUp => exact Nat.zero_le _
  | timed i => exact Nat.succ_le_succ (Nat.le_of_lt h)
  | shutdown => exact Nat.le_refl _

theorem completed_le {pc : BodyPc} (h : Ahead n pc) : completed n pc ≤ n + 1 := by
  cases pc with
  | signal v => exact Volley.Within.index_le h
  | loop i => exact Nat.succ_le_succ h
  | _ => exact Nat.le_refl _

theorem Phase.one_signal_a_round {stop : Bool}
    (h : (p.state n).child = { pc := .signal stop, parked := false }) :
    (p.state n).opened.length = (p.state n).rounds + 1 := by
  cases p with
  | round v b loaded => exact length_openings n _
  | ahead pc c => cases c <;> simp at h
  | sent v b c => cases c <;> simp at h
  | waking v => simp at h
  | answered v c => cases c <;> simp at h
  | returning v => simp at h
  | closing b c => cases c <;> simp at h

theorem Phase.leaves_after_stop (hp : p.Valid n) {stop : Bool}
    (h : (p.state n).child.pc = .test stop) :
    (p.state n).opened[(p.state n).rounds]? = some stop ∧ (stop → (p.state n).rounds = n + 1) := by
  cases p with
  | ahead pc c =>
    cases c with
    | test =>
      obtain rfl : false = stop := by simpa using h
      exact ⟨opened_before (hp.2 rfl) (completed_le hp.1) (Nat.le_refl _), by simp⟩
    | _ => simp at h
  | sent v b c =>
    cases c with
    | test =>
      obtain rfl : false = stop := by simpa using h
      exact ⟨opened_before (hp.2.2 rfl) hp.1.index_le (Nat.le_succ _), by simp⟩
    | _ => simp at h
  | answered v c =>
    cases c with
    | test =>
      obtain rfl : false = stop := by simpa using h
      have hlast : ¬ n < v.index n := fun hlt => hp.2 (hp.1.lt_index.mp hlt)
      exact ⟨opened_before (Nat.succ_pos _) (by omega) (Nat.le_refl _), by simp⟩
    | _ => simp at h
  | closing b c =>
    cases c with
    | test =>
      obtain rfl : true = stop := by simpa using h
      refine ⟨?_, fun _ => rfl⟩
      have hlast : (openings n (n + 2))[n + 1]? = some (decide (n < n + 1)) :=
        getElem?_openings (Nat.lt_succ_self _)
      simpa using hlast
    | _ => simp at h
  | waking v => simp at h
  | round v b loaded => cases loaded <;> simp at h
  | returning v => simp at h

theorem Phase.rounds_of_leaving (h : (p.state n).child.pc = .leave ∨ (p.state n).child.pc = .done) :
    (p.state n).rounds = n + 2 := by
  cases p with
  | closing b c => cases c <;> simp at h ⊢
  | ahead pc c => cases c <;> simp at h
  | sent v b c => cases c <;> simp at h
  | waking v => simp at h
  | round v b loaded => cases loaded <;> simp at h
  | answered v c => cases c <;> simp at h
  | returning v => simp at h

theorem Phase.noLostWakeup (hp : p.Valid n) : NoLostWakeup n (p.state n) where
  there_exclusive := p.there_exclusive n
  back_exclusive := p.back_exclusive n
  there_unsignalled _ := Phase.there_unsignalled
  back_unsignalled _ := Phase.back_unsignalled
  body_readies _ _ := Phase.body_readies hp
  child_readies _ _ := Phase.child_readies
  one_signal_a_round _ := Phase.one_signal_a_round
  leaves_after_stop _ := Phase.leaves_after_stop hp
  left := Phase.rounds_of_leaving

/-! ## Progress -/

def bodyLeft (n : ℕ) : BodyPc → ℕ
  | .loop i => 6 + 4 * (n - i)
  | .stop => 5
  | .signal .warmUp => 9 + 4 * n
  | .signal (.timed i) => 9 + 4 * (n - (i + 1))
  | .signal .shutdown => 4
  | .ready .warmUp _ => 8 + 4 * n
  | .ready (.timed i) _ => 8 + 4 * (n - (i + 1))
  | .ready .shutdown _ => 3
  | .wait .warmUp => 7 + 4 * n
  | .wait (.timed i) => 7 + 4 * (n - (i + 1))
  | .wait .shutdown => 2
  | .poll => 1
  | .done => 0

def childLeft (n rounds : ℕ) : ChildPc → ℕ
  | .wait => 5 * (n + 1 - rounds) + 6
  | .load => 5 * (n + 1 - rounds) + 5
  | .signal _ => 5 * (n + 1 - rounds) + 4
  | .ready _ _ => 5 * (n + 1 - rounds) + 3
  | .test _ => 5 * (n + 1 - rounds) + 2
  | .leave => 1
  | .done => 0

def stepsLeft (n : ℕ) (s : State) : ℕ := bodyLeft n s.body.pc + childLeft n s.rounds s.child.pc

theorem bodyLeft_after (n : ℕ) (v : Volley) : bodyLeft n v.after < bodyLeft n (.wait v) := by
  cases v <;> simp [Volley.after, bodyLeft]

theorem bodyLeft_signal (n : ℕ) (v : Volley) (w : Goroutine) :
    bodyLeft n (.wait v) < bodyLeft n (.signal v) ∧ bodyLeft n (.ready v w) < bodyLeft n (.signal v) ∧
      bodyLeft n (.wait v) < bodyLeft n (.ready v w) := by
  cases v <;> simp [bodyLeft]

/-- A step of the body brings the end nearer, or was a poll that found nothing. -/
theorem bodyPhase_lowers {p' : Phase} (hp : p.Valid n) (hstep : bodyPhase n p = some p') :
    p'.state n = p.state n ∨ stepsLeft n (p'.state n) < stepsLeft n (p.state n) := by
  cases p with
  | ahead pc c =>
    cases pc with
    | signal v =>
      right
      have hsignal := bodyLeft_signal n v .child
      cases c <;> obtain rfl := Option.some.inj hstep <;>
        simp [stepsLeft, completed, hsignal.1, hsignal.2.1]
    | loop i =>
      right
      obtain rfl := Option.some.inj hstep
      have hi : i ≤ n := hp.1
      by_cases hin : i < n
      · simp [stepsLeft, completed, Volley.index, hin, bodyLeft]
        omega
      · obtain rfl : i = n := by omega
        simp [stepsLeft, completed, bodyLeft]
    | stop =>
      right
      obtain rfl := Option.some.inj hstep
      simp [stepsLeft, completed, Volley.index, bodyLeft]
    | ready v w => exact absurd hp.1 id
    | wait v => exact absurd hp.1 id
    | poll => exact absurd hp.1 id
    | done => exact absurd hp.1 id
  | sent v b c =>
    cases b with
    | wait =>
      right
      obtain rfl := Option.some.inj hstep
      simp [stepsLeft, bodyLeft_after]
    | parked => cases hstep
  | waking v =>
    right
    obtain rfl := Option.some.inj hstep
    simp [stepsLeft, (bodyLeft_signal n v .child).2.2]
  | round v b loaded =>
    cases b with
    | wait =>
      right
      obtain rfl := Option.some.inj hstep
      simp [stepsLeft, bodyLeft_after]
    | parked => cases hstep
  | answered v c =>
    right
    obtain rfl := Option.some.inj hstep
    simp [stepsLeft, Volley.completed_after hp.2, bodyLeft_after]
  | returning v => cases hstep
  | closing b c =>
    cases b with
    | answered =>
      right
      obtain rfl := Option.some.inj hstep
      simp [stepsLeft, bodyLeft]
    | poll =>
      cases c <;> obtain rfl := Option.some.inj hstep
      · exact Or.inl rfl
      · exact Or.inl rfl
      · exact Or.inr (by simp [stepsLeft, bodyLeft])
    | done => cases hstep

theorem childPhase_lowers {p' : Phase} (hp : p.Valid n) (hstep : childPhase p = some p') :
    stepsLeft n (p'.state n) < stepsLeft n (p.state n) := by
  cases p with
  | ahead pc c =>
    have hk := completed_le hp.1
    cases c with
    | test =>
      obtain rfl := Option.some.inj hstep
      have hpos := hp.2 rfl
      simp [stepsLeft, childLeft]
      omega
    | wait =>
      obtain rfl := Option.some.inj hstep
      simp [stepsLeft, childLeft]
    | parked => cases hstep
  | sent v b c =>
    have hk := hp.1.index_le
    cases c with
    | test =>
      obtain rfl := Option.some.inj hstep
      have hpos := hp.2.2 rfl
      simp [stepsLeft, childLeft]
      omega
    | wait =>
      obtain rfl := Option.some.inj hstep
      simp [stepsLeft, childLeft]
    | parked => cases hstep
  | waking v => cases hstep
  | round v b loaded =>
    cases loaded with
    | false =>
      obtain rfl := Option.some.inj hstep
      simp [stepsLeft, childLeft]
    | true =>
      cases b with
      | wait => cases v <;> obtain rfl := Option.some.inj hstep <;> simp [stepsLeft, childLeft, Volley.index]
      | parked =>
        cases v <;> obtain rfl := Option.some.inj hstep <;> simp [stepsLeft, childLeft, Volley.index]
  | answered v c =>
    have hlast : ¬ n < v.index n := fun hlt => hp.2 (hp.1.lt_index.mp hlt)
    cases c with
    | test =>
      obtain rfl := Option.some.inj hstep
      simp [stepsLeft, childLeft]
      omega
    | wait =>
      obtain rfl := Option.some.inj hstep
      simp [stepsLeft, childLeft]
    | parked => cases hstep
  | returning v =>
    cases v <;> obtain rfl := Option.some.inj hstep <;>
      simp [stepsLeft, childLeft, Volley.index, completed, Volley.after, bodyLeft]
  | closing b c =>
    cases c with
    | test =>
      obtain rfl := Option.some.inj hstep
      simp [stepsLeft, childLeft]
    | leave =>
      obtain rfl := Option.some.inj hstep
      simp [stepsLeft, childLeft]
    | done => cases hstep

/-- Short of the end one of the two can bring it nearer. -/
theorem Phase.moves (hp : p.Valid n) : p = .closing .done .done ∨
    ∃ g p', phaseStep n g p = some p' ∧ stepsLeft n (p'.state n) < stepsLeft n (p.state n) := by
  have hchild (p' : Phase) (hstep : childPhase p = some p') :
      ∃ g p', phaseStep n g p = some p' ∧ stepsLeft n (p'.state n) < stepsLeft n (p.state n) :=
    ⟨.child, p', hstep, childPhase_lowers hp hstep⟩
  have hbody (p' : Phase) (hstep : bodyPhase n p = some p') (hne : p'.state n ≠ p.state n) :
      ∃ g p', phaseStep n g p = some p' ∧ stepsLeft n (p'.state n) < stepsLeft n (p.state n) :=
    ⟨.body, p', hstep, (bodyPhase_lowers hp hstep).resolve_left hne⟩
  cases p with
  | ahead pc c =>
    right
    cases pc with
    | signal v => cases c <;> exact hbody _ rfl (by simp)
    | loop i => exact hbody _ rfl (by by_cases hin : i < n <;> simp [hin])
    | stop => exact hbody _ rfl (by simp)
    | ready v w => exact absurd hp.1 id
    | wait v => exact absurd hp.1 id
    | poll => exact absurd hp.1 id
    | done => exact absurd hp.1 id
  | sent v b c =>
    right
    cases c with
    | test => exact hchild _ rfl
    | wait => exact hchild _ rfl
    | parked => exact absurd rfl hp.2.1
  | waking v => exact Or.inr (hbody _ rfl (by simp))
  | round v b loaded =>
    right
    cases loaded with
    | false => exact hchild _ rfl
    | true => cases b <;> cases v <;> exact hchild _ rfl
  | answered v c => exact Or.inr (hbody _ rfl (by cases v <;> simp [Volley.after]))
  | returning v => exact Or.inr (by cases v <;> exact hchild _ rfl)
  | closing b c =>
    cases c with
    | test => exact Or.inr (hchild _ rfl)
    | leave => exact Or.inr (hchild _ rfl)
    | done =>
      cases b with
      | answered => exact Or.inr (hbody _ rfl (by simp))
      | poll => exact Or.inr (hbody _ rfl (by simp))
      | done => exact Or.inl rfl

theorem final_eq (n : ℕ) : (Phase.closing .done .done).state n = final n := by
  have hopenings : openings n (n + 2) = List.replicate (n + 1) false ++ [true] := by
    rw [openings_succ, decide_eq_true (Nat.lt_succ_self n), List.append_cancel_right_eq,
      List.eq_replicate_iff]
    refine ⟨length_openings n _, ?_⟩
    intro b hb
    obtain ⟨j, hj, rfl⟩ := List.mem_map.mp hb
    have hjn := List.mem_range.mp hj
    exact decide_eq_false (by omega)
  simp [final, hopenings]

theorem covers_start (n : ℕ) : (phases n).Covers start :=
  ⟨.ahead (.signal .warmUp) .wait, ⟨trivial, by simp⟩, rfl⟩

theorem covers_of_run {schedule : List Goroutine} {s : State}
    (h : run (step n) schedule start = some s) : (phases n).Covers s :=
  (phases n).covers_run (covers_start n) h

theorem step_lowers {g : Goroutine} {s s' : State} (hs : (phases n).Covers s)
    (h : step n g s = some s') (hne : s' ≠ s) : stepsLeft n s' < stepsLeft n s := by
  obtain ⟨p, hp, rfl⟩ := hs
  rw [(phases n).step_state g p hp, Option.map_eq_some_iff] at h
  obtain ⟨p', hstep, rfl⟩ := h
  cases g with
  | body => exact (bodyPhase_lowers hp hstep).resolve_left hne
  | child => exact childPhase_lowers hp hstep

/-- Whatever the schedule, no wakeup is lost, there is a step to take until the end is
reached, and all but the body's idle polls are bounded in number. -/
theorem handoff_loses_no_wakeup (n : ℕ) (schedule : List Goroutine) (s : State)
    (h : run (step n) schedule start = some s) :
    NoLostWakeup n s ∧
    (s = final n ∨ ∃ g s', step n g s = some s' ∧ s' ≠ s) ∧
    (∀ g, step n g (final n) = none) ∧
    changes (step n) schedule start ≤ 9 * n + 20 := by
  have hcovers := covers_of_run h
  refine ⟨?_, ?_, fun g => by cases g <;> rfl, ?_⟩
  · obtain ⟨p, hp, rfl⟩ := hcovers
    exact Phase.noLostWakeup hp
  · obtain ⟨p, hp, rfl⟩ := hcovers
    rcases Phase.moves hp with rfl | ⟨g, p', hstep, hlower⟩
    · exact Or.inl (final_eq n)
    · refine Or.inr ⟨g, p'.state n, ?_, ?_⟩
      · exact ((phases n).step_state g p hp).trans (congrArg (Option.map (Phase.state n)) hstep)
      · intro heq
        have hsame : stepsLeft n (p'.state n) = stepsLeft n (p.state n) := congrArg (stepsLeft n) heq
        omega
  · have hstart : (phases n).Covers start := covers_start n
    have hbound : changes (step n) schedule start ≤ stepsLeft n start := changes_le (fun _ _ _ => (phases n).covers_step)
      (fun _ _ _ hs hstep hne => step_lowers hs hstep hne) schedule hstart
    have hleft : stepsLeft n start = 9 * n + 20 := by
      simp [stepsLeft, start, bodyLeft, childLeft]
      omega
    exact hleft ▸ hbound

/-- A run to the end without a timed volley, with parks and direct signals mixed. -/
theorem handoff_loses_no_wakeup_none :
    NoLostWakeup 0 (final 0) ∧ changes (step 0) [.body, .child, .child, .body, .child, .child, .body,
      .child, .child, .body, .body, .body, .body, .child, .child, .child, .child, .child, .body]
      start ≤ 20 :=
  have h := handoff_loses_no_wakeup 0 [.body, .child, .child, .body, .child, .child, .body,
    .child, .child, .body, .body, .body, .body, .child, .child, .child, .child, .child, .body]
    (final 0) (by decide)
  ⟨h.1, h.2.2.2⟩

end BurrowBench.Scheduler
