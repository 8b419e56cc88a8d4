import BurrowBench.Scheduler.CondTurns

/-! # The Cond ping pong does not get stuck

A goroutine that holds the mutex can move, and with the mutex free so can one that is off
the queue. The body is queued, or polls for the end, only while the partner is off it.
-/
namespace BurrowBench.Scheduler.CondPingpong
open Interleaving

variable {notify : Notify} {n : ℕ} {s s' : State}

/-! ## Progress -/

theorem bodyStep_ne (h : bodyStep notify n s = some s') (hpoll : s.body = .poll → s.done ≠ 0) :
    s' ≠ s := by
  suffices s'.body ≠ s.body from fun heq => this (heq ▸ rfl)
  unfold bodyStep at h
  split at h <;> rename_i hpc <;> rw [hpc]
  · obtain rfl := Option.some.inj h
    simp
  · obtain ⟨s₁, _, rfl⟩ := Option.map_eq_some_iff.mp h
    split <;> simp
  · obtain rfl := Option.some.inj h
    simp
  · obtain rfl := Option.some.inj h
    simp
  · obtain rfl := Option.some.inj h
    simp
  · obtain rfl := Option.some.inj h
    simp
  · obtain rfl := Option.some.inj h
    simp
  · obtain ⟨s₁, _, rfl⟩ := Option.map_eq_some_iff.mp h
    simp
  · split at h <;> obtain rfl := Option.some.inj h <;> simp
  · split at h
    · cases h
    · obtain ⟨s₁, _, rfl⟩ := Option.map_eq_some_iff.mp h
      simp
  · obtain rfl := Option.some.inj h
    simp
  · obtain rfl := Option.some.inj h
    simp [hpoll hpc]
  · cases h

theorem partnerStep_ne (h : partnerStep notify s = some s') : s' ≠ s := by
  suffices s'.partner ≠ s.partner from fun heq => this (heq ▸ rfl)
  unfold partnerStep at h
  split at h <;> rename_i hpc <;> rw [hpc]
  · obtain ⟨s₁, _, rfl⟩ := Option.map_eq_some_iff.mp h
    simp
  · split at h <;> obtain rfl := Option.some.inj h <;> simp
  · split at h
    · cases h
    · obtain ⟨s₁, _, rfl⟩ := Option.map_eq_some_iff.mp h
      simp
  · obtain rfl := Option.some.inj h
    simp
  · obtain rfl := Option.some.inj h
    simp
  · obtain rfl := Option.some.inj h
    simp
  · obtain rfl := Option.some.inj h
    simp
  · obtain rfl := Option.some.inj h
    split <;> simp
  · obtain rfl := Option.some.inj h
    simp
  · cases h

def Moves (notify : Notify) (n : ℕ) (s : State) : Prop :=
  ∃ g s', step notify n (.run g) s = some s' ∧ s' ≠ s

theorem moves_body (h : (bodyStep notify n s).isSome) (hpoll : s.body = .poll → s.done ≠ 0) :
    Moves notify n s := by
  obtain ⟨s', hstep⟩ := Option.isSome_iff_exists.mp h
  exact ⟨.body, s', hstep, bodyStep_ne hstep hpoll⟩

theorem moves_partner (h : (partnerStep notify s).isSome) : Moves notify n s := by
  obtain ⟨s', hstep⟩ := Option.isSome_iff_exists.mp h
  exact ⟨.partner, s', hstep, partnerStep_ne hstep⟩

theorem TakesTurns.partner_able (hs : TakesTurns n s) (hfree : s.mutex = none) (hoff : .partner ∉ s.queue)
    (hrunning : s.partner ≠ .returned) : Moves notify n s := by
  have hheld := hs.partner_free (Or.inl hfree)
  apply moves_partner
  cases hpc : s.partner <;> simp_all [partnerStep, State.lock]

theorem TakesTurns.holder_able (hs : TakesTurns n s) {g : Goroutine} (hheld : s.mutex = some g) :
    Moves notify n s := by
  cases g with
  | body =>
    have hholds := hs.body_holds.mp hheld
    apply moves_body
    · cases hpc : s.body <;> simp_all [bodyStep]
      split <;> rfl
    · intro hpc
      simp [hpc] at hholds
  | partner =>
    have hholds := hs.partner_holds.mp hheld
    apply moves_partner
    cases hpc : s.partner <;> simp_all [partnerStep]
    split <;> rfl

theorem TakesTurns.writes_le (hs : TakesTurns n s) : s.writes.length ≤ 2 * n + 2 := by
  have hopened := hs.opened
  have hle := hs.within.opened_le
  omega

/-- While the body is queued, and while it polls for the end, the partner is on its way. -/
theorem TakesTurns.partner_owes (hs : TakesTurns n s) (hfree : s.mutex = none)
    (h : .body ∈ s.queue ∨ (s.body = .poll ∧ s.done = 0)) : Moves notify n s := by
  have hopened := hs.opened
  have hknows := hs.knows
  have hle := hs.writes_le
  rcases h with hmem | ⟨hpc, hdone⟩
  · rcases hs.queued with h | ⟨h, hwaiting, hturn⟩ | ⟨h, _⟩
    · simp [h] at hmem
    · apply hs.partner_able hfree (by simp [h])
      intro hpartner
      have hwithin := hs.within
      simp only [hpartner, PartnerPc.Knows] at hknows
      cases hb : s.body <;> simp_all
      omega
    · simp [h] at hmem
  · have hrunning : s.partner ≠ .returned := by
      intro hpartner
      simp [hs.done, hpartner] at hdone
    apply hs.partner_able hfree _ hrunning
    intro hmem
    rcases hs.queued with h | ⟨h, _⟩ | ⟨_, hpartner, hturn⟩
    · simp [h] at hmem
    · simp [h] at hmem
    · -- the turn would be the body's for good
      simp only [hpc, BodyPc.opened, BodyPc.Signals, or_false] at hopened hturn
      simp only [hpartner, PartnerPc.Knows] at hknows
      omega

theorem TakesTurns.eq_final (hs : TakesTurns n s) (hpc : s.body = .returned) : s = final n := by
  have hpartner := hs.returned hpc
  have hopened := hs.opened
  have hknows := hs.knows
  have hle := hs.writes_le
  simp only [hpc, hpartner, BodyPc.opened, PartnerPc.Knows] at hopened hknows
  have hlength : s.writes.length = 2 * n + 2 := by omega
  have hmutex : s.mutex = none := by
    have hbody := hs.body_holds
    have hother := hs.partner_holds
    simp only [hpc, hpartner, BodyPc.Holds, PartnerPc.Holds, iff_false] at hbody hother
    cases hm : s.mutex with
    | none => rfl
    | some g => cases g <;> simp [hm] at hbody hother
  have hqueue : s.queue = [] := by
    rcases hs.queued with h | ⟨_, h, _⟩ | ⟨_, h, _⟩
    · exact h
    · simp [hpc] at h
    · simp [hpartner] at h
  have hwrites := hs.writes
  have hturn := hs.turn
  have hstop := hs.stopped
  have hdone := hs.done
  rw [hlength] at hwrites hturn
  cases s
  simp_all [final, write]

/-- Short of the end some goroutine can move without a spurious wakeup. -/
theorem TakesTurns.moves (hs : TakesTurns n s) : s = final n ∨ Moves notify n s := by
  cases hmutex : s.mutex with
  | some g => exact Or.inr (hs.holder_able hmutex)
  | none =>
    have hheld := hs.body_free (Or.inl hmutex)
    cases hpc : s.body with
    | waiting i =>
      by_cases hmem : .body ∈ s.queue
      · exact Or.inr (hs.partner_owes hmutex (Or.inl hmem))
      · exact Or.inr (moves_body (by simp [bodyStep, hpc, hmem, State.lock, hmutex]) (by simp [hpc]))
    | poll =>
      by_cases hdone : s.done = 0
      · exact Or.inr (hs.partner_owes hmutex (Or.inr ⟨hpc, hdone⟩))
      · exact Or.inr (moves_body (by simp [bodyStep, hpc]) fun _ => hdone)
    | returned => exact Or.inl (hs.eq_final hpc)
    | signal r => exact Or.inr (moves_body (by cases r <;> simp [bodyStep, hpc]) (by simp [hpc]))
    | loop i => exact Or.inr (moves_body (by simp [bodyStep, hpc]) (by simp [hpc]))
    | lock r => exact Or.inr (moves_body (by simp [bodyStep, hpc, State.lock, hmutex]) (by simp [hpc]))
    | lockAgain i =>
      exact Or.inr (moves_body (by simp [bodyStep, hpc, State.lock, hmutex]) (by simp [hpc]))
    | _ => simp [hpc] at hheld

/-! ## The ping pong -/

structure KeepsTurns (n : ℕ) (s : State) : Prop where
  not_both_queued : ¬ (.body ∈ s.queue ∧ .partner ∈ s.queue)
  alternating : ∀ (k : ℕ) (w : Goroutine × ℤ), s.writes[k]? = some w →
    w = if k % 2 = 0 then (.body, 1) else (.partner, 0)
  turn_written : s.turn = (s.writes.getLast?.map Prod.snd).getD 0
  body_opens : ∀ r, s.body = .setTurn r → s.turn = 0 ∧ (s.stop ↔ s.writes.length = 2 * n)
  partner_takes : ∀ stop, s.partner = .setTurn stop → s.turn = 1 ∧ (stop ↔ s.writes.length = 2 * n + 1)
  partner_leaves : ∀ stop, s.partner = .leave stop → (stop ↔ s.writes.length = 2 * n + 2)
  turns : s.writes.length ≤ 2 * n + 2
  left : s.partner = .store ∨ s.partner = .returned → s.writes.length = 2 * n + 2

theorem TakesTurns.keepsTurns (hs : TakesTurns n s) : KeepsTurns n s where
  not_both_queued := by
    rintro ⟨hbody, hpartner⟩
    rcases hs.queued with h | ⟨h, _⟩ | ⟨h, _⟩ <;> simp [h] at hbody hpartner
  alternating k w h := by
    rw [hs.writes, List.getElem?_map, Option.map_eq_some_iff] at h
    obtain ⟨j, hj, rfl⟩ := h
    obtain ⟨_, rfl⟩ := List.getElem?_eq_some_iff.mp hj
    simp [write]
  turn_written := by
    rw [hs.writes, List.getLast?_map, List.getLast?_range, hs.turn]
    split
    · simp [*]
    · simp only [Option.map_some, Option.getD_some, write]
      split <;> simp <;> omega
  body_opens r hpc := by
    have hturn := hs.turn
    have heven := hs.answered (by simp [hpc])
    have hopened := hs.opened
    have hwithin : r.Within n := by simpa [hpc] using hs.within
    have hstopped := hs.stopped
    simp only [hpc, BodyPc.opened, BodyPc.Stopped] at hopened hstopped
    rw [hstopped, ← hwithin.index_eq_iff]
    omega
  partner_takes stop hpc := by
    have hturn := hs.turn
    have hodd := hs.taking (by simp [hpc])
    have hknows := hs.knows
    simp only [hpc, PartnerPc.Knows] at hknows
    rw [hknows, decide_eq_true_eq]
    omega
  partner_leaves stop hpc := by
    have hknows := hs.knows
    have hle := hs.writes_le
    simp only [hpc, PartnerPc.Knows] at hknows
    rw [hknows, decide_eq_true_eq]
    omega
  turns := hs.writes_le
  left h := by
    have hknows := hs.knows
    have hle := hs.writes_le
    rcases h with hpc | hpc <;> simp only [hpc, PartnerPc.Knows] at hknows <;> omega

theorem takesTurns_run {schedule : List Agent} (h : run (step notify n) schedule start = some s) :
    TakesTurns n s := run_invariant (fun _ _ _ => takesTurns_step) (takesTurns_start n) h

/-- Whatever the schedule and whomever a signal wakes, the turn goes back and forth, and
short of the end some goroutine can move on its own. -/
theorem cond_keeps_turns (notify : Notify) (n : ℕ) (schedule : List Agent) (s : State)
    (h : run (step notify n) schedule start = some s) :
    KeepsTurns n s ∧ (s = final n ∨ Moves notify n s) ∧ ∀ a, step notify n a (final n) = none := by
  have hs := takesTurns_run h
  refine ⟨hs.keepsTurns, hs.moves, ?_⟩
  rintro (⟨_ | _⟩ | g)
  · rfl
  · rfl
  · simp [step, final]

/-- A run of one timed round to the end, with a wait of each and a spurious wakeup. -/
theorem cond_keeps_turns_one : KeepsTurns 1 (final 1) :=
  (cond_keeps_turns .fifo 1
    ([.run .partner, .run .partner, .spurious .partner, .run .partner, .run .partner] ++
      List.replicate 7 (.run .body) ++ List.replicate 6 (.run .partner) ++ List.replicate 9 (.run .body) ++
      List.replicate 9 (.run .partner) ++ [.run .body]) (final 1) (by decide)).1

end BurrowBench.Scheduler.CondPingpong
