import Mathlib.Order.Basic

/-! # Loops that may not end

A while loop over a body that can stop the program. The fuel bounds its turns, so that a
loop that goes round for ever is one that runs out of every amount of it.
-/
namespace BurrowBench.WhileLoop

universe v

section
variable {ε : Type*} {α β : Type v} {x : Except ε α} {f : α → Except ε β}

theorem bind_eq_ok {b : β} : (x >>= f) = .ok b ↔ ∃ a, x = .ok a ∧ f a = .ok b := by
  cases x with
  | error e => simp [bind, Except.bind]
  | ok a => simp [bind, Except.bind]

theorem bind_eq_error {e : ε} :
    (x >>= f) = .error e ↔ x = .error e ∨ ∃ a, x = .ok a ∧ f a = .error e := by
  cases x with
  | error e => simp [bind, Except.bind]
  | ok a => simp [bind, Except.bind]

end

variable {σ α ε : Type*} (outOfFuel : ε) (guard : σ → Bool) (body : σ → Except ε σ)

def loop : ℕ → σ → Except ε σ
  | 0, _ => .error outOfFuel
  | fuel + 1, s =>
    if guard s then do
      let t ← body s
      loop fuel t
    else .ok s

/-- A program that fuel is handed to ends when some amount of it is enough. -/
def Ends (program : ℕ → Except ε α) : Prop := ∃ fuel, program fuel ≠ .error outOfFuel

variable {outOfFuel guard body}

theorem loop_leave {s : σ} (fuel : ℕ) (h : guard s = false) :
    loop outOfFuel guard body (fuel + 1) s = .ok s := by
  simp [loop, h]

theorem loop_turn {s t : σ} (fuel : ℕ) (h : guard s = true) (hbody : body s = .ok t) :
    loop outOfFuel guard body (fuel + 1) s = loop outOfFuel guard body fuel t := by
  simp only [loop, h, if_true, hbody]
  rfl

theorem loop_stop {s : σ} {e : ε} (fuel : ℕ) (h : guard s = true) (hbody : body s = .error e) :
    loop outOfFuel guard body (fuel + 1) s = .error e := by
  simp only [loop, h, if_true, hbody]
  rfl

/-- A turn that keeps the invariant and lowers the measure: with more fuel than the measure
the loop is left in a state with the invariant. -/
theorem loop_ok (I : σ → Prop) (measure : σ → ℕ)
    (hturn : ∀ s, I s → guard s = true → ∃ t, body s = .ok t ∧ I t ∧ measure t < measure s)
    {fuel : ℕ} {s : σ} (hs : I s) (hfuel : measure s < fuel) :
    ∃ t, loop outOfFuel guard body fuel s = .ok t ∧ I t ∧ guard t = false := by
  induction fuel generalizing s with
  | zero => exact absurd hfuel (Nat.not_lt_zero _)
  | succ fuel ih =>
    cases hguard : guard s with
    | false => exact ⟨s, loop_leave fuel hguard, hs, hguard⟩
    | true =>
      obtain ⟨t, hbody, ht, hless⟩ := hturn s hs hguard
      rw [loop_turn fuel hguard hbody]
      exact ih ht (Nat.lt_of_lt_of_le hless (Nat.le_of_lt_succ hfuel))

/-- Turns that lower the measure come to an end, whatever they do. -/
theorem loop_ends (measure : σ → ℕ) (hstop : ∀ s, body s ≠ .error outOfFuel)
    (hturn : ∀ s t, guard s = true → body s = .ok t → measure t < measure s)
    {fuel : ℕ} {s : σ} (hfuel : measure s < fuel) :
    loop outOfFuel guard body fuel s ≠ .error outOfFuel := by
  induction fuel generalizing s with
  | zero => exact absurd hfuel (Nat.not_lt_zero _)
  | succ fuel ih =>
    cases hguard : guard s with
    | false => simp [loop_leave fuel hguard]
    | true =>
      cases hbody : body s with
      | error e =>
        rw [loop_stop fuel hguard hbody]
        exact fun h => hstop s (hbody.trans h)
      | ok t =>
        rw [loop_turn fuel hguard hbody]
        exact ih (Nat.lt_of_lt_of_le (hturn s t hguard hbody) (Nat.le_of_lt_succ hfuel))

/-- A turn that keeps an invariant under which the guard holds goes round for ever. -/
theorem loop_outOfFuel (I : σ → Prop) (hturn : ∀ s, I s → guard s = true ∧ ∃ t, body s = .ok t ∧ I t)
    (fuel : ℕ) {s : σ} (hs : I s) : loop outOfFuel guard body fuel s = .error outOfFuel := by
  induction fuel generalizing s with
  | zero => rfl
  | succ fuel ih =>
    obtain ⟨hguard, t, hbody, ht⟩ := hturn s hs
    rw [loop_turn fuel hguard hbody, ih ht]

theorem not_ends {program : ℕ → Except ε α} (h : ∀ fuel, program fuel = .error outOfFuel) :
    ¬ Ends outOfFuel program := fun ⟨fuel, hfuel⟩ => hfuel (h fuel)

/-- What is made of the result afterwards does not matter. -/
theorem ends_bind_ok_iff {α β : Type v} {program : ℕ → Except ε α} (f : α → β) :
    Ends outOfFuel (fun fuel => program fuel >>= fun a => .ok (f a)) ↔ Ends outOfFuel program := by
  refine exists_congr fun fuel => not_congr ?_
  simp [bind_eq_error]

/-! ## What a loop comes to -/

section
variable {α β : Type*} {f g : ℕ → Option α}

def Settled (f : ℕ → Option α) : Prop := ∀ fuel a, f fuel = some a → f (fuel + 1) = some a

theorem Settled.le (hf : Settled f) {fuel fuel' : ℕ} {a : α} (h : f fuel = some a) (hle : fuel ≤ fuel') :
    f fuel' = some a := by
  induction hle with
  | refl => exact h
  | step _ ih => exact hf _ a ih

open Classical in
/-- What a loop comes to with enough fuel, if it comes to anything. -/
noncomputable def result (f : ℕ → Option α) : Option α :=
  if h : ∃ a fuel, f fuel = some a then some h.choose else none

theorem result_eq_some_iff (hf : Settled f) {a : α} : result f = some a ↔ ∃ fuel, f fuel = some a := by
  unfold result
  split
  · rename_i h
    obtain ⟨fuel', hfuel'⟩ := h.choose_spec
    constructor
    · intro heq
      exact ⟨fuel', Option.some.inj heq ▸ hfuel'⟩
    · rintro ⟨fuel, hfuel⟩
      exact (hf.le hfuel' (Nat.le_max_right fuel fuel')).symm.trans (hf.le hfuel (Nat.le_max_left fuel fuel'))
  · rename_i h
    exact iff_of_false nofun fun ⟨fuel, hfuel⟩ => h ⟨a, fuel, hfuel⟩

/-- One turn of a loop that is settled. -/
theorem result_turn {f : ℕ → Option β} (hg : Settled g) (turn : α → β) (hzero : f 0 = none)
    (hturn : ∀ fuel, f (fuel + 1) = (g fuel).map turn) : result f = (result g).map turn := by
  have hf : Settled f := by
    intro fuel b h
    cases fuel with
    | zero => cases hzero.symm.trans h
    | succ fuel =>
      rw [hturn, Option.map_eq_some_iff] at h ⊢
      obtain ⟨a, ha, hb⟩ := h
      exact ⟨a, hg fuel a ha, hb⟩
  refine Option.ext fun b => ?_
  rw [result_eq_some_iff hf, Option.map_eq_some_iff]
  constructor
  · rintro ⟨fuel, hfuel⟩
    cases fuel with
    | zero => cases hzero.symm.trans hfuel
    | succ fuel =>
      rw [hturn, Option.map_eq_some_iff] at hfuel
      obtain ⟨a, ha, hb⟩ := hfuel
      exact ⟨a, (result_eq_some_iff hg).mpr ⟨fuel, ha⟩, hb⟩
  · rintro ⟨a, ha, hb⟩
    obtain ⟨fuel, hfuel⟩ := (result_eq_some_iff hg).mp ha
    exact ⟨fuel + 1, by rw [hturn, hfuel, Option.map_some, hb]⟩

/-- A loop whose first turn is its last. -/
theorem result_last {a? : Option α} (hzero : f 0 = none) (hlast : ∀ fuel, f (fuel + 1) = a?) : result f = a? := by
  have hconst : Settled fun _ : ℕ => a? := fun _ _ h => h
  have hresult : result (fun _ : ℕ => a?) = a? :=
    Option.ext fun a => (result_eq_some_iff hconst).trans ⟨fun ⟨_, h⟩ => h, fun h => ⟨0, h⟩⟩
  have hturn : ∀ fuel, f (fuel + 1) = a?.map id := fun fuel => by rw [hlast, Option.map_id, id]
  rw [result_turn hconst id hzero hturn, hresult, Option.map_id, id]

end

end BurrowBench.WhileLoop
