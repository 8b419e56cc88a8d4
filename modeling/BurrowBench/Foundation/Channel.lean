import Mathlib.Data.List.Basic
import Mathlib.Tactic.Common

/-! # Bounded channels

A channel holds at most `cap` values, the oldest first, until it is closed and drained. What
was sent on it is what was received from it, in that order, followed by what it holds.
-/
namespace BurrowBench.Channel
variable {α : Type*}

structure Chan (α : Type*) where
  buffer : List α
  closed : Bool
  deriving DecidableEq

def Chan.make : Chan α := ⟨[], false⟩

namespace Chan
variable {cap : ℕ} {v : α} {got : Option α} {c c' : Chan α}

/-- A send waits for room. On a closed channel it is an error and not a step. -/
def send (cap : ℕ) (v : α) (c : Chan α) : Option (Chan α) :=
  if !c.closed ∧ c.buffer.length < cap then some { c with buffer := c.buffer ++ [v] } else none

/-- A receive waits for a value, and gets none from a channel that is closed and drained. -/
def recv (c : Chan α) : Option (Option α × Chan α) :=
  match c.buffer with
  | v :: rest => some (some v, { c with buffer := rest })
  | [] => if c.closed then some (none, c) else none

def close (c : Chan α) : Option (Chan α) := if c.closed then none else some { c with closed := true }

theorem send_eq_some_iff :
    send cap v c = some c' ↔
      c.closed = false ∧ c.buffer.length < cap ∧ c' = { c with buffer := c.buffer ++ [v] } := by
  unfold send
  cases hc : c.closed with
  | true => simp
  | false => simp [eq_comm]

theorem recv_eq_some_iff :
    recv c = some (got, c') ↔
      (∃ v, got = some v ∧ c.buffer = v :: c'.buffer ∧ c'.closed = c.closed) ∨
      (got = none ∧ c.buffer = [] ∧ c.closed = true ∧ c' = c) := by
  obtain ⟨buffer, closed⟩ := c
  obtain ⟨buffer', closed'⟩ := c'
  cases buffer with
  | nil => cases closed <;> simp [recv, eq_comm]
  | cons v rest => simp [recv, eq_comm]

theorem close_eq_some_iff : close c = some c' ↔ c.closed = false ∧ c' = { c with closed := true } := by
  cases hc : c.closed <;> simp [close, hc, eq_comm]

theorem recv_closed (h : recv c = some (some v, c')) : c'.closed = c.closed := by
  rcases recv_eq_some_iff.mp h with ⟨_, _, _, hclosed⟩ | ⟨hnone, _⟩
  · exact hclosed
  · cases hnone

theorem recv_length (h : recv c = some (some v, c')) : c.buffer.length = c'.buffer.length + 1 := by
  rcases recv_eq_some_iff.mp h with ⟨_, _, hbuffer, _⟩ | ⟨hnone, _⟩
  · rw [hbuffer, List.length_cons]
  · cases hnone

theorem recv_isSome (h : c.buffer ≠ [] ∨ c.closed = true) : (recv c).isSome := by
  unfold recv
  split
  · rfl
  · rename_i hnil
    simp [h.resolve_left (absurd hnil)]

end Chan

/-! ## What a channel conveys -/

/-- What is in the channel is what was sent and not received, and it fits. -/
structure Conveys (cap : ℕ) (sent received : List α) (c : Chan α) : Prop where
  append_eq : received ++ c.buffer = sent
  length_le : c.buffer.length ≤ cap

namespace Conveys
variable {cap : ℕ} {sent received : List α} {v : α} {c c' : Chan α}

theorem make (cap : ℕ) : Conveys cap ([] : List α) [] Chan.make := ⟨rfl, Nat.zero_le cap⟩

theorem send (h : Conveys cap sent received c) (hstep : Chan.send cap v c = some c') :
    Conveys cap (sent ++ [v]) received c' := by
  obtain ⟨_, hroom, rfl⟩ := Chan.send_eq_some_iff.mp hstep
  refine ⟨?_, ?_⟩
  · rw [← List.append_assoc, h.append_eq]
  · rw [List.length_append]
    exact hroom

theorem recv (h : Conveys cap sent received c) (hstep : Chan.recv c = some (some v, c')) :
    Conveys cap sent (received ++ [v]) c' := by
  rcases Chan.recv_eq_some_iff.mp hstep with ⟨v', hv, hbuffer, _⟩ | ⟨hnone, _⟩
  · obtain rfl := Option.some.inj hv
    have hlen := h.length_le
    rw [hbuffer, List.length_cons] at hlen
    refine ⟨?_, by omega⟩
    rw [List.append_assoc, List.singleton_append, ← hbuffer, h.append_eq]
  · cases hnone

/-- A value that goes straight from a sender to a receiver passes nothing by. -/
theorem handOver (h : Conveys cap sent received c) (hempty : c.buffer = []) (v : α) :
    Conveys cap (sent ++ [v]) (received ++ [v]) c := by
  have hall := h.append_eq
  rw [hempty, List.append_nil] at hall
  refine ⟨?_, h.length_le⟩
  rw [hempty, List.append_nil, hall]

theorem close (h : Conveys cap sent received c) (hstep : Chan.close c = some c') :
    Conveys cap sent received c' := by
  obtain ⟨_, rfl⟩ := Chan.close_eq_some_iff.mp hstep
  exact ⟨h.append_eq, h.length_le⟩

theorem isPrefix (h : Conveys cap sent received c) : received <+: sent := ⟨c.buffer, h.append_eq⟩

/-- A receive that gets nothing comes after the close, with everything received. -/
theorem drained (h : Conveys cap sent received c) (hstep : Chan.recv c = some (none, c')) :
    c.closed = true ∧ received = sent ∧ c' = c := by
  rcases Chan.recv_eq_some_iff.mp hstep with ⟨_, hnone, _⟩ | ⟨_, hempty, hclosed, hsame⟩
  · cases hnone
  · have hall := h.append_eq
    rw [hempty, List.append_nil] at hall
    exact ⟨hclosed, hall, hsame⟩

end Conveys

end BurrowBench.Channel
