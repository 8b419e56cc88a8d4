import Mathlib.Data.List.Basic
import Mathlib.Data.Nat.Notation
import Mathlib.Tactic.Common

/-! # Text put together in a buffer

A chain of bounded writes: each one starts behind what the writes before it reported, and a
write reports the length of its piece whether it had room for it or not. The room that is left
is a difference of unsigned numbers, so that a chain that has run past the end of its buffer has
no meaning from there on.
-/
namespace BurrowBench.BoundedText
variable {α : Type*}

structure Chain (α : Type*) where
  written : List α
  reported : ℕ

def Chain.empty : Chain α := ⟨[], 0⟩

/-- One write. The last place of the room goes to the terminator. -/
def Chain.write (room : ℕ) (s : Chain α) (piece : List α) : Option (Chain α) :=
  if s.reported ≤ room then
    some ⟨s.written ++ piece.take (room - s.reported - 1), s.reported + piece.length⟩
  else none

/-- As much of the buffer as was reported, if all of that is text. -/
def Chain.text (room : ℕ) (s : Chain α) : Option (List α) :=
  if s.reported < room then some s.written else none

def build (room : ℕ) (pieces : List (List α)) : Option (List α) :=
  (pieces.foldlM (Chain.write room) Chain.empty).bind (Chain.text room)

variable {room : ℕ} {s s' : Chain α} {pieces : List (List α)}

theorem write_all_fits (h : s.reported + pieces.flatten.length < room) :
    pieces.foldlM (Chain.write room) s =
      some ⟨s.written ++ pieces.flatten, s.reported + pieces.flatten.length⟩ := by
  induction pieces generalizing s with
  | nil => simp
  | cons piece pieces ih =>
    rw [List.flatten_cons, List.length_append] at h
    have hroom : piece.length ≤ room - s.reported - 1 := by omega
    have hwrite : s.write room piece = some ⟨s.written ++ piece, s.reported + piece.length⟩ := by
      rw [Chain.write, if_pos (by omega), List.take_of_length_le hroom]
    have hrest := ih (s := ⟨s.written ++ piece, s.reported + piece.length⟩) (by dsimp only; omega)
    rw [List.foldlM_cons, hwrite]
    refine hrest.trans ?_
    simp [List.append_assoc, Nat.add_assoc]

/-- The reports add up also when a write was cut short. -/
theorem reported_of_write_all (h : pieces.foldlM (Chain.write room) s = some s') :
    s'.reported = s.reported + pieces.flatten.length := by
  induction pieces generalizing s with
  | nil =>
    obtain rfl : s = s' := Option.some.inj h
    rfl
  | cons piece pieces ih =>
    rw [List.foldlM_cons] at h
    obtain ⟨s₁, hwrite, hrest⟩ := Option.bind_eq_some_iff.mp h
    obtain ⟨_, hwrite⟩ := Option.ite_none_right_eq_some.mp hwrite
    obtain rfl := Option.some.inj hwrite
    rw [ih hrest, List.flatten_cons, List.length_append, Nat.add_assoc]

/-- The buffer holds the text exactly when there is room for it and its terminator. -/
theorem build_eq (room : ℕ) (pieces : List (List α)) :
    build room pieces = if pieces.flatten.length < room then some pieces.flatten else none := by
  unfold build
  by_cases hfits : pieces.flatten.length < room
  · rw [write_all_fits (by simpa [Chain.empty] using hfits), if_pos hfits, Option.bind_some, Chain.text,
      if_pos (by simpa [Chain.empty] using hfits)]
    rfl
  · rw [if_neg hfits, Option.bind_eq_none_iff]
    intro s hs
    have hreported := reported_of_write_all hs
    refine if_neg ?_
    rw [hreported]
    simpa [Chain.empty] using hfits

end BurrowBench.BoundedText
