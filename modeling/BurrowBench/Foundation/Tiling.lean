import Mathlib.Algebra.Order.Floor.Div
import Mathlib.Data.List.Basic

/-! # A list laid end to end

What it is to be a list repeated, or cut, to a length, and the copies it is made of: whole
ones and, where the length is not a multiple, a last one that is cut.
-/
namespace BurrowBench.Tiling

variable {α : Type*}

/-- out is n elements long and goes round and round the pattern. -/
def Tiled (pattern : List α) (n : ℕ) (out : List α) : Prop :=
  out.length = n ∧ ∀ i < n, out[i]? = pattern[i % pattern.length]?

/-- Copy number j of the pattern, cut at n. -/
def tile (pattern : List α) (n j : ℕ) : List α := pattern.take (n - j * pattern.length)

/-- The first j copies. -/
def firstTiles (pattern : List α) (n j : ℕ) : List (List α) := (List.range j).map (tile pattern n)

def tiles (pattern : List α) (n : ℕ) : List (List α) :=
  firstTiles pattern n (n ⌈/⌉ pattern.length)

variable {pattern out : List α} {n j : ℕ}

theorem lt_ceilDiv_iff {L : ℕ} (hL : 0 < L) : j < n ⌈/⌉ L ↔ j * L < n := by
  rw [← not_le, ceilDiv_le_iff_le_mul hL, not_le, mul_comm]

@[simp] theorem length_tile (pattern : List α) (n j : ℕ) :
    (tile pattern n j).length = min (n - j * pattern.length) pattern.length :=
  List.length_take

@[simp] theorem firstTiles_zero (pattern : List α) (n : ℕ) : firstTiles pattern n 0 = [] := rfl

theorem firstTiles_succ (pattern : List α) (n j : ℕ) :
    firstTiles pattern n (j + 1) = firstTiles pattern n j ++ [tile pattern n j] := by
  simp [firstTiles, List.range_succ]

theorem Tiled.append_tile (h : Tiled pattern (min (j * pattern.length) n) out) :
    Tiled pattern (min ((j + 1) * pattern.length) n) (out ++ tile pattern n j) := by
  have hnext : (j + 1) * pattern.length = j * pattern.length + pattern.length := Nat.succ_mul _ _
  constructor
  · rw [List.length_append, h.1, length_tile]
    omega
  · intro i hi
    by_cases hlow : i < min (j * pattern.length) n
    · rw [List.getElem?_append_left (by rw [h.1]; exact hlow), h.2 i hlow]
    · -- the copy is reached, so it starts at j * pattern.length and has the index i in it
      obtain ⟨r, rfl⟩ : ∃ r, i = j * pattern.length + r := ⟨i - j * pattern.length, by omega⟩
      have hr : r < pattern.length := by omega
      have hstart : out.length = j * pattern.length := by rw [h.1]; omega
      rw [List.getElem?_append_right (by omega), hstart, Nat.add_sub_cancel_left, tile,
        List.getElem?_take_of_lt (by omega), Nat.mul_add_mod_of_lt hr]

theorem tiled_firstTiles (pattern : List α) (n j : ℕ) :
    Tiled pattern (min (j * pattern.length) n) (firstTiles pattern n j).flatten := by
  induction j with
  | zero => simp [Tiled]
  | succ j ih =>
    rw [firstTiles_succ, List.flatten_append, List.flatten_singleton]
    exact ih.append_tile

theorem length_firstTiles_flatten (pattern : List α) (n j : ℕ) :
    (firstTiles pattern n j).flatten.length = min (j * pattern.length) n :=
  (tiled_firstTiles pattern n j).1

/-- The copies of tiles reach n. -/
theorem min_ceilDiv_mul (h : pattern ≠ []) (n : ℕ) :
    min (n ⌈/⌉ pattern.length * pattern.length) n = n := by
  have hcover : n ≤ pattern.length * (n ⌈/⌉ pattern.length) :=
    (ceilDiv_le_iff_le_mul (List.length_pos_of_ne_nil h)).mp le_rfl
  rw [mul_comm, min_eq_right hcover]

theorem tiled_tiles (h : pattern ≠ []) (n : ℕ) : Tiled pattern n (tiles pattern n).flatten := by
  have htiled := tiled_firstTiles pattern n (n ⌈/⌉ pattern.length)
  rwa [min_ceilDiv_mul h] at htiled

/-- A slice that starts where a copy does and is as long as what is left of it. -/
theorem Tiled.slice (h : Tiled pattern n out) (j : ℕ) :
    (out.drop (j * pattern.length)).take (min (n - j * pattern.length) pattern.length) =
      tile pattern n j := by
  refine List.ext_getElem? fun i => ?_
  by_cases hi : i < min (n - j * pattern.length) pattern.length
  · have hlength : i < pattern.length := by omega
    rw [List.getElem?_take_of_lt hi, List.getElem?_drop, h.2 _ (by omega), tile,
      List.getElem?_take_of_lt (by omega), Nat.mul_add_mod_of_lt hlength]
  · rw [List.getElem?_eq_none (by rw [List.length_take]; omega),
      List.getElem?_eq_none (by rw [length_tile]; omega)]

/-! ## Laying the copies over a buffer -/

/-- out with part written over it from position i on. -/
def place (out : List α) (i : ℕ) (part : List α) : List α :=
  out.take i ++ part ++ out.drop (i + part.length)

def overlay (pattern buffer : List α) (n j : ℕ) : List α :=
  (firstTiles pattern n j).flatten ++ buffer.drop (min (j * pattern.length) n)

variable {buffer : List α}

@[simp] theorem overlay_zero (pattern buffer : List α) (n : ℕ) : overlay pattern buffer n 0 = buffer := by
  simp [overlay]

theorem overlay_succ (hj : j * pattern.length < n) :
    place (overlay pattern buffer n j) (j * pattern.length) (tile pattern n j) =
      overlay pattern buffer n (j + 1) := by
  have hlength : (firstTiles pattern n j).flatten.length = j * pattern.length := by
    rw [length_firstTiles_flatten]
    omega
  have hend : j * pattern.length + (tile pattern n j).length = min ((j + 1) * pattern.length) n := by
    rw [length_tile, Nat.succ_mul]
    omega
  unfold place overlay
  rw [List.take_left' hlength, ← hend, firstTiles_succ, List.flatten_append, List.flatten_singleton,
    List.drop_append, List.drop_eq_nil_of_le (by omega), List.nil_append, hlength, List.drop_drop,
    min_eq_left hj.le]
  congr 2
  omega

theorem length_overlay (pattern : List α) (hbuffer : buffer.length = n) (j : ℕ) :
    (overlay pattern buffer n j).length = n := by
  rw [overlay, List.length_append, length_firstTiles_flatten, List.length_drop]
  omega

theorem overlay_all (h : pattern ≠ []) (hbuffer : buffer.length = n) :
    overlay pattern buffer n (n ⌈/⌉ pattern.length) = (tiles pattern n).flatten := by
  rw [overlay, min_ceilDiv_mul h, List.drop_eq_nil_of_le hbuffer.le, List.append_nil]
  rfl

end BurrowBench.Tiling
