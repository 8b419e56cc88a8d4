import BurrowBench.Foundation.WhileLoop
import Mathlib.Algebra.BigOperators.Group.List.Basic
import Mathlib.Algebra.Order.Group.Nat
import Mathlib.Algebra.Ring.Nat
import Mathlib.Data.Nat.Cast.Basic
import Mathlib.Tactic.Common

/-! # Readers that hand out what they hold in pieces

A reader is called with the room of a buffer and answers how much it put there, or that it is at
its end. One that never stalls and never hands out more than it holds serves every client alike;
its clients that copy to the end or fill a buffer can be told call by call.
-/
namespace BurrowBench.PiecewiseReader
open WhileLoop
variable {σ : Type*}

/-- What a call answers. -/
structure Answer where
  count : ℕ
  atEnd : Bool
  deriving DecidableEq

/-- `left` is what the reader still holds, `limit` the most it hands out at once. -/
structure Serves (read : ℕ → σ → Answer × σ) (limit : ℕ) (left : σ → ℕ) : Prop where
  more : ∀ room s, 0 < left s → (read room s).1 = ⟨min (min (left s) room) limit, false⟩ ∧
    left (read room s).2 = left s - min (min (left s) room) limit
  ended : ∀ room s, left s = 0 → (read room s).1 = ⟨0, true⟩ ∧ left (read room s).2 = 0

/-! ## Any client -/

/-- The calls of a client that comes with buffers of these lengths. -/
def reads (read : ℕ → σ → Answer × σ) : List ℕ → σ → List Answer × σ
  | [], s => ([], s)
  | room :: rooms, s =>
    let rest := reads read rooms (read room s).2
    ((read room s).1 :: rest.1, rest.2)

def handed (answers : List Answer) : ℕ := (answers.map Answer.count).sum

theorem handed_append (answers answers' : List Answer) :
    handed (answers ++ answers') = handed answers + handed answers' := by
  rw [handed, List.map_append, List.sum_append, handed, handed]

variable {read : ℕ → σ → Answer × σ} {limit : ℕ} {left : σ → ℕ}

namespace Serves

theorem read_spec (h : Serves read limit left) (room : ℕ) (s : σ) :
    (read room s).1.count + left (read room s).2 = left s ∧ (read room s).1.count ≤ room ∧
      (read room s).1.count ≤ limit ∧ ((read room s).1.atEnd = true ↔ left s = 0) := by
  rcases Nat.eq_zero_or_pos (left s) with hzero | hpos
  · obtain ⟨hanswer, hleft⟩ := h.ended room s hzero
    rw [hleft, hanswer]
    simp [hzero]
  · obtain ⟨hanswer, hleft⟩ := h.more room s hpos
    rw [hleft, hanswer]
    simp only [Bool.false_eq_true, false_iff]
    omega

/-- Nothing is lost and nothing handed out twice, in whatever pieces a client asks. -/
theorem reads_conserve (h : Serves read limit left) (rooms : List ℕ) (s : σ) :
    handed (reads read rooms s).1 + left (reads read rooms s).2 = left s := by
  induction rooms generalizing s with
  | nil => exact Nat.zero_add _
  | cons room rooms ih =>
    have hfirst := (h.read_spec room s).1
    have hrest := ih (read room s).2
    simp only [reads, handed, List.map_cons, List.sum_cons] at hrest ⊢
    omega

theorem reads_le_limit (h : Serves read limit left) (rooms : List ℕ) (s : σ) :
    ∀ a ∈ (reads read rooms s).1, a.count ≤ limit := by
  induction rooms generalizing s with
  | nil => simp [reads]
  | cons room rooms ih =>
    intro a ha
    rcases List.mem_cons.mp ha with rfl | hrest
    · exact (h.read_spec room s).2.2.1
    · exact ih _ a hrest

end Serves

/-! ## Greedy pieces -/

/-- What n comes to in pieces of a size. -/
def pieces (size n : ℕ) : List ℕ :=
  List.replicate (n / size) size ++ if n % size = 0 then [] else [n % size]

theorem pieces_zero (size : ℕ) : pieces size 0 = [] := by simp [pieces]

theorem pieces_of_pos {size n : ℕ} (hsize : 0 < size) (hn : 0 < n) :
    pieces size n = min n size :: pieces size (n - min n size) := by
  rcases Nat.lt_or_ge n size with hlt | hge
  · rw [Nat.min_eq_left hlt.le, Nat.sub_self, pieces_zero, pieces, Nat.div_eq_of_lt hlt,
      Nat.mod_eq_of_lt hlt, if_neg hn.ne']
    rfl
  · have hdiv : n / size = (n - size) / size + 1 := Nat.div_eq_sub_div hsize hge
    rw [Nat.min_eq_right hge, pieces, pieces, hdiv, List.replicate_succ, Nat.mod_eq_sub_mod hge]
    rfl

theorem pieces_mul {size : ℕ} (hsize : 0 < size) (k : ℕ) : pieces size (k * size) = List.replicate k size := by
  simp [pieces, Nat.mul_div_cancel k hsize]

theorem sum_pieces (size n : ℕ) : (pieces size n).sum = n := by
  have hdiv := Nat.div_add_mod' n size
  unfold pieces
  split
  · rw [‹n % size = 0›, Nat.add_zero] at hdiv
    simpa using hdiv
  · simpa using hdiv

/-- The calls that answer these counts. -/
def served (counts : List ℕ) : List Answer := counts.map (⟨·, false⟩)

theorem handed_served (counts : List ℕ) : handed (served counts) = counts.sum := by
  simp [handed, served, Function.comp_def]

/-! ## Copying to the end and filling a buffer -/

/-- Two functions that drive a reader, known by what is promised of them. The one writes what each
read gave until a read is at the end, and counts; the other reads until its buffer is full, and tells
whether it was. A writer answers how much it took, and is not defined everywhere. -/
structure Drivers where
  copyBuffer : {σ δ : Type} → (ℕ → σ → Answer × σ) → (ℕ → δ → Option (ℕ × δ)) → ℕ → σ → δ → Option (ℕ × σ × δ)
  readFull : {σ : Type} → (ℕ → σ → Answer × σ) → ℕ → σ → Option (ℕ × Bool × σ)
  copyBuffer_ended {σ δ : Type} {read : ℕ → σ → Answer × σ} {room : ℕ} {s s' : σ}
    (write : ℕ → δ → Option (ℕ × δ)) (d : δ) :
    read room s = (⟨0, true⟩, s') → copyBuffer read write room s d = some (0, s', d)
  copyBuffer_more {σ δ : Type} {read : ℕ → σ → Answer × σ} {write : ℕ → δ → Option (ℕ × δ)}
    {room count : ℕ} {s s' : σ} {d d' : δ} : 0 < count → read room s = (⟨count, false⟩, s') →
    write count d = some (count, d') → copyBuffer read write room s d =
      (copyBuffer read write room s' d').map fun r => (count + r.1, r.2)
  copyBuffer_stuck {σ δ : Type} {read : ℕ → σ → Answer × σ} {write : ℕ → δ → Option (ℕ × δ)}
    {room count : ℕ} {s s' : σ} {d : δ} : 0 < count → read room s = (⟨count, false⟩, s') →
    write count d = none → copyBuffer read write room s d = none
  readFull_zero {σ : Type} (read : ℕ → σ → Answer × σ) (s : σ) : readFull read 0 s = some (0, true, s)
  readFull_ended {σ : Type} {read : ℕ → σ → Answer × σ} {room : ℕ} {s s' : σ} : 0 < room →
    read room s = (⟨0, true⟩, s') → readFull read room s = some (0, false, s')
  readFull_more {σ : Type} {read : ℕ → σ → Answer × σ} {room count : ℕ} {s s' : σ} : 0 < count →
    count ≤ room → read room s = (⟨count, false⟩, s') → readFull read room s =
      (readFull read (room - count) s').map fun r => (count + r.1, r.2)

variable (io : Drivers)

/-- Writing these counts one after the other. -/
def writeAll {δ : Type} (write : ℕ → δ → Option (ℕ × δ)) : List ℕ → δ → Option δ
  | [], d => some d
  | count :: counts, d => (write count d).bind fun r => writeAll write counts r.2

section
variable {σ δ : Type} {read : ℕ → σ → Answer × σ} {limit : ℕ} {left : σ → ℕ}

/-- One buffer after the other, up to the end. -/
def roomsToEnd (room limit n : ℕ) : List ℕ := List.replicate ((pieces (min room limit) n).length + 1) room

theorem roomsToEnd_zero (room limit : ℕ) : roomsToEnd room limit 0 = [room] := by
  rw [roomsToEnd, pieces_zero]
  rfl

theorem roomsToEnd_of_pos {room limit n : ℕ} (hsize : 0 < min room limit) (hn : 0 < n) :
    roomsToEnd room limit n = room :: roomsToEnd room limit (n - min n (min room limit)) := by
  rw [roomsToEnd, pieces_of_pos hsize hn, List.length_cons, List.replicate_succ, roomsToEnd]

/-- A client that comes with one buffer until the end gets the pieces and is told the end. -/
theorem Serves.reads_pieces (h : Serves read limit left) {room : ℕ} (hsize : 0 < min room limit) (s : σ) :
    (reads read (roomsToEnd room limit (left s)) s).1 = served (pieces (min room limit) (left s)) ++ [⟨0, true⟩] := by
  induction hn : left s using Nat.strong_induction_on generalizing s with
  | _ n ih =>
    rcases Nat.eq_zero_or_pos n with rfl | hpos
    · rw [roomsToEnd_zero, pieces_zero, reads, reads, (h.ended room s hn).1]
      rfl
    · obtain ⟨hanswer, hleft⟩ := h.more room s (hn ▸ hpos)
      rw [Nat.min_assoc, hn] at hanswer hleft
      have hrest := ih _ (by omega) (read room s).2 hleft
      rw [roomsToEnd_of_pos hsize hpos, pieces_of_pos hsize hpos, reads, hanswer, hrest]
      rfl

/-- A copy reads to the end and writes the pieces. -/
theorem Serves.copyBuffer_eq (h : Serves read limit left) {write : ℕ → δ → Option (ℕ × δ)}
    (hwrite : ∀ count d r, write count d = some r → r.1 = count) {room : ℕ} (hsize : 0 < min room limit)
    (s : σ) (d : δ) :
    io.copyBuffer read write room s d = (writeAll write (pieces (min room limit) (left s)) d).map
      fun d' => (left s, (reads read (roomsToEnd room limit (left s)) s).2, d') := by
  induction hn : left s using Nat.strong_induction_on generalizing s d with
  | _ n ih =>
    rcases Nat.eq_zero_or_pos n with rfl | hpos
    · have hread : read room s = (⟨0, true⟩, (read room s).2) := Prod.ext (h.ended room s hn).1 rfl
      rw [io.copyBuffer_ended write d hread, pieces_zero, roomsToEnd_zero]
      rfl
    · obtain ⟨hanswer, hleft⟩ := h.more room s (hn ▸ hpos)
      rw [Nat.min_assoc, hn] at hanswer hleft
      have hread : read room s = (⟨min n (min room limit), false⟩, (read room s).2) := Prod.ext hanswer rfl
      have hcount : 0 < min n (min room limit) := by omega
      rw [pieces_of_pos hsize hpos, roomsToEnd_of_pos hsize hpos, writeAll]
      cases hput : write (min n (min room limit)) d with
      | none =>
        rw [io.copyBuffer_stuck hcount hread hput]
        rfl
      | some r =>
        obtain ⟨took, d'⟩ := r
        obtain rfl : took = min n (min room limit) := hwrite _ _ _ hput
        have hall : min n (min room limit) + (n - min n (min room limit)) = n := by omega
        rw [io.copyBuffer_more hcount hread hput, ih _ (by omega) (read room s).2 d' hleft, Option.map_map,
          Option.bind_some]
        simp only [Function.comp_def, hall]
        rfl

/-- A reader that holds enough fills a buffer in pieces, and none is asked for after them. -/
theorem Serves.readFull_eq (h : Serves read limit left) (hlimit : 0 < limit) {room : ℕ} {s : σ}
    (hroom : room ≤ left s) :
    ∃ rooms, (reads read rooms s).1 = served (pieces limit room) ∧
      io.readFull read room s = some (room, true, (reads read rooms s).2) := by
  induction room using Nat.strong_induction_on generalizing s with
  | _ room ih =>
    rcases Nat.eq_zero_or_pos room with rfl | hpos
    · exact ⟨[], by rw [pieces_zero]; rfl, io.readFull_zero read s⟩
    · have hmin : min (min (left s) room) limit = min room limit := by omega
      obtain ⟨hanswer, hleft⟩ := h.more room s (by omega)
      rw [hmin] at hanswer hleft
      obtain ⟨rooms, hcalls, hfull⟩ := ih (room - min room limit) (by omega) (s := (read room s).2) (by omega)
      refine ⟨room :: rooms, ?_, ?_⟩
      · rw [pieces_of_pos hlimit hpos]
        simp only [reads, hanswer, hcalls]
        rfl
      · have hall : min room limit + (room - min room limit) = room := by omega
        rw [io.readFull_more (by omega) (by omega) (Prod.ext hanswer rfl), hfull, Option.map_some, hall]
        rfl

/-- One that holds less is read to its end, and the buffer is not filled. -/
theorem Serves.readFull_short (h : Serves read limit left) (hlimit : 0 < limit) {room : ℕ} {s : σ}
    (hroom : left s < room) :
    ∃ rooms, (reads read rooms s).1 = served (pieces limit (left s)) ++ [⟨0, true⟩] ∧
      io.readFull read room s = some (left s, false, (reads read rooms s).2) := by
  induction room using Nat.strong_induction_on generalizing s with
  | _ room ih =>
    rcases Nat.eq_zero_or_pos (left s) with hzero | hpos
    · obtain ⟨hanswer, -⟩ := h.ended room s hzero
      refine ⟨[room], ?_, ?_⟩
      · simp [reads, hanswer, hzero, pieces_zero, served]
      · rw [io.readFull_ended (by omega) (Prod.ext hanswer rfl), hzero]
        rfl
    · have hmin : min (min (left s) room) limit = min (left s) limit := by omega
      obtain ⟨hanswer, hleft⟩ := h.more room s hpos
      rw [hmin] at hanswer hleft
      obtain ⟨rooms, hcalls, hfull⟩ :=
        ih (room - min (left s) limit) (by omega) (s := (read room s).2) (by omega)
      rw [hleft] at hcalls hfull
      refine ⟨room :: rooms, ?_, ?_⟩
      · rw [pieces_of_pos hlimit hpos]
        simp only [reads, hanswer, hcalls]
        rfl
      · have hall : min (left s) limit + (left s - min (left s) limit) = left s := by omega
        rw [io.readFull_more (by omega) (by omega) (Prod.ext hanswer rfl), hfull, Option.map_some, hall]
        rfl

end

/-! ## Loops that drive a reader -/

section
variable {σ δ : Type} (read : ℕ → σ → Answer × σ) (write : ℕ → δ → Option (ℕ × δ))

def copyLoop (room : ℕ) : ℕ → σ → δ → Option (ℕ × σ × δ)
  | 0, _, _ => none
  | fuel + 1, s, d =>
    let (answer, s') := read room s
    (if 0 < answer.count then write answer.count d else some (0, d)).bind fun r =>
      if answer.atEnd then some (r.1, s', r.2)
      else (copyLoop room fuel s' r.2).map fun rest => (r.1 + rest.1, rest.2)

def fillLoop : ℕ → ℕ → σ → Option (ℕ × Bool × σ)
  | 0, _, _ => none
  | fuel + 1, room, s =>
    if room = 0 then some (0, true, s)
    else
      let (answer, s') := read room s
      if answer.atEnd then some (answer.count, decide (room ≤ answer.count), s')
      else (fillLoop fuel (room - answer.count) s').map fun rest => (answer.count + rest.1, rest.2)

theorem copyLoop_settled (room : ℕ) (s : σ) (d : δ) : Settled fun fuel => copyLoop read write room fuel s d := by
  intro fuel
  induction fuel generalizing s d with
  | zero => exact nofun
  | succ fuel ih =>
    intro a h
    simp only [copyLoop, Option.bind_eq_some_iff] at h ⊢
    obtain ⟨r, hput, h⟩ := h
    refine ⟨r, hput, ?_⟩
    split at h
    · rwa [if_pos ‹_›]
    · obtain ⟨rest, hrest, heq⟩ := Option.map_eq_some_iff.mp h
      rw [if_neg ‹_›]
      exact Option.map_eq_some_iff.mpr ⟨rest, ih _ _ rest hrest, heq⟩

theorem fillLoop_settled (room : ℕ) (s : σ) : Settled fun fuel => fillLoop read fuel room s := by
  intro fuel
  induction fuel generalizing room s with
  | zero => exact nofun
  | succ fuel ih =>
    intro a h
    simp only [fillLoop] at h ⊢
    split at h
    · rwa [if_pos ‹_›]
    · rw [if_neg ‹_›]
      split at h
      · rwa [if_pos ‹_›]
      · obtain ⟨rest, hrest, heq⟩ := Option.map_eq_some_iff.mp h
        rw [if_neg ‹_›]
        exact Option.map_eq_some_iff.mpr ⟨rest, ih _ _ rest hrest, heq⟩

end

noncomputable def loops : Drivers where
  copyBuffer read write room s d := result fun fuel => copyLoop read write room fuel s d
  readFull read room s := result fun fuel => fillLoop read fuel room s
  copyBuffer_ended write d hread := result_last rfl fun fuel => by simp [copyLoop, hread]
  copyBuffer_more hcount hread hwrite := result_turn (copyLoop_settled _ _ _ _ _) _ rfl fun fuel => by
    simp [copyLoop, hread, hwrite, hcount]
  copyBuffer_stuck hcount hread hwrite := result_last rfl fun fuel => by simp [copyLoop, hread, hwrite, hcount]
  readFull_zero read s := result_last rfl fun fuel => by simp [fillLoop]
  readFull_ended hroom hread := result_last rfl fun fuel => by simp [fillLoop, hread, hroom.ne']
  readFull_more hcount hroom hread := result_turn (fillLoop_settled _ _ _) _ rfl fun fuel => by
    simp [fillLoop, hread, (hcount.trans_le hroom).ne']

/-! ## Watching -/

/-- A state, and the calls that were made on it. -/
structure Watched (σ κ : Type) where
  state : σ
  calls : List κ
  deriving DecidableEq

def watchRead {σ : Type} (read : ℕ → σ → Answer × σ) (room : ℕ) (s : Watched σ Answer) : Answer × Watched σ Answer :=
  ((read room s.state).1, ⟨(read room s.state).2, s.calls ++ [(read room s.state).1]⟩)

def watchWrite {δ : Type} (write : ℕ → δ → Option (ℕ × δ)) (count : ℕ) (d : Watched δ ℕ) : Option (ℕ × Watched δ ℕ) :=
  (write count d.state).map fun r => (r.1, ⟨r.2, d.calls ++ [count]⟩)

section
variable {σ δ : Type} {read : ℕ → σ → Answer × σ} {limit : ℕ} {left : σ → ℕ}

theorem Serves.watch (h : Serves read limit left) : Serves (watchRead read) limit fun s => left s.state :=
  ⟨fun room s => h.more room s.state, fun room s => h.ended room s.state⟩

theorem reads_watchRead (rooms : List ℕ) (s : Watched σ Answer) :
    reads (watchRead read) rooms s = ((reads read rooms s.state).1,
      ⟨(reads read rooms s.state).2, s.calls ++ (reads read rooms s.state).1⟩) := by
  induction rooms generalizing s with
  | nil => simp [reads]
  | cons room rooms ih => simp [reads, ih, watchRead]

theorem writeAll_watchWrite (write : ℕ → δ → Option (ℕ × δ)) (counts : List ℕ) (d : Watched δ ℕ) :
    writeAll (watchWrite write) counts d =
      (writeAll write counts d.state).map fun d' => ⟨d', d.calls ++ counts⟩ := by
  induction counts generalizing d with
  | nil => simp [writeAll]
  | cons count counts ih =>
    cases hput : write count d.state with
    | none => simp [writeAll, watchWrite, hput]
    | some r => simp [writeAll, watchWrite, hput, ih]

end

end BurrowBench.PiecewiseReader
