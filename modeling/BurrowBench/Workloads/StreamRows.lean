import BurrowBench.Foundation.PiecewiseReader
import BurrowBench.Foundation.SteadyLoop
import BurrowBench.Foundation.CheckedArithmetic
import Mathlib.Algebra.Group.Action.Defs
import Mathlib.Tactic.Ring

/-! # The stream rows of iface_bench.c

A source that hands out at most 512 bytes a call and a sink that counts, driven by io_copy_buffer
and io_read_full and, on the other side, by Go's io.CopyBuffer and io.ReadFull. Neither touches a
byte, so that only the counts are modelled.
-/
namespace BurrowBench.Workloads.StreamRows
open PiecewiseReader CheckedArithmetic SteadyLoop

def streamBytes : ℕ := 64 * 1024
def streamChunk : ℕ := 512
def copyBuf : ℕ := 32 * 1024

structure Source where
  pos : ℕ
  len : ℕ
  deriving DecidableEq

structure Sink where
  total : ℤ
  deriving DecidableEq

def sourceRead (room : ℕ) (s : Source) : Answer × Source :=
  let left := s.len - s.pos
  if left = 0 then (⟨0, true⟩, s)
  else
    let n := if left < room then left else room
    let n := if n > streamChunk then streamChunk else n
    (⟨n, false⟩, { s with pos := s.pos + n })

def sinkWrite (n : ℕ) (s : Sink) : Option (ℕ × Sink) := (add 64 s.total n).map fun total => (n, ⟨total⟩)

/-- source.Read of iface_test.go starts from what is left and cuts it down twice. -/
def goSourceRead (room : ℕ) (s : Source) : Answer × Source :=
  let left := s.len - s.pos
  if left = 0 then (⟨0, true⟩, s)
  else
    let n := left
    let n := if n > room then room else n
    let n := if n > streamChunk then streamChunk else n
    (⟨n, false⟩, { s with pos := s.pos + n })

/-- What an int of Go makes of a number. -/
def wrap (v : ℤ) : ℤ := (BitVec.ofInt 64 v).toInt

/-- countingSink.Write of iface_test.go, whose total wraps. -/
def goSinkWrite (n : ℕ) (s : Sink) : Option (ℕ × Sink) := some (n, ⟨wrap (s.total + n)⟩)

abbrev Reads := Watched Source Answer
abbrev Writes := Watched Sink ℕ

section Rows
variable (io : Drivers) (read : ℕ → Source → Answer × Source) (write : ℕ → Sink → Option (ℕ × Sink))

/-- `src.pos = 0; io_copy_buffer(w, r, p, &err)` -/
def copyTurn (s : Reads × Writes) : Option (ℕ × Reads × Writes) :=
  io.copyBuffer (watchRead read) (watchWrite write) copyBuf { s.1 with state.pos := 0 } s.2

/-- `src.pos = 0; io_read_full(r, p, &err)` -/
def fullTurn (s : Reads) : Option (ℕ × Reads) :=
  (io.readFull (watchRead read) 4096 { s with state.pos := 0 }).map fun r => (r.1, r.2.2)

end Rows

section
variable (io : Drivers) (n : ℕ)

def ioCopyBuffer64k : Option (List ℕ × Reads × Writes) :=
  tryTurns (copyTurn io sourceRead sinkWrite) n (⟨⟨0, streamBytes⟩, []⟩, ⟨⟨0⟩, []⟩)

def ioReadFull4k : Option (List ℕ × Reads) := tryTurns (fullTurn io sourceRead) n ⟨⟨0, streamBytes⟩, []⟩

def goCopyBuffer64K : Option (List ℕ × Reads × Writes) :=
  tryTurns (copyTurn io goSourceRead goSinkWrite) n (⟨⟨0, streamBytes⟩, []⟩, ⟨⟨0⟩, []⟩)

def goReadFull4K : Option (List ℕ × Reads) := tryTurns (fullTurn io goSourceRead) n ⟨⟨0, streamBytes⟩, []⟩

end

/-! ## The source and the sinks -/

/-- What the source still holds. -/
def left (s : Source) : ℕ := s.len - s.pos

theorem sourceRead_eq_go : goSourceRead = sourceRead := by
  funext room s
  have hmin : (if s.len - s.pos > room then room else s.len - s.pos) =
      if s.len - s.pos < room then s.len - s.pos else room := by
    split <;> split <;> omega
  simp only [sourceRead, goSourceRead, hmin]

theorem source_serves : Serves sourceRead streamChunk left where
  more room s hleft := by
    have hcut : (if (if left s < room then left s else room) > streamChunk then streamChunk
        else if left s < room then left s else room) = min (min (left s) room) streamChunk := by
      split <;> split at * <;> omega
    have hread : sourceRead room s = (⟨min (min (left s) room) streamChunk, false⟩,
        { s with pos := s.pos + min (min (left s) room) streamChunk }) := by
      rw [← hcut]
      exact if_neg hleft.ne'
    rw [hread]
    exact ⟨rfl, Nat.sub_add_eq ..⟩
  ended room s hleft := by
    have hread : sourceRead room s = (⟨0, true⟩, s) := if_pos hleft
    rw [hread]
    exact ⟨rfl, hleft⟩

theorem sourceRead_len (room : ℕ) (s : Source) : (sourceRead room s).2.len = s.len := by
  unfold sourceRead
  dsimp only
  split <;> rfl

theorem reads_len (rooms : List ℕ) (s : Source) : (reads sourceRead rooms s).2.len = s.len := by
  induction rooms generalizing s with
  | nil => rfl
  | cons room rooms ih => exact (ih _).trans (sourceRead_len room s)

theorem sinkWrite_all (n : ℕ) (d : Sink) (r : ℕ × Sink) (h : sinkWrite n d = some r) : r.1 = n := by
  obtain ⟨total, -, rfl⟩ := Option.map_eq_some_iff.mp h
  rfl

theorem goSinkWrite_all (n : ℕ) (d : Sink) (r : ℕ × Sink) (h : goSinkWrite n d = some r) : r.1 = n := by
  cases h
  rfl

theorem watchWrite_all {write : ℕ → Sink → Option (ℕ × Sink)}
    (h : ∀ n d r, write n d = some r → r.1 = n) (n : ℕ) (d : Writes) (r : ℕ × Writes)
    (hr : watchWrite write n d = some r) : r.1 = n := by
  obtain ⟨r', hr', rfl⟩ := Option.map_eq_some_iff.mp hr
  exact h n d.state r' hr'

/-- From a total that is not negative, what is written is added up as long as the sum fits. -/
theorem writeAll_sinkWrite (counts : List ℕ) {d : Sink} (hd : 0 ≤ d.total) (hfits : Fits 64 d.total) :
    writeAll sinkWrite counts d = (checked 64 (d.total + counts.sum)).map Sink.mk := by
  induction counts generalizing d with
  | nil => rw [List.sum_nil, Nat.cast_zero, add_zero, checked_of_fits hfits]; rfl
  | cons count counts ih =>
    rw [List.sum_cons, Nat.cast_add, ← add_assoc]
    by_cases hnext : Fits 64 (d.total + count)
    · rw [writeAll, sinkWrite, add, checked_of_fits hnext]
      exact ih (by positivity) hnext
    · have hsum : ¬ Fits 64 (d.total + count + counts.sum) := fun h =>
        hnext (h.mono (by positivity) (by omega))
      rw [writeAll, sinkWrite, add, checked, if_neg hnext, checked, if_neg hsum]
      rfl

theorem wrap_add (v : ℤ) (n : ℕ) : wrap (wrap v + n) = wrap (v + n) := by
  rw [wrap, wrap, wrap, BitVec.ofInt_add, BitVec.ofInt_toInt, ← BitVec.ofInt_add]

theorem writeAll_goSinkWrite (counts : List ℕ) (v : ℤ) :
    writeAll goSinkWrite counts ⟨wrap v⟩ = some ⟨wrap (v + counts.sum)⟩ := by
  induction counts generalizing v with
  | nil => rw [List.sum_nil, Nat.cast_zero, add_zero, writeAll]
  | cons count counts ih =>
    rw [List.sum_cons, Nat.cast_add, ← add_assoc, ← ih, ← wrap_add, writeAll, goSinkWrite, Option.bind_some]

/-! ## A turn -/

section
variable (io : Drivers)

/-- A copy of what the source holds, through a buffer of any size and into any sink that takes all. -/
theorem copyBuffer_source {write : ℕ → Sink → Option (ℕ × Sink)}
    (hwrite : ∀ n d r, write n d = some r → r.1 = n) {room : ℕ} (hroom : 0 < room) (s : Reads) (d : Writes) :
    ∃ src, src.len = s.state.len ∧ left src = 0 ∧ io.copyBuffer (watchRead sourceRead) (watchWrite write) room s d =
      (writeAll write (pieces (min room streamChunk) (left s.state)) d.state).map fun d' => (left s.state,
        ⟨src, s.calls ++ (served (pieces (min room streamChunk) (left s.state)) ++ [⟨0, true⟩])⟩,
        ⟨d', d.calls ++ pieces (min room streamChunk) (left s.state)⟩) := by
  have hsize : 0 < min room streamChunk := Nat.lt_min.mpr ⟨hroom, by decide⟩
  have hcalls := source_serves.reads_pieces hsize s.state
  have hcopy := source_serves.watch.copyBuffer_eq io (watchWrite_all hwrite) hsize s d
  have hconserved := source_serves.reads_conserve (roomsToEnd room streamChunk (left s.state)) s.state
  rw [hcalls, handed_append, handed_served, sum_pieces] at hconserved
  refine ⟨(reads sourceRead (roomsToEnd room streamChunk (left s.state)) s.state).2, reads_len _ s.state,
    by omega, hcopy.trans ?_⟩
  rw [reads_watchRead, hcalls, writeAll_watchWrite, Option.map_map]
  rfl

/-- A buffer of any size is filled when the source holds as much, and reported short otherwise. -/
theorem readFull_source (room : ℕ) (s : Reads) :
    ∃ src, src.len = s.state.len ∧ left src + min room (left s.state) = left s.state ∧
      io.readFull (watchRead sourceRead) room s = some (min room (left s.state), decide (room ≤ left s.state),
        ⟨src, s.calls ++ (served (pieces streamChunk (min room (left s.state))) ++
          if room ≤ left s.state then [] else [⟨0, true⟩])⟩) := by
  rcases Nat.lt_or_ge (left s.state) room with hshort | hroom
  · obtain ⟨rooms, hcalls, hread⟩ := source_serves.watch.readFull_short io (by decide) hshort
    rw [reads_watchRead] at hcalls hread
    dsimp only at hcalls hread
    have hconserved := source_serves.reads_conserve rooms s.state
    rw [hcalls, handed_append, handed_served, sum_pieces] at hconserved
    refine ⟨(reads sourceRead rooms s.state).2, reads_len rooms s.state, by omega, ?_⟩
    rw [hread, hcalls, Nat.min_eq_right hshort.le, decide_eq_false (Nat.not_le_of_lt hshort),
      if_neg (Nat.not_le_of_lt hshort)]
  · obtain ⟨rooms, hcalls, hread⟩ := source_serves.watch.readFull_eq io (by decide) hroom
    rw [reads_watchRead] at hcalls hread
    dsimp only at hcalls hread
    have hconserved := source_serves.reads_conserve rooms s.state
    rw [hcalls, handed_served, sum_pieces] at hconserved
    refine ⟨(reads sourceRead rooms s.state).2, reads_len rooms s.state, by omega, ?_⟩
    rw [hread, hcalls, Nat.min_eq_left hroom, decide_eq_true hroom, if_pos hroom, List.append_nil]

/-- The calls that hand out k pieces of 512 bytes. -/
def pieceCalls (k : ℕ) : List Answer := List.replicate k ⟨streamChunk, false⟩

theorem served_replicate (k : ℕ) : served (List.replicate k streamChunk) = pieceCalls k := List.map_replicate

/-- A turn starts from the whole stream again. -/
theorem left_rewound {s : Source} (hlen : s.len = streamBytes) :
    left { s with pos := 0 } = streamBytes := by
  rw [left, hlen, Nat.sub_zero]

theorem copyTurn_eq {write : ℕ → Sink → Option (ℕ × Sink)} (hwrite : ∀ n d r, write n d = some r → r.1 = n)
    (s : Reads × Writes) (hlen : s.1.state.len = streamBytes) :
    ∃ src, src.len = streamBytes ∧ copyTurn io sourceRead write s =
      (writeAll write (List.replicate 128 streamChunk) s.2.state).map fun d' =>
        (streamBytes, ⟨src, s.1.calls ++ (pieceCalls 128 ++ [⟨0, true⟩])⟩,
          ⟨d', s.2.calls ++ List.replicate 128 streamChunk⟩) := by
  obtain ⟨src, hsrc, -, hcopy⟩ := copyBuffer_source io hwrite (by decide : 0 < copyBuf)
    { s.1 with state.pos := 0 } s.2
  have hpieces : pieces (min copyBuf streamChunk) streamBytes = List.replicate 128 streamChunk :=
    pieces_mul (by decide) 128
  rw [left_rewound hlen, hpieces, served_replicate] at hcopy
  exact ⟨src, hsrc.trans hlen, hcopy⟩

theorem fullTurn_eq (s : Reads) (hlen : s.state.len = streamBytes) :
    ∃ src, src.len = streamBytes ∧
      fullTurn io sourceRead s = some (4096, ⟨src, s.calls ++ pieceCalls 8⟩) := by
  obtain ⟨src, hsrc, -, hread⟩ := readFull_source io 4096 { s with state.pos := 0 }
  have hmin : min 4096 streamBytes = 4096 := by decide
  have hpieces : pieces streamChunk 4096 = List.replicate 8 streamChunk := pieces_mul (by decide) 8
  rw [left_rewound hlen, hmin, if_pos (by decide), hpieces, served_replicate, List.append_nil] at hread
  refine ⟨src, hsrc.trans hlen, ?_⟩
  rw [fullTurn, hread]
  rfl

end

/-! ## A row -/

/-- What n turns of the copy row leave: 129 calls of read a turn, the last of which finds the end,
and 128 of write. -/
def copied (n : ℕ) (src : Source) (total : ℤ) : Reads × Writes :=
  (⟨src, (List.replicate n (pieceCalls 128 ++ [⟨0, true⟩])).flatten⟩,
    ⟨⟨total⟩, List.replicate (n * 128) streamChunk⟩)

/-- The copy row before its i-th turn. -/
def CopiedBy (totalOf : ℕ → ℤ) (i : ℕ) (s : Reads × Writes) : Prop :=
  ∃ src, src.len = streamBytes ∧ s = copied i src (totalOf i)

/-- The other row before its i-th turn. -/
def FilledBy (i : ℕ) (s : Reads) : Prop := s.state.len = streamBytes ∧ s.calls = pieceCalls (i * 8)

theorem copied_succ (n : ℕ) (src : Source) (total : ℤ) : copied (n + 1) src total =
    (⟨src, (List.replicate n (pieceCalls 128 ++ [⟨0, true⟩])).flatten ++ (pieceCalls 128 ++ [⟨0, true⟩])⟩,
      ⟨⟨total⟩, List.replicate (n * 128) streamChunk ++ List.replicate 128 streamChunk⟩) := by
  rw [copied, List.replicate_succ', List.flatten_append, List.flatten_singleton,
    List.replicate_append_replicate, Nat.succ_mul]

theorem copyTurn_copied (io : Drivers) {write : ℕ → Sink → Option (ℕ × Sink)}
    (hwrite : ∀ n d r, write n d = some r → r.1 = n) (i : ℕ) {src : Source} (hlen : src.len = streamBytes) (total : ℤ) :
    ∃ src', src'.len = streamBytes ∧ copyTurn io sourceRead write (copied i src total) =
      (writeAll write (List.replicate 128 streamChunk) ⟨total⟩).map
        fun d => (streamBytes, copied (i + 1) src' d.total) := by
  obtain ⟨src', hsrc, hcopy⟩ := copyTurn_eq io hwrite (copied i src total) hlen
  refine ⟨src', hsrc, hcopy.trans ?_⟩
  simp only [copied_succ]
  rfl

/-- The turns of the copy row, as far as the sink is defined. -/
theorem copyTurns_eq (io : Drivers) {write : ℕ → Sink → Option (ℕ × Sink)}
    (hwrite : ∀ n d r, write n d = some r → r.1 = n) (totalOf : ℕ → ℤ) (hzero : totalOf 0 = 0) {bound n : ℕ}
    (htotal : ∀ i < bound, writeAll write (List.replicate 128 streamChunk) ⟨totalOf i⟩ = some ⟨totalOf (i + 1)⟩)
    (hn : n ≤ bound) :
    ∃ src, src.len = streamBytes ∧ tryTurns (copyTurn io sourceRead write) n
      (⟨⟨0, streamBytes⟩, []⟩, ⟨⟨0⟩, []⟩) = some (List.replicate n streamBytes, copied n src (totalOf n)) := by
  have hstart : ((⟨⟨0, streamBytes⟩, []⟩, ⟨⟨0⟩, []⟩) : Reads × Writes) =
      copied 0 ⟨0, streamBytes⟩ (totalOf 0) := by
    rw [hzero]
    rfl
  have hturn (i : ℕ) (s : Reads × Writes) (hi : i < bound) (hs : CopiedBy totalOf i s) :
      ∃ s', CopiedBy totalOf (i + 1) s' ∧ copyTurn io sourceRead write s = some (streamBytes, s') := by
    obtain ⟨src, hsrc, rfl⟩ := hs
    obtain ⟨src', hsrc', hturn⟩ := copyTurn_copied io hwrite i hsrc (totalOf i)
    rw [htotal i hi] at hturn
    exact ⟨_, ⟨src', hsrc', rfl⟩, hturn⟩
  obtain ⟨s, ⟨src, hsrc, hs⟩, hrun⟩ := tryTurns_eq (CopiedBy totalOf) hturn n (by omega) ⟨⟨0, streamBytes⟩, rfl, hstart⟩
  rw [Nat.zero_add] at hs
  exact ⟨src, hsrc, hs ▸ hrun⟩

/-- What has gone through the sink after i turns. -/
def totalAfter (i : ℕ) : ℤ := i * streamBytes

theorem fits_totalAfter {i : ℕ} : Fits 64 (totalAfter i) ↔ i < 2 ^ 47 := by
  have hnonneg : 0 ≤ totalAfter i := by unfold totalAfter; positivity
  rw [fits64_iff hnonneg, totalAfter, streamBytes]
  omega

theorem totalAfter_succ (i : ℕ) : totalAfter i + ((List.replicate 128 streamChunk).sum : ℕ) = totalAfter (i + 1) := by
  have hsum : (List.replicate 128 streamChunk).sum = streamBytes := sum_pieces streamChunk streamBytes
  rw [hsum, totalAfter, totalAfter]
  push_cast
  ring

theorem writeAll_turn {i : ℕ} (hi : i < 2 ^ 47) :
    writeAll sinkWrite (List.replicate 128 streamChunk) ⟨totalAfter i⟩ =
      (checked 64 (totalAfter (i + 1))).map Sink.mk := by
  have hnonneg : 0 ≤ totalAfter i := by unfold totalAfter; positivity
  rw [← totalAfter_succ]
  exact writeAll_sinkWrite _ hnonneg (fits_totalAfter.mpr hi)

theorem ioCopyBuffer64k_eq (io : Drivers) {n : ℕ} (hn : n < 2 ^ 47) :
    ∃ src, src.len = streamBytes ∧
      ioCopyBuffer64k io n = some (List.replicate n streamBytes, copied n src (totalAfter n)) := by
  have htotal : ∀ i < 2 ^ 47 - 1, writeAll sinkWrite (List.replicate 128 streamChunk) ⟨totalAfter i⟩ =
      some ⟨totalAfter (i + 1)⟩ := by
    intro i hi
    rw [writeAll_turn (by omega), checked_of_fits (fits_totalAfter.mpr (by omega)), Option.map_some]
  exact copyTurns_eq io sinkWrite_all totalAfter (Int.zero_mul _) htotal (by omega)

/-- The turn in which the total of the sink no longer fits. -/
theorem ioCopyBuffer64k_eq_none (io : Drivers) {n : ℕ} (hn : 2 ^ 47 ≤ n) : ioCopyBuffer64k io n = none := by
  have hbefore : 2 ^ 47 - 1 < 2 ^ 47 := by omega
  obtain ⟨src, hsrc, hrun⟩ := ioCopyBuffer64k_eq io hbefore
  obtain ⟨src', -, hturn⟩ := copyTurn_copied io sinkWrite_all (2 ^ 47 - 1) hsrc (totalAfter (2 ^ 47 - 1))
  have hfits : ¬ Fits 64 (totalAfter (2 ^ 47 - 1 + 1)) := fun h => absurd (fits_totalAfter.mp h) (by omega)
  rw [writeAll_turn (by omega), checked, if_neg hfits] at hturn
  exact tryTurns_eq_none hrun hturn (by omega)

theorem goCopyBuffer64K_eq (io : Drivers) (n : ℕ) :
    ∃ src, src.len = streamBytes ∧
      goCopyBuffer64K io n = some (List.replicate n streamBytes, copied n src (wrap (totalAfter n))) := by
  have hzero : wrap (totalAfter 0) = 0 := by decide
  rw [goCopyBuffer64K, sourceRead_eq_go]
  have htotal : ∀ i < n, writeAll goSinkWrite (List.replicate 128 streamChunk) ⟨wrap (totalAfter i)⟩ =
      some ⟨wrap (totalAfter (i + 1))⟩ := by
    intro i _
    rw [writeAll_goSinkWrite, totalAfter_succ]
  exact copyTurns_eq io goSinkWrite_all (fun i => wrap (totalAfter i)) hzero htotal le_rfl

theorem ioReadFull4k_eq (io : Drivers) (n : ℕ) :
    ∃ src, ioReadFull4k io n = some (List.replicate n 4096, ⟨src, pieceCalls (n * 8)⟩) := by
  have hturn (i : ℕ) (s : Reads) (_ : i < n) (hs : FilledBy i s) :
      ∃ s', FilledBy (i + 1) s' ∧ fullTurn io sourceRead s = some (4096, s') := by
    obtain ⟨src, hsrc, hturn⟩ := fullTurn_eq io s hs.1
    rw [hs.2, pieceCalls, pieceCalls, List.replicate_append_replicate, ← Nat.succ_mul] at hturn
    exact ⟨_, ⟨hsrc, rfl⟩, hturn⟩
  have hstart : FilledBy 0 ⟨⟨0, streamBytes⟩, []⟩ := ⟨rfl, rfl⟩
  obtain ⟨s, ⟨-, hcalls⟩, hrun⟩ := tryTurns_eq FilledBy hturn n (Nat.zero_add n).le hstart
  rw [Nat.zero_add] at hcalls
  exact ⟨s.state, hcalls ▸ hrun⟩

theorem goReadFull4K_eq (io : Drivers) (n : ℕ) : goReadFull4K io n = ioReadFull4k io n := by
  rw [goReadFull4K, sourceRead_eq_go, ioReadFull4k]

/-- Whatever buffers a client comes with, it gets each byte of the source once, at most 512 a call,
and is told the end when it has had them all. Whatever loops stand behind the two libraries: a copy
to the end writes all of it in pieces of the smaller of buffer and chunk, and a buffer is filled
exactly when as much is left. A turn of the copy row makes 129 calls of read, the last of which finds
the end, and 128 of write; a turn of the other row makes 8. The rows of both sides keep the same, up
to 2^47 turns of the copy row, where the total of the C sink no longer fits. -/
theorem stream_rows (io goIo : Drivers) :
    (∀ rooms s, handed (reads sourceRead rooms s).1 + left (reads sourceRead rooms s).2 = left s ∧
      (∀ a ∈ (reads sourceRead rooms s).1, a.count ≤ streamChunk) ∧
      ∀ room, (sourceRead room (reads sourceRead rooms s).2).1.atEnd = true ↔
        handed (reads sourceRead rooms s).1 = left s) ∧
    (∀ room (s : Reads) (d : Writes), 0 < room → 0 ≤ d.state.total → Fits 64 (d.state.total + left s.state) →
      ∃ src, left src = 0 ∧ io.copyBuffer (watchRead sourceRead) (watchWrite sinkWrite) room s d =
        some (left s.state,
          ⟨src, s.calls ++ (served (pieces (min room streamChunk) (left s.state)) ++ [⟨0, true⟩])⟩,
          ⟨⟨d.state.total + left s.state⟩, d.calls ++ pieces (min room streamChunk) (left s.state)⟩)) ∧
    (∀ room (s : Reads), ∃ src, left src + min room (left s.state) = left s.state ∧
      io.readFull (watchRead sourceRead) room s = some (min room (left s.state), decide (room ≤ left s.state),
        ⟨src, s.calls ++ (served (pieces streamChunk (min room (left s.state))) ++
          if room ≤ left s.state then [] else [⟨0, true⟩])⟩)) ∧
    (∀ n, if n < 2 ^ 47
      then ∃ src, ioCopyBuffer64k io n = some (List.replicate n streamBytes, copied n src (totalAfter n))
      else ioCopyBuffer64k io n = none) ∧
    (∀ n, ∃ src, goCopyBuffer64K goIo n = some (List.replicate n streamBytes, copied n src (wrap (totalAfter n)))) ∧
    (∀ n, ∃ src, ioReadFull4k io n = some (List.replicate n 4096, ⟨src, pieceCalls (n * 8)⟩)) ∧
    ∀ n, ∃ src, goReadFull4K goIo n = some (List.replicate n 4096, ⟨src, pieceCalls (n * 8)⟩) := by
  refine ⟨fun rooms s => ⟨source_serves.reads_conserve rooms s, source_serves.reads_le_limit rooms s,
    fun room => ?_⟩, fun room s d hroom htotal hfits => ?_, fun room s => ?_, fun n => ?_, fun n => ?_,
    ioReadFull4k_eq io, fun n => ?_⟩
  · have hconserved := source_serves.reads_conserve rooms s
    rw [(source_serves.read_spec room _).2.2.2]
    omega
  · obtain ⟨src, -, hend, hcopy⟩ := copyBuffer_source io sinkWrite_all hroom s d
    have hstart : Fits 64 d.state.total := hfits.mono htotal (by omega)
    rw [writeAll_sinkWrite _ htotal hstart, sum_pieces, checked_of_fits hfits] at hcopy
    exact ⟨src, hend, hcopy⟩
  · obtain ⟨src, -, hleft, hread⟩ := readFull_source io room s
    exact ⟨src, hleft, hread⟩
  · split
    · obtain ⟨src, -, hrun⟩ := ioCopyBuffer64k_eq io ‹_›
      exact ⟨src, hrun⟩
    · exact ioCopyBuffer64k_eq_none io (Nat.le_of_not_lt ‹_›)
  · obtain ⟨src, -, hrun⟩ := goCopyBuffer64K_eq goIo n
    exact ⟨src, hrun⟩
  · rw [goReadFull4K_eq]
    exact ioReadFull4k_eq goIo n

theorem stream_rows_loops :
    (∃ src, ioCopyBuffer64k loops 2 = some ([streamBytes, streamBytes], copied 2 src (totalAfter 2))) ∧
    ioCopyBuffer64k loops (2 ^ 47) = none ∧
    ∃ src, goReadFull4K loops 1 = some ([4096], ⟨src, pieceCalls 8⟩) := by
  obtain ⟨-, -, -, hcopy, -, -, hfull⟩ := stream_rows loops loops
  have htwo := hcopy 2
  have hmany := hcopy (2 ^ 47)
  rw [if_pos (by omega)] at htwo
  rw [if_neg (by omega)] at hmany
  exact ⟨htwo, hmany, hfull 1⟩

end BurrowBench.Workloads.StreamRows
