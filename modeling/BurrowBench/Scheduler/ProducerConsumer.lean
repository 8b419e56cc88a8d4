import BurrowBench.Foundation.Channel
import BurrowBench.Foundation.Interleaving
import Mathlib.Algebra.BigOperators.Intervals
import Mathlib.Data.BitVec

/-! # The producer and the consumer

In chan_prodcons a producer sends 0, 1, .. b->n - 1 on one buffered channel and closes it,
and the body of the row adds up what it receives until the channel is closed and drained,
then frees it. The start is after a successful launch of the producer.
-/
namespace BurrowBench.Scheduler.ProducerConsumer
open Interleaving Channel

def prodconsCap : ℕ := 100

inductive ProducerPc where
  | loop (i : ℕ)
  | send (i : ℕ)
  | close
  | returned
  deriving DecidableEq

inductive ConsumerPc where
  | recv
  | add (got : ℤ)
  | pause
  | free
  | returned
  deriving DecidableEq

/-- `c1` is none once it has been freed. `received` is a ghost, what the body has received. -/
structure State where
  producer : ProducerPc
  consumer : ConsumerPc
  c1 : Option (Chan ℤ)
  sum : BitVec 64
  received : List ℤ
  deriving DecidableEq

def start : State where
  producer := .loop 0
  consumer := .recv
  c1 := some Chan.make
  sum := 0
  received := []

def prodconsProducer (cap n : ℕ) (s : State) : Option State :=
  match s.producer, s.c1 with
  | .loop i, _ => some { s with producer := if i < n then .send i else .close }
  | .send i, some c => (c.send cap (i : ℤ)).map fun c => { s with c1 := some c, producer := .loop (i + 1) }
  | .close, some c => c.close.map fun c => { s with c1 := some c, producer := .returned }
  | _, _ => none

def prodconsBody (s : State) : Option State :=
  match s.consumer, s.c1 with
  | .recv, some c =>
    c.recv.map fun
      | (some got, c) => { s with c1 := some c, received := s.received ++ [got], consumer := .add got }
      | (none, c) => { s with c1 := some c, consumer := .pause }
  | .add got, _ => some { s with sum := s.sum + BitVec.ofInt 64 got, consumer := .recv }
  | .pause, _ => some { s with consumer := .free }
  | .free, some _ => some { s with c1 := none, consumer := .returned }
  | _, _ => none

/-- A value goes straight to a receiver that waits on an empty channel. -/
def handOver (s : State) : Option State :=
  match s.producer, s.consumer, s.c1 with
  | .send i, .recv, some c =>
    if c.buffer = [] ∧ !c.closed then
      some { s with received := s.received ++ [(i : ℤ)], producer := .loop (i + 1), consumer := .add i }
    else none
  | _, _, _ => none

inductive Agent where
  | producer
  | body
  | both
  deriving DecidableEq

def step (cap n : ℕ) : Agent → State → Option State
  | .producer, s => prodconsProducer cap n s
  | .body, s => prodconsBody s
  | .both, s => handOver s

/-- The first k values the producer sends. -/
def values (k : ℕ) : List ℤ := (List.range k).map Nat.cast

def total (l : List ℤ) : BitVec 64 := (l.map (BitVec.ofInt 64)).sum

/-- Where a row of n values ends. -/
def final (n : ℕ) : State where
  producer := .returned
  consumer := .returned
  c1 := none
  sum := BitVec.ofNat 64 (n * (n - 1) / 2)
  received := values n

theorem values_succ (k : ℕ) : values (k + 1) = values k ++ [(k : ℤ)] := by
  simp [values, List.range_succ]

theorem total_append_singleton (l : List ℤ) (v : ℤ) :
    total (l ++ [v]) = total l + BitVec.ofInt 64 v := by
  simp [total]

theorem total_values (k : ℕ) : total (values k) = BitVec.ofNat 64 (k * (k - 1) / 2) := by
  rw [← Finset.sum_range_id]
  induction k with
  | zero => rfl
  | succ k ih =>
    rw [values_succ, total_append_singleton, ih, Finset.sum_range_succ, BitVec.ofNat_add]
    rfl

/-! ## The invariant -/

/-- How many values the producer has sent. -/
@[simp] def ProducerPc.sent (n : ℕ) : ProducerPc → ℕ
  | .loop i | .send i => i
  | .close | .returned => n

@[simp] def ProducerPc.Within (n : ℕ) : ProducerPc → Prop
  | .loop i => i ≤ n
  | .send i => i < n
  | .close | .returned => True

/-- The body is past its loop. -/
@[simp] def ConsumerPc.Done : ConsumerPc → Prop
  | .pause | .free | .returned => True
  | .recv | .add _ => False

/-- What has been received and not been added yet. -/
@[simp] def ConsumerPc.pending : ConsumerPc → BitVec 64
  | .add got => BitVec.ofInt 64 got
  | _ => 0

/-- What has been sent is what was received and then what the channel holds. -/
structure Streams (cap n : ℕ) (s : State) : Prop where
  within : s.producer.Within n
  conveys : ∀ c, s.c1 = some c → Conveys cap (values (s.producer.sent n)) s.received c
  closed : ∀ c, s.c1 = some c → (c.closed = true ↔ s.producer = .returned)
  sum : s.sum + s.consumer.pending = total s.received
  done : s.consumer.Done → s.producer = .returned ∧ s.received = values n
  freed : s.c1 = none ↔ s.consumer = .returned

variable {cap n : ℕ} {s s' : State}

theorem streams_start (cap n : ℕ) : Streams cap n start where
  within := Nat.zero_le n
  conveys _ h := Option.some.inj h ▸ Conveys.make cap
  closed _ h := by
    obtain rfl := Option.some.inj h
    simp [start, Chan.make]
  sum := rfl
  done h := absurd h id
  freed := by simp [start]

theorem producer_cases (h : prodconsProducer cap n s = some s') :
    (∃ i, s.producer = .loop i ∧ s' = { s with producer := if i < n then .send i else .close }) ∨
    (∃ i c c', s.producer = .send i ∧ s.c1 = some c ∧ c.send cap (i : ℤ) = some c' ∧
      s' = { s with c1 := some c', producer := .loop (i + 1) }) ∨
    (∃ c c', s.producer = .close ∧ s.c1 = some c ∧ c.close = some c' ∧
      s' = { s with c1 := some c', producer := .returned }) := by
  unfold prodconsProducer at h
  split at h
  · rename_i _ i hpc
    exact Or.inl ⟨i, hpc, (Option.some.inj h).symm⟩
  · rename_i i c hpc hc
    obtain ⟨c', hsend, rfl⟩ := Option.map_eq_some_iff.mp h
    exact Or.inr (Or.inl ⟨i, c, c', hpc, hc, hsend, rfl⟩)
  · rename_i c hpc hc
    obtain ⟨c', hclose, rfl⟩ := Option.map_eq_some_iff.mp h
    exact Or.inr (Or.inr ⟨c, c', hpc, hc, hclose, rfl⟩)
  · cases h

theorem body_cases (h : prodconsBody s = some s') :
    (∃ c c' got, s.consumer = .recv ∧ s.c1 = some c ∧ c.recv = some (some got, c') ∧
      s' = { s with c1 := some c', received := s.received ++ [got], consumer := .add got }) ∨
    (∃ c c', s.consumer = .recv ∧ s.c1 = some c ∧ c.recv = some (none, c') ∧
      s' = { s with c1 := some c', consumer := .pause }) ∨
    (∃ got, s.consumer = .add got ∧
      s' = { s with sum := s.sum + BitVec.ofInt 64 got, consumer := .recv }) ∨
    (s.consumer = .pause ∧ s' = { s with consumer := .free }) ∨
    (∃ c, s.consumer = .free ∧ s.c1 = some c ∧ s' = { s with c1 := none, consumer := .returned }) := by
  unfold prodconsBody at h
  split at h
  · rename_i c hpc hc
    obtain ⟨⟨_ | got, c'⟩, hrecv, rfl⟩ := Option.map_eq_some_iff.mp h
    · exact Or.inr (Or.inl ⟨c, c', hpc, hc, hrecv, rfl⟩)
    · exact Or.inl ⟨c, c', got, hpc, hc, hrecv, rfl⟩
  · rename_i _ got hpc
    exact Or.inr (Or.inr (Or.inl ⟨got, hpc, (Option.some.inj h).symm⟩))
  · rename_i hpc
    exact Or.inr (Or.inr (Or.inr (Or.inl ⟨hpc, (Option.some.inj h).symm⟩)))
  · rename_i c hpc hc
    exact Or.inr (Or.inr (Or.inr (Or.inr ⟨c, hpc, hc, (Option.some.inj h).symm⟩)))
  · cases h

theorem handOver_cases (h : handOver s = some s') :
    ∃ i c, s.producer = .send i ∧ s.consumer = .recv ∧ s.c1 = some c ∧ c.buffer = [] ∧
      s' = { s with received := s.received ++ [(i : ℤ)], producer := .loop (i + 1), consumer := .add i } := by
  unfold handOver at h
  split at h
  · rename_i i c hpc hpc' hc
    split at h
    · rename_i hempty
      exact ⟨i, c, hpc, hpc', hc, hempty.1, (Option.some.inj h).symm⟩
    · cases h
  · cases h

theorem Streams.producer_step (hs : Streams cap n s) (h : prodconsProducer cap n s = some s') :
    Streams cap n s' := by
  obtain ⟨producer, consumer, c1, sum, received⟩ := s
  obtain ⟨hwithin, hconveys, hclosed, hsum, hdone, hfreed⟩ := hs
  rcases producer_cases h with ⟨i, hpc, rfl⟩ | ⟨i, c, c', hpc, hc, hsend, rfl⟩ |
    ⟨c, c', hpc, hc, hclose, rfl⟩
  · obtain rfl : producer = .loop i := hpc
    simp only [ProducerPc.Within] at hwithin
    by_cases hin : i < n
    · simp only [hin, if_true]
      exact ⟨hin, hconveys, by simpa using hclosed, hsum, fun hd => absurd (hdone hd).1 (by simp), hfreed⟩
    · obtain rfl : i = n := by omega
      simp only [hin, if_false]
      exact ⟨trivial, hconveys, by simpa using hclosed, hsum, fun hd => absurd (hdone hd).1 (by simp), hfreed⟩
  · obtain rfl : producer = .send i := hpc
    obtain rfl : c1 = some c := hc
    obtain ⟨hopen, _, rfl⟩ := Chan.send_eq_some_iff.mp hsend
    refine ⟨hwithin, ?_, by simp [hopen], hsum, fun hd => absurd (hdone hd).1 (by simp), by simpa using hfreed⟩
    intro c' hc'
    obtain rfl := Option.some.inj hc'
    simp only [ProducerPc.sent, values_succ]
    exact (hconveys c rfl).send hsend
  · obtain rfl : producer = .close := hpc
    obtain rfl : c1 = some c := hc
    obtain ⟨hopen, rfl⟩ := Chan.close_eq_some_iff.mp hclose
    refine ⟨trivial, ?_, by simp, hsum, fun hd => absurd (hdone hd).1 (by simp), by simpa using hfreed⟩
    intro c' hc'
    obtain rfl := Option.some.inj hc'
    exact (hconveys c rfl).close hclose

theorem Streams.body_step (hs : Streams cap n s) (h : prodconsBody s = some s') : Streams cap n s' := by
  obtain ⟨producer, consumer, c1, sum, received⟩ := s
  obtain ⟨hwithin, hconveys, hclosed, hsum, hdone, hfreed⟩ := hs
  rcases body_cases h with ⟨c, c', got, hpc, hc, hrecv, rfl⟩ | ⟨c, c', hpc, hc, hrecv, rfl⟩ |
    ⟨got, hpc, rfl⟩ | ⟨hpc, rfl⟩ | ⟨c, hpc, hc, rfl⟩
  · obtain rfl : consumer = .recv := hpc
    obtain rfl : c1 = some c := hc
    refine ⟨hwithin, ?_, ?_, ?_, fun hd => absurd hd id, by simp⟩
    · intro c'' hc''
      obtain rfl := Option.some.inj hc''
      exact (hconveys c rfl).recv hrecv
    · intro c'' hc''
      obtain rfl := Option.some.inj hc''
      rw [Chan.recv_closed hrecv]
      exact hclosed c rfl
    · rw [total_append_singleton, ← hsum]
      simp
  · obtain rfl : consumer = .recv := hpc
    obtain rfl : c1 = some c := hc
    obtain ⟨hisClosed, hall, rfl⟩ := (hconveys c rfl).drained hrecv
    have hreturned := (hclosed c' rfl).mp hisClosed
    obtain rfl : producer = .returned := hreturned
    exact ⟨trivial, hconveys, hclosed, hsum, fun _ => ⟨rfl, hall⟩, by simp⟩
  · obtain rfl : consumer = .add got := hpc
    exact ⟨hwithin, hconveys, hclosed, by simpa using hsum, fun hd => absurd hd id, by simpa using hfreed⟩
  · obtain rfl : consumer = .pause := hpc
    exact ⟨hwithin, hconveys, hclosed, hsum, fun _ => hdone trivial, by simpa using hfreed⟩
  · obtain rfl : consumer = .free := hpc
    exact ⟨hwithin, fun _ h => (nomatch h), fun _ h => (nomatch h), hsum, fun _ => hdone trivial, by simp⟩

theorem Streams.both_step (hs : Streams cap n s) (h : handOver s = some s') : Streams cap n s' := by
  obtain ⟨producer, consumer, c1, sum, received⟩ := s
  obtain ⟨hwithin, hconveys, hclosed, hsum, hdone, hfreed⟩ := hs
  obtain ⟨i, c, hpc, hpc', hc, hempty, rfl⟩ := handOver_cases h
  obtain rfl : producer = .send i := hpc
  obtain rfl : consumer = .recv := hpc'
  obtain rfl : c1 = some c := hc
  refine ⟨hwithin, ?_, by simpa using hclosed, ?_, fun hd => absurd hd id, by simp⟩
  · intro c' hc'
    simp only [ProducerPc.sent, values_succ]
    exact (hconveys c' hc').handOver (Option.some.inj hc' ▸ hempty) (i : ℤ)
  · rw [total_append_singleton, ← hsum]
    simp

theorem Streams.step {a : Agent} (hs : Streams cap n s) (h : step cap n a s = some s') :
    Streams cap n s' := by
  cases a with
  | producer => exact hs.producer_step h
  | body => exact hs.body_step h
  | both => exact hs.both_step h

/-! ## Progress -/

@[simp] def ProducerPc.left (n : ℕ) : ProducerPc → ℕ
  | .loop i => 4 * (n - i) + 2
  | .send i => 4 * (n - i) + 1
  | .close => 1
  | .returned => 0

@[simp] def ConsumerPc.left : ConsumerPc → ℕ
  | .add _ => 4
  | .recv => 3
  | .pause => 2
  | .free => 1
  | .returned => 0

def buffered (s : State) : ℕ := (s.c1.map fun c => c.buffer.length).getD 0

def stepsLeft (n : ℕ) (s : State) : ℕ := s.producer.left n + s.consumer.left + 2 * buffered s

theorem Streams.lowers {a : Agent} (hs : Streams cap n s) (h : ProducerConsumer.step cap n a s = some s') :
    stepsLeft n s' < stepsLeft n s := by
  obtain ⟨producer, consumer, c1, sum, received⟩ := s
  have hwithin := hs.within
  cases a with
  | producer =>
    rcases producer_cases h with ⟨i, hpc, rfl⟩ | ⟨i, c, c', hpc, hc, hsend, rfl⟩ |
      ⟨c, c', hpc, hc, hclose, rfl⟩
    · obtain rfl : producer = .loop i := hpc
      by_cases hin : i < n <;> simp [stepsLeft, buffered, hin]
    · obtain rfl : producer = .send i := hpc
      obtain rfl : c1 = some c := hc
      obtain ⟨_, _, rfl⟩ := Chan.send_eq_some_iff.mp hsend
      simp [stepsLeft, buffered] at hwithin ⊢
      omega
    · obtain rfl : producer = .close := hpc
      obtain rfl : c1 = some c := hc
      obtain ⟨_, rfl⟩ := Chan.close_eq_some_iff.mp hclose
      simp [stepsLeft, buffered]
  | body =>
    rcases body_cases h with ⟨c, c', got, hpc, hc, hrecv, rfl⟩ | ⟨c, c', hpc, hc, hrecv, rfl⟩ |
      ⟨got, hpc, rfl⟩ | ⟨hpc, rfl⟩ | ⟨c, hpc, hc, rfl⟩
    · obtain rfl : consumer = .recv := hpc
      obtain rfl : c1 = some c := hc
      have hlen := Chan.recv_length hrecv
      simp [stepsLeft, buffered] at hlen ⊢
      omega
    · obtain rfl : consumer = .recv := hpc
      obtain rfl : c1 = some c := hc
      obtain ⟨_, _, rfl⟩ := (hs.conveys c rfl).drained hrecv
      simp [stepsLeft, buffered]
    · obtain rfl : consumer = .add got := hpc
      simp [stepsLeft, buffered]
    · obtain rfl : consumer = .pause := hpc
      simp [stepsLeft, buffered]
    · obtain rfl : consumer = .free := hpc
      simp [stepsLeft, buffered]
      omega
  | both =>
    obtain ⟨i, c, hpc, hpc', hc, hempty, rfl⟩ := handOver_cases h
    obtain rfl : producer = .send i := hpc
    obtain rfl : consumer = .recv := hpc'
    obtain rfl : c1 = some c := hc
    simp [stepsLeft, buffered] at hwithin ⊢
    omega

theorem Streams.eq_final (hs : Streams cap n s) (h : s.consumer = .returned) : s = final n := by
  obtain ⟨producer, consumer, c1, sum, received⟩ := s
  obtain rfl : consumer = .returned := h
  obtain ⟨hproducer, hreceived⟩ := hs.done trivial
  obtain rfl : producer = .returned := hproducer
  obtain rfl : received = values n := hreceived
  obtain rfl : c1 = none := hs.freed.mpr rfl
  have hsum := hs.sum
  simp only [ConsumerPc.pending, add_zero, total_values] at hsum
  rw [hsum]
  rfl

/-- The producer can move when the body waits for a value and there is none. -/
theorem Streams.progress (hs : Streams cap n s) :
    s = final n ∨ ∃ a, (ProducerConsumer.step cap n a s).isSome := by
  by_cases hend : s.consumer = .returned
  · exact Or.inl (hs.eq_final hend)
  · right
    obtain ⟨c, hc⟩ := Option.ne_none_iff_exists'.mp fun h => hend (hs.freed.mp h)
    cases hpc : s.consumer with
    | recv =>
      by_cases hready : c.buffer ≠ [] ∨ c.closed = true
      · have hmoves := Chan.recv_isSome hready
        exact ⟨.body, by simp [ProducerConsumer.step, prodconsBody, hpc, hc, hmoves]⟩
      · rw [not_or, not_not, Bool.not_eq_true] at hready
        obtain ⟨hempty, hopen⟩ := hready
        cases hpc' : s.producer with
        | loop i => exact ⟨.producer, by simp [ProducerConsumer.step, prodconsProducer, hpc']⟩
        | send i => exact ⟨.both, by simp [ProducerConsumer.step, handOver, hpc, hpc', hc, hempty, hopen]⟩
        | close =>
          exact ⟨.producer, by simp [ProducerConsumer.step, prodconsProducer, hpc', hc, Chan.close, hopen]⟩
        | returned =>
          have hclosed := (hs.closed c hc).mpr hpc'
          rw [hopen] at hclosed
          cases hclosed
    | add got => exact ⟨.body, by simp [ProducerConsumer.step, prodconsBody, hpc]⟩
    | pause => exact ⟨.body, by simp [ProducerConsumer.step, prodconsBody, hpc]⟩
    | free => exact ⟨.body, by simp [ProducerConsumer.step, prodconsBody, hpc, hc]⟩
    | returned => exact absurd hpc hend

theorem terminates (cap n : ℕ) :
    Terminates (step cap n) (Streams cap n) (· = final n) (stepsLeft n) where
  keep _ _ _ := Streams.step
  lower _ _ _ := Streams.lowers
  progress _ := Streams.progress

/-! ## The row -/

/-- What holds of a state whatever the schedule was. -/
structure Delivers (cap n : ℕ) (s : State) : Prop where
  in_order : s.received <+: values n
  in_flight : ∀ c, s.c1 = some c →
    c.buffer.length ≤ cap ∧ s.received ++ c.buffer = values (s.producer.sent n)
  left : s.consumer.Done →
    s.producer = .returned ∧ s.received = values n ∧ s.sum = BitVec.ofNat 64 (n * (n - 1) / 2)
  freed : s.c1 = none → s.producer = .returned ∧ s.consumer = .returned

theorem values_isPrefix {j k : ℕ} (h : j ≤ k) : values j <+: values k := by
  have htake : (List.range k).take j = List.range j := by rw [List.take_range, Nat.min_eq_left h]
  exact (htake ▸ List.take_prefix j (List.range k)).map Nat.cast

theorem Streams.delivers (hs : Streams cap n s) : Delivers cap n s where
  in_order := by
    cases hc : s.c1 with
    | none => exact (hs.done (by rw [hs.freed.mp hc]; trivial)).2 ▸ List.prefix_refl _
    | some c =>
      have hsent : s.producer.sent n ≤ n := by
        have hwithin := hs.within
        cases hpc : s.producer with
        | loop i => simpa [hpc] using hwithin
        | send i => exact Nat.le_of_lt (by simpa [hpc] using hwithin)
        | _ => exact Nat.le_refl n
      exact (hs.conveys c hc).isPrefix.trans (values_isPrefix hsent)
  in_flight c hc := ⟨(hs.conveys c hc).length_le, (hs.conveys c hc).append_eq⟩
  left hd := by
    obtain ⟨hproducer, hreceived⟩ := hs.done hd
    have hsum := hs.sum
    have hpending : s.consumer.pending = 0 := by cases hpc : s.consumer <;> simp_all
    rw [hpending, add_zero, hreceived, total_values] at hsum
    exact ⟨hproducer, hreceived, hsum⟩
  freed hc := by
    have hreturned := hs.freed.mp hc
    exact ⟨(hs.done (by rw [hreturned]; trivial)).1, hreturned⟩

/-- Whatever the capacity, the count and the schedule, the body receives what was sent, in
order, leaves its loop after the close with all of it, and frees a channel nobody uses; every
run goes on to that end. -/
theorem prodcons_delivers (cap n : ℕ) (schedule : List Agent) (s : State)
    (h : run (step cap n) schedule start = some s) :
    Delivers cap n s ∧ schedule.length ≤ 4 * n + 5 ∧
    (s = final n ∨ ∃ a, (step cap n a s).isSome) ∧ Reaches (step cap n) s (final n) := by
  obtain ⟨hs, hlength, hgoes⟩ := (terminates cap n).run_spec (streams_start cap n) h
  obtain ⟨s', hreaches, _, rfl⟩ := (terminates cap n).reaches_end hs
  refine ⟨hs.delivers, ?_, hgoes, hreaches⟩
  simpa [stepsLeft, start, buffered, Chan.make] using hlength

/-- The row with two values, sent before any is received. -/
theorem prodcons_delivers_two : Delivers prodconsCap 2 (final 2) :=
  (prodcons_delivers prodconsCap 2 [.producer, .producer, .producer, .producer, .producer, .producer,
    .body, .body, .body, .body, .body, .body, .body] (final 2) (by decide)).1

end BurrowBench.Scheduler.ProducerConsumer
