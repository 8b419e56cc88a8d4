import BurrowBench.Foundation.DecimalText
import BurrowBench.Foundation.SteadyLoop
import BurrowBench.Foundation.Stopwatch
import BurrowBench.Harness.Timer
import Mathlib.Data.Char
import Mathlib.Data.List.Lex
import Mathlib.Data.List.Sort
import Mathlib.Data.Nat.Bitwise

/-! # The sort rows

A sort leaves its array sorted, and sorting that again would measure something else. So each turn
writes the input over the array with the clock off, and only the sort is timed. The C side sorts
the first places of an array that all its rows share, the Go side a slice of its own.
-/
namespace BurrowBench.Workloads.SortRows
open Harness SteadyLoop Stopwatch
variable {α : Type}

/-! ## Inputs -/

def n1k : ℕ := 1 <<< 10
def n64k : ℕ := 1 <<< 16

inductive Fill where
  | xor
  | sorted
  | reversed
  | mod8
  deriving DecidableEq

def Fill.value (f : Fill) (n i : ℕ) : ℕ :=
  match f with
  | .xor => i ^^^ (if n = n1k then 0x2cc else 0xcccc)
  | .sorted => i
  | .reversed => n - i
  | .mod8 => i % 8

/-- A loop that writes the first `n` places one after the other. -/
def assign (g : ℕ → α) (n : ℕ) (data : List α) : List α :=
  (List.range n).foldl (fun data i => data.set i (g i)) data

def fill (n : ℕ) (f : Fill) (data : List ℕ) : List ℕ := assign (f.value n) n data

def memcpy (src data : List α) : List α := src ++ data.drop src.length

/-- What `snprintf` leaves in eight bytes. -/
def unsortedStr (i : ℕ) : Text := (Nat.toDigits 10 (i ^^^ 0x2cc)).take 7

def unsortedStrs : List Text := (List.range n1k).map unsortedStr

def unsortedInts : List ℕ := fill n1k .xor (List.replicate n1k 0)

/-! ## go/sort_test.go -/

def goStrings1k : List Text := (List.range n1k).map fun i => Nat.toDigits 10 (i ^^^ 0x2cc)

def goUnsorted : List ℕ := assign (· ^^^ 0x2cc) n1k (List.replicate n1k 0)

def goFill (fill : ℕ → ℕ → ℕ) (n : ℕ) (data : List ℕ) : List ℕ := assign (fun j => fill j n) data.length data

def goCopy (src data : List α) : List α := src.take data.length ++ data.drop src.length

/-! ## Rows -/

/-- What a row sorts, and how each side writes it back. -/
structure Row (α : Type) where
  size : ℕ
  reset : List α → List α
  goReset : List α → List α

def sortString1k : Row Text := ⟨n1k, memcpy unsortedStrs, goCopy goStrings1k⟩
def sortString1kSlice : Row Text := ⟨n1k, memcpy unsortedStrs, goCopy goStrings1k⟩
def sortStableString1k : Row Text := ⟨n1k, memcpy unsortedStrs, goCopy goStrings1k⟩

def runInts (n : ℕ) (f : Fill) (g : ℕ → ℕ → ℕ) : Row ℕ := ⟨n, fill n f, goFill g n⟩

def sortInt1k : Row ℕ := runInts n1k .xor fun i _ => i ^^^ 0x2cc
def sortInt1kSorted : Row ℕ := runInts n1k .sorted fun i _ => i
def sortInt1kReversed : Row ℕ := runInts n1k .reversed fun i n => n - i
def sortInt1kMod8 : Row ℕ := runInts n1k .mod8 fun i _ => i % 8
def sortInt64k : Row ℕ := runInts n64k .xor fun i _ => i ^^^ 0xcccc
def sortInt64kSlice : Row ℕ := runInts n64k .xor fun i _ => i ^^^ 0xcccc
def sortStableInt1k : Row ℕ := ⟨n1k, memcpy unsortedInts, goCopy goUnsorted⟩
def sortStableInt1kSlice : Row ℕ := ⟨n1k, memcpy unsortedInts, goCopy goUnsorted⟩

/-- What the sorts of both libraries promise, stable or not, with a less function or without. -/
structure Sorting (α : Type) [LinearOrder α] where
  sort : List α → List α
  perm : ∀ data, (sort data).Perm data
  sorted : ∀ data, (sort data).SortedLE

def mergeSorting [LinearOrder α] : Sorting α where
  sort data := data.mergeSort
  perm data := data.mergeSort_perm _
  sorted _ := List.sortedLE_mergeSort

/-- How long the parts of a body take. A sort may take longer on one input than on another. -/
structure Times (α : Type) where
  setup : ℕ
  reset : ℕ → ℕ
  sort : ℕ → List α → ℕ
  keep : ℕ

section Bodies
variable [LinearOrder α] (S : Sorting α) (times : Times α) (reset : List α → List α) (size : ℕ)

/-- One turn, with what the sort was given and what the clock saw of it. -/
def turn (i : ℕ) (data : List α) : List α × List α × List Action :=
  let data := reset data
  let given := data.take size
  (S.sort given ++ data.drop size, given,
    [.advance (times.reset i), .resume, .advance (times.sort i given), .pause])

def loop (data : List α) (n : ℕ) : List Action :=
  ((turns (turn S times reset size) n data).2.map fun kept => kept.2).flatten

end Bodies

section Row
variable [LinearOrder α] (row : Row α) (S : Sorting α) (times : Times α)

/-- The setup comes before the first pause, and the clock runs again when the array is kept. -/
def Row.body (data : List α) : BenchFunc := fun n =>
  [.advance times.setup, .pause] ++ loop S times row.reset row.size data n.toNat ++
    [.resume, .advance times.keep]

def Row.goBody (data : List α) : BenchFunc := fun n =>
  [.pause, .advance times.setup] ++ loop S times row.goReset data.length data n.toNat

end Row

/-! ## Resets -/

/-- Whatever an array of this length holds, its first places hold the input afterwards, and nothing
else of it has changed. -/
structure Resets (reset : List α → List α) (size : ℕ) (input : List α) (length : ℕ) : Prop where
  length_input : input.length = size
  room : size ≤ length
  reset_eq : ∀ data, data.length = length → reset data = input ++ data.drop size

theorem length_map_range (f : ℕ → α) (n : ℕ) : ((List.range n).map f).length = n := by
  rw [List.length_map, List.length_range]

theorem assign_eq (g : ℕ → α) {n : ℕ} {data : List α} (h : n ≤ data.length) :
    assign g n data = (List.range n).map g ++ data.drop n := by
  have hpart : ∀ k ≤ n, (List.range k).foldl (fun data i => data.set i (g i)) data =
      (List.range k).map g ++ data.drop k := by
    intro k hk
    induction k with
    | zero => rfl
    | succ k ih =>
      have hdrop : data.drop k = data[k] :: data.drop (k + 1) := List.drop_eq_getElem_cons (by omega)
      have hlength := length_map_range g k
      rw [List.range_succ, List.foldl_append, ih (by omega), hdrop, List.foldl_cons, List.foldl_nil,
        List.set_append_right _ _ hlength.le, hlength, Nat.sub_self, List.set_cons_zero,
        List.map_append, List.append_assoc, List.map_singleton, List.singleton_append]
  exact hpart n (Nat.le_refl n)

theorem resets_assign (g : ℕ → α) {n length : ℕ} (h : n ≤ length) :
    Resets (assign g n) n ((List.range n).map g) length where
  length_input := length_map_range _ n
  room := h
  reset_eq := by
    intro data hdata
    exact assign_eq g (hdata ▸ h)

theorem resets_memcpy (src : List α) {length : ℕ} (h : src.length ≤ length) :
    Resets (memcpy src) src.length src length where
  length_input := rfl
  room := h
  reset_eq := fun _ _ => rfl

theorem resets_goFill (g : ℕ → ℕ → ℕ) (n : ℕ) :
    Resets (goFill g n) n ((List.range n).map fun j => g j n) n where
  length_input := length_map_range _ n
  room := Nat.le_refl n
  reset_eq := by
    intro data hdata
    rw [goFill, hdata]
    exact assign_eq _ hdata.ge

theorem resets_goCopy (src : List α) : Resets (goCopy src) src.length src src.length where
  length_input := rfl
  room := Nat.le_refl _
  reset_eq := by
    intro data hdata
    rw [goCopy, hdata, List.take_length]

theorem assign_replicate (g : ℕ → ℕ) (n : ℕ) : assign g n (List.replicate n 0) = (List.range n).map g := by
  rw [assign_eq g List.length_replicate.ge, List.drop_of_length_le List.length_replicate.le, List.append_nil]

theorem unsortedInts_eq : unsortedInts = (List.range n1k).map (· ^^^ 0x2cc) := by
  rw [unsortedInts, fill, assign_replicate]
  exact List.map_congr_left fun i _ => congrArg (i ^^^ ·) (if_pos rfl)

/-- The digits of the numbers of the string rows fit the eight bytes. -/
theorem unsortedStrs_eq : unsortedStrs = goStrings1k := by
  refine List.map_congr_left fun i hi => List.take_of_length_le ?_
  have hi : i < 2 ^ 10 := List.mem_range.mp hi
  have hxor : i ^^^ 0x2cc < 10 ^ 7 := lt_trans (Nat.xor_lt_two_pow hi (by decide)) (by decide)
  exact (Nat.length_toDigits_le_iff (by decide) (by decide)).mpr hxor

/-! ## Sorting -/

theorem Sorting.sort_eq [LinearOrder α] (S : Sorting α) {data result : List α} (hsorted : result.SortedLE)
    (hperm : result.Perm data) : S.sort data = result :=
  ((S.perm data).trans hperm.symm).eq_of_sortedLE (S.sorted data) hsorted

theorem sortedLE_map {g : ℕ → ℕ} (hg : Monotone g) (n : ℕ) : ((List.range n).map g).SortedLE := by
  have hrange := List.pairwise_lt_range (n := n)
  refine List.Pairwise.sortedLE (List.pairwise_map.mpr (hrange.imp fun h => hg h.le))

/-- A map of the numbers below n into themselves that has an inverse permutes them. -/
theorem perm_range_of_inverse {g h : ℕ → ℕ} {n : ℕ} (hg : ∀ i < n, g i < n) (hh : ∀ i < n, h i < n)
    (hgh : ∀ i < n, g (h i) = i) (hhg : ∀ i < n, h (g i) = i) : ((List.range n).map g).Perm (List.range n) := by
  have hnodup : ((List.range n).map g).Nodup := by
    refine List.Nodup.map_on ?_ List.nodup_range
    intro i hi j hj heq
    rw [← hhg i (List.mem_range.mp hi), heq, hhg j (List.mem_range.mp hj)]
  refine (List.perm_ext_iff_of_nodup hnodup List.nodup_range).mpr fun a => ?_
  rw [List.mem_map, List.mem_range]
  constructor
  · rintro ⟨i, hi, rfl⟩
    exact hg i (List.mem_range.mp hi)
  · intro ha
    exact ⟨h a, List.mem_range.mpr (hh a ha), hgh a ha⟩

/-- The sizes of the rows are powers of two, and the constants are below them. -/
theorem perm_xor {n c : ℕ} (k : ℕ) (hn : n = 2 ^ k) (hc : c < n) :
    (List.range n).Perm ((List.range n).map (· ^^^ c)) := by
  subst hn
  have hback : ∀ i < 2 ^ k, (i ^^^ c) ^^^ c = i := by
    intro i _
    exact Nat.xor_xor_cancel_right i c
  have hlt : ∀ i < 2 ^ k, i ^^^ c < 2 ^ k := by
    intro i hi
    exact Nat.xor_lt_two_pow hi hc
  exact (perm_range_of_inverse hlt hlt hback hback).symm

theorem perm_reversed (n : ℕ) : ((List.range n).map (· + 1)).Perm ((List.range n).map (n - ·)) := by
  have hlt : ∀ i < n, n - 1 - i < n := by
    intro i hi
    omega
  have hback : ∀ i < n, n - 1 - (n - 1 - i) = i := by
    intro i hi
    omega
  have hmap := ((perm_range_of_inverse hlt hlt hback hback).map (· + 1)).symm
  rw [List.map_map] at hmap
  refine hmap.trans (List.Perm.of_eq (List.map_congr_left fun i hi => ?_))
  have hi := List.mem_range.mp hi
  change n - 1 - i + 1 = n - i
  omega

/-- The places of one remainder come before those of the next. -/
theorem perm_mod (m : ℕ) : ((List.range (8 * m)).map (· / m)).Perm ((List.range (8 * m)).map (· % 8)) := by
  rcases Nat.eq_zero_or_pos m with rfl | hm
  · exact List.Perm.refl _
  have hplace : ∀ r < 8, ∀ q < m, r * m + q < 8 * m := by
    intro r hr q hq
    have hrow : r * m ≤ 7 * m := Nat.mul_le_mul_right m (by omega)
    omega
  have hdiv : ∀ r, ∀ q < m, (r * m + q) / m = r := by
    intro r q hq
    rw [Nat.mul_comm, Nat.mul_add_div hm, Nat.div_eq_of_lt hq, Nat.add_zero]
  have hmod : ∀ r, ∀ q < m, (r * m + q) % m = q := by
    intro r q hq
    rw [Nat.mul_comm, Nat.mul_add_mod, Nat.mod_eq_of_lt hq]
  have hsplit : ∀ q r, r < 8 → (q * 8 + r) % 8 = r ∧ (q * 8 + r) / 8 = q := by
    intro q r hr
    constructor <;> omega
  have hperm : ((List.range (8 * m)).map fun i => i % 8 * m + i / 8).Perm (List.range (8 * m)) := by
    refine perm_range_of_inverse (h := fun i => i % m * 8 + i / m) ?_ ?_ ?_ ?_ <;> intro i hi
    · exact hplace _ (Nat.mod_lt i (by decide)) _ (Nat.div_lt_of_lt_mul hi)
    · have hcolumn := Nat.mod_lt i hm
      have hrow := (Nat.div_lt_iff_lt_mul hm).mpr hi
      change i % m * 8 + i / m < 8 * m
      generalize i % m = q, i / m = r at hcolumn hrow ⊢
      omega
    · obtain ⟨hr, hq⟩ := hsplit (i % m) (i / m) ((Nat.div_lt_iff_lt_mul hm).mpr hi)
      rw [hr, hq, Nat.div_add_mod']
    · have hq := Nat.div_lt_of_lt_mul hi
      change (i % 8 * m + i / 8) % m * 8 + (i % 8 * m + i / 8) / m = i
      rw [hdiv _ _ hq, hmod _ _ hq, Nat.div_add_mod']
  have hmap := (hperm.map (· / m)).symm
  rw [List.map_map] at hmap
  refine hmap.trans (List.Perm.of_eq (List.map_congr_left fun i hi => ?_))
  exact hdiv _ _ (Nat.div_lt_of_lt_mul (List.mem_range.mp hi))

/-! ## What a row measures -/

section Measured
variable [LinearOrder α] (S : Sorting α) (times : Times α) {reset : List α → List α}
variable {size length : ℕ} {input : List α}

/-- The part of the array behind the first places is never written. -/
theorem turn_eq (h : Resets reset size input length) (i : ℕ) {data : List α} (hdata : data.length = length) :
    turn S times reset size i data = (S.sort input ++ data.drop size, input,
      [.advance (times.reset i), .resume, .advance (times.sort i input), .pause]) := by
  have hgiven : (input ++ data.drop size).take size = input := by rw [← h.length_input, List.take_left]
  have hrest : (input ++ data.drop size).drop size = data.drop size := by
    rw [← h.length_input, List.drop_left]
  rw [turn, h.reset_eq data hdata, hgiven, hrest]

theorem turn_steady (h : Resets reset size input length) (rest : List α) :
    Steady (turn S times reset size) (fun data => data.length = length ∧ data.drop size = rest) fun i =>
      (input, [.advance (times.reset i), .resume, .advance (times.sort i input), .pause]) := by
  refine steady_of_turn fun i data hdata => ?_
  obtain ⟨hlength, hrest⟩ := hdata
  have hsort : (S.sort input).length = size := (S.perm input).length_eq.trans h.length_input
  have hroom := h.room
  rw [turn_eq S times h i hlength]
  refine ⟨⟨?_, ?_⟩, rfl⟩
  · rw [List.length_append, List.length_drop, hsort, hlength]
    omega
  · rw [← hsort, List.drop_left, hsort, hrest]

theorem given_eq (h : Resets reset size input length) {data : List α} (hdata : data.length = length) (n : ℕ) :
    (turns (turn S times reset size) n data).2.map Prod.fst = List.replicate n input := by
  obtain ⟨-, hkept⟩ := turn_steady S times h _ n data ⟨hdata, rfl⟩
  rw [hkept, List.map_map]
  exact List.eq_replicate_iff.mpr ⟨by simp, by simp⟩

theorem left_eq (h : Resets reset size input length) {data : List α} (hdata : data.length = length) (n : ℕ) :
    (turns (turn S times reset size) (n + 1) data).1 = S.sort input ++ data.drop size := by
  obtain ⟨⟨hlength, hrest⟩, -⟩ := turn_steady S times h _ n data ⟨hdata, rfl⟩
  rw [turns, turn_eq S times h n hlength, hrest]

/-- The clock is off when a turn begins and off when it ends. -/
theorem takes_turn (reset sort : ℕ) :
    Takes false (history [.advance reset, .resume, .advance sort, .pause]) (sort : ℤ) false := by
  have hbefore := (Takes.advance_off (reset : ℤ)).append (Takes.start false)
  have hafter := (Takes.advance_on (sort : ℤ)).append (Takes.stop true)
  have hturn := hbefore.append hafter
  rwa [zero_add, zero_add, add_zero] at hturn

theorem takes_loop (h : Resets reset size input length) {data : List α} (hdata : data.length = length) (n : ℕ) :
    Takes false (history (loop S times reset size data n))
      ((List.range n).map fun i => (times.sort i input : ℤ)).sum false := by
  obtain ⟨-, hkept⟩ := turn_steady S times h _ n data ⟨hdata, rfl⟩
  have hturns := Takes.loop (fun i => takes_turn (times.reset i) (times.sort i input)) n
  rw [loop, hkept, List.map_map, history, List.filterMap_flatten, List.map_map]
  exact hturns

end Measured

/-- What a run of either side sorts, what it leaves and what it reports, however many turns it makes
and however long each part of them takes. -/
structure Row.Measures [LinearOrder α] (row : Row α) (input result : List α) : Prop where
  sorts : ∀ (S : Sorting α) (times : Times α) (data : List α), row.size ≤ data.length → ∀ n,
    (turns (turn S times row.reset row.size) n data).2.map Prod.fst = List.replicate n input ∧
    (turns (turn S times row.reset row.size) (n + 1) data).1 = result ++ data.drop row.size
  goSorts : ∀ (S : Sorting α) (times : Times α) (data : List α), data.length = row.size → ∀ n,
    (turns (turn S times row.goReset row.size) n data).2.map Prod.fst = List.replicate n input ∧
    (turns (turn S times row.goReset row.size) (n + 1) data).1 = result
  ns : ∀ (S : Sorting α) (times : Times α) (data : List α), row.size ≤ data.length →
    ∀ (name : Text) (n clock : ℤ) (before after : ℕ),
      (runMeasured ⟨name, row.body S times data⟩ n clock before after).1.ns =
        times.setup + ((List.range n.toNat).map fun i => (times.sort i input : ℤ)).sum + times.keep
  goNs : ∀ (S : Sorting α) (times : Times α) (data : List α), data.length = row.size → ∀ n : ℤ,
    timedOf (row.goBody S times data n) = ((List.range n.toNat).map fun i => (times.sort i input : ℤ)).sum

theorem Row.measures [LinearOrder α] {row : Row α} {input result : List α}
    (hreset : ∀ length, row.size ≤ length → Resets row.reset row.size input length)
    (hgoReset : Resets row.goReset row.size input row.size) (hsorted : result.SortedLE)
    (hperm : result.Perm input) : row.Measures input result where
  sorts := by
    intro S times data hdata n
    have h := hreset _ hdata
    rw [left_eq S times h rfl, S.sort_eq hsorted hperm]
    exact ⟨given_eq S times h rfl n, rfl⟩
  goSorts := by
    intro S times data hdata n
    rw [left_eq S times hgoReset hdata, S.sort_eq hsorted hperm, List.drop_of_length_le hdata.le, List.append_nil]
    exact ⟨given_eq S times hgoReset hdata n, rfl⟩
  ns := by
    intro S times data hdata name n clock before after
    have hsetup := (Takes.advance_on (times.setup : ℤ)).append (Takes.stop true)
    have hloop := takes_loop S times (hreset _ hdata) rfl n.toNat
    have hkeep := (Takes.start false).append (Takes.advance_on (times.keep : ℤ))
    have hbody := ((hsetup.append hloop).append hkeep).timed_eq
    rw [add_zero, zero_add] at hbody
    rw [(runMeasured_spec _ _ _ _ _).2.1]
    change timed true (history (_ ++ loop _ _ _ _ _ _ ++ _)) = _
    rw [history_append, history_append]
    exact hbody
  goNs := by
    intro S times data hdata n
    have hsetup := (Takes.stop true).append (Takes.advance_off (times.setup : ℤ))
    have hloop := takes_loop S times hgoReset hdata n.toNat
    have hbody := (hsetup.append hloop).timed_eq
    rw [zero_add, zero_add] at hbody
    rw [timedOf, goBody, history_append, hdata]
    exact hbody

theorem copy_row [LinearOrder α] {size : ℕ} {src goSrc input result : List α} (hsrc : src = input)
    (hgoSrc : goSrc = input) (hlen : input.length = size) (hsorted : result.SortedLE)
    (hperm : result.Perm input) : (Row.mk size (memcpy src) (goCopy goSrc)).Measures input result := by
  subst hsrc hgoSrc hlen
  exact Row.measures (fun length hlength => resets_memcpy _ hlength) (resets_goCopy _) hsorted hperm

theorem int_row {n : ℕ} {f : Fill} {g : ℕ → ℕ → ℕ} {result : List ℕ} (hg : ∀ i, f.value n i = g i n)
    (hsorted : result.SortedLE) (hperm : result.Perm ((List.range n).map fun i => g i n)) :
    (runInts n f g).Measures ((List.range n).map fun i => g i n) result := by
  refine Row.measures ?_ (resets_goFill g n) hsorted hperm
  intro length hlength
  change Resets (assign (f.value n) n) n _ length
  rw [funext hg]
  exact resets_assign _ hlength

theorem sorted_row (n : ℕ) : (runInts n .sorted fun i _ => i).Measures (List.range n) (List.range n) := by
  have hid : ((List.range n).map fun i => i) = List.range n := List.map_id _
  have hrow := int_row (n := n) (f := .sorted) (g := fun i _ => i) (fun i => rfl)
    List.pairwise_le_range.sortedLE (.of_eq hid.symm)
  rwa [hid] at hrow

/-- The decimal forms of the numbers below n, in the order of strings. -/
def stringsInOrder (n : ℕ) : List Text := ((List.range n).map (Nat.toDigits 10)).insertionSort (· ≤ ·)

theorem perm_strings {n c : ℕ} (k : ℕ) (hn : n = 2 ^ k) (hc : c < n) :
    (stringsInOrder n).Perm ((List.range n).map fun i => Nat.toDigits 10 (i ^^^ c)) := by
  have hperm := (perm_xor k hn hc).map (Nat.toDigits 10)
  rw [List.map_map] at hperm
  exact (List.perm_insertionSort _ _).trans hperm

theorem string_row : (Row.mk n1k (memcpy unsortedStrs) (goCopy goStrings1k)).Measures goStrings1k
    (stringsInOrder n1k) :=
  copy_row unsortedStrs_eq rfl (length_map_range _ n1k) List.sortedLE_insertionSort
    (perm_strings 10 rfl (by decide))

theorem stable_int_row : (Row.mk n1k (memcpy unsortedInts) (goCopy goUnsorted)).Measures
    ((List.range n1k).map (· ^^^ 0x2cc)) (List.range n1k) :=
  copy_row unsortedInts_eq (assign_replicate (· ^^^ 0x2cc) n1k) (length_map_range _ n1k)
    List.pairwise_le_range.sortedLE (perm_xor 10 rfl (by decide))

/-- Every sort of a row, on either side, is given the same input, the one the row is named after;
only the sorts are timed, and on the C side what comes before the first pause and after the loop.
The array is left in order: the numbers below n, the numbers from one to n, or eight runs of equal
remainders. -/
theorem sort_rows :
    sortString1k.Measures goStrings1k (stringsInOrder n1k) ∧
    sortString1kSlice.Measures goStrings1k (stringsInOrder n1k) ∧
    sortStableString1k.Measures goStrings1k (stringsInOrder n1k) ∧
    sortInt1k.Measures ((List.range n1k).map (· ^^^ 0x2cc)) (List.range n1k) ∧
    sortInt1kSorted.Measures (List.range n1k) (List.range n1k) ∧
    sortInt1kReversed.Measures ((List.range n1k).map (n1k - ·)) ((List.range n1k).map (· + 1)) ∧
    sortInt1kMod8.Measures ((List.range n1k).map (· % 8)) ((List.range n1k).map (· / (n1k / 8))) ∧
    sortStableInt1k.Measures ((List.range n1k).map (· ^^^ 0x2cc)) (List.range n1k) ∧
    sortStableInt1kSlice.Measures ((List.range n1k).map (· ^^^ 0x2cc)) (List.range n1k) ∧
    sortInt64k.Measures ((List.range n64k).map (· ^^^ 0xcccc)) (List.range n64k) ∧
    sortInt64kSlice.Measures ((List.range n64k).map (· ^^^ 0xcccc)) (List.range n64k) := by
  have hrange : ∀ n, (List.range n).SortedLE := fun n => List.pairwise_le_range.sortedLE
  have h64k : (List.range n64k).Perm ((List.range n64k).map (· ^^^ 0xcccc)) := perm_xor 16 rfl (by decide)
  refine ⟨string_row, string_row, string_row, ?_, sorted_row n1k, ?_, ?_, stable_int_row,
    stable_int_row, ?_, ?_⟩
  · exact int_row (fun i => rfl) (hrange n1k) (perm_xor 10 rfl (by decide))
  · exact int_row (fun i => rfl) (sortedLE_map (fun a b h => Nat.add_le_add_right h 1) n1k)
      (perm_reversed n1k)
  · exact int_row (fun i => rfl) (sortedLE_map (fun a b h => Nat.div_le_div_right h) n1k)
      (perm_mod (n1k / 8))
  · exact int_row (fun i => rfl) (hrange n64k) h64k
  · exact int_row (fun i => rfl) (hrange n64k) h64k

/-- A tick for each value a sort is given, after forty of setup. -/
def ticks : Times ℕ where
  setup := 40
  reset _ := 9
  sort i data := i + data.length
  keep := 2

/-- Three turns of one row over an array of zeros: the resets are not in what it reports. -/
theorem sort_rows_mod8 :
    (runMeasured ⟨"sort_int1k_mod8".toList, sortInt1kMod8.body mergeSorting ticks (List.replicate n1k 0)⟩
      3 0 0 0).1.ns = 40 + (1024 + 1025 + 1026) + 2 := by
  obtain ⟨_, _, _, _, _, _, hmod8, _⟩ := sort_rows
  have hns := hmod8.ns mergeSorting ticks (List.replicate n1k 0) List.length_replicate.ge
    "sort_int1k_mod8".toList 3 0 0 0
  have hlength : ∀ f : ℕ → ℕ, ((List.range n1k).map f).length = 1024 := fun f => length_map_range f n1k
  simpa [ticks, hlength, List.range_succ] using hns

end BurrowBench.Workloads.SortRows
