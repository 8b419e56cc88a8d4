import BurrowBench.Foundation.Tiling
import BurrowBench.Foundation.WhileLoop

/-! # The inputs of the flate and lzw rows

A test file repeated or cut to a size. The C side lays it over a buffer and hands its writers
slices of that buffer or prefixes of the file; the Go side shortens the file itself for the
last copy. The bytes of the files, what malloc gives and how long a program may run are
parameters.
-/
namespace BurrowBench.Workloads
open Tiling WhileLoop

abbrev Byte := UInt8

/-- How a program stops short of its result: fprintf and exit(1), an access outside what it
owns, or the end of the fuel. -/
inductive Stop where
  | exit (message : String)
  | fault
  | pending
  deriving DecidableEq, Repr

/-- An open file: what ftell says at its end and the bytes fread gets from it. -/
structure Stream where
  ftell : ℕ
  bytes : List Byte

/-- malloc, with whatever is in the memory it gives; none is NULL. -/
structure Heap where
  malloc : ℕ → Option (List Byte)
  length_eq : ∀ {size buffer}, malloc size = some buffer → buffer.length = size

structure Host where
  fopen : String → Option Stream
  heap : Heap

def readFile (program : String) (host : Host) (path : String) : Except Stop (List Byte) :=
  match host.fopen path with
  | none => .error (.exit (program ++ ": cannot open " ++ path ++ "; run from the root of burrow-bench\n"))
  | some f =>
    let n := f.ftell
    let fread := f.bytes.take n
    if host.heap.malloc n = none ∨ fread.length ≠ n then
      .error (.exit (program ++ ": cannot read " ++ path ++ "\n"))
    else .ok fread

/-- A NULL is a block of no bytes: whatever is read or written through it is outside. -/
def block (p : Option (List Byte)) : List Byte := p.getD []

/-- memcpy(out + i, src, k) -/
def memcpy (out : List Byte) (i : ℕ) (src : List Byte) (k : ℕ) : Except Stop (List Byte) :=
  if i + k ≤ out.length ∧ k ≤ src.length then .ok (place out i (src.take k)) else .error .fault

def sliceFrom (p : List Byte) (i k : ℕ) : Except Stop (List Byte) :=
  if i + k ≤ p.length then .ok ((p.drop i).take k) else .error .fault

section
variable {δ : Type*}

/-- `Int k = n - i < len ? n - i : len; use(i, k); i += len` -/
def copyTurn (use : ℕ → ℕ → δ → Except Stop δ) (n len : ℕ) (s : ℕ × δ) : Except Stop (ℕ × δ) := do
  let k := if n - s.1 < len then n - s.1 else len
  let data ← use s.1 k s.2
  return (s.1 + len, data)

/-- `for (Int i = 0; i < n; i += len)` -/
def copyLoop (use : ℕ → ℕ → δ → Except Stop δ) (n len fuel : ℕ) (data : δ) : Except Stop (ℕ × δ) :=
  loop .pending (fun s => decide (s.1 < n)) (copyTurn use n len) fuel (0, data)

structure GoLoop (δ : Type*) where
  i : ℕ
  buf : List Byte
  data : δ

/-- `if len(buf) > n-i { buf = buf[:n-i] }; use(i, buf); i += len(buf)`: the step is taken
from the buffer as the body left it. -/
def goTurn (use : ℕ → List Byte → δ → Except Stop δ) (n : ℕ) (s : GoLoop δ) :
    Except Stop (GoLoop δ) := do
  let buf := if s.buf.length > n - s.i then s.buf.take (n - s.i) else s.buf
  let data ← use s.i buf s.data
  return ⟨s.i + buf.length, buf, data⟩

/-- `for i := 0; i < n; i += len(buf)` -/
def goLoop (use : ℕ → List Byte → δ → Except Stop δ) (buf : List Byte) (n fuel : ℕ) (data : δ) :
    Except Stop (GoLoop δ) :=
  loop .pending (fun s => decide (s.i < n)) (goTurn use n) fuel ⟨0, buf, data⟩

end

def sizedInput (readFile : Except Stop (List Byte)) (heap : Heap) (n fuel : ℕ) :
    Except Stop (List Byte) := do
  let src ← readFile
  let out := block (heap.malloc n)
  let s ← copyLoop (fun i k out => memcpy out i src k) n src.length fuel out
  return s.2

def writeSlices (p : List Byte) (start : ℕ → ℕ) (n len fuel : ℕ) : Except Stop (List (List Byte)) := do
  let s ← copyLoop (fun i k writes => do
    let s ← sliceFrom p (start i) k
    return writes ++ [s]) n len fuel []
  return s.2

/-! ## flate_bench.c -/

namespace FlateBench

def readFile : Host → String → Except Stop (List Byte) := Workloads.readFile "flate_bench"

def sizedInput (host : Host) (path : String) (n fuel : ℕ) : Except Stop (List Byte) :=
  Workloads.sizedInput (readFile host path) host.heap n fuel

/-- `flate_writer_write(w, slice_from(in + i, k, k, TYPE_BYTE), &err)` -/
def decodeLoop (file input : List Byte) (n fuel : ℕ) : Except Stop (List (List Byte)) :=
  writeSlices input (fun i => i) n file.length fuel

def decode (host : Host) (path : String) (n fuel : ℕ) : Except Stop (List (List Byte)) := do
  let file ← readFile host path
  let input ← sizedInput host path n fuel
  decodeLoop file input n fuel

end FlateBench

/-! ## lzw_bench.c -/

namespace LzwBench

def digits : String := "testdata/e.txt"

def readFile : Host → String → Except Stop (List Byte) := Workloads.readFile "lzw_bench"

def sizedInput (host : Host) (n fuel : ℕ) : Except Stop (List Byte) :=
  Workloads.sizedInput (readFile host digits) host.heap n fuel

/-- `lzw_writer_write(w, slice_from(src, k, k, TYPE_BYTE), &err)` -/
def compressedLoop (src : List Byte) (n fuel : ℕ) : Except Stop (List (List Byte)) :=
  writeSlices src (fun _ => 0) n src.length fuel

def compressedInput (host : Host) (n fuel : ℕ) : Except Stop (List (List Byte)) := do
  let src ← readFile host digits
  compressedLoop src n fuel

end LzwBench

/-! ## lzw_test.go and flate_test.go -/

/-- copy(buf1[i:], buf0), which stops at the shorter of the two -/
def goCopy (buf1 : List Byte) (i : ℕ) (buf0 : List Byte) : Except Stop (List Byte) :=
  if i ≤ buf1.length then .ok (place buf1 i (buf0.take (buf1.length - i))) else .error .fault

def goSized (buf0 : List Byte) (n fuel : ℕ) : Except Stop (List Byte) := do
  let s ← goLoop (fun i buf0 buf1 => goCopy buf1 i buf0) buf0 n fuel (List.replicate n 0)
  return s.data

def goWrites (write : List (List Byte) → List Byte → List (List Byte)) (buf : List Byte) (n fuel : ℕ) :
    Except Stop (List (List Byte)) := do
  let s ← goLoop (fun _ buf writes => .ok (write writes buf)) buf n fuel []
  return s.data

namespace LzwTest

def lzwInputBuf : List Byte → ℕ → ℕ → Except Stop (List (List Byte)) :=
  goWrites fun writes buf => writes ++ [buf]

def lzwSized : List Byte → ℕ → ℕ → Except Stop (List Byte) := goSized

end LzwTest

namespace FlateTest

def flateEncode : List Byte → ℕ → ℕ → Except Stop (List Byte) := goSized

/-- `io.Copy(w, bytes.NewReader(buf))`: one write of what the reader holds, and none of nothing. -/
def flateDecode : List Byte → ℕ → ℕ → Except Stop (List (List Byte)) :=
  goWrites fun writes buf => if buf = [] then writes else writes ++ [buf]

end FlateTest

/-! ## One turn after another -/

section
variable {δ : Type*} {n len fuel : ℕ}

theorem copyTurn_ok {use : ℕ → ℕ → δ → Except Stop δ} {i : ℕ} {data data' : δ}
    (huse : use i (min (n - i) len) data = .ok data') :
    copyTurn use n len (i, data) = .ok (i + len, data') := by
  have hk : (if n - i < len then n - i else len) = min (n - i) len := by
    split <;> omega
  simp only [copyTurn, hk, huse]
  rfl

/-- A use that takes f j to f (j + 1) at the start of copy j, with what is left of the copy. -/
theorem copyLoop_eq (use : ℕ → ℕ → δ → Except Stop δ) (f : ℕ → δ) (hlen : 0 < len)
    (huse : ∀ j, j * len < n → use (j * len) (min (n - j * len) len) (f j) = .ok (f (j + 1)))
    (hfuel : n < fuel) :
    copyLoop use n len fuel (f 0) = .ok (n ⌈/⌉ len * len, f (n ⌈/⌉ len)) := by
  have hturn : ∀ s : ℕ × δ, (∃ j ≤ n ⌈/⌉ len, s = (j * len, f j)) → decide (s.1 < n) = true →
      ∃ t, copyTurn use n len s = .ok t ∧
        (∃ j ≤ n ⌈/⌉ len, t = (j * len, f j)) ∧ n - t.1 < n - s.1 := by
    rintro s ⟨j, -, rfl⟩ hguard
    have hj : j * len < n := of_decide_eq_true hguard
    refine ⟨_, copyTurn_ok (huse j hj), ⟨j + 1, (lt_ceilDiv_iff hlen).mpr hj, ?_⟩, ?_⟩
    · rw [Nat.succ_mul]
    · simp only
      omega
  obtain ⟨t, hloop, ⟨j, hj, rfl⟩, hguard⟩ : ∃ t, copyLoop use n len fuel (f 0) = .ok t ∧
      (∃ j ≤ n ⌈/⌉ len, t = (j * len, f j)) ∧ decide (t.1 < n) = false :=
    loop_ok _ (fun s => n - s.1) hturn ⟨0, Nat.zero_le _, by simp⟩ (by simpa using hfuel)
  have hlast : j = n ⌈/⌉ len := by
    refine le_antisymm hj (not_lt.mp fun hless => ?_)
    exact of_decide_eq_false hguard ((lt_ceilDiv_iff hlen).mp hless)
  rw [← hlast]
  exact hloop

theorem goTurn_ok {use : ℕ → List Byte → δ → Except Stop δ} {i : ℕ} {buf : List Byte} {data data' : δ}
    (huse : use i (buf.take (n - i)) data = .ok data') :
    goTurn use n ⟨i, buf, data⟩ = .ok ⟨i + min (n - i) buf.length, buf.take (n - i), data'⟩ := by
  have hbuf : (if buf.length > n - i then buf.take (n - i) else buf) = buf.take (n - i) := by
    split
    · rfl
    · rw [List.take_of_length_le (by omega)]
  simp only [goTurn, hbuf, huse, ← List.length_take]
  rfl

theorem goLoop_eq (use : ℕ → List Byte → δ → Except Stop δ) (f : ℕ → δ) {file : List Byte}
    (hfile : file ≠ [])
    (huse : ∀ j, j * file.length < n → use (j * file.length) (tile file n j) (f j) = .ok (f (j + 1)))
    (hfuel : n < fuel) :
    ∃ buf, goLoop use file n fuel (f 0) = .ok ⟨n, buf, f (n ⌈/⌉ file.length)⟩ := by
  have hlen := List.length_pos_of_ne_nil hfile
  let I : GoLoop δ → Prop := fun s => ∃ j ≤ n ⌈/⌉ file.length,
    s.i = min (j * file.length) n ∧ s.data = f j ∧ (s.i < n → s.buf = file)
  have hturn : ∀ s, I s → decide (s.i < n) = true →
      ∃ t, goTurn use n s = .ok t ∧ I t ∧ n - t.i < n - s.i := by
    rintro ⟨i, buf, data⟩ ⟨j, -, hi, hdata, hwhole⟩ hguard
    have hin : i < n := of_decide_eq_true hguard
    have hbuf : buf = file := hwhole hin
    simp only at hi hdata
    have hj : i = j * file.length := by omega
    subst hj hdata hbuf
    have hnext : (j + 1) * buf.length = j * buf.length + buf.length := Nat.succ_mul _ _
    refine ⟨_, goTurn_ok (huse j hin), ⟨j + 1, (lt_ceilDiv_iff hlen).mpr hin, ?_, rfl, ?_⟩, ?_⟩
    · simp only
      omega
    · intro hmore
      simp only at hmore
      exact List.take_of_length_le (by omega)
    · simp only
      omega
  obtain ⟨⟨i, buf, data⟩, hloop, ⟨j, hj, hi, hdata, -⟩, hguard⟩ :
      ∃ t, goLoop use file n fuel (f 0) = .ok t ∧ I t ∧ decide (t.i < n) = false :=
    loop_ok I (fun s => n - s.i) hturn ⟨0, Nat.zero_le _, by simp, rfl, fun _ => rfl⟩
      (by simpa using hfuel)
  have hout : ¬ i < n := of_decide_eq_false hguard
  simp only at hi hdata
  have hlast : j = n ⌈/⌉ file.length := by
    refine le_antisymm hj (not_lt.mp fun hless => hout ?_)
    have := (lt_ceilDiv_iff hlen).mp hless
    omega
  have hend : i = n := by omega
  rw [hend, hdata, hlast] at hloop
  exact ⟨buf, hloop⟩

end

/-! ## Every builder lays the same copies -/

variable {file buffer : List Byte} {n j fuel : ℕ}

theorem take_tile (file : List Byte) (n j : ℕ) :
    file.take (min (n - j * file.length) file.length) = tile file n j :=
  List.take_eq_take_min.symm

theorem memcpy_tile (hbuffer : buffer.length = n) (hj : j * file.length < n) :
    memcpy (overlay file buffer n j) (j * file.length) file (min (n - j * file.length) file.length) =
      .ok (overlay file buffer n (j + 1)) := by
  have hlength := length_overlay file hbuffer j
  rw [memcpy, if_pos (by omega), take_tile, overlay_succ hj]

theorem sizedInput_eq {heap : Heap} (hfile : file ≠ []) (hbuffer : heap.malloc n = some buffer)
    (hfuel : n < fuel) :
    sizedInput (.ok file) heap n fuel = .ok (tiles file n).flatten := by
  have hlength := heap.length_eq hbuffer
  have hcopies := copyLoop_eq (fun i k out => memcpy out i file k) (overlay file buffer n)
    (List.length_pos_of_ne_nil hfile) (fun j hj => memcpy_tile hlength hj) hfuel
  rw [overlay_zero, overlay_all hfile hlength] at hcopies
  simp only [sizedInput, hbuffer, block, Option.getD_some]
  exact congrArg (· >>= fun s => .ok s.2) hcopies

theorem writeSlices_eq {p : List Byte} {start : ℕ → ℕ} (hfile : file ≠ [])
    (hslice : ∀ j, j * file.length < n →
      sliceFrom p (start (j * file.length)) (min (n - j * file.length) file.length) = .ok (tile file n j))
    (hfuel : n < fuel) : writeSlices p start n file.length fuel = .ok (tiles file n) := by
  have hwrites := copyLoop_eq (fun i k writes => do
      let s ← sliceFrom p (start i) k
      return writes ++ [s]) (firstTiles file n) (List.length_pos_of_ne_nil hfile)
    (fun j hj => by rw [hslice j hj, firstTiles_succ]; rfl) hfuel
  exact congrArg (· >>= fun s => .ok s.2) hwrites

theorem decodeLoop_eq {input : List Byte} (hfile : file ≠ []) (hinput : Tiled file n input)
    (hfuel : n < fuel) : FlateBench.decodeLoop file input n fuel = .ok (tiles file n) := by
  refine writeSlices_eq hfile (fun j hj => ?_) hfuel
  rw [sliceFrom, if_pos (by rw [hinput.1]; omega), hinput.slice]

theorem compressedLoop_eq (hfile : file ≠ []) (hfuel : n < fuel) :
    LzwBench.compressedLoop file n fuel = .ok (tiles file n) := by
  refine writeSlices_eq hfile (fun j _ => ?_) hfuel
  rw [sliceFrom, if_pos (by omega), List.drop_zero, take_tile]

theorem goSized_eq (hfile : file ≠ []) (hfuel : n < fuel) :
    goSized file n fuel = .ok (tiles file n).flatten := by
  have hlength : (List.replicate n (0 : Byte)).length = n := List.length_replicate
  have hcopy : ∀ j, j * file.length < n →
      goCopy (overlay file (List.replicate n 0) n j) (j * file.length) (tile file n j) =
        .ok (overlay file (List.replicate n 0) n (j + 1)) := by
    intro j hj
    have hroom := length_overlay file hlength j
    rw [goCopy, if_pos (by omega), List.take_of_length_le (by rw [length_tile]; omega), overlay_succ hj]
  obtain ⟨buf, hcopies⟩ :=
    goLoop_eq (fun i buf0 buf1 => goCopy buf1 i buf0) (overlay file _ n) hfile hcopy hfuel
  rw [overlay_zero, overlay_all hfile hlength] at hcopies
  exact congrArg (· >>= fun s => .ok s.data) hcopies

theorem goWrites_eq {write : List (List Byte) → List Byte → List (List Byte)}
    (hwrite : ∀ writes buf, buf ≠ [] → write writes buf = writes ++ [buf]) (hfile : file ≠ [])
    (hfuel : n < fuel) : goWrites write file n fuel = .ok (tiles file n) := by
  have huse : ∀ j, j * file.length < n →
      Except.ok (write (firstTiles file n j) (tile file n j)) =
        (.ok (firstTiles file n (j + 1)) : Except Stop _) := by
    intro j hj
    have hfull : tile file n j ≠ [] := by
      rw [← List.length_pos_iff_ne_nil, length_tile]
      have := List.length_pos_of_ne_nil hfile
      omega
    rw [hwrite _ _ hfull, firstTiles_succ]
  obtain ⟨buf, hwrites⟩ :=
    goLoop_eq (fun _ buf writes => .ok (write writes buf)) (firstTiles file n) hfile huse hfuel
  exact congrArg (· >>= fun s => .ok s.data) hwrites

/-- Any file that is not empty, opened by either program or read by the Go side, and any size. -/
theorem sizedInputs_agree (host : Host) (path : String) (file : List Byte) (n fuel : ℕ)
    (hfile : file ≠ []) (hbuffer : host.heap.malloc n ≠ none) (hfuel : n < fuel) :
    ∃ out writes, Tiled file n out ∧ writes.flatten = out ∧
      (FlateBench.readFile host path = .ok file →
        FlateBench.sizedInput host path n fuel = .ok out ∧
        FlateBench.decode host path n fuel = .ok writes) ∧
      (LzwBench.readFile host LzwBench.digits = .ok file →
        LzwBench.sizedInput host n fuel = .ok out ∧
        LzwBench.compressedInput host n fuel = .ok writes) ∧
      FlateTest.flateEncode file n fuel = .ok out ∧ FlateTest.flateDecode file n fuel = .ok writes ∧
      LzwTest.lzwSized file n fuel = .ok out ∧ LzwTest.lzwInputBuf file n fuel = .ok writes := by
  obtain ⟨buffer, hbuffer⟩ := Option.ne_none_iff_exists'.mp hbuffer
  have htiled := tiled_tiles hfile n
  refine ⟨_, tiles file n, htiled, rfl, fun hread => ?_, fun hread => ?_, goSized_eq hfile hfuel,
    goWrites_eq (fun _ _ hbuf => if_neg hbuf) hfile hfuel, goSized_eq hfile hfuel,
    goWrites_eq (fun _ _ _ => rfl) hfile hfuel⟩
  · have hsized : FlateBench.sizedInput host path n fuel = .ok (tiles file n).flatten := by
      rw [FlateBench.sizedInput, hread, sizedInput_eq hfile hbuffer hfuel]
    refine ⟨hsized, ?_⟩
    rw [FlateBench.decode, hread, hsized]
    exact decodeLoop_eq hfile htiled hfuel
  · constructor
    · rw [LzwBench.sizedInput, hread, sizedInput_eq hfile hbuffer hfuel]
    · rw [LzwBench.compressedInput, hread]
      exact compressedLoop_eq hfile hfuel

def hostWith (file : List Byte) : Host where
  fopen _ := some ⟨file.length, file⟩
  heap := ⟨fun size => some (List.replicate size 0), fun h => by
    rw [← Option.some.inj h, List.length_replicate]⟩

theorem sizedInputs_agree_three : ∃ out writes, Tiled [2, 7, 1] 7 out ∧ writes.flatten = out ∧
    FlateBench.decode (hostWith [2, 7, 1]) "testdata/e.txt" 7 8 = .ok writes ∧
    LzwBench.compressedInput (hostWith [2, 7, 1]) 7 8 = .ok writes := by
  obtain ⟨out, writes, htiled, hflatten, hflate, hlzw, -⟩ :=
    sizedInputs_agree (hostWith [2, 7, 1]) "testdata/e.txt" [2, 7, 1] 7 8 (by decide)
      (by simp [hostWith]) (by decide)
  exact ⟨out, writes, htiled, hflatten, (hflate rfl).2, (hlzw rfl).2⟩

/-! ## When the loops end -/

theorem copyTurn_stop {δ : Type*} {use : ℕ → ℕ → δ → Except Stop δ} {len : ℕ} {s : ℕ × δ}
    (huse : ∀ i k data, use i k data ≠ .error .pending) : copyTurn use n len s ≠ .error .pending := by
  intro h
  rcases bind_eq_error.mp h with hstop | ⟨data, -, hpure⟩
  · exact huse _ _ _ hstop
  · cases hpure

theorem copyTurn_fst {δ : Type*} {use : ℕ → ℕ → δ → Except Stop δ} {len : ℕ} {s t : ℕ × δ}
    (h : copyTurn use n len s = .ok t) : t.1 = s.1 + len := by
  obtain ⟨data, -, hpure⟩ := bind_eq_ok.mp h
  cases hpure
  rfl

theorem copyLoop_ends_iff {δ : Type*} (use : ℕ → ℕ → δ → Except Stop δ) {len : ℕ} (data : δ)
    (huse : ∀ i k data, use i k data ≠ .error .pending)
    (hnothing : ∀ data, ∃ data', use 0 0 data = .ok data') :
    Ends .pending (fun fuel => copyLoop use n len fuel data) ↔ 0 < len ∨ n = 0 := by
  constructor
  · intro hends
    by_contra hstuck
    obtain ⟨rfl, hn⟩ : len = 0 ∧ 0 < n := by omega
    refine not_ends (fun fuel => ?_) hends
    refine loop_outOfFuel (fun s => s.1 = 0) (fun s hs => ?_) fuel rfl
    obtain ⟨data', hdata⟩ := hnothing s.2
    refine ⟨by simp [hs, hn], (0, data'), ?_, rfl⟩
    obtain ⟨i, data⟩ := s
    obtain rfl : i = 0 := hs
    exact copyTurn_ok (by simpa using hdata)
  · intro h
    refine ⟨n + 1, loop_ends (fun s => n - s.1) (fun s => copyTurn_stop huse) (fun s t hguard ht => ?_)
      (by simp)⟩
    have hnext := copyTurn_fst ht
    have hs : s.1 < n := of_decide_eq_true hguard
    omega

theorem memcpy_stop (out : List Byte) (i : ℕ) (src : List Byte) (k : ℕ) :
    memcpy out i src k ≠ .error .pending := by
  unfold memcpy
  split <;> simp

theorem sliceFrom_stop (p : List Byte) (i k : ℕ) : sliceFrom p i k ≠ .error .pending := by
  unfold sliceFrom
  split <;> simp

theorem sizedInput_ends_iff (file : List Byte) (n : ℕ) (heap : Heap) :
    Ends .pending (sizedInput (.ok file) heap n) ↔ 0 < file.length ∨ n = 0 := by
  rw [← copyLoop_ends_iff (fun i k out => memcpy out i file k) (block (heap.malloc n))
    (fun i k out => memcpy_stop out i file k) fun out => ⟨_, if_pos ⟨Nat.zero_le _, Nat.zero_le _⟩⟩]
  exact ends_bind_ok_iff Prod.snd

theorem writeSlices_ends_iff (p : List Byte) (start : ℕ → ℕ) (hstart : start 0 = 0) :
    Ends .pending (writeSlices p start n file.length) ↔ 0 < file.length ∨ n = 0 := by
  rw [← copyLoop_ends_iff (fun i k writes => do
    let s ← sliceFrom p (start i) k
    return writes ++ [s]) [] ?_ ?_]
  · exact ends_bind_ok_iff Prod.snd
  · intro i k writes h
    rcases bind_eq_error.mp h with hstop | ⟨s, -, hpure⟩
    · exact sliceFrom_stop _ _ _ hstop
    · cases hpure
  · intro writes
    exact ⟨writes ++ [[]], by simp [hstart, sliceFrom]⟩

/-- Of a file that read_file hands over only its being empty matters: then every loop goes
round for ever, unless no bytes are wanted. -/
theorem copies_end_iff (host : Host) (path : String) (file input : List Byte) (n : ℕ) :
    (FlateBench.readFile host path = .ok file →
      (Ends .pending (FlateBench.sizedInput host path n) ↔ 0 < file.length ∨ n = 0)) ∧
    (Ends .pending (FlateBench.decodeLoop file input n) ↔ 0 < file.length ∨ n = 0) ∧
    (LzwBench.readFile host LzwBench.digits = .ok file →
      (Ends .pending (LzwBench.sizedInput host n) ↔ 0 < file.length ∨ n = 0)) ∧
    (LzwBench.readFile host LzwBench.digits = .ok file →
      (Ends .pending (LzwBench.compressedInput host n) ↔ 0 < file.length ∨ n = 0)) := by
  refine ⟨fun hread => ?_, writeSlices_ends_iff input _ rfl, fun hread => ?_, fun hread => ?_⟩
  · rw [← sizedInput_ends_iff file n host.heap, ← hread]
    rfl
  · rw [← sizedInput_ends_iff file n host.heap, ← hread]
    rfl
  · rw [← writeSlices_ends_iff file (fun _ => 0) rfl]
    simp only [Ends, LzwBench.compressedInput, hread]
    rfl

theorem empty_file_spins : ¬ ∀ (host : Host) (path : String) (file : List Byte) (n : ℕ),
    host.heap.malloc 0 ≠ none → FlateBench.readFile host path = .ok file →
      Ends .pending (FlateBench.sizedInput host path n) := by
  intro h
  have hread : FlateBench.readFile (hostWith []) "testdata/e.txt" = .ok [] := rfl
  have hends := h (hostWith []) "testdata/e.txt" [] 10000 (by simp [hostWith]) hread
  have hsized := sizedInput_ends_iff [] 10000 (hostWith []).heap
  rw [← hread] at hsized
  exact absurd (hsized.mp hends) (by simp)

end BurrowBench.Workloads
