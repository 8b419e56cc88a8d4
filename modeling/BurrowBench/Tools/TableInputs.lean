import BurrowBench.Harness.Report
import BurrowBench.Tools.GoSide
import BurrowBench.Tools.Pairs

/-! # What the table reads

The harness's report by its columns, and of go test's output the ns/op values under the
name a benchmark line starts with. A report of distinct benchmarks is read back as the
columns it was printed from.
-/
namespace BurrowBench.Tools
open DecimalText FieldSplitting Harness

/-! ## Strings as numbers -/

/-- The value awk gives a string in arithmetic: that of the number it starts with. -/
def toNumber (t : Text) : ℚ := ((scanNumber (t.dropWhile isBlank)).map Prod.fst).getD 0

/-- Input that is a number and nothing else compares as one. -/
def looksNumeric (t : Text) : Bool :=
  ((scanNumber (t.dropWhile isBlank)).map fun m => m.2.all isBlank).getD false

/-- `t >= 0` on a string from the input: by value, or as strings if it is no number. -/
def atLeastZero (t : Text) : Bool :=
  if looksNumeric t then 0 ≤ toNumber t else !t.lex ['0'] fun a b => a.toNat < b.toNat

theorem dropWhile_formatFixed (k : ℕ) (q : ℚ) :
    (formatFixed k q).dropWhile isBlank = formatFixed k q := by
  cases h : formatFixed k q with
  | nil => rfl
  | cons c cs =>
    apply List.dropWhile_cons_of_neg
    intro hblank
    have hc : IsNumeral c := mem_formatFixed (h ▸ List.mem_cons_self)
    simp only [isBlank, Bool.or_eq_true, beq_iff_eq] at hblank
    rcases hblank with rfl | rfl <;> rcases hc with hc | hc | hc <;> exact absurd hc (by decide)

theorem toNumber_formatFixed {k : ℕ} (hk : k ≠ 0) (q : ℚ) :
    toNumber (formatFixed k q) = fixedValue k q := by
  rw [toNumber, dropWhile_formatFixed, scanNumber_formatFixed hk]
  rfl

theorem atLeastZero_formatFixed {k : ℕ} (hk : k ≠ 0) {q : ℚ} (hq : 0 ≤ q) :
    atLeastZero (formatFixed k q) := by
  have hnumeric : looksNumeric (formatFixed k q) := by
    rw [looksNumeric, dropWhile_formatFixed, scanNumber_formatFixed hk]
    rfl
  rw [atLeastZero, if_pos hnumeric, toNumber_formatFixed hk, decide_eq_true_eq]
  exact fixedValue_nonneg hq

/-! ## The C side -/

inductive Stat where
  | median
  | min
  deriving DecidableEq

/-- The arrays cns and cspread, with the indices of cns. -/
structure CSide where
  keys : List Text
  cns : Text → Text
  cspread : Text → Text

namespace CSide

def empty : CSide where
  keys := []
  cns _ := []
  cspread _ := []

def store (s : CSide) (key ns spread : Text) : CSide where
  keys := if s.keys.contains key then s.keys else s.keys ++ [key]
  cns := Function.update s.cns key ns
  cspread := Function.update s.cspread key spread

/-- The body of the loop over the report. Columns count from one in awk. -/
def readLine (stat : Stat) (s : CSide) (line : Text) : CSide :=
  let f := line.splitOn '\t'
  let n := f.length
  if n < 3 ∨ f.getD 0 [] = "name".toList then s
  else s.store (f.getD 0 []) (if stat = .min ∧ n ≥ 7 then f.getD 6 [] else f.getD 2 [])
    (if n ≥ 9 then f.getD 8 [] else "-1".toList)

def read (stat : Stat) (text : Text) : CSide := (awkRecords text).foldl (readLine stat) empty

end CSide

def Stat.column (stat : Stat) (cols : List Text) : Text :=
  match stat with
  | .median => cols.getD 2 []
  | .min => cols.getD 6 []

structure CSide.Holds (s : CSide) (stat : Stat) (qsort : Qsort compareDouble) (results : List Result) :
    Prop where
  keys : s.keys = results.map Result.name
  cns : ∀ r ∈ results, s.cns r.name = stat.column (columns qsort r)
  cspread : ∀ r ∈ results, s.cspread r.name = (columns qsort r).getD 8 []

namespace CSide
variable {stat : Stat} {qsort : Qsort compareDouble}

theorem readLine_header (s : CSide) : readLine stat s (tsvLine header) = s := by
  have hsplit : (tsvLine header).splitOn '\t' = header := by decide +kernel
  simp only [readLine, hsplit]
  exact if_pos (Or.inr rfl)

theorem readLine_tsvLine {r : Result} (hname : Identifier r.name) (hheader : r.name ≠ "name".toList)
    (s : CSide) : readLine stat s (tsvLine (columns qsort r)) =
      s.store r.name (stat.column (columns qsort r)) ((columns qsort r).getD 8 []) := by
  have hsplit := splitOn_tsvLine (columns_plain hname qsort) (by simp [columns])
  have hlen : (columns qsort r).length = 9 := rfl
  have hfirst : (columns qsort r).getD 0 [] = r.name := rfl
  simp only [readLine, hsplit, hlen, hfirst]
  rw [if_neg fun h => h.elim (by omega) hheader]
  cases stat <;> rfl

theorem Holds.store {s : CSide} {results : List Result} (h : s.Holds stat qsort results) {r : Result}
    (hr : r.name ∉ results.map Result.name) :
    (s.store r.name (stat.column (columns qsort r)) ((columns qsort r).getD 8 [])).Holds stat qsort
      (results ++ [r]) := by
  have hne : ∀ r' ∈ results, r'.name ≠ r.name := fun r' hr' heq => hr (heq ▸ List.mem_map_of_mem hr')
  constructor
  · simp [CSide.store, h.keys, hr]
  · intro r' hr'
    rcases List.mem_append.mp hr' with hr' | hr'
    · simp [CSide.store, hne r' hr', h.cns r' hr']
    · simp [CSide.store, List.mem_singleton.mp hr']
  · intro r' hr'
    rcases List.mem_append.mp hr' with hr' | hr'
    · simp [CSide.store, hne r' hr', h.cspread r' hr']
    · simp [CSide.store, List.mem_singleton.mp hr']

theorem foldl_readLine {results : List Result} (hnodup : (results.map Result.name).Nodup)
    (hnames : ∀ r ∈ results, Identifier r.name ∧ r.name ≠ "name".toList) :
    (((results.map (columns qsort)).map tsvLine).foldl (readLine stat) empty).Holds stat qsort results := by
  induction results using List.reverseRecOn with
  | nil => exact ⟨rfl, by simp, by simp⟩
  | append_singleton results r ih =>
    rw [List.map_append, List.nodup_append] at hnodup
    obtain ⟨hname, hheader⟩ := hnames r (by simp)
    have hfresh : r.name ∉ results.map Result.name :=
      fun hmem => hnodup.2.2 _ hmem r.name (by simp) rfl
    have hbefore := ih hnodup.1 fun r' hr' => hnames r' (List.mem_append_left _ hr')
    simp only [List.map_append, List.foldl_append, List.map_cons, List.map_nil, List.foldl_cons,
      List.foldl_nil]
    rw [readLine_tsvLine hname hheader]
    exact hbefore.store hfresh

/-- The report is read back as it was printed. -/
theorem read_printTsv {results : List Result} (hnodup : (results.map Result.name).Nodup)
    (hnames : ∀ r ∈ results, Identifier r.name ∧ r.name ≠ "name".toList) :
    (read stat (printTsv qsort results)).Holds stat qsort results := by
  have hrecords : awkRecords (printTsv qsort results) =
      tsvLine header :: (results.map (columns qsort)).map tsvLine := by
    apply records_lines
    intro l hl
    obtain ⟨cols, hcols, rfl⟩ := List.mem_map.mp hl
    apply newline_notMem_tsvLine
    rcases List.mem_cons.mp hcols with rfl | hcols
    · decide +kernel
    · obtain ⟨r, hr, rfl⟩ := List.mem_map.mp hcols
      exact columns_plain (hnames r hr).1 qsort
  rw [read, hrecords, List.foldl_cons, readLine_header]
  exact foldl_readLine hnodup hnames

end CSide

/-! ## The Go side -/

/-- `sub` takes off a final dash with at least one digit after it. -/
def stripSuffix (name : Text) : Text :=
  let base := name.rdropWhile Char.isDigit
  if base.length < name.length ∧ base.getLast? = some '-' then base.dropLast else name

def stripPrefix (name : Text) : Text :=
  if "Benchmark".toList <+: name then name.drop "Benchmark".toList.length else name

def goName (line : Text) : Text := stripPrefix (stripSuffix ((pieces isBlank line).headD []))

/-- The value before each `ns/op`; there is nothing before the first field. -/
def nsPerOp (f : List Text) : List ℚ :=
  (([] :: f).zip f).filterMap fun p => if p.2 = "ns/op".toList then some (toNumber p.1) else none

def IsBenchmark (line : Text) : Prop :=
  3 ≤ (pieces isBlank line).length ∧ "Benchmark".toList <+: (pieces isBlank line).headD []

instance (line : Text) : Decidable (IsBenchmark line) := inferInstanceAs (Decidable (_ ∧ _))

def goLine (line : Text) : List (Text × ℚ) :=
  if ¬ IsBenchmark line then []
  else (nsPerOp (pieces isBlank line)).map fun v => (goName line, v)

def goReadings (text : Text) : List (Text × ℚ) := (awkRecords text).flatMap goLine

def GoSide.read (text : Text) : GoSide := collected (goReadings text)

/-- The ns/op values of the lines of a benchmark. -/
def readingsOf (name text : Text) : List ℚ :=
  ((awkRecords text).filter fun line => IsBenchmark line ∧ goName line = name).flatMap
    fun line => nsPerOp (pieces isBlank line)

theorem valuesOf_goLine (name line : Text) : GoSide.valuesOf name (goLine line) =
    if IsBenchmark line ∧ goName line = name then nsPerOp (pieces isBlank line) else [] := by
  unfold goLine GoSide.valuesOf
  by_cases hbench : IsBenchmark line
  · by_cases hname : goName line = name <;> simp [hbench, hname, List.filter_map, Function.comp_def]
  · simp [hbench]

theorem valuesOf_goReadings (name text : Text) :
    GoSide.valuesOf name (goReadings text) = readingsOf name text := by
  unfold goReadings readingsOf
  induction awkRecords text with
  | nil => rfl
  | cons line rest ih =>
    have happend : GoSide.valuesOf name (goLine line ++ rest.flatMap goLine) =
        GoSide.valuesOf name (goLine line) ++ GoSide.valuesOf name (rest.flatMap goLine) := by
      simp [GoSide.valuesOf]
    rw [List.flatMap_cons, happend, ih, valuesOf_goLine, List.filter_cons]
    by_cases h : IsBenchmark line ∧ goName line = name <;> simp [h]

theorem GoSide.read_holds (name text : Text) : (GoSide.read text).Holds name (readingsOf name text) :=
  valuesOf_goReadings name text ▸ GoSide.collected_holds (goReadings text) name

end BurrowBench.Tools
