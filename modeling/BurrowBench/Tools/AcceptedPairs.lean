import BurrowBench.Foundation.Occurrences
import BurrowBench.Tools.CheckPairs
import BurrowBench.Tools.RunSh

/-! # From the sources to the rows of the table

check-pairs.sh reads the names of the benchmarks out of the sources of both sides and looks the
fields of pairs.txt up among them, because a pair that names no benchmark makes a row vanish
from the table of run.sh without a word. -/
namespace BurrowBench.Tools
open CheckPairs FieldSplitting Harness Occurrences OrderStatistics
variable {δ : Type}

/-! ## The names in the sources -/

/-- `BENCH([a-z0-9_]*)` -/
def benchMacro : Bracket Char where
  first := 'B'
  more := "ENCH(".toList
  inside c := c.isLower || c.isDigit || c == '_'
  closing := ')'
  first_notMem := by decide
  first_outside := by decide
  first_ne := by decide
  closing_outside := by decide

def benchmarkFunc : Text := "func Benchmark".toList

/-- `^func Benchmark[A-Za-z0-9_]*` without its first part. -/
def goFunc? (line : Text) : Option Text :=
  if benchmarkFunc <+: line then some ((line.drop benchmarkFunc.length).takeWhile isWord) else none

/-- `sort`, in whatever order the locale has. -/
structure Collation where
  sort : List Text → List Text
  perm : ∀ lines, (sort lines).Perm lines

structure Sources where
  cFiles : List Text
  goFiles : List Text

/-- A line of a C file declares the name. -/
def Sources.DeclaresC (sources : Sources) (name : Text) : Prop :=
  ∃ file ∈ sources.cFiles, ∃ line ∈ awkRecords file, benchMacro.Occurs name line

def Sources.DeclaresGo (sources : Sources) (name : Text) : Prop :=
  ∃ file ∈ sources.goFiles, ∃ line ∈ awkRecords file, goFunc? line = some name

def grepC (sources : Sources) : List Text :=
  sources.cFiles.flatMap fun file => (awkRecords file).flatMap (benchMacro.scan 0)

def grepGo (sources : Sources) : List Text :=
  sources.goFiles.flatMap fun file => (awkRecords file).filterMap goFunc?

theorem mem_grepC_iff {sources : Sources} {name : Text} : name ∈ grepC sources ↔ sources.DeclaresC name := by
  simp only [grepC, Sources.DeclaresC, List.mem_flatMap]
  have hscan : ∀ line : Text, name ∈ benchMacro.scan 0 line ↔ benchMacro.Occurs name line :=
    fun line => Bracket.mem_scan_iff (by simp)
  simp only [hscan]

theorem mem_grepGo_iff {sources : Sources} {name : Text} :
    name ∈ grepGo sources ↔ sources.DeclaresGo name := by
  simp only [grepGo, Sources.DeclaresGo, List.mem_flatMap, List.mem_filterMap]

theorem benchMacro_wordlike {name line : Text} (h : benchMacro.Occurs name line) : Wordlike name := by
  intro c hc
  have hinside : c.isLower || c.isDigit || c == '_' := h.1 c hc
  change (c.isUpper || c.isLower || c.isDigit || c == '_') = true
  simp only [Bool.or_eq_true] at hinside ⊢
  tauto

theorem goFunc_wordlike {name line : Text} (h : goFunc? line = some name) : Wordlike name := by
  obtain ⟨-, hname⟩ := Option.ite_none_right_eq_some.mp h
  obtain rfl := Option.some.inj hname
  exact fun c hc => List.mem_takeWhile_imp hc

/-- `c_names` and `go_names` -/
def readNames (collation : Collation) (sources : Sources) : Names where
  cNames := collation.sort (grepC sources)
  goNames := collation.sort (grepGo sources)
  c_wordlike name hname := by
    obtain ⟨_, _, _, _, hoccurs⟩ := mem_grepC_iff.mp ((collation.perm _).mem_iff.mp hname)
    exact benchMacro_wordlike hoccurs
  go_wordlike name hname := by
    obtain ⟨_, _, _, _, hread⟩ := mem_grepGo_iff.mp ((collation.perm _).mem_iff.mp hname)
    exact goFunc_wordlike hread

theorem mem_cNames_iff {collation : Collation} {sources : Sources} {name : Text} :
    name ∈ (readNames collation sources).cNames ↔ sources.DeclaresC name :=
  ((collation.perm _).mem_iff).trans mem_grepC_iff

theorem mem_goNames_iff {collation : Collation} {sources : Sources} {name : Text} :
    name ∈ (readNames collation sources).goNames ↔ sources.DeclaresGo name :=
  ((collation.perm _).mem_iff).trans mem_grepGo_iff

/-! ## What the check lets through -/

/-- The lines of the file have the form its first comment describes, with plain words. -/
structure WellFormed (pairs : Text) : Prop where
  lines : ∀ line ∈ shellLines pairs, Blank line ∨ line.head? = some '#' ∨ PlainPair line
  terminated : remainder '\n' pairs = []
  words : ∀ p ∈ checkPairs pairs, Identifier p.1 ∧ Identifier p.2

theorem WellFormed.tablePairs_eq {pairs : Text} (h : WellFormed pairs) : tablePairs pairs = checkPairs pairs := by
  refine ((checkPairs_eq_tablePairs_iff pairs).mpr ⟨h.lines, ?_⟩).symm
  rw [h.terminated]
  exact Or.inr fields_nil

/-- A pair that the check lets through names a benchmark on both sides. -/
theorem WellFormed.declared {pairs : Text} (h : WellFormed pairs) {grep : Grep} {collation : Collation}
    {sources : Sources} (haccepted : (checkPairsSh grep (readNames collation sources) pairs).status = 0)
    {p : Text × Text} (hp : p ∈ checkPairs pairs) : sources.DeclaresC p.1 ∧ sources.DeclaresGo p.2 := by
  obtain ⟨raw, hraw, hpair⟩ := List.mem_filterMap.mp hp
  have hread : checkLine raw = .pair p.1 p.2 := by
    unfold LineCheck.pair? at hpair
    split at hpair
    · rw [← Option.some.inj hpair]
      assumption
    · cases hpair
  have hlet := (exit_eq_zero_iff grep _ h.terminated).mp haccepted raw
    (awkRecords_of_terminated h.terminated ▸ hraw)
  obtain ⟨hc, hg⟩ := (not_refused_iff hread).mp hlet
  obtain ⟨hcword, hgword⟩ := h.words p hp
  exact ⟨mem_cNames_iff.mp ((word_accepted_iff grep hcword _).mp hc),
    mem_goNames_iff.mp ((word_accepted_iff grep hgword _).mp hg)⟩

/-! ## No row vanishes -/

theorem reduceReadings_isSome (stat : Stat) {vs : List ℚ} (hne : vs ≠ []) (hpos : ∀ v ∈ vs, 0 < v) :
    (reduceReadings stat vs).isSome := by
  obtain ⟨v, vs, rfl⟩ := List.exists_cons_of_ne_nil hne
  have hleast := least_isLeast v vs
  have hlo : 0 < least v vs := hpos _ hleast.1
  have hbetween : ∀ x ∈ ((v :: vs : List ℚ) : Multiset ℚ), least v vs ≤ x ∧ x ≤ greatest v vs :=
    fun x hx => ⟨hleast.2 hx, (greatest_isGreatest v vs).2 hx⟩
  have hmedian : least v vs ≤ median ((v :: vs : List ℚ) : Multiset ℚ) := (median_mem_Icc (by simp) hbetween).1
  cases stat with
  | median => simp [reduceReadings, hlo.trans_le hmedian]
  | min => simp [reduceReadings, hlo]

/-- A row compares the benchmark of a pair with what go test printed for its Go name. -/
structure Compares (stat : Stat) (qsort : Qsort compareDouble) (goText : Text) (row : Row)
    (p : Text × Text) : Prop where
  burrow : ∃ r : Result, r.name = p.1 ∧ row.toCCells = resultCells stat qsort r
  go : ∃ vs, ReadingsOf p.2 (awkRecords goText) vs ∧ row.go = reduceReadings stat vs ∧
    (vs ≠ [] → (∀ v ∈ vs, 0 < v) → row.go.isSome)

theorem compares_pairRow {stat : Stat} {qsort : Qsort compareDouble} {results : List Result} {c : CSide}
    (hc : c.Holds stat qsort results) (goText : Text) {p : Text × Text} (hp : p.1 ∈ c.keys) :
    ∃ row, pairRow stat c (GoSide.read goText) p = some row ∧ Compares stat qsort goText row p := by
  obtain ⟨r, hr, hname⟩ := List.mem_map.mp (hc.keys ▸ hp)
  refine ⟨_, if_pos (List.contains_iff_mem.mpr hp), ⟨r, hname, ?_⟩, readingsOf p.2 goText,
    readingsOf_text p.2 goText, (GoSide.read_holds p.2 goText).cells stat, ?_⟩
  · dsimp only
    rw [← hname, hc.cells hr]
  · intro hne hpos
    rw [(GoSide.read_holds p.2 goText).cells stat]
    exact reduceReadings_isSome stat hne hpos

theorem forall₂_pairRow {stat : Stat} {qsort : Qsort compareDouble} {results : List Result} {c : CSide}
    (hc : c.Holds stat qsort results) (goText : Text) (pairs : List (Text × Text)) :
    List.Forall₂ (Compares stat qsort goText) (pairs.filterMap (pairRow stat c (GoSide.read goText)))
      (pairs.filter fun p => p.1 ∈ c.keys) := by
  induction pairs with
  | nil => exact List.Forall₂.nil
  | cons p ps ih =>
    by_cases hp : p.1 ∈ c.keys
    · obtain ⟨row, hrow, hcompares⟩ := compares_pairRow hc goText hp
      rw [List.filterMap_cons_some hrow, List.filter_cons_of_pos (by simpa using hp)]
      exact List.Forall₂.cons hcompares ih
    · have hnone : pairRow stat c (GoSide.read goText) p = none := if_neg (by simpa using hp)
      rw [List.filterMap_cons_none hnone, List.filter_cons_of_neg (by simpa using hp)]
      exact ih

def hashSources : Sources where
  cFiles := ["BENCH(hash_int) \x7b\n    BENCH_LOOP(b) \x7b\n".toList]
  goFiles := ["func BenchmarkHashInt(b *testing.B) \x7b\n".toList]

/-- One pair, its benchmark beside one that is not paired, and one reading of the Go side. -/
def hashTree : Surroundings ℚ where
  doubles := decimalSeconds
  registrations := [⟨"hash_int_new".toList, fun _ _ => []⟩, ⟨"hash_int".toList, fun _ _ => [.advance 5]⟩]
  machine := ⟨fun _ => 0, fun _ => 0, fun _ => 0⟩
  qsort := mergeQsort
  taskset := false
  goTest := some fun _ _ _ => some "BenchmarkHashInt-8  100  2.5 ns/op\n".toList
  pairs := "# C Go\n\nhash_int  HashInt\n".toList
  order := ⟨id, List.Perm.refl⟩

theorem hashTree_wellFormed : WellFormed hashTree.pairs where
  lines := by
    have hlines : shellLines hashTree.pairs = ["# C Go".toList, [], "hash_int  HashInt".toList] := by
      decide +kernel
    rw [hlines]
    simp only [List.forall_mem_cons]
    refine ⟨Or.inr (Or.inl (by decide)), Or.inl (by decide), Or.inr (Or.inr ?_), by simp⟩
    exact ⟨⟨'h', by decide, by decide⟩, by decide⟩
  terminated := by decide +kernel
  words := by
    have hpairs : checkPairs hashTree.pairs = [("hash_int".toList, "HashInt".toList)] := by decide +kernel
    rw [hpairs]
    simp only [List.forall_mem_cons]
    exact ⟨⟨by decide, by decide⟩, by simp⟩

end BurrowBench.Tools
