import BurrowBench.Foundation.DecimalText
import BurrowBench.Foundation.FieldSplitting
import BurrowBench.Harness.NameFilter
import BurrowBench.Harness.Repetitions

/-! # The report of the harness

bench_main prints one line a benchmark. Under -tsv it is nine columns with a tab between
them after a header line; no column has a tab or a newline in it.
-/
namespace BurrowBench.Harness
open DecimalText FieldSplitting

/-- What bench_main has of one benchmark when it prints its line. -/
structure Result where
  name : Text
  n : ℤ
  bytes : ℤ
  allocs : ℤ
  samples : Samples

def header : List Text :=
  ["name".toList, "iters".toList, "ns_per_op".toList, "bytes_per_op".toList, "allocs_per_op".toList,
    "runs".toList, "min_ns".toList, "max_ns".toList, "spread_pct".toList]

/-- `%s\t%lld\t%.4f\t%.2f\t%.3f\t%d\t%.4f\t%.4f\t%.1f` -/
def columns (qsort : Qsort compareDouble) (r : Result) : List Text :=
  let s := r.samples.reduce qsort
  [r.name, formatInt r.n, formatFixed 4 s.nsPerOp, formatFixed 2 (perOp r.bytes r.n),
    formatFixed 3 (perOp r.allocs r.n), formatInt r.samples.runs.length, formatFixed 4 s.lo,
    formatFixed 4 s.hi, formatFixed 1 s.spread]

def tsvLine (columns : List Text) : Text := ['\t'].intercalate columns

def printTsv (qsort : Qsort compareDouble) (results : List Result) : Text :=
  lines '\n' ((header :: results.map (columns qsort)).map tsvLine)

def Plain (t : Text) : Prop := ∀ c ∈ t, c ≠ '\t' ∧ c ≠ '\n'

instance (t : Text) : Decidable (Plain t) :=
  decidable_of_iff (t.all fun c => c ≠ '\t' ∧ c ≠ '\n') (by simp [Plain])

theorem Identifier.plain {name : Text} (h : Identifier name) : Plain name := by
  intro c hc
  have hword := h.2 c hc
  constructor <;> rintro rfl <;> exact absurd hword (by decide)

theorem IsNumeral.plain {t : Text} (h : ∀ c ∈ t, IsNumeral c) : Plain t := by
  intro c hc
  constructor <;> rintro rfl <;> rcases h _ hc with hd | hd | hd <;> exact absurd hd (by decide)

theorem columns_plain {r : Result} (h : Identifier r.name) (qsort : Qsort compareDouble) :
    ∀ t ∈ columns qsort r, Plain t := by
  have hfixed (k : ℕ) (q : ℚ) : Plain (formatFixed k q) := IsNumeral.plain fun _ => mem_formatFixed
  have hint (i : ℤ) : Plain (formatInt i) := IsNumeral.plain fun _ => mem_formatInt
  simp only [columns, List.forall_mem_cons]
  exact ⟨h.plain, hint _, hfixed _ _, hfixed _ _, hfixed _ _, hint _, hfixed _ _, hfixed _ _,
    hfixed _ _, by simp⟩

theorem splitOn_tsvLine {cols : List Text} (h : ∀ t ∈ cols, Plain t) (hne : cols ≠ []) :
    (tsvLine cols).splitOn '\t' = cols :=
  List.splitOn_intercalate '\t' (fun t ht hmem => (h t ht '\t' hmem).1 rfl) hne

theorem mem_tsvLine {cols : List Text} {c : Char} (h : c ∈ tsvLine cols) :
    c = '\t' ∨ ∃ t ∈ cols, c ∈ t := by
  unfold tsvLine at h
  induction cols with
  | nil => cases h
  | cons t ts ih =>
    cases ts with
    | nil => exact Or.inr ⟨t, List.mem_cons_self, by simpa using h⟩
    | cons u us =>
      rw [List.intercalate_cons_cons, List.append_assoc, List.mem_append] at h
      rcases h with ht | h
      · exact Or.inr ⟨t, List.mem_cons_self, ht⟩
      · rcases List.mem_append.mp h with htab | h
        · exact Or.inl (List.mem_singleton.mp htab)
        · exact (ih h).imp_right fun ⟨v, hv, hc⟩ => ⟨v, List.mem_cons_of_mem _ hv, hc⟩

theorem newline_notMem_tsvLine {cols : List Text} (h : ∀ t ∈ cols, Plain t) :
    '\n' ∉ tsvLine cols := by
  intro hmem
  rcases mem_tsvLine hmem with htab | ⟨t, ht, hc⟩
  · exact absurd htab (by decide)
  · exact (h t ht _ hc).2 rfl

end BurrowBench.Harness
