import BurrowBench.Harness.Arguments
import BurrowBench.Harness.Report
import BurrowBench.Harness.SearchRobust

/-! # The harness from its registrations to its exit

bench_register fills a table of fixed size, and bench_main reads its arguments, runs the
entries the filter selects and prints a line for each. What a run of a body does may depend on
how many runs the process has made before it. A run of the program in which an int64
overflows, or the seconds do not convert to one, has no outcome.
-/
namespace BurrowBench.Harness
open CheckedArithmetic DecimalText FieldSplitting
variable {δ : Type}

/-! ## Registration -/

structure Registration where
  name : Text
  fn : ℕ → BenchFunc

def benchMax : ℕ := 1024

def tooMany : Text := "bench: more than 1024 benchmarks, raise BENCH_MAX\n".toList

def benchRegister (entries : List Registration) (e : Registration) : Except Text (List Registration) :=
  if entries.length ≥ benchMax then .error tooMany else .ok (entries ++ [e])

def registerAll (registrations : List Registration) : Except Text (List Registration) :=
  registrations.foldlM benchRegister []

/-- `(int64_t)(seconds * 1e9)`, and a millisecond at least. -/
def targetNs (D : Doubles δ) (seconds : δ) : Option ℤ :=
  (D.nanoseconds seconds).map fun target => if target < 1000000 then 1000000 else target

/-! ## One entry -/

/-- What the k-th run of the process finds on the clock. -/
structure Machine where
  clock : ℕ → ℤ
  before : ℕ → ℕ
  after : ℕ → ℕ

def runNth (m : Machine) (k : ℕ) (e : Registration) (n : ℤ) : Bench :=
  (runMeasured ⟨e.name, e.fn k⟩ n (m.clock k) (m.before k) (m.after k)).1

def measureNth (m : Machine) (k : ℕ) (e : Registration) (n : ℤ) : Measurement :=
  measurementOf ⟨e.name, e.fn k⟩ n (m.clock k) (m.before k) (m.after k)

/-- A call of an entry's function, with the count in its record. -/
structure Call where
  name : Text
  n : ℤ
  deriving DecidableEq

/-- The count for every repetition, and the counts that were measured to find it. -/
def chooseN (o : Options δ) (target : ℤ) (m : Machine) (k : ℕ) (e : Registration) : Option (ℤ × List ℤ) :=
  if o.fixedN > 0 then some (o.fixedN, [])
  else (pickN target fun round n => measureNth m (k + round) e n).map fun s => (s.count, s.log.map Prod.fst)

/-- The repetitions of an entry from the k-th run of the process on. -/
def repeated (o : Options δ) (m : Machine) (k : ℕ) (e : Registration) (n : ℤ) : Result where
  name := e.name
  n := n
  bytes := (runNth m (k + ((clampCount o.count).toNat - 1)) e n).bytes
  allocs := (runNth m (k + ((clampCount o.count).toNat - 1)) e n).allocs
  samples := repetitions o.count n fun r => (runNth m (k + r) e n).ns

def runEntry (o : Options δ) (target : ℤ) (m : Machine) (k : ℕ) (e : Registration) :
    Option (Result × List Call) := do
  let (n, searched) ← chooseN o target m k e
  let r := repeated o m (k + searched.length) e n
  some (r, (searched ++ List.replicate (clampCount o.count).toNat n).map (Call.mk e.name))

/-- `%-34s %12lld %12.2f ns/op`, with the allocations if there are any and the spread if it
was measured. -/
def plainLine (qsort : Qsort compareDouble) (r : Result) : Text :=
  let s := r.samples.reduce qsort
  r.name.rightpad 34 ' ' ++ ' ' :: (formatInt r.n).leftpad 12 ' ' ++
    ' ' :: (formatFixed 2 s.nsPerOp).leftpad 12 ' ' ++ " ns/op".toList ++
    (if r.allocs > 0 ∨ r.bytes > 0 then
      ' ' :: (formatFixed 0 (perOp r.bytes r.n)).leftpad 10 ' ' ++ " B/op".toList ++
        ' ' :: (formatFixed 2 (perOp r.allocs r.n)).leftpad 8 ' ' ++ " allocs/op".toList
    else []) ++
    if r.samples.runs.length > 1 then
      "  spread ".toList ++ (formatFixed 1 s.spread).leftpad 5 ' ' ++ "% over ".toList ++
        formatInt r.samples.runs.length
    else []

def reportLine (tsv : Bool) (qsort : Qsort compareDouble) (r : Result) : Text :=
  if tsv then tsvLine (columns qsort r) else plainLine qsort r

/-! ## The program -/

structure Progress where
  calls : List Call
  out : Text
  ran : ℕ

def benchEntries (o : Options δ) (target : ℤ) (m : Machine) (qsort : Qsort compareDouble) :
    List Registration → Progress → Option Progress
  | [], p => some p
  | e :: rest, p =>
    if o.filter.any fun filter => !nameMatches e.name filter then benchEntries o target m qsort rest p
    else do
      let (r, calls) ← runEntry o target m p.calls.length e
      benchEntries o target m qsort rest
        { calls := p.calls ++ calls, out := p.out ++ reportLine o.tsv qsort r ++ ['\n'], ran := p.ran + 1 }

structure Outcome where
  exitCode : ℕ
  out : Text
  err : Text
  calls : List Call
  deriving DecidableEq

def usage : Text :=
  "usage: bench [-run substring or name$] [-time seconds] [-n count] [-count runs] [-tsv] [-list]\n".toList

def nothingMatched (filter : Option Text) : Text :=
  "bench: nothing matched ".toList ++ filter.getD "(no filter)".toList ++ ['\n']

def benchMain (D : Doubles δ) (entries : List Registration) (args : List Text) (m : Machine) (qsort : Qsort compareDouble) :
    Option Outcome :=
  match parseArgs D args with
  | none => some { exitCode := 2, out := [], err := usage, calls := [] }
  | some o =>
    if o.list then
      some { exitCode := 0, out := lines '\n' (entries.map Registration.name), err := [], calls := [] }
    else do
      let target ← targetNs D o.seconds
      let p ← benchEntries o target m qsort entries
        { calls := [], out := if o.tsv then tsvLine header ++ ['\n'] else [], ran := 0 }
      some { exitCode := if p.ran = 0 then 1 else 0, out := p.out,
             err := if p.ran = 0 then nothingMatched o.filter else [], calls := p.calls }

def main (D : Doubles δ) (registrations : List Registration) (args : List Text) (m : Machine)
    (qsort : Qsort compareDouble) : Option Outcome :=
  match registerAll registrations with
  | .error message => some { exitCode := 1, out := [], err := message, calls := [] }
  | .ok entries => benchMain D entries args m qsort

/-! ## What the parts do -/

theorem foldlM_benchRegister (registrations entries : List Registration) (h : entries.length ≤ benchMax) :
    registrations.foldlM benchRegister entries =
      if entries.length + registrations.length ≤ benchMax then .ok (entries ++ registrations)
      else .error tooMany := by
  induction registrations generalizing entries with
  | nil =>
    rw [List.length_nil, Nat.add_zero, if_pos h, List.append_nil]
    rfl
  | cons e rest ih =>
    rw [List.foldlM_cons, benchRegister]
    by_cases hfull : entries.length ≥ benchMax
    · rw [if_pos hfull, if_neg (by rw [List.length_cons]; omega)]
      rfl
    · have hnext := ih (entries ++ [e]) (by rw [List.length_append, List.length_singleton]; omega)
      rw [List.length_append, List.length_singleton, Nat.add_assoc, Nat.add_comm 1, List.append_assoc] at hnext
      rw [if_neg hfull]
      exact hnext

theorem registerAll_eq (registrations : List Registration) :
    registerAll registrations =
      if registrations.length ≤ benchMax then .ok registrations else .error tooMany := by
  rw [registerAll, foldlM_benchRegister _ _ (Nat.zero_le _), List.length_nil, Nat.zero_add, List.nil_append]

variable {D : Doubles δ} {o : Options δ} {target : ℤ} {m : Machine} {qsort : Qsort compareDouble} {k : ℕ} {e : Registration}

/-- The calls of a row: growing counts from one unless the count was given, and then the
repetitions, all with the count of the row. -/
def RowCalls (o : Options δ) (r : Result) (calls : List Call) : Prop :=
  ∃ searched : List ℤ,
    calls = (searched ++ List.replicate (clampCount o.count).toNat r.n).map (Call.mk r.name) ∧
    (0 < o.fixedN → searched = [] ∧ r.n = o.fixedN) ∧
    (o.fixedN ≤ 0 → searched.head? = some 1 ∧ searched.IsChain (· < ·) ∧ searched.length ≤ maxRounds ∧
      1 ≤ r.n ∧ r.n ≤ nMax) ∧
    r.samples.runs.length = (clampCount o.count).toNat

theorem chooseN_spec {n : ℤ} {searched : List ℤ} (h : chooseN o target m k e = some (n, searched)) :
    (0 < o.fixedN → searched = [] ∧ n = o.fixedN) ∧
    (o.fixedN ≤ 0 → searched.head? = some 1 ∧ searched.IsChain (· < ·) ∧ searched.length ≤ maxRounds ∧
      1 ≤ n ∧ n ≤ nMax) := by
  unfold chooseN at h
  split at h
  · rename_i hfixed
    obtain ⟨rfl, rfl⟩ := Prod.mk.inj (Option.some.inj h)
    exact ⟨fun _ => ⟨rfl, rfl⟩, fun hle => absurd hfixed (not_lt.mpr hle)⟩
  · rename_i hfixed
    refine ⟨fun hlt => absurd hlt hfixed, fun _ => ?_⟩
    obtain ⟨s, hs, heq⟩ := Option.map_eq_some_iff.mp h
    obtain ⟨rfl, rfl⟩ := Prod.mk.inj heq
    rw [pickN, pickRounds_eq_search] at hs
    have htrail := search_trail _ le_rfl (by decide) hs
    refine ⟨?_, ?_, ?_, htrail.count⟩
    · rw [List.head?_map, htrail.first (by decide)]
      rfl
    · rw [List.isChain_map]
      exact htrail.grows.imp fun _ _ h => h.1
    · rw [List.length_map]
      exact htrail.length_le

theorem runEntry_spec {r : Result} {calls : List Call} (h : runEntry o target m k e = some (r, calls)) :
    r.name = e.name ∧ RowCalls o r calls := by
  obtain ⟨⟨n, searched⟩, hn, h⟩ := Option.bind_eq_some_iff.mp h
  obtain ⟨rfl, rfl⟩ := Prod.mk.inj (Option.some.inj h)
  obtain ⟨hfixed, hsearched⟩ := chooseN_spec hn
  refine ⟨rfl, searched, rfl, hfixed, hsearched, ?_⟩
  simp [repeated, repetitions]

theorem selected_cons (name : Text) (names : List Text) (filter : Option Text) :
    selected (name :: names) filter =
      if filter.all (nameMatches name) then name :: selected names filter else selected names filter :=
  List.filter_cons

theorem any_not_nameMatches (name : Text) (filter : Option Text) :
    (filter.any fun filter => !nameMatches name filter) = !filter.all (nameMatches name) := by
  cases filter <;> rfl

theorem benchEntries_spec {entries : List Registration} {p p' : Progress}
    (h : benchEntries o target m qsort entries p = some p') :
    ∃ rows : List (Result × List Call),
      rows.map (fun row => row.1.name) = selected (entries.map Registration.name) o.filter ∧
      p'.out = p.out ++ lines '\n' (rows.map fun row => reportLine o.tsv qsort row.1) ∧
      p'.calls = p.calls ++ rows.flatMap Prod.snd ∧ p'.ran = p.ran + rows.length ∧
      ∀ row ∈ rows, RowCalls o row.1 row.2 := by
  induction entries generalizing p with
  | nil =>
    obtain rfl := Option.some.inj h
    exact ⟨[], by simp [selected, lines]⟩
  | cons e rest ih =>
    rw [benchEntries, any_not_nameMatches] at h
    split at h
    · rename_i hskip
      obtain ⟨rows, hnames, hrest⟩ := ih h
      refine ⟨rows, ?_, hrest⟩
      rw [hnames, List.map_cons, selected_cons, if_neg (by simpa using hskip)]
    · rename_i hrun
      obtain ⟨⟨r, calls⟩, hr, h⟩ := Option.bind_eq_some_iff.mp h
      obtain ⟨rows, hnames, hout, hcalls, hran, hrows⟩ := ih h
      obtain ⟨hname, hrow⟩ := runEntry_spec hr
      refine ⟨(r, calls) :: rows, ?_, ?_, ?_, ?_, ?_⟩
      · rw [List.map_cons, hnames, List.map_cons, selected_cons, if_pos (by simpa using hrun), hname]
      · rw [hout]
        simp [lines]
      · rw [hcalls]
        simp
      · rw [hran, List.length_cons]
        dsimp only
        omega
      · intro row hmem
        rcases List.mem_cons.mp hmem with rfl | hmem
        · exact hrow
        · exact hrows row hmem

/-! ## The program -/

/-- What bench_main does with arguments it understands, other than -list: each selected entry is
called and reported in the order of registration, and nothing else is. -/
structure Reports (names : List Text) (o : Options δ) (qsort : Qsort compareDouble) (out : Outcome) : Prop where
  rows : ∃ rows : List (Result × List Call),
    rows.map (fun row => row.1.name) = selected names o.filter ∧
    out.out = (if o.tsv then printTsv qsort (rows.map Prod.fst)
      else lines '\n' (rows.map fun row => plainLine qsort row.1)) ∧
    out.calls = rows.flatMap Prod.snd ∧ ∀ row ∈ rows, RowCalls o row.1 row.2
  only : ∀ c ∈ out.calls, c.name ∈ selected names o.filter
  exit : (out.exitCode = 0 ∧ out.err = [] ∧ selected names o.filter ≠ []) ∨
    (out.exitCode = 1 ∧ out.err = nothingMatched o.filter ∧ out.calls = [] ∧ selected names o.filter = [])

theorem benchMain_reports {entries : List Registration} {args : List Text} {out : Outcome}
    (hargs : parseArgs D args = some o) (hlist : o.list = false)
    (h : benchMain D entries args m qsort = some out) :
    Reports (entries.map Registration.name) o qsort out := by
  rw [benchMain, hargs] at h
  simp only [hlist, Bool.false_eq_true, if_false] at h
  obtain ⟨target, _, h⟩ := Option.bind_eq_some_iff.mp h
  obtain ⟨p, hp, h⟩ := Option.bind_eq_some_iff.mp h
  obtain rfl := Option.some.inj h
  obtain ⟨rows, hnames, hout, hcalls, hran, hrows⟩ := benchEntries_spec hp
  refine ⟨⟨rows, hnames, ?_, hcalls, hrows⟩, ?_, ?_⟩
  · dsimp only
    rw [hout]
    cases htsv : o.tsv
    · simp [reportLine]
    · simp [reportLine, printTsv, lines, List.map_map, Function.comp_def]
  · intro c hc
    dsimp only at hc
    rw [hcalls] at hc
    obtain ⟨row, hrow, hc⟩ := List.mem_flatMap.mp hc
    obtain ⟨searched, hrowCalls, _⟩ := hrows row hrow
    rw [hrowCalls] at hc
    obtain ⟨n, _, rfl⟩ := List.mem_map.mp hc
    rw [← hnames]
    exact List.mem_map_of_mem hrow
  · cases rows with
    | nil =>
      have hzero : p.ran = 0 := hran
      exact Or.inr ⟨if_pos hzero, if_pos hzero, hcalls, hnames.symm⟩
    | cons row rest =>
      have hsome : p.ran ≠ 0 := by
        rw [hran, List.length_cons]
        exact Nat.succ_ne_zero _
      refine Or.inl ⟨if_neg hsome, if_neg hsome, ?_⟩
      rw [← hnames]
      exact List.cons_ne_nil _ _

/-- No int64 overflows on the way: the count is given, or the target is one that no search can
overflow on. -/
def Bounded (D : Doubles δ) (o : Options δ) : Prop :=
  ∃ target, targetNs D o.seconds = some target ∧ (0 < o.fixedN ∨ target ≤ safeTarget)

theorem targetNs_pos {seconds : δ} (h : targetNs D seconds = some target) : 1000000 ≤ target := by
  obtain ⟨x, _, rfl⟩ := Option.map_eq_some_iff.mp h
  split <;> omega

theorem benchEntries_isSome (m : Machine) (qsort : Qsort compareDouble) (hT : 0 ≤ target)
    (hbounded : 0 < o.fixedN ∨ target ≤ safeTarget) (entries : List Registration) (p : Progress) : (benchEntries o target m qsort entries p).isSome := by
  induction entries generalizing p with
  | nil => rfl
  | cons e rest ih =>
    unfold benchEntries
    split
    · exact ih p
    · have hn : (chooseN o target m p.calls.length e).isSome := by
        unfold chooseN
        split
        · rfl
        · rename_i hfixed
          rw [Option.isSome_map]
          exact pickN_isSome_of_safe hT (hbounded.resolve_left hfixed) _
      obtain ⟨⟨n, searched⟩, hn⟩ := Option.isSome_iff_exists.mp hn
      simp only [runEntry, hn, Option.bind_eq_bind, Option.bind_some]
      exact ih _

theorem benchMain_isSome {args : List Text}
    (hbounded : ∀ o, parseArgs D args = some o → o.list = false → Bounded D o)
    (entries : List Registration) : (benchMain D entries args m qsort).isSome := by
  unfold benchMain
  split
  · rfl
  · rename_i o hargs
    split
    · rfl
    · rename_i hlist
      obtain ⟨target, htarget, hfits⟩ := hbounded o hargs (by simpa using hlist)
      have hT : 0 ≤ target := (by norm_num : (0 : ℤ) ≤ 1000000).trans (targetNs_pos htarget)
      obtain ⟨p, hp⟩ := Option.isSome_iff_exists.mp
        (benchEntries_isSome m qsort hT hfits entries
          { calls := [], out := if o.tsv then tsvLine header ++ ['\n'] else [], ran := 0 })
      simp only [htarget, Option.bind_eq_bind, Option.bind_some, hp, Option.isSome_some]

/-- Whatever is registered, whatever the arguments and whatever the clock: a run of the program
exits 1 on more registrations than there is room for, exits 2 on arguments it does not know,
lists the names in order under -list and otherwise reports the selected entries; and it has an
outcome where nothing overflows. -/
theorem main_outcome (D : Doubles δ) (registrations : List Registration) (args : List Text) (m : Machine)
    (qsort : Qsort compareDouble) :
    (∀ out, main D registrations args m qsort = some out →
      (benchMax < registrations.length → out = ⟨1, [], tooMany, []⟩) ∧
      (registrations.length ≤ benchMax →
        (parseArgs D args = none → out = ⟨2, [], usage, []⟩) ∧
        ∀ o, parseArgs D args = some o →
          (o.list = true → out = ⟨0, lines '\n' (registrations.map Registration.name), [], []⟩) ∧
          (o.list = false → Reports (registrations.map Registration.name) o qsort out))) ∧
    ((∀ o, parseArgs D args = some o → o.list = false → Bounded D o) →
      (main D registrations args m qsort).isSome) := by
  constructor
  · intro out h
    rw [main, registerAll_eq] at h
    constructor
    · intro hmany
      rw [if_neg (Nat.not_le_of_lt hmany)] at h
      exact (Option.some.inj h).symm
    · intro hroom
      rw [if_pos hroom] at h
      refine ⟨fun hargs => ?_, fun o hargs => ⟨fun hlist => ?_, fun hlist => ?_⟩⟩
      · simp only [benchMain, hargs] at h
        exact (Option.some.inj h).symm
      · simp only [benchMain, hargs, hlist, if_true] at h
        exact (Option.some.inj h).symm
      · exact benchMain_reports hargs hlist h
  · intro hbounded
    by_cases hroom : registrations.length ≤ benchMax
    · rw [main, registerAll_eq, if_pos hroom]
      exact benchMain_isSome hbounded registrations
    · rw [main, registerAll_eq, if_neg hroom]
      rfl

end BurrowBench.Harness
