import BurrowBench.Foundation.WhileLoop
import BurrowBench.Harness.BenchMain
import BurrowBench.Tools.RunFilter
import BurrowBench.Tools.Table

/-! # run.sh

The script reads its options over what the environment gives, runs the harness and go test
with them and prints the table of the two outputs. It stops at the first command that fails.
The build before the runs and the lines of the header are not part of this.
-/
namespace BurrowBench.Tools
open DecimalText FieldSplitting Function Harness
variable {δ : Type}

/-! ## The options -/

inductive Setting where
  | out
  | time
  | count
  | pin
  | run
  | stat
  deriving DecidableEq

/-- `${TIME:-1}` and its like; `out` is not read from the environment. -/
def Setting.default : Setting → Text
  | .out | .pin | .run => []
  | .time => "1".toList
  | .count => "5".toList
  | .stat => "median".toList

/-- An unset variable is an empty one here. -/
def fromEnvironment (environment : Setting → Text) (x : Setting) : Text :=
  if x = .out ∨ environment x = [] then x.default else environment x

def setting? (a : Text) : Option Setting :=
  if a = "-o".toList then some .out
  else if a = "-time".toList then some .time
  else if a = "-count".toList then some .count
  else if a = "-pin".toList then some .pin
  else if a = "-run".toList then some .run
  else if a = "-stat".toList then some .stat
  else none

inductive Stop where
  | usage
  | unsetOperand
  | badStat
  | noTaskset
  | bench (exitCode : ℕ)
  | undefined
  | goTest
  deriving DecidableEq

def IsStat (v : Text) : Prop := v = "median".toList ∨ v = "min".toList

instance (v : Text) : Decidable (IsStat v) := inferInstanceAs (Decidable (_ ∨ _))

/-- The loop over the arguments. Under `set -u` an option without its value ends the script. -/
def parseOptions : (Setting → Text) → List Text → Except Stop (Setting → Text)
  | s, [] => .ok s
  | s, a :: rest =>
    match setting? a, rest with
    | none, _ => .error .usage
    | some _, [] => .error .unsetOperand
    | some x, v :: rest' =>
      if x = .stat ∧ ¬ IsStat v then .error .badStat else parseOptions (update s x v) rest'

/-! ## The script -/

/-- What the script finds: the harness and what its runs meet, whether taskset and go are there,
what go test prints for a pattern, a time and a count if it succeeds, and pairs.txt. -/
structure Surroundings (δ : Type) where
  doubles : Doubles δ
  registrations : List Registration
  machine : Machine
  qsort : Qsort compareDouble
  taskset : Bool
  goTest : Option (Text → Text → Text → Option Text)
  pairs : Text
  order : KeyOrder

/-- `stat == "min"` in awk -/
def statOf (v : Text) : Stat := if v = "min".toList then .min else .median

/-- A bare name means results/. -/
def outPath (out : Text) : Option Text :=
  if out = [] then none else some (if '/' ∈ out then out else "results/".toList ++ out)

structure Finished where
  calls : List Call
  goPattern : Text
  table : Table
  path : Option Text

def goOutput (w : Surroundings δ) (s : Setting → Text) : Except Stop Text :=
  match w.goTest with
  | none => .ok []
  | some goTest =>
    match goTest (goFilter w.pairs (s .run)) (s .time) (s .count) with
    | none => .error .goTest
    | some text => .ok text

def finish (w : Surroundings δ) (s : Setting → Text) (bench : Outcome) : Except Stop Finished :=
  if bench.exitCode ≠ 0 then .error (.bench bench.exitCode)
  else do
    let goText ← goOutput w s
    .ok { calls := bench.calls, goPattern := goFilter w.pairs (s .run)
          table := table (statOf (s .stat)) w.order bench.out goText w.pairs
          path := outPath (s .out) }

def runSh (w : Surroundings δ) (environment : Setting → Text) (args : List Text) : Except Stop Finished := do
  let s ← parseOptions (fromEnvironment environment) args
  if s .pin ≠ [] ∧ !w.taskset then .error .noTaskset
  else
    match main w.doubles w.registrations (benchArgs (s .time) (s .count) (s .run)) w.machine w.qsort with
    | none => .error .undefined
    | some bench => finish w s bench

/-! ## What the options come to -/

def Setting.flag : Setting → Text
  | .out => "-o".toList
  | .time => "-time".toList
  | .count => "-count".toList
  | .pin => "-pin".toList
  | .run => "-run".toList
  | .stat => "-stat".toList

def given (x : Setting) (options : List (Setting × Text)) : List Text :=
  (options.filter fun p => p.1 = x).map Prod.snd

def spelled (options : List (Setting × Text)) : List Text := options.flatMap fun p => [p.1.flag, p.2]

def settled (s : Setting → Text) (options : List (Setting × Text)) (x : Setting) : Text :=
  (given x options).getLast?.getD (s x)

theorem parseOptions_flag (s : Setting → Text) (x : Setting) (v : Text) (rest : List Text) :
    parseOptions s (x.flag :: v :: rest) =
      if x = .stat ∧ ¬ IsStat v then .error .badStat else parseOptions (update s x v) rest := by
  cases x <;> rfl

theorem setting?_eq_some {a : Text} {x : Setting} (h : setting? a = some x) : a = x.flag := by
  unfold setting? at h
  split at h
  · exact Option.some.inj h ▸ ‹_›
  split at h
  · exact Option.some.inj h ▸ ‹_›
  split at h
  · exact Option.some.inj h ▸ ‹_›
  split at h
  · exact Option.some.inj h ▸ ‹_›
  split at h
  · exact Option.some.inj h ▸ ‹_›
  split at h
  · exact Option.some.inj h ▸ ‹_›
  · cases h

theorem settled_cons (s : Setting → Text) (x : Setting) (v : Text) (options : List (Setting × Text)) :
    settled s ((x, v) :: options) = settled (update s x v) options := by
  funext y
  by_cases hxy : x = y
  · subst hxy
    simp [settled, given, List.getLast?_cons]
  · simp [settled, given, hxy, update_of_ne (Ne.symm hxy)]

/-- The loop takes exactly the arguments that spell options with their values, and of several
values for one setting the last. -/
theorem parseOptions_eq_ok_iff {s s' : Setting → Text} {args : List Text} :
    parseOptions s args = .ok s' ↔ ∃ options, args = spelled options ∧
      (∀ p ∈ options, p.1 = .stat → IsStat p.2) ∧ s' = settled s options := by
  constructor
  · intro h
    fun_induction parseOptions s args with
    | case1 s =>
      obtain rfl := Except.ok.inj h
      exact ⟨[], rfl, by simp, rfl⟩
    | case2 => cases h
    | case3 => cases h
    | case4 => cases h
    | case5 s a x v rest hflag hset ih =>
      obtain ⟨options, rfl, hstats, rfl⟩ := ih h
      refine ⟨(x, v) :: options, ?_, ?_, (settled_cons s x v options).symm⟩
      · rw [setting?_eq_some hflag]
        rfl
      · intro p hp
        rcases List.mem_cons.mp hp with rfl | hp
        · exact fun hstat => not_not.mp fun hbad => hset ⟨hstat, hbad⟩
        · exact hstats p hp
  · rintro ⟨options, rfl, hstats, rfl⟩
    induction options generalizing s with
    | nil => rfl
    | cons p rest ih =>
      obtain ⟨x, v⟩ := p
      have hstat : ¬ (x = .stat ∧ ¬ IsStat v) := fun hbad => hbad.2 (hstats _ List.mem_cons_self hbad.1)
      have hrest := ih (s := update s x v) fun p hp => hstats p (List.mem_cons_of_mem _ hp)
      change parseOptions s (x.flag :: v :: spelled rest) = _
      rw [parseOptions_flag, if_neg hstat, hrest, settled_cons]

/-! ## From the registrations to the table -/

/-- A filter that the shell hands over as one word and unchanged. -/
def OneWord (run : Text) : Prop := ∀ c ∈ run, ¬ isIfs c ∧ c ≠ '*' ∧ c ≠ '?' ∧ c ≠ '['

instance (run : Text) : Decidable (OneWord run) := List.decidableBAll _ run

def filterOf (run : Text) : Option Text := if run = [] then none else some run

theorem cFilter_of_oneWord {run : Text} (h : OneWord run) (hrun : run ≠ []) :
    cFilter run = ["-run".toList, run] := by
  have hoption : ∀ c ∈ "-run".toList, ¬ isIfs c := by simp; decide
  have hsplit : fields isIfs ("-run".toList ++ ' ' :: run) = "-run".toList :: fields isIfs run :=
    fields_word_append (by decide) hoption (by decide) run
  rw [fields_of_word hrun fun c hc => (h c hc).1] at hsplit
  rw [cFilter, if_neg hrun]
  exact hsplit

def benchOptions (D : Doubles δ) (s : Setting → Text) : Options δ where
  filter := filterOf (s .run)
  seconds := D.atof (s .time)
  fixedN := 0
  count := strtolInt (s .count)
  tsv := true
  list := false

theorem parseArgs_benchArgs (D : Doubles δ) {s : Setting → Text} (h : OneWord (s .run)) :
    parseArgs D (benchArgs (s .time) (s .count) (s .run)) = some (benchOptions D s) := by
  unfold benchOptions filterOf parseArgs
  by_cases hrun : s .run = []
  · rw [hrun]
    rfl
  · rw [benchArgs, cFilter_of_oneWord h hrun, if_neg hrun]
    rfl

theorem runSh_eq_ok {w : Surroundings δ} {environment : Setting → Text} {args : List Text} {out : Finished}
    (h : runSh w environment args = .ok out) :
    ∃ s bench goText, parseOptions (fromEnvironment environment) args = .ok s ∧
      main w.doubles w.registrations (benchArgs (s .time) (s .count) (s .run)) w.machine w.qsort = some bench ∧
      bench.exitCode = 0 ∧ goOutput w s = .ok goText ∧
      out = { calls := bench.calls, goPattern := goFilter w.pairs (s .run)
              table := table (statOf (s .stat)) w.order bench.out goText w.pairs
              path := outPath (s .out) } := by
  obtain ⟨s, hs, h⟩ := WhileLoop.bind_eq_ok.mp h
  split at h
  · cases h
  · split at h
    · cases h
    · rename_i bench hbench
      unfold finish at h
      split at h
      · cases h
      · rename_i hexit
        obtain ⟨goText, hgo, h⟩ := WhileLoop.bind_eq_ok.mp h
        exact ⟨s, bench, goText, hs, hbench, not_not.mp hexit, hgo, (Except.ok.inj h).symm⟩

/-- What the harness has printed when it exits 0. -/
theorem main_printTsv {registrations : List Registration} {args : List Text} {o : Options δ} {D : Doubles δ} {m : Machine}
    {qsort : Qsort compareDouble} {bench : Outcome} (hargs : parseArgs D args = some o)
    (hlist : o.list = false) (htsv : o.tsv = true) (h : main D registrations args m qsort = some bench)
    (hexit : bench.exitCode = 0) :
    ∃ results : List Result, bench.out = printTsv qsort results ∧
      results.map Result.name = selected (registrations.map Registration.name) o.filter ∧ results ≠ [] ∧
      ∀ r ∈ results, ∃ calls, RowCalls o r calls := by
  rw [main, registerAll_eq] at h
  split at h
  · cases h
    cases hexit
  · rename_i entries heq
    split at heq
    · obtain rfl := Except.ok.inj heq
      obtain ⟨⟨rows, hnames, hout, _, hrows⟩, _, hend⟩ := benchMain_reports hargs hlist h
      rw [htsv, if_pos rfl] at hout
      have hselected := hend.resolve_right fun hbad => by simp [hexit] at hbad
      refine ⟨rows.map Prod.fst, hout, by rw [← hnames, List.map_map]; rfl, ?_, ?_⟩
      · intro hnil
        rw [List.map_eq_nil_iff] at hnil
        rw [hnil] at hnames
        exact hselected.2.2 hnames.symm
      · intro r hr
        obtain ⟨row, hrow, rfl⟩ := List.mem_map.mp hr
        exact ⟨row.2, hrows row hrow⟩
    · cases heq

section
variable {stat : Stat} {order : KeyOrder} {qsort : Qsort compareDouble} {results : List Result}
variable {gText pText : Text}

theorem table_shows (stat : Stat) (order : KeyOrder) (qsort : Qsort compareDouble) (gText pText : Text)
    (hnodup : (results.map Result.name).Nodup)
    (hnames : ∀ r ∈ results, Identifier r.name ∧ r.name ≠ "name".toList)
    (honce : ∀ r ∈ results, ((tablePairs pText).map Prod.fst).count r.name ≤ 1) :
    let t := table stat order (printTsv qsort results) gText pText
    (t.paired.map (fun row => row.cname) ++ t.unpaired.map CCells.cname).Perm (results.map Result.name) ∧
    ∀ cells ∈ t.paired.map Row.toCCells ++ t.unpaired, ∃ r ∈ results, cells = resultCells stat qsort r := by
  intro t
  have hc : (CSide.read stat (printTsv qsort results)).Holds stat qsort results :=
    CSide.read_printTsv hnodup hnames
  set c := CSide.read stat (printTsv qsort results)
  have hpaired : t.paired.map (fun row => row.cname) =
      ((tablePairs pText).map Prod.fst).filter (· ∈ c.keys) := map_cname_pairRow stat c _ _
  have hunpaired : t.unpaired.map CCells.cname = (order.walk c.keys).filter fun k =>
      !(((tablePairs pText).map Prod.fst).filter (· ∈ c.keys)).contains k := by
    rw [← hpaired]
    exact (List.map_map ..).trans (List.map_id _)
  have hcells : ∀ k ∈ c.keys, ∃ r ∈ results, c.cells k = resultCells stat qsort r := by
    intro k hk
    rw [hc.keys] at hk
    obtain ⟨r, hr, rfl⟩ := List.mem_map.mp hk
    exact ⟨r, hr, hc.cells hr⟩
  constructor
  · rw [hpaired, hunpaired, ← hc.keys]
    refine perm_of_split (hc.keys ▸ hnodup) ?_ (order.perm _)
    intro k hk
    rw [hc.keys] at hk
    obtain ⟨r, hr, rfl⟩ := List.mem_map.mp hk
    exact honce r hr
  · intro cells hmem
    rcases List.mem_append.mp hmem with hmem | hmem
    · obtain ⟨row, hrow, rfl⟩ := List.mem_map.mp hmem
      obtain ⟨p, _, hsome⟩ := List.mem_filterMap.mp hrow
      unfold pairRow at hsome
      split at hsome
      · rename_i hkey
        rw [← Option.some.inj hsome]
        exact hcells _ (List.contains_iff_mem.mp hkey)
      · cases hsome
    · obtain ⟨k, hk, rfl⟩ := List.mem_map.mp hmem
      exact hcells k ((order.perm c.keys).mem_iff.mp (List.mem_filter.mp hk).1)

end

section
variable {w : Surroundings δ} {environment : Setting → Text} {args : List Text} {s : Setting → Text}

def asked (w : Surroundings δ) (s : Setting → Text) : List Text :=
  selected (w.registrations.map Registration.name) (filterOf (s .run))

structure Starts (w : Surroundings δ) (environment : Setting → Text) (args : List Text) (s : Setting → Text) :
    Prop where
  options : parseOptions (fromEnvironment environment) args = .ok s
  pin : s .pin ≠ [] → w.taskset = true
  word : OneWord (s .run)

theorem Starts.runSh_eq (hs : Starts w environment args s) {bench : Outcome}
    (hbench : main w.doubles w.registrations (benchArgs (s .time) (s .count) (s .run)) w.machine w.qsort = some bench) :
    runSh w environment args = finish w s bench := by
  have hpin : ¬ (s .pin ≠ [] ∧ (!w.taskset) = true) := fun hbad => by simp [hs.pin hbad.1] at hbad
  rw [runSh, hs.options]
  change (if s .pin ≠ [] ∧ (!w.taskset) = true then _ else _) = _
  rw [if_neg hpin, hbench]

theorem goOutput_or (w : Surroundings δ) (s : Setting → Text) :
    (∃ text, goOutput w s = .ok text) ∨ goOutput w s = .error .goTest := by
  unfold goOutput
  split
  · exact Or.inl ⟨_, rfl⟩
  · split
    · exact Or.inr rfl
    · exact Or.inl ⟨_, rfl⟩

theorem finish_of_zero {bench : Outcome} (hexit : bench.exitCode = 0) :
    finish w s bench ≠ .error (.bench 1) ∧
      ((∃ out, finish w s bench = .ok out) ↔ goOutput w s ≠ .error .goTest) := by
  rcases goOutput_or w s with ⟨text, h⟩ | h
  · simp [finish, hexit, h, bind, Except.bind]
  · simp [finish, hexit, h, bind, Except.bind]

theorem Starts.bench (hs : Starts w environment args s) (hroom : w.registrations.length ≤ benchMax)
    (hbounded : Bounded w.doubles (benchOptions w.doubles s)) :
    ∃ bench, main w.doubles w.registrations (benchArgs (s .time) (s .count) (s .run)) w.machine w.qsort = some bench ∧
      bench.exitCode = if asked w s = [] then 1 else 0 := by
  have hargs := parseArgs_benchArgs w.doubles hs.word
  have hsome : (benchMain w.doubles w.registrations (benchArgs (s .time) (s .count) (s .run)) w.machine w.qsort).isSome :=
    benchMain_isSome (fun o ho _ => by
      rw [hargs] at ho
      exact Option.some.inj ho ▸ hbounded) _
  obtain ⟨bench, hbench⟩ := Option.isSome_iff_exists.mp hsome
  have hreports := benchMain_reports hargs rfl hbench
  refine ⟨bench, ?_, ?_⟩
  · rw [main, registerAll_eq, if_pos hroom]
    exact hbench
  · rcases hreports.exit with ⟨hexit, _, hsome⟩ | ⟨hexit, _, _, hnone⟩
    · exact hexit.trans (if_neg hsome).symm
    · exact hexit.trans (if_pos hnone).symm

end

def withoutGo : Surroundings ℚ where
  doubles := decimalSeconds
  registrations := [⟨"hash_int".toList, fun _ _ => [.advance 5]⟩, ⟨"hash_int_new".toList, fun _ _ => []⟩]
  machine := ⟨fun _ => 0, fun _ => 0, fun _ => 0⟩
  qsort := mergeQsort
  taskset := false
  goTest := none
  pairs := "# C Go\n\nhash_int  HashInt\n".toList
  order := ⟨id, List.Perm.refl⟩

def exactName : List (Setting × Text) := [(.run, "hash_int".toList), (.time, "2".toList), (.run, "hash_int$".toList)]

end BurrowBench.Tools
