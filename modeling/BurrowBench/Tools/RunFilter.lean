import BurrowBench.Harness.Arguments
import BurrowBench.Harness.NameFilter
import BurrowBench.Tools.Pairs

/-! # The -run filter on both sides

run.sh hands the filter to the C harness through an unquoted expansion and to awk
through `-v`, and awk picks Go names by the harness's rule, written again with `sub`,
`==` and `index`. A filter that names some C benchmark is one plain word, so both sides
get it unchanged, and no comment or blank line has a first field it matches.
-/
namespace BurrowBench.Tools
open FieldSplitting Harness

/-! ## How the filter reaches both sides -/

def isIfs (c : Char) : Bool := isBlank c || c == '\n'

/-- The words of `$c_filter`. A word without `*`, `?` and `[` expands to itself. -/
def cFilter (run : Text) : List Text :=
  if run = [] then [] else fields isIfs ("-run ".toList ++ run)

def benchArgs (time count run : Text) : List Text :=
  ["-time".toList, time, "-count".toList, count] ++ cFilter run ++ ["-tsv".toList]

/-- Where awk stands while it reads the value of an assignment. -/
inductive Escape where
  | plain
  | backslash
  | octal (digits value : ℕ)

def escapeChar : Char → Option Char
  | '"' => some '"' | '\\' => some '\\' | '/' => some '/'
  | 'a' => some '\x07' | 'b' => some '\x08' | 'f' => some '\x0c'
  | 'n' => some '\n' | 'r' => some '\r' | 't' => some '\t' | 'v' => some '\x0b'
  | _ => none

def isOctal (c : Char) : Bool := '0' ≤ c && c ≤ '7'

def octalDigit (c : Char) : ℕ := c.toNat - '0'.toNat

/-- The escape sequences awk processes in `-v r="$RUN"`; an unknown one stays as it is. -/
def unescape : Escape → Text → Text
  | .plain, [] => []
  | .backslash, [] => ['\\']
  | .octal _ value, [] => [Char.ofNat (value % 256)]
  | .plain, c :: cs => if c = '\\' then unescape .backslash cs else c :: unescape .plain cs
  | .backslash, c :: cs =>
    match escapeChar c with
    | some e => e :: unescape .plain cs
    | none => if isOctal c then unescape (.octal 1 (octalDigit c)) cs else '\\' :: c :: unescape .plain cs
  | .octal digits value, c :: cs =>
    if digits < 3 ∧ isOctal c then unescape (.octal (digits + 1) (value * 8 + octalDigit c)) cs
    else Char.ofNat (value % 256) ::
      if c = '\\' then unescape .backslash cs else c :: unescape .plain cs

def awkAssign (value : Text) : Text := unescape .plain value

theorem awkAssign_of_no_backslash {value : Text} (h : '\\' ∉ value) : awkAssign value = value := by
  induction value with
  | nil => rfl
  | cons c cs ih =>
    obtain ⟨hc, hcs⟩ := List.ne_and_not_mem_of_not_mem_cons h
    have hrest : unescape .plain cs = cs := ih hcs
    rw [awkAssign, unescape, if_neg hc.symm, hrest]

/-! ## What awk picks -/

/-- `index(s, t)`: where `t` first starts in `s`, counted from one, and zero if nowhere. -/
def index : Text → Text → ℕ
  | [], _ => 0
  | c :: cs, t => if t.isPrefixOf (c :: cs) then 1 else
    match index cs t with
    | 0 => 0
    | k + 1 => k + 2

/-- `exact = sub(/\$$/, "", r)` and then `exact ? $1 == r : index($1, r)`. What `sub` leaves
is a string, so `==` compares strings. -/
def picks (r record : Text) : Bool :=
  if r.getLast? = some '$' then field1 record == r.dropLast
  else index (field1 record) r != 0

def goNames (text run : Text) : List Text :=
  ((awkRecords text).filter (picks (awkAssign run))).map field2

def joinPattern (names : List Text) : Text :=
  let joined := ['|'].intercalate names
  if joined = [] then "^$".toList else "^Benchmark(".toList ++ joined ++ ")$".toList

def goFilter (text run : Text) : Text :=
  if run = [] then ".".toList else joinPattern (goNames text run)

theorem index_ne_zero {s t : Text} (ht : t ≠ []) : index s t ≠ 0 ↔ t <:+: s := by
  induction s with
  | nil => simp [index, ht]
  | cons c cs ih =>
    rw [index, List.infix_cons_iff, ← ih]
    split
    · rename_i hstarts
      simp [List.isPrefixOf_iff_prefix.mp hstarts]
    · rename_i hstarts
      rw [List.isPrefixOf_iff_prefix] at hstarts
      cases index cs t <;> simp [hstarts]

theorem picks_eq_nameMatches {run : Text} (hrun : run ≠ []) (record : Text) :
    picks run record = nameMatches (field1 record) run := by
  unfold picks
  by_cases hlast : run.getLast? = some '$'
  · rw [if_pos hlast, nameMatches_exact hlast, pattern, if_pos hlast]
    exact beq_eq_decide _ _
  · rw [if_neg hlast, nameMatches_substring hlast, pattern, if_neg hlast]
    have h := index_ne_zero (s := field1 record) hrun
    rw [Bool.eq_iff_iff, bne_iff_ne, decide_eq_true_eq]
    exact h

/-- The filter picks from the pairs its reader finds. -/
theorem goNames_eq_filterPairs {text run : Text} (hassign : awkAssign run = run) (hrun : run ≠ [])
    (hblank : ¬ nameMatches [] run) :
    goNames text run =
      ((filterPairs text).filter fun p => nameMatches p.1 run).map Prod.snd := by
  unfold goNames filterPairs
  rw [hassign]
  induction awkRecords text with
  | nil => rfl
  | cons record rest ih =>
    rw [List.filter_cons, List.filterMap_cons, picks_eq_nameMatches hrun, filterLine_eq]
    by_cases h : Blank record
    · rw [h.field1, if_pos h, if_neg hblank, ih]
    · rw [if_neg h, List.filter_cons]
      split <;> simp [ih]

/-! ## Agreement -/

/-- The pairs of a file, whoever reads it: `(c, g)` on a line of its own. -/
def pairLines (text : Text) : List (Text × Text) :=
  (awkRecords text).filterMap fun line => (checkLine line).pair?

/-- Lines that are no pair are blank or have `#` alone for a first field. -/
def PlainComments (text : Text) : Prop :=
  ∀ line ∈ awkRecords text, Checked line ∨ Blank line ∨ field1 line = ['#']

instance (text : Text) : Decidable (PlainComments text) :=
  inferInstanceAs (Decidable (∀ line ∈ awkRecords text, _))

theorem checked_of_pair {line : Text} {p : Text × Text} (h : (checkLine line).pair? = some p) :
    Checked line ∧ p = (field1 line, field2 line) := by
  rw [checkLine_pair?] at h
  split at h
  · exact ⟨‹_›, (Option.some.inj h).symm⟩
  · cases h

theorem not_picked {name run line : Text} (hname : Identifier name) (h : nameMatches name run)
    (hrun : run ≠ []) (hline : Blank line ∨ field1 line = ['#']) :
    ¬ nameMatches (field1 line) run := by
  intro hpicked
  obtain ⟨c, hc, hcn⟩ := shared_char hpicked h hname.1 hrun
  rcases hline with hblank | hhash
  · rw [hblank.field1] at hc
    cases hc
  · rw [hhash, List.mem_singleton] at hc
    have hword := hname.2 c hcn
    rw [hc] at hword
    exact absurd hword (by decide)

/-- Of the pairs the filter's reader finds, those it matches are pairs to every reader. -/
theorem filterPairs_matching {text name run : Text} (hname : Identifier name) (h : nameMatches name run)
    (hrun : run ≠ []) (hplain : PlainComments text) :
    ((filterPairs text).filter fun p => nameMatches p.1 run) =
      (pairLines text).filter fun p => nameMatches p.1 run := by
  unfold filterPairs pairLines
  unfold PlainComments at hplain
  generalize awkRecords text = lines at hplain
  induction lines with
  | nil => rfl
  | cons line rest ih =>
    have ih' := ih fun l hl => hplain l (List.mem_cons_of_mem _ hl)
    rw [List.filterMap_cons, List.filterMap_cons, filterLine_eq, checkLine_pair?]
    rcases hplain line List.mem_cons_self with hchecked | hblank | hhash
    · rw [if_neg hchecked.not_blank, if_pos hchecked, List.filter_cons, List.filter_cons, ih']
    · rw [if_pos hblank, if_neg fun hchecked : Checked line => hchecked.not_blank hblank, ih']
    · have hchecked : ¬ Checked line := fun hchecked => hchecked.1 (by rw [hhash]; rfl)
      by_cases hblank : Blank line
      · rw [if_pos hblank, if_neg hchecked, ih']
      · rw [if_neg hblank, if_neg hchecked, List.filter_cons,
          if_neg (not_picked hname h hrun (Or.inr hhash)), ih']

theorem goNames_eq {text name run : Text} (hname : Identifier name) (h : nameMatches name run)
    (hrun : run ≠ []) (hassign : awkAssign run = run) (hplain : PlainComments text) :
    goNames text run = ((pairLines text).filter fun p => nameMatches p.1 run).map Prod.snd := by
  have hblank : Blank ([] : Text) := fields_nil
  have hempty : ¬ nameMatches [] run := not_picked hname h hrun (Or.inl hblank)
  rw [goNames_eq_filterPairs hassign hrun hempty, filterPairs_matching hname h hrun hplain]

/-- A filter that names a C benchmark reaches both sides as it is. -/
theorem filter_unchanged {name run : Text} (hname : Identifier name) (h : nameMatches name run)
    (hrun : run ≠ []) : awkAssign run = run ∧ cFilter run = ["-run".toList, run] := by
  have hword : ∀ c ∈ run, isWord c ∨ c = '$' := fun c hc => mem_filter_word hname h hc
  refine ⟨awkAssign_of_no_backslash ?_, ?_⟩
  · intro hmem
    rcases hword _ hmem with hw | hw <;> exact absurd hw (by decide)
  · have hifs : ∀ c ∈ run, ¬ isIfs c := by
      intro c hc
      rcases hword c hc with hw | rfl
      · intro hi
        simp only [isIfs, isBlank, Bool.or_eq_true, beq_iff_eq] at hi
        rcases hi with (rfl | rfl) | rfl <;> exact absurd hw (by decide)
      · decide
    have hoption : "-run".toList.all fun c => ¬ isIfs c := by decide
    have hsplit : fields isIfs ("-run".toList ++ ' ' :: run) = "-run".toList :: fields isIfs run :=
      fields_word_append (by decide) (by simpa using hoption) (by decide) run
    rw [fields_of_word hrun hifs] at hsplit
    rw [cFilter, if_neg hrun]
    exact hsplit

theorem parseArgs_filter {δ : Type} (D : Doubles δ) {run : Text} (h : cFilter run = ["-run".toList, run])
    (time count : Text) :
    (parseArgs D (benchArgs time count run)).map Options.filter = some (some run) := by
  rw [benchArgs, h]
  rfl

theorem goNames_ne_nil {text run g : Text}
    (hg : g ∈ ((pairLines text).filter fun p => nameMatches p.1 run).map Prod.snd) : g ≠ [] := by
  obtain ⟨p, hp, rfl⟩ := List.mem_map.mp hg
  obtain ⟨line, _, hpair⟩ := List.mem_filterMap.mp (List.mem_filter.mp hp).1
  obtain ⟨hchecked, rfl⟩ := checked_of_pair hpair
  exact hchecked.2

theorem joinPattern_eq {names : List Text} (h : ∀ g ∈ names, g ≠ []) :
    joinPattern names = if names = [] then "^$".toList
      else "^Benchmark(".toList ++ ['|'].intercalate names ++ ")$".toList := by
  have hjoined : ['|'].intercalate names = [] ↔ names = [] := by
    match names with
    | [] => exact iff_of_true rfl rfl
    | [g] => simp [List.intercalate, h g List.mem_cons_self]
    | g :: g' :: rest => simp [List.intercalate]
  simp only [joinPattern, hjoined]

/-- Started by run.sh, the harness runs the entries the filter names, and go test is given the
Go names of the pairs whose C name it matches, joined into one pattern. -/
theorem run_selects_both {δ : Type} (D : Doubles δ) (text run time count : Text) (entries : List Text)
    (hentries : ∀ c ∈ entries, Identifier c) (hselects : ∃ c ∈ entries, nameMatches c run)
    (hplain : PlainComments text) :
    (run = [] → (parseArgs D (benchArgs time count run)).map Options.filter = some none ∧
      selected entries none = entries ∧ goFilter text run = ".".toList) ∧
    (run ≠ [] → (parseArgs D (benchArgs time count run)).map Options.filter = some (some run) ∧
      (∀ c, c ∈ selected entries (some run) ↔ c ∈ entries ∧ nameMatches c run) ∧
      (∀ g, g ∈ goNames text run ↔ ∃ c, (c, g) ∈ pairLines text ∧ nameMatches c run) ∧
      ∃ names, names = ((pairLines text).filter fun p => nameMatches p.1 run).map Prod.snd ∧
        goNames text run = names ∧
        goFilter text run = if names = [] then "^$".toList
          else "^Benchmark(".toList ++ ['|'].intercalate names ++ ")$".toList) := by
  constructor
  · rintro rfl
    refine ⟨rfl, ?_, rfl⟩
    simp [selected]
  · intro hrun
    obtain ⟨name, hmem, hmatch⟩ := hselects
    have hname := hentries name hmem
    obtain ⟨hassign, hfilter⟩ := filter_unchanged hname hmatch hrun
    have hnames := goNames_eq hname hmatch hrun hassign hplain
    refine ⟨parseArgs_filter D hfilter time count, ?_, ?_, _, rfl, hnames, ?_⟩
    · intro c
      rw [selected, List.mem_filter]
      rfl
    · intro g
      rw [hnames]
      simp only [List.mem_map, List.mem_filter, Prod.exists, exists_eq_right]
    · rw [goFilter, if_neg hrun, hnames]
      exact joinPattern_eq fun g hg => goNames_ne_nil hg

def hashPairs : Text := "# C Go\n\nhash_int  HashInt\nmap_get MapGet\nhash_int_new HashNew\n".toList

/-- A filter for two of three pairs and one for the exact name of one of them. -/
theorem run_selects_both_hash :
    goFilter hashPairs "hash".toList = "^Benchmark(HashInt|HashNew)$".toList ∧
    goFilter hashPairs "hash_int$".toList = "^Benchmark(HashInt)$".toList := by
  have hselects := fun run => run_selects_both decimalSeconds hashPairs run "1".toList "5".toList
    ["hash_int".toList, "hash_int_new".toList] (by decide +kernel)
  obtain ⟨_, _, _, _, rfl, _, hsubstring⟩ := (hselects "hash".toList
    ⟨"hash_int".toList, by decide, by decide⟩ (by decide +kernel)).2 (by decide)
  obtain ⟨_, _, _, _, rfl, _, hexact⟩ := (hselects "hash_int$".toList
    ⟨"hash_int".toList, by decide, by decide⟩ (by decide +kernel)).2 (by decide)
  exact ⟨hsubstring.trans (by decide +kernel), hexact.trans (by decide +kernel)⟩

end BurrowBench.Tools
