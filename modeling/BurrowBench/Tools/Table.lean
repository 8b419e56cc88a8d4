import BurrowBench.Tools.GoOutput

/-! # The comparison table

Each pair whose C benchmark was run is a row, with the Go side reduced under the pair's
Go name; the benchmarks that no row names follow in whatever order awk walks its array.
Every benchmark of the report is in exactly one of the two parts, with the columns it was
printed with.
-/
namespace BurrowBench.Tools
open DecimalText FieldSplitting Harness OrderStatistics

structure CCells where
  cname : Text
  burrow : Text
  spread : Option Text

structure GoCells where
  value : ℚ
  spread : Option ℚ

structure Row extends CCells where
  go : Option GoCells

structure Table where
  paired : List Row
  unpaired : List CCells

/-- The order in which `for (k in cns)` takes the indices. -/
structure KeyOrder where
  walk : List Text → List Text
  perm : ∀ keys, (walk keys).Perm keys

def CSide.cells (s : CSide) (key : Text) : CCells where
  cname := key
  burrow := s.cns key
  spread := if atLeastZero (s.cspread key) then some (s.cspread key) else none

def GoSide.cells (s : GoSide) (stat : Stat) (gname : Text) : Option GoCells :=
  if s.gcount gname > 0 then
    let gv := match stat with
      | .min => (s.glo gname).getD 0
      | .median => s.median gname (s.gcount gname)
    if gv > 0 then some { value := gv, spread := s.spread gname } else none
  else none

/-- The body of the loop over the pairs. -/
def pairRow (stat : Stat) (c : CSide) (g : GoSide) (p : Text × Text) : Option Row :=
  if c.keys.contains p.1 then some { toCCells := c.cells p.1, go := g.cells stat p.2 } else none

def table (stat : Stat) (order : KeyOrder) (cText gText pText : Text) : Table :=
  let c := CSide.read stat cText
  let g := GoSide.read gText
  let paired := (tablePairs pText).filterMap (pairRow stat c g)
  let seen := paired.map fun row => row.cname
  { paired, unpaired := ((order.walk c.keys).filter fun k => !seen.contains k).map c.cells }

/-! ## The printed lines -/

def percent (x : ℚ) : Text := formatFixed 0 x ++ ['%']

/-- `%-26s %12.2f %8s` -/
def CCells.line (c : CCells) : Text :=
  c.cname.rightpad 26 ' ' ++ ' ' :: (formatFixed 2 (toNumber c.burrow)).leftpad 12 ' ' ++
    ' ' :: ((c.spread.map fun t => percent (toNumber t)).getD ['-']).leftpad 8 ' '

/-- `%12.2f %8s %8.2fx`, or three dashes -/
def Row.line (row : Row) : Text :=
  row.toCCells.line ++ match row.go with
    | some g => ' ' :: (formatFixed 2 g.value).leftpad 12 ' ' ++
        ' ' :: ((g.spread.map percent).getD ['-']).leftpad 8 ' ' ++
        ' ' :: (formatFixed 2 (toNumber row.burrow / g.value)).leftpad 8 ' ' ++ ['x']
    | none => ' ' :: ['-'].leftpad 12 ' ' ++ ' ' :: ['-'].leftpad 8 ' ' ++ ' ' :: ['-'].leftpad 8 ' '

/-- The rows below the two lines of column titles. -/
def Table.lines (t : Table) : List Text :=
  t.paired.map Row.line ++
    if t.unpaired.isEmpty then []
    else [] :: "not paired with a Go benchmark".toList :: t.unpaired.map CCells.line

/-! ## What a row should hold -/

/-- The pairs as the file's format has them: lines that are neither blank nor a comment. -/
def listing (text : Text) : List (Text × Text) :=
  (awkRecords text).filterMap fun line =>
    if Blank line ∨ line.head? = some '#' then none else some (field1 line, field2 line)

/-- A line that is not blank starts in column one. -/
def InColumnOne (text : Text) : Prop :=
  ∀ line ∈ awkRecords text, Blank line ∨ ¬ line.head?.any isBlank

instance (text : Text) : Decidable (InColumnOne text) :=
  inferInstanceAs (Decidable (∀ line ∈ awkRecords text, _))

def resultCells (stat : Stat) (qsort : Qsort compareDouble) (r : Result) : CCells where
  cname := r.name
  burrow := stat.column (columns qsort r)
  spread := some ((columns qsort r).getD 8 [])

def reduceReadings (stat : Stat) : List ℚ → Option GoCells
  | [] => none
  | v :: vs =>
    let lo := least v vs
    let gv := match stat with
      | .min => lo
      | .median => median ((v :: vs : List ℚ) : Multiset ℚ)
    if gv > 0 then
      some { value := gv, spread := if lo > 0 then some ((greatest v vs - lo) / lo * 100) else none }
    else none

theorem tablePairs_eq_listing {text : Text} (h : InColumnOne text) :
    tablePairs text = listing text := by
  unfold tablePairs listing
  apply List.filterMap_congr
  intro line hline
  by_cases hnone : Blank line ∨ line.head? = some '#'
  · rw [if_pos hnone, tableLine_eq_none_iff.mpr hnone.symm]
  · rw [if_neg hnone]
    rw [not_or] at hnone
    cases line with
    | nil => exact absurd fields_nil hnone.1
    | cons c cs =>
      have hc : ¬ isBlank c := (h _ hline).resolve_left hnone.1
      exact tableLine_word hc fun heq => hnone.2 (congrArg some heq)

theorem GoSide.Holds.cells {s : GoSide} {gname : Text} {vs : List ℚ} (h : s.Holds gname vs)
    (stat : Stat) : s.cells stat gname = reduceReadings stat vs := by
  cases vs with
  | nil => simp [GoSide.cells, h.gcount, reduceReadings]
  | cons v vs =>
    have hcount : s.gcount gname > 0 := by simp [h.gcount]
    have hlo : s.glo gname = some (least v vs) := h.glo
    have hhi : s.ghi gname = some (greatest v vs) := h.ghi
    have hspread : s.spread gname =
        if least v vs > 0 then some ((greatest v vs - least v vs) / least v vs * 100) else none := by
      rw [GoSide.spread, hlo, hhi]
    unfold GoSide.cells
    rw [if_pos hcount, hspread, hlo, h.median (List.cons_ne_nil v vs)]
    rfl

theorem spread_nonneg (samples : Samples) (qsort : Qsort compareDouble) :
    0 ≤ (samples.reduce qsort).spread := by
  have hle : (samples.reduce qsort).lo ≤ (samples.reduce qsort).hi :=
    (samples.reduce_hi qsort).2 (samples.reduce_lo qsort).1
  have hspread : (samples.reduce qsort).spread =
      spreadPct (samples.reduce qsort).lo (samples.reduce qsort).hi := rfl
  rw [hspread, spreadPct]
  split
  · rename_i hlo
    have hdiff := sub_nonneg.mpr hle
    positivity
  · exact le_rfl

theorem CSide.Holds.cells {s : CSide} {stat : Stat} {qsort : Qsort compareDouble}
    {results : List Result} (h : s.Holds stat qsort results) {r : Result} (hr : r ∈ results) :
    s.cells r.name = resultCells stat qsort r := by
  have hshown : atLeastZero ((columns qsort r).getD 8 []) :=
    atLeastZero_formatFixed (by decide) (spread_nonneg r.samples qsort)
  rw [CSide.cells, h.cns r hr, h.cspread r hr, if_pos hshown]
  rfl

/-! ## The table of a report -/

theorem map_cname_pairRow (stat : Stat) (c : CSide) (g : GoSide) (pairs : List (Text × Text)) :
    (pairs.filterMap (pairRow stat c g)).map (fun row => row.cname) =
      (pairs.map Prod.fst).filter (· ∈ c.keys) := by
  induction pairs with
  | nil => rfl
  | cons p ps ih =>
    by_cases h : p.1 ∈ c.keys
    · simp [pairRow, h, ih, CSide.cells]
    · simp [pairRow, h, ih]

theorem perm_of_split {keys listed walked : List Text} (hnodup : keys.Nodup)
    (honce : ∀ k ∈ keys, listed.count k ≤ 1) (hwalk : walked.Perm keys) :
    (listed.filter (· ∈ keys) ++
      walked.filter fun k => !(listed.filter (· ∈ keys)).contains k).Perm keys := by
  have hlisted : (listed.filter (· ∈ keys)).Nodup := by
    rw [List.nodup_iff_count_le_one]
    intro k
    by_cases hk : k ∈ keys
    · rw [List.count_filter (by simpa using hk)]
      exact honce k hk
    · rw [List.count_eq_zero_of_not_mem (by simp [hk])]
      omega
  rw [List.perm_ext_iff_of_nodup _ hnodup]
  · intro k
    have hmem := hwalk.mem_iff (a := k)
    simp only [List.mem_append, List.mem_filter, decide_eq_true_eq, Bool.not_eq_true',
      List.contains_eq_mem, decide_eq_false_iff_not]
    tauto
  · rw [List.nodup_append]
    refine ⟨hlisted, (hwalk.nodup_iff.mpr hnodup).filter _, ?_⟩
    rintro a ha b hb rfl
    have hfresh := (List.mem_filter.mp hb).2
    rw [List.contains_iff_mem.mpr ha] at hfresh
    cases hfresh

end BurrowBench.Tools
