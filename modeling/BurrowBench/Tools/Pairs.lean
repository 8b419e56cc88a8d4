import BurrowBench.Foundation.FieldSplitting
import BurrowBench.Harness.Timer

/-! # The readers of pairs.txt

Three programs read the file. check-pairs.sh reads terminated lines with the shell and
splits what is left after trimming; the table of run.sh reads records with getline and
splits at runs of blanks, which keeps an empty field before a leading one; the filter of
run.sh lets awk split every record and tests nothing else.
-/
namespace BurrowBench.Tools
open FieldSplitting

def isBlank (c : Char) : Bool := c == ' ' || c == '\t'

/-- The lines `while read` runs its body for. -/
def shellLines (text : Text) : List Text := terminated '\n' text

def awkRecords (text : Text) : List Text := records '\n' text

/-- What `read -r line` assigns: the line without the blanks around it. -/
def readLine (line : Text) : Text := (line.dropWhile isBlank).rdropWhile isBlank

/-- `$1` and `$2` of a record under awk's default splitting. -/
def field1 (record : Text) : Text := (fields isBlank record).headD []
def field2 (record : Text) : Text := (fields isBlank record).tail.headD []

inductive LineCheck where
  | skip
  | malformed
  | pair (c g : Text)
  deriving DecidableEq

/-- The body of the loop of check-pairs.sh up to the two name tests. -/
def checkLine (raw : Text) : LineCheck :=
  let line := readLine raw
  if line.head? = some '#' ∨ line = [] then .skip
  else
    let c := field1 line
    let g := field2 line
    if c = [] ∨ g = [] then .malformed else .pair c g

def LineCheck.pair? : LineCheck → Option (Text × Text)
  | .pair c g => some (c, g)
  | _ => none

def checkPairs (text : Text) : List (Text × Text) :=
  (shellLines text).filterMap fun line => (checkLine line).pair?

/-- What the table makes of a record: `f[1]` and `f[2]` of a split at `/[ \t]+/`. -/
def tableLine (line : Text) : Option (Text × Text) :=
  if line.head? = some '#' ∨ line.all isBlank then none
  else some ((pieces isBlank line).headD [], (pieces isBlank line).tail.headD [])

def tablePairs (text : Text) : List (Text × Text) := (awkRecords text).filterMap tableLine

/-- What the filter picks from: the first two fields of a record that has any. -/
def filterLine (record : Text) : Option (Text × Text) :=
  if fields isBlank record = [] then none else some (field1 record, field2 record)

def filterPairs (text : Text) : List (Text × Text) := (awkRecords text).filterMap filterLine

/-! ## The readers line by line -/

theorem fields_readLine (line : Text) :
    fields isBlank (readLine line) = fields isBlank line := by
  rw [readLine, fields_rdropWhile, fields_dropWhile]

theorem readLine_head? (line : Text) :
    (readLine line).head? = ((fields isBlank line).head?).bind List.head? := by
  rw [← fields_readLine line]
  cases h : readLine line with
  | nil => simp [fields_nil]
  | cons c cs =>
    have hstarts : readLine line <+: line.dropWhile isBlank := List.rdropWhile_prefix _ _
    have hc : ¬ isBlank c := by
      rw [h] at hstarts
      obtain ⟨rest, hrest⟩ := hstarts
      have hhead := List.head?_dropWhile_not isBlank line
      rw [← hrest] at hhead
      simpa using hhead
    rw [fields_word hc]
    rfl

/-- Lines check-pairs.sh takes for a pair: two fields, the first not starting with `#`. -/
def Checked (line : Text) : Prop := (field1 line).head? ≠ some '#' ∧ field2 line ≠ []

instance (line : Text) : Decidable (Checked line) := inferInstanceAs (Decidable (_ ∧ _))

def Blank (line : Text) : Prop := fields isBlank line = []

instance (line : Text) : Decidable (Blank line) := inferInstanceAs (Decidable (_ = _))

theorem blank_iff {line : Text} : Blank line ↔ line.all isBlank := by
  rw [Blank, fields_eq_nil_iff, List.all_eq_true]

theorem Blank.field1 {line : Text} (h : Blank line) : field1 line = [] := by
  rw [Tools.field1, h]
  rfl

theorem field1_ne_nil {line : Text} (h : ¬ Blank line) : field1 line ≠ [] := by
  unfold Blank at h
  unfold field1
  cases hf : fields isBlank line with
  | nil => exact absurd hf h
  | cons f fs => exact ne_nil_of_mem_fields (hf ▸ List.mem_cons_self)

theorem Checked.not_blank {line : Text} (h : Checked line) : ¬ Blank line := by
  intro hb
  apply h.2
  rw [field2, hb]
  rfl

theorem Checked.head_ne_hash {line : Text} (h : Checked line) : line.head? ≠ some '#' := by
  intro hhash
  cases line with
  | nil => cases hhash
  | cons c cs =>
    obtain rfl : c = '#' := by simpa using hhash
    apply h.1
    rw [field1, fields_word (by decide)]
    rfl

theorem checkLine_pair? (line : Text) :
    (checkLine line).pair? = if Checked line then some (field1 line, field2 line) else none := by
  have hfield1 : field1 (readLine line) = field1 line := by rw [field1, fields_readLine, field1]
  have hfield2 : field2 (readLine line) = field2 line := by rw [field2, fields_readLine, field2]
  have hhead : (readLine line).head? = (field1 line).head? := by
    rw [readLine_head?, field1]
    cases fields isBlank line <;> rfl
  unfold checkLine
  simp only [hfield1, hfield2, hhead]
  by_cases hchecked : Checked line
  · have hne := field1_ne_nil hchecked.not_blank
    have hread : readLine line ≠ [] := by
      intro h
      rw [h] at hhead
      exact hne (List.head?_eq_none_iff.mp hhead.symm)
    rw [if_neg (by simp [hchecked.1, hread]), if_neg (by simp [hne, hchecked.2]), if_pos hchecked]
    rfl
  · rw [if_neg hchecked]
    split
    · rfl
    · rename_i hskip
      rw [if_pos]
      · rfl
      · by_contra h
        simp only [not_or] at hskip h
        exact hchecked ⟨hskip.1, h.2⟩

theorem tableLine_word {c : Char} {cs : Text} (hc : ¬ isBlank c) (hhash : c ≠ '#') :
    tableLine (c :: cs) = some (field1 (c :: cs), field2 (c :: cs)) := by
  obtain ⟨h1, h2⟩ := pieces_of_word hc cs
  rw [tableLine, if_neg (by simp [hhash, hc]), h1, h2]
  rfl

theorem tableLine_indented {c : Char} {cs : Text} (hc : isBlank c) (hblank : ¬ Blank (c :: cs)) :
    tableLine (c :: cs) = some ([], field1 (c :: cs)) := by
  have hhash : c ≠ '#' := by
    rintro rfl
    exact absurd hc (by decide)
  obtain ⟨h1, h2⟩ := pieces_of_sep hc cs
  rw [tableLine, if_neg (by rw [← blank_iff]; simp [hhash, hblank]), h1, h2]
  rfl

theorem tableLine_eq_none_iff {line : Text} :
    tableLine line = none ↔ line.head? = some '#' ∨ Blank line := by
  unfold tableLine
  rw [blank_iff]
  split <;> simp_all

theorem filterLine_eq (line : Text) :
    filterLine line = if Blank line then none else some (field1 line, field2 line) := rfl

theorem filterLine_eq_none_iff {line : Text} : filterLine line = none ↔ Blank line := by
  rw [filterLine_eq]
  split <;> simp_all

/-- A pair in column one: two fields, no blank before them and no `#`. -/
def PlainPair (line : Text) : Prop :=
  (∃ c ∈ line.head?, ¬ isBlank c ∧ c ≠ '#') ∧ field2 line ≠ []

theorem PlainPair.checked {line : Text} (h : PlainPair line) : Checked line := by
  obtain ⟨⟨c, hc, hblank, hhash⟩, h2⟩ := h
  cases line with
  | nil => cases hc
  | cons d ds =>
    obtain rfl : d = c := by simpa using hc
    refine ⟨?_, h2⟩
    rw [field1, fields_word hblank]
    simpa using hhash

/-- check-pairs.sh and the table see the same in a line exactly when it is blank, a
comment in column one or a pair in column one. -/
theorem check_eq_table_iff (line : Text) :
    (checkLine line).pair? = tableLine line ↔
      Blank line ∨ line.head? = some '#' ∨ PlainPair line := by
  rw [checkLine_pair?]
  by_cases hnone : line.head? = some '#' ∨ Blank line
  · have hchecked : ¬ Checked line := fun h => hnone.elim h.head_ne_hash h.not_blank
    rw [if_neg hchecked, tableLine_eq_none_iff.mpr hnone]
    simp only [true_iff]
    tauto
  · cases line with
    | nil => exact absurd (Or.inr fields_nil) hnone
    | cons c cs =>
      have hhash : c ≠ '#' := by simpa using fun h => hnone (Or.inl h)
      have hblank : ¬ Blank (c :: cs) := fun h => hnone (Or.inr h)
      by_cases hc : isBlank c
      · -- indented: the table takes the empty piece for the C name
        rw [tableLine_indented hc hblank]
        constructor
        · intro h
          split at h
          · have hfirst := (Prod.mk.inj (Option.some.inj h)).1
            exact absurd hfirst (field1_ne_nil hblank)
          · cases h
        · rintro (h | h | ⟨⟨d, hd, hd', _⟩, _⟩)
          · exact absurd h hblank
          · exact absurd (by simpa using h) hhash
          · obtain rfl : c = d := by simpa using hd
            exact absurd hc hd'
      · rw [tableLine_word hc hhash]
        constructor
        · intro h
          split at h
          · rename_i hchecked
            exact Or.inr (Or.inr ⟨⟨c, rfl, hc, hhash⟩, hchecked.2⟩)
          · cases h
        · rintro (h | h | h)
          · exact absurd h hblank
          · exact absurd (by simpa using h) hhash
          · rw [if_pos h.checked]

theorem check_eq_filter_iff (line : Text) :
    (checkLine line).pair? = filterLine line ↔ Blank line ∨ Checked line := by
  rw [checkLine_pair?, filterLine_eq]
  by_cases hblank : Blank line
  · rw [if_pos hblank, if_neg fun h => h.not_blank hblank]
    simp [hblank]
  · by_cases hchecked : Checked line <;> simp [hblank, hchecked]

/-! ## The readers over a whole text -/

/-- A reader of awk's records that passes over empty ones agrees with check-pairs.sh when
it does on every terminated line and finds nothing in what follows the last one. -/
theorem checkPairs_eq_iff {reader : Text → Option (Text × Text)} (hempty : reader [] = none)
    (hyields : ∀ line, Checked line → reader line ≠ none) (text : Text) :
    checkPairs text = (awkRecords text).filterMap reader ↔
      (∀ line ∈ shellLines text, (checkLine line).pair? = reader line) ∧
        reader (remainder '\n' text) = none := by
  have hmore : ∀ line, ((checkLine line).pair?).isSome → (reader line).isSome := by
    intro line h
    rw [checkLine_pair?] at h
    split at h
    · exact Option.isSome_iff_ne_none.mpr (hyields line ‹_›)
    · cases h
  have h := filterMap_agree_iff hmore (shellLines text)
    (if remainder '\n' text = [] then [] else [remainder '\n' text])
  refine h.trans (and_congr_right fun _ => ?_)
  split
  · simp [*]
  · simp

theorem Checked.tableLine_ne_none {line : Text} (h : Checked line) : tableLine line ≠ none := by
  rw [Ne, tableLine_eq_none_iff, not_or]
  exact ⟨h.head_ne_hash, h.not_blank⟩

theorem checkPairs_eq_tablePairs_iff (text : Text) :
    checkPairs text = tablePairs text ↔
      (∀ line ∈ shellLines text, Blank line ∨ line.head? = some '#' ∨ PlainPair line) ∧
      ((remainder '\n' text).head? = some '#' ∨ Blank (remainder '\n' text)) := by
  rw [tablePairs, checkPairs_eq_iff (by decide) (fun _ h => h.tableLine_ne_none),
    tableLine_eq_none_iff]
  simp only [check_eq_table_iff]

theorem checkPairs_eq_filterPairs_iff (text : Text) :
    checkPairs text = filterPairs text ↔
      (∀ line ∈ shellLines text, Blank line ∨ Checked line) ∧ Blank (remainder '\n' text) := by
  rw [filterPairs, checkPairs_eq_iff (by decide)
    (fun _ h => by rw [Ne, filterLine_eq_none_iff]; exact h.not_blank), filterLine_eq_none_iff]
  simp only [check_eq_filter_iff]

/-- The three readers agree exactly on the files all of whose lines are blank or are
pairs in column one, with nothing but blanks after the last newline. -/
theorem readers_agree_iff (text : Text) :
    (checkPairs text = tablePairs text ∧ checkPairs text = filterPairs text) ↔
      (∀ line ∈ shellLines text, Blank line ∨ PlainPair line) ∧ Blank (remainder '\n' text) := by
  rw [checkPairs_eq_tablePairs_iff, checkPairs_eq_filterPairs_iff]
  constructor
  · rintro ⟨⟨htable, _⟩, hfilter, hrest⟩
    refine ⟨?_, hrest⟩
    intro line hline
    rcases hfilter line hline with hblank | hchecked
    · exact Or.inl hblank
    · rcases htable line hline with hblank | hhash | hplain
      · exact Or.inl hblank
      · exact absurd hhash hchecked.head_ne_hash
      · exact Or.inr hplain
  · rintro ⟨hlines, hrest⟩
    refine ⟨⟨?_, Or.inr hrest⟩, ?_, hrest⟩
    · intro line hline
      exact (hlines line hline).imp_right Or.inr
    · intro line hline
      exact (hlines line hline).imp_right PlainPair.checked

/-- An indented pair is checked under its names and is a row for no benchmark, and a
commented one is picked by the filter. -/
theorem readers_disagree :
    ¬ (checkPairs "  hash_int HashInt\n".toList = tablePairs "  hash_int HashInt\n".toList ∧
      checkPairs "  hash_int HashInt\n".toList = filterPairs "  hash_int HashInt\n".toList) ∧
    checkPairs "  hash_int HashInt\n".toList = [("hash_int".toList, "HashInt".toList)] ∧
    tablePairs "  hash_int HashInt\n".toList = [([], "hash_int".toList)] ∧
    checkPairs "#hash_int HashInt\n".toList = [] ∧
    filterPairs "#hash_int HashInt\n".toList = [("#hash_int".toList, "HashInt".toList)] ∧
    checkPairs "hash_int HashInt".toList = [] ∧
    tablePairs "hash_int HashInt".toList = [("hash_int".toList, "HashInt".toList)] := by
  decide

end BurrowBench.Tools
