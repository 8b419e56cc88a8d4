import BurrowBench.Foundation.LinePattern
import BurrowBench.Harness.NameFilter
import BurrowBench.Tools.Pairs

/-! # What check-pairs.sh accepts

The script looks each field of a pair up among the declared names with `grep -qx`, which
takes the field for a pattern. The names are made of letters, digits and underscores; a
field may hold anything but blanks.
-/
namespace BurrowBench.Tools.CheckPairs
open FieldSplitting LinePattern Harness

/-- The exit status of `grep -qx arg` on some lines. Letters, digits and the underscore
stand for themselves. -/
structure Grep where
  exit : Text → List Text → ℕ
  word : ∀ arg lines, Identifier arg → (exit arg lines = 0 ↔ arg ∈ lines)

def Wordlike (name : Text) : Prop := ∀ c ∈ name, isWord c

instance (name : Text) : Decidable (Wordlike name) :=
  decidable_of_iff (name.all isWord) List.all_eq_true

/-- What the two `grep -ho` find in the sources. -/
structure Names where
  cNames : List Text
  goNames : List Text
  c_wordlike : ∀ name ∈ cNames, Wordlike name
  go_wordlike : ∀ name ∈ goNames, Wordlike name

/-- The lines of `printf '%s\n' "$names"`: the substitution drops the newlines at the end,
and one line is printed for no names at all. -/
def printed (names : List Text) : List Text :=
  let kept := names.rdropWhile (· = [])
  if kept = [] then [[]] else kept

structure Check where
  status : ℕ
  errors : List Text
  deriving DecidableEq

def Check.fail (s : Check) (message : Text) : Check := ⟨1, s.errors ++ [message]⟩

/-- `if ! printf '%s\n' "$names" | grep -qx "$field"` -/
def checkName (grep : Grep) (names : List Text) (field message : Text) (s : Check) : Check :=
  if grep.exit field (printed names) = 0 then s else s.fail message

def checkPairLine (grep : Grep) (names : Names) (s : Check) (raw : Text) : Check :=
  match checkLine raw with
  | .skip => s
  | .malformed => s.fail ("pairs.txt: needs two columns: ".toList ++ readLine raw)
  | .pair c g =>
    let s := checkName grep names.cNames c ("pairs.txt: no C benchmark called ".toList ++ c) s
    checkName grep names.goNames g ("pairs.txt: no Go benchmark called Benchmark".toList ++ g) s

def checkPairsSh (grep : Grep) (names : Names) (text : Text) : Check :=
  (shellLines text).foldl (checkPairLine grep names) ⟨0, []⟩

/-- A line that the script complains about. -/
def Refused (grep : Grep) (names : Names) (raw : Text) : Prop :=
  match checkLine raw with
  | .skip => False
  | .malformed => True
  | .pair c g => grep.exit c (printed names.cNames) ≠ 0 ∨ grep.exit g (printed names.goNames) ≠ 0

variable {grep : Grep} {names : Names} {s : Check}

theorem checkName_status (list : List Text) (field message : Text) :
    (checkName grep list field message s).status = 0 ↔
      s.status = 0 ∧ grep.exit field (printed list) = 0 := by
  unfold checkName
  split <;> simp [Check.fail, *]

theorem checkPairLine_status (raw : Text) :
    (checkPairLine grep names s raw).status = 0 ↔ s.status = 0 ∧ ¬ Refused grep names raw := by
  unfold checkPairLine Refused
  cases checkLine raw with
  | skip => simp
  | malformed => simp [Check.fail]
  | pair c g => simp [checkName_status, and_assoc]

theorem foldl_checkPairLine_status (lines : List Text) (s : Check) :
    (lines.foldl (checkPairLine grep names) s).status = 0 ↔
      s.status = 0 ∧ ∀ raw ∈ lines, ¬ Refused grep names raw := by
  induction lines generalizing s with
  | nil => simp
  | cons raw lines ih =>
    rw [List.foldl_cons, ih, checkPairLine_status, List.forall_mem_cons, and_assoc]

theorem mem_rdropWhile_nil {name : Text} (hne : name ≠ []) (list : List Text) :
    name ∈ list.rdropWhile (· = []) ↔ name ∈ list := by
  induction list using List.reverseRecOn with
  | nil => simp
  | append_singleton list other ih =>
    by_cases hother : other = []
    · rw [List.rdropWhile_concat_pos _ _ _ (by simpa using hother), ih]
      simp [hother, hne]
    · rw [List.rdropWhile_concat_neg _ _ _ (by simpa using hother)]

theorem mem_printed {name : Text} {list : List Text} (hne : name ≠ []) :
    name ∈ printed list ↔ name ∈ list := by
  have hkept := mem_rdropWhile_nil hne list
  unfold printed
  dsimp only
  split
  · rename_i hnil
    rw [hnil] at hkept
    simpa [hne] using hkept
  · exact hkept

/-- A word is found exactly when it is declared. -/
theorem word_accepted_iff (grep : Grep) {field : Text} (h : Identifier field) (list : List Text) :
    grep.exit field (printed list) = 0 ↔ field ∈ list := by
  rw [grep.word field _ h, mem_printed h.1]

theorem checkLine_pair_ne_nil {raw c g : Text} (h : checkLine raw = .pair c g) : c ≠ [] ∧ g ≠ [] := by
  unfold checkLine at h
  dsimp only at h
  split at h
  · cases h
  · split at h
    · cases h
    · rename_i hfields
      obtain ⟨rfl, rfl⟩ := LineCheck.pair.inj h
      exact not_or.mp hfields

/-! ## Soundness -/

def Declared (names : Names) (c g : Text) : Prop := c ∈ names.cNames ∧ g ∈ names.goNames

/-- What check-pairs.sh is for: a file that it lets through pairs declared names only. -/
def Sound (grep : Grep) (names : Names) (text : Text) : Prop :=
  (checkPairsSh grep names text).status = 0 →
    ∀ raw ∈ awkRecords text, ∀ c g, checkLine raw = .pair c g → Declared names c g

theorem awkRecords_of_terminated {text : Text} (hend : remainder '\n' text = []) :
    awkRecords text = shellLines text := by
  rw [awkRecords, records, if_pos hend, List.append_nil, shellLines]

theorem exit_eq_zero_iff (grep : Grep) (names : Names) {text : Text} (hend : remainder '\n' text = []) :
    (checkPairsSh grep names text).status = 0 ↔ ∀ raw ∈ awkRecords text, ¬ Refused grep names raw := by
  rw [awkRecords_of_terminated hend, checkPairsSh, foldl_checkPairLine_status]
  simp

theorem not_refused_iff {raw c g : Text} (h : checkLine raw = .pair c g) :
    ¬ Refused grep names raw ↔
      grep.exit c (printed names.cNames) = 0 ∧ grep.exit g (printed names.goNames) = 0 := by
  unfold Refused
  rw [h]
  simp

/-- A file whose last line is terminated is checked soundly exactly when some line of it is
refused or every field of a pair is a word. -/
theorem check_sound_iff (grep : Grep) (names : Names) (text : Text) (hend : remainder '\n' text = []) :
    Sound grep names text ↔
      (∃ raw ∈ awkRecords text, Refused grep names raw) ∨
        ∀ raw ∈ awkRecords text, ∀ c g, checkLine raw = .pair c g → Identifier c ∧ Identifier g := by
  have hexit := exit_eq_zero_iff grep names hend
  constructor
  · intro hsound
    by_cases hrefused : ∃ raw ∈ awkRecords text, Refused grep names raw
    · exact Or.inl hrefused
    · have hzero := hexit.mpr fun raw hraw h => hrefused ⟨raw, hraw, h⟩
      refine Or.inr fun raw hraw c g hpair => ?_
      obtain ⟨hc, hg⟩ := hsound hzero raw hraw c g hpair
      obtain ⟨hcne, hgne⟩ := checkLine_pair_ne_nil hpair
      exact ⟨⟨hcne, names.c_wordlike c hc⟩, hgne, names.go_wordlike g hg⟩
  · rintro (⟨raw, hraw, hrefused⟩ | hwords) hzero
    · exact absurd hrefused (hexit.mp hzero raw hraw)
    · intro raw hraw c g hpair
      obtain ⟨hc, hg⟩ := (not_refused_iff hpair).mp (hexit.mp hzero raw hraw)
      obtain ⟨hcword, hgword⟩ := hwords raw hraw c g hpair
      exact ⟨(word_accepted_iff grep hcword _).mp hc, (word_accepted_iff grep hgword _).mp hg⟩

/-! ## A field with a dot -/

def bracketLike (c : Char) : Bool := c == '[' || c == ']' || c == '\\' || c == '^' || c == '$'

/-- grep on arguments that are no option and hold no bracket, backslash or anchor. -/
def dotStarExit (arg : Text) (lines : List Text) : ℕ :=
  if arg.head? = some '-' ∨ arg.any bracketLike then 2
  else if lines.any (matchesWhole (items '.' '*' arg)) then 0
  else 1

theorem dotStarExit_word (arg : Text) (lines : List Text) (h : Identifier arg) :
    dotStarExit arg lines = 0 ↔ arg ∈ lines := by
  have hplain : ∀ c ∈ arg, c ≠ '.' ∧ c ≠ '*' := by
    intro c hc
    have hword := h.2 c hc
    constructor <;> rintro rfl <;> exact absurd hword (by decide)
  have hordinary : ¬ (arg.head? = some '-' ∨ arg.any bracketLike) := by
    rintro (hdash | hbracket)
    · exact absurd (h.2 '-' (List.mem_of_head? hdash)) (by decide)
    · obtain ⟨c, hc, hlike⟩ := List.any_eq_true.mp hbracket
      have hword := h.2 c hc
      simp only [bracketLike, Bool.or_eq_true, beq_iff_eq] at hlike
      rcases hlike with (((rfl | rfl) | rfl) | rfl) | rfl <;> exact absurd hword (by decide)
  rw [dotStarExit, if_neg hordinary, ← any_matchesWhole_iff hplain]
  split <;> simp [*]

def dotStarGrep : Grep := ⟨dotStarExit, dotStarExit_word⟩

def hashNames : Names where
  cNames := ["hash_int".toList]
  goNames := ["HashInt".toList]
  c_wordlike := by decide
  go_wordlike := by decide

theorem check_sound_iff_hash :
    Sound dotStarGrep hashNames "hash_int HashInt\n".toList ↔
      (∃ raw ∈ awkRecords "hash_int HashInt\n".toList, Refused dotStarGrep hashNames raw) ∨
        ∀ raw ∈ awkRecords "hash_int HashInt\n".toList, ∀ c g, checkLine raw = .pair c g →
          Identifier c ∧ Identifier g :=
  check_sound_iff dotStarGrep hashNames _ (by decide)

/-- The field hash.int is let through where only hash_int is declared. -/
theorem dot_let_through : ¬ ∀ (names : Names) (text : Text), remainder '\n' text = [] →
    Sound dotStarGrep names text := by
  intro h
  have hdeclared := h hashNames "hash.int HashInt\n".toList (by decide) (by decide)
    "hash.int HashInt".toList (by decide) "hash.int".toList "HashInt".toList (by decide)
  exact absurd hdeclared.1 (by decide)

end BurrowBench.Tools.CheckPairs
