import BurrowBench.Tools.TableInputs

/-! # What go test prints

A benchmark line starts with `Benchmark`, the Go name and, after a dash, the number of
processors; a value stands in front of each `ns/op`. The readings of a Go name are told
here from the text of the lines, and the loop of the table collects exactly these.
-/
namespace BurrowBench.Tools
open DecimalText FieldSplitting Harness

def Digits (t : Text) : Prop := t ≠ [] ∧ ∀ c ∈ t, c.isDigit

/-- go test prints digits or digits with a point among them; awk reads any other text by the
number it starts with. -/
inductive ReadAs : Text → ℚ → Prop
  | whole {digits : Text} (h : Digits digits) : ReadAs digits (Nat.ofDigitChars 10 digits 0 : ℕ)
  | fixed {digits decimals : Text} (h : Digits digits) (hd : Digits decimals) :
    ReadAs (digits ++ '.' :: decimals)
      ((Nat.ofDigitChars 10 (digits ++ decimals) 0 : ℕ) / 10 ^ decimals.length)
  | other {t : Text} (hwhole : ¬ Digits t)
      (hfixed : ∀ digits decimals, Digits digits → Digits decimals → t ≠ digits ++ '.' :: decimals) :
    ReadAs t (toNumber t)

/-- The values in front of each `ns/op`, in fields that follow `before`. -/
inductive NsPerOp : Text → List Text → List ℚ → Prop
  | nil {before : Text} : NsPerOp before [] []
  | unit {before : Text} {fields : List Text} {v : ℚ} {vs : List ℚ} (hv : ReadAs before v)
      (h : NsPerOp "ns/op".toList fields vs) : NsPerOp before ("ns/op".toList :: fields) (v :: vs)
  | field {before f : Text} {fields : List Text} {vs : List ℚ} (hf : f ≠ "ns/op".toList)
      (h : NsPerOp f fields vs) : NsPerOp before (f :: fields) vs

/-- `BenchmarkHashInt-8`, or without the dash and the number. -/
inductive NamedFor (g : Text) : Text → Prop
  | suffixed {digits : Text} (h : Digits digits) :
    NamedFor g ("Benchmark".toList ++ (g ++ '-' :: digits))
  | bare (h : ∀ base digits, Digits digits → "Benchmark".toList ++ g ≠ base ++ '-' :: digits) :
    NamedFor g ("Benchmark".toList ++ g)

/-- The ns/op values of the lines of a benchmark, lines of less than three fields left out. -/
inductive ReadingsOf (g : Text) : List Text → List ℚ → Prop
  | nil : ReadingsOf g [] []
  | named {line first : Text} {fields lines : List Text} {us vs : List ℚ}
      (hline : Spelled isBlank line (first :: fields)) (hlen : 2 ≤ fields.length)
      (hname : NamedFor g first) (hvalues : NsPerOp first fields us) (h : ReadingsOf g lines vs) :
    ReadingsOf g (line :: lines) (us ++ vs)
  | skipped {line first : Text} {fields lines : List Text} {vs : List ℚ}
      (hline : Spelled isBlank line (first :: fields))
      (hskip : fields.length < 2 ∨ ¬ NamedFor g first) (h : ReadingsOf g lines vs) :
    ReadingsOf g (line :: lines) vs

/-! ## The numbers -/

theorem dropWhile_isBlank_digits {digits : Text} (h : Digits digits) (s : Text) :
    (digits ++ s).dropWhile isBlank = digits ++ s := by
  obtain ⟨c, cs, rfl⟩ := List.exists_cons_of_ne_nil h.1
  apply List.dropWhile_cons_of_neg
  intro hblank
  have hc := h.2 c List.mem_cons_self
  simp only [isBlank, Bool.or_eq_true, beq_iff_eq] at hblank
  rcases hblank with rfl | rfl <;> exact absurd hc (by decide)

theorem scanNumber_digits {digits : Text} (h : Digits digits) (s : Text) :
    scanNumber (digits ++ s) = scanMagnitude (digits ++ s) := by
  obtain ⟨c, cs, rfl⟩ := List.exists_cons_of_ne_nil h.1
  rw [List.cons_append, scanNumber, scanSign_of_digit (h.2 c List.mem_cons_self)]
  simp

theorem toNumber_whole {digits : Text} (h : Digits digits) :
    toNumber digits = (Nat.ofDigitChars 10 digits 0 : ℕ) := by
  have hdrop := dropWhile_isBlank_digits h []
  have hscan := scanNumber_digits h []
  have hsplit := scanDigits_append h.2 (s := []) (by simp)
  rw [List.append_nil] at hdrop hscan hsplit
  rw [toNumber, hdrop, hscan]
  simp [scanMagnitude, hsplit, scanFraction, scanExponent, h.1]

theorem toNumber_fixed {digits decimals : Text} (h : Digits digits) (hd : Digits decimals) :
    toNumber (digits ++ '.' :: decimals) =
      (Nat.ofDigitChars 10 (digits ++ decimals) 0 : ℕ) / 10 ^ decimals.length := by
  rw [toNumber, dropWhile_isBlank_digits h, scanNumber_digits h, scanMagnitude_fixed h.2 h.1 hd.2]
  rfl

theorem readAs_iff {t : Text} {q : ℚ} : ReadAs t q ↔ q = toNumber t := by
  constructor
  · rintro (h | ⟨h, hd⟩ | _)
    · exact (toNumber_whole h).symm
    · exact (toNumber_fixed h hd).symm
    · rfl
  · rintro rfl
    by_cases hwhole : Digits t
    · rw [toNumber_whole hwhole]
      exact ReadAs.whole hwhole
    · by_cases hfixed : ∃ digits decimals, Digits digits ∧ Digits decimals ∧ t = digits ++ '.' :: decimals
      · obtain ⟨digits, decimals, h, hd, rfl⟩ := hfixed
        rw [toNumber_fixed h hd]
        exact ReadAs.fixed h hd
      · exact ReadAs.other hwhole fun digits decimals h hd heq =>
          hfixed ⟨digits, decimals, h, hd, heq⟩

/-! ## The values of a line -/

theorem nsPerOp_cons (before f : Text) (fields : List Text) :
    ((before :: f :: fields).zip (f :: fields)).filterMap
        (fun p => if p.2 = "ns/op".toList then some (toNumber p.1) else none) =
      (if f = "ns/op".toList then [toNumber before] else []) ++
        ((f :: fields).zip fields).filterMap
          (fun p => if p.2 = "ns/op".toList then some (toNumber p.1) else none) := by
  rw [List.zip_cons_cons, List.filterMap_cons]
  by_cases hf : f = "ns/op".toList
  · simp only [if_pos hf, List.cons_append, List.nil_append]
  · simp only [if_neg hf, List.nil_append]

theorem nsPerOp_iff {before : Text} {fields : List Text} {vs : List ℚ} :
    NsPerOp before fields vs ↔ vs = ((before :: fields).zip fields).filterMap
      (fun p => if p.2 = "ns/op".toList then some (toNumber p.1) else none) := by
  induction fields generalizing before vs with
  | nil =>
    constructor
    · rintro ⟨⟩
      rfl
    · rintro rfl
      exact NsPerOp.nil
  | cons f fields ih =>
    rw [nsPerOp_cons]
    by_cases hf : f = "ns/op".toList
    · subst hf
      rw [if_pos rfl]
      constructor
      · rintro (_ | ⟨hv, h⟩ | ⟨hf, h⟩)
        · rw [readAs_iff.mp hv, ih.mp h]
          rfl
        · exact absurd rfl hf
      · rintro rfl
        exact NsPerOp.unit (readAs_iff.mpr rfl) (ih.mpr rfl)
    · rw [if_neg hf, List.nil_append]
      constructor
      · rintro (_ | ⟨hv, h⟩ | ⟨_, h⟩)
        · exact absurd rfl hf
        · exact ih.mp h
      · rintro rfl
        exact NsPerOp.field hf (ih.mpr rfl)

/-! ## The name of a line -/

theorem stripSuffix_suffixed (base : Text) {digits : Text} (h : Digits digits) :
    stripSuffix (base ++ '-' :: digits) = base := by
  have hdrop : (base ++ '-' :: digits).rdropWhile Char.isDigit = base ++ ['-'] := by
    rw [List.append_cons, List.rdropWhile, List.reverse_append,
      List.dropWhile_append_of_pos fun c hc => h.2 c (List.mem_reverse.mp hc), ← List.rdropWhile,
      List.rdropWhile_concat_neg _ _ _ (by decide)]
  have hlen := List.length_pos_iff.mpr h.1
  simp only [stripSuffix, hdrop]
  rw [if_pos]
  · simp
  · simp only [List.length_append, List.length_cons, List.length_nil, List.getLast?_append]
    exact ⟨by omega, rfl⟩

theorem stripSuffix_bare {name : Text} (h : ∀ base digits, Digits digits → name ≠ base ++ '-' :: digits) :
    stripSuffix name = name := by
  simp only [stripSuffix]
  rw [if_neg]
  rintro ⟨hlen, hlast⟩
  have hsplit := List.rdropWhile_append_rtakeWhile (p := Char.isDigit) (l := name)
  obtain ⟨base, hbase⟩ : ∃ base, name.rdropWhile Char.isDigit = base ++ ['-'] :=
    List.getLast?_eq_some_iff.mp hlast
  apply h base (name.rtakeWhile Char.isDigit)
  · refine ⟨fun hnil => ?_, fun c hc => List.mem_rtakeWhile_imp hc⟩
    rw [hnil, List.append_nil] at hsplit
    rw [hsplit] at hlen
    exact lt_irrefl _ hlen
  · rw [hbase, List.append_assoc] at hsplit
    exact hsplit.symm

/-- A dash behind a text without one leaves that text in front. -/
theorem exists_suffix_of_dash {p rest base digits : Text} (hp : '-' ∉ p)
    (h : p ++ rest = base ++ '-' :: digits) : ∃ g, rest = g ++ '-' :: digits := by
  rcases List.append_eq_append_iff.mp h with ⟨g, _, hrest⟩ | ⟨g, hpre, htail⟩
  · exact ⟨g, hrest⟩
  · cases g with
    | nil => exact ⟨[], htail.symm⟩
    | cons c cs =>
      obtain ⟨rfl, _⟩ := List.cons_eq_cons.mp htail
      exact absurd (hpre ▸ List.mem_append_right base List.mem_cons_self) hp

theorem namedFor_iff {g first : Text} :
    NamedFor g first ↔ "Benchmark".toList <+: first ∧ stripPrefix (stripSuffix first) = g := by
  have hdrop : ∀ rest : Text, stripPrefix ("Benchmark".toList ++ rest) = rest := fun rest => by
    rw [stripPrefix, if_pos (List.prefix_append _ _), List.drop_left]
  constructor
  · rintro (h | h)
    · rw [← List.append_assoc, stripSuffix_suffixed _ h, hdrop]
      exact ⟨⟨_, (List.append_assoc ..).symm⟩, rfl⟩
    · rw [stripSuffix_bare h, hdrop]
      exact ⟨List.prefix_append _ _, rfl⟩
  · rintro ⟨⟨rest, rfl⟩, rfl⟩
    by_cases hsuffix : ∃ base digits, Digits digits ∧ "Benchmark".toList ++ rest = base ++ '-' :: digits
    · obtain ⟨base, digits, h, heq⟩ := hsuffix
      obtain ⟨g, rfl⟩ := exists_suffix_of_dash (by decide) heq
      rw [← List.append_assoc, stripSuffix_suffixed _ h, hdrop, List.append_assoc]
      exact NamedFor.suffixed h
    · have hbare : ∀ base digits, Digits digits → "Benchmark".toList ++ rest ≠ base ++ '-' :: digits :=
        fun base digits h heq => hsuffix ⟨base, digits, h, heq⟩
      rw [stripSuffix_bare hbare, hdrop]
      exact NamedFor.bare hbare

/-! ## The readings of a name -/

theorem isBenchmark_goName_iff {g line first : Text} {fields : List Text}
    (hline : Spelled isBlank line (first :: fields)) :
    IsBenchmark line ∧ goName line = g ↔ ¬ (fields.length < 2 ∨ ¬ NamedFor g first) := by
  rw [IsBenchmark, goName, ← spelled_iff.mp hline, namedFor_iff]
  simp only [List.length_cons, List.headD_cons]
  constructor
  · rintro ⟨⟨hlen, hstart⟩, hname⟩
    rintro (hshort | hother)
    · omega
    · exact hother ⟨hstart, hname⟩
  · intro h
    rw [not_or, not_not] at h
    exact ⟨⟨by omega, h.2.1⟩, h.2.2⟩

theorem nsPerOp_first {g first : Text} {fields : List Text} {vs : List ℚ} (hname : NamedFor g first) :
    NsPerOp first fields vs ↔ vs = nsPerOp (first :: fields) := by
  have hne : first ≠ "ns/op".toList := by
    rintro rfl
    exact absurd (namedFor_iff.mp hname).1 (by decide)
  rw [nsPerOp_iff, nsPerOp, nsPerOp_cons, if_neg hne, List.nil_append]

/-- The text fixes the readings of a name, and they are what the table collects. -/
theorem readingsOf_iff {g : Text} {lines : List Text} {vs : List ℚ} :
    ReadingsOf g lines vs ↔
      vs = (lines.filter fun line => IsBenchmark line ∧ goName line = g).flatMap
        fun line => nsPerOp (pieces isBlank line) := by
  induction lines generalizing vs with
  | nil =>
    constructor
    · rintro ⟨⟩
      rfl
    · rintro rfl
      exact ReadingsOf.nil
  | cons line lines ih =>
    rw [List.filter_cons]
    constructor
    · rintro (_ | ⟨hline, hlen, hname, hvalues, h⟩ | ⟨hline, hskip, h⟩)
      · have hkept := (isBenchmark_goName_iff hline).mpr (by rw [not_or, not_not]; exact ⟨by omega, hname⟩)
        rw [if_pos (decide_eq_true hkept), List.flatMap_cons, ← spelled_iff.mp hline,
          (nsPerOp_first hname).mp hvalues, ih.mp h]
      · have hdropped := (isBenchmark_goName_iff (g := g) hline).not.mpr (not_not.mpr hskip)
        rw [if_neg (by simpa using hdropped)]
        exact ih.mp h
    · rintro rfl
      have hline : Spelled isBlank line ((cut isBlank false line).1 :: (cut isBlank false line).2) :=
        spelled_pieces line
      by_cases hkept : IsBenchmark line ∧ goName line = g
      · have hfields := (isBenchmark_goName_iff hline).mp hkept
        rw [not_or, not_not] at hfields
        rw [if_pos (decide_eq_true hkept), List.flatMap_cons]
        exact ReadingsOf.named hline (by omega) hfields.2 ((nsPerOp_first hfields.2).mpr rfl)
          (ih.mpr rfl)
      · rw [if_neg (by simpa using hkept)]
        exact ReadingsOf.skipped hline (not_not.mp ((isBenchmark_goName_iff hline).not.mp hkept))
          (ih.mpr rfl)

theorem readingsOf_text (g text : Text) : ReadingsOf g (awkRecords text) (readingsOf g text) :=
  readingsOf_iff.mpr rfl

end BurrowBench.Tools
