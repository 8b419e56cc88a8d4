import Mathlib.Data.Rat.Floor
import Mathlib.Tactic.FieldSimp
import Mathlib.Tactic.Positivity
import Mathlib.Tactic.Ring

/-! # Numbers as decimal text

Fixed-point text rounds to the nearest multiple of a power of ten, a tie to the even one.
Reading it back with a scanner for signed decimals gives the rounded number and leaves
nothing over.
-/
namespace BurrowBench.DecimalText

/-! ## Writing -/

def roundHalfEven (q : ℚ) : ℤ :=
  let low := ⌊q⌋
  if q - low < 1 / 2 then low
  else if q - low > 1 / 2 then low + 1
  else if low % 2 = 0 then low else low + 1

def formatInt (i : ℤ) : List Char :=
  (if i < 0 then ['-'] else []) ++ Nat.toDigits 10 i.natAbs

/-- The magnitude in units of the last of `k` places. -/
def fixedUnits (k : ℕ) (q : ℚ) : ℕ := (roundHalfEven (|q| * 10 ^ k)).toNat

/-- `%.kf` -/
def formatFixed (k : ℕ) (q : ℚ) : List Char :=
  (if q < 0 then ['-'] else []) ++ Nat.toDigits 10 (fixedUnits k q / 10 ^ k) ++
    if k = 0 then [] else '.' :: (Nat.toDigits 10 (fixedUnits k q % 10 ^ k)).leftpad k '0'

def fixedValue (k : ℕ) (q : ℚ) : ℚ :=
  if q < 0 then -(fixedUnits k q / 10 ^ k) else fixedUnits k q / 10 ^ k

/-! ## Reading -/

def scanSign : List Char → Bool × List Char
  | '-' :: s => (true, s)
  | '+' :: s => (false, s)
  | s => (false, s)

def scanDigits (s : List Char) : List Char × List Char :=
  (s.takeWhile Char.isDigit, s.dropWhile Char.isDigit)

def scanFraction : List Char → List Char × List Char
  | '.' :: s => scanDigits s
  | s => ([], s)

/-- An exponent needs a digit; without one the letter is not part of the number. -/
def scanExponent : List Char → ℤ × List Char
  | [] => (0, [])
  | e :: s =>
    let (negative, s') := scanSign s
    let (digits, rest) := scanDigits s'
    if (e = 'e' ∨ e = 'E') ∧ digits ≠ [] then
      (if negative then -Nat.ofDigitChars 10 digits 0 else Nat.ofDigitChars 10 digits 0, rest)
    else (0, e :: s)

def scanMagnitude (s : List Char) : Option (ℚ × List Char) :=
  let (whole, s) := scanDigits s
  let (fraction, s) := scanFraction s
  let (exponent, rest) := scanExponent s
  if whole ++ fraction = [] then none
  else some ((Nat.ofDigitChars 10 (whole ++ fraction) 0 : ℚ) / 10 ^ fraction.length * 10 ^ exponent, rest)

/-- The longest number a text starts with, and what follows it. -/
def scanNumber (s : List Char) : Option (ℚ × List Char) :=
  let (negative, s) := scanSign s
  (scanMagnitude s).map fun m => (if negative then -m.1 else m.1, m.2)

/-! ## What text of a number is made of -/

def IsNumeral (c : Char) : Prop := c.isDigit ∨ c = '-' ∨ c = '.'

theorem isDigit_toDigits {n : ℕ} : ∀ c ∈ Nat.toDigits 10 n, c.isDigit :=
  fun _ hc => Nat.isDigit_of_mem_toDigits (by omega) le_rfl hc

theorem isDigit_leftpad {k n : ℕ} : ∀ c ∈ (Nat.toDigits 10 n).leftpad k '0', c.isDigit := by
  intro c hc
  rw [List.leftpad, List.mem_append, List.mem_replicate] at hc
  rcases hc with ⟨_, rfl⟩ | hc
  · decide
  · exact isDigit_toDigits c hc

theorem mem_formatInt {i : ℤ} {c : Char} (hc : c ∈ formatInt i) : IsNumeral c := by
  rcases List.mem_append.mp hc with hsign | hdigit
  · split at hsign
    · exact Or.inr (Or.inl (List.mem_singleton.mp hsign))
    · cases hsign
  · exact Or.inl (isDigit_toDigits c hdigit)

theorem mem_formatFixed {k : ℕ} {q : ℚ} {c : Char} (hc : c ∈ formatFixed k q) : IsNumeral c := by
  rcases List.mem_append.mp hc with hc | hfraction
  · rcases List.mem_append.mp hc with hsign | hdigit
    · split at hsign
      · exact Or.inr (Or.inl (List.mem_singleton.mp hsign))
      · cases hsign
    · exact Or.inl (isDigit_toDigits c hdigit)
  · split at hfraction
    · cases hfraction
    · rcases List.mem_cons.mp hfraction with rfl | hdigit
      · exact Or.inr (Or.inr rfl)
      · exact Or.inl (isDigit_leftpad c hdigit)

/-! ## Reading what was written -/

theorem scanSign_of_digit {c : Char} (h : c.isDigit) (s : List Char) :
    scanSign (c :: s) = (false, c :: s) := by
  unfold scanSign
  split
  · exact absurd h (by rename_i heq; cases heq; decide)
  · exact absurd h (by rename_i heq; cases heq; decide)
  · rfl

theorem scanDigits_append {digits s : List Char} (h : ∀ c ∈ digits, c.isDigit)
    (hs : ∀ c, s.head? = some c → ¬ c.isDigit) : scanDigits (digits ++ s) = (digits, s) := by
  have htake : s.takeWhile Char.isDigit = [] := by
    cases s with
    | nil => rfl
    | cons c cs => exact List.takeWhile_cons_of_neg (hs c rfl)
  have hdrop : s.dropWhile Char.isDigit = s := by
    cases s with
    | nil => rfl
    | cons c cs => exact List.dropWhile_cons_of_neg (hs c rfl)
  rw [scanDigits, List.takeWhile_append_of_pos h, List.dropWhile_append_of_pos h, htake, hdrop,
    List.append_nil]

theorem scanMagnitude_fixed {whole fraction : List Char} (hwhole : ∀ c ∈ whole, c.isDigit)
    (hne : whole ≠ []) (hfraction : ∀ c ∈ fraction, c.isDigit) :
    scanMagnitude (whole ++ '.' :: fraction) =
      some ((Nat.ofDigitChars 10 (whole ++ fraction) 0 : ℚ) / 10 ^ fraction.length, []) := by
  have hfirst : scanDigits (whole ++ '.' :: fraction) = (whole, '.' :: fraction) := by
    apply scanDigits_append hwhole
    intro c hc
    obtain rfl : '.' = c := Option.some.inj hc
    decide
  have hsecond : scanDigits fraction = (fraction, []) := by
    simpa using scanDigits_append hfraction (s := []) (by simp)
  simp only [scanMagnitude, hfirst, scanFraction, hsecond, scanExponent]
  rw [if_neg (by simp [hne]), zpow_zero, mul_one]

theorem ofDigitChars_units {m k : ℕ} :
    Nat.ofDigitChars 10 (Nat.toDigits 10 (m / 10 ^ k) ++ (Nat.toDigits 10 (m % 10 ^ k)).leftpad k '0') 0
      = m / 10 ^ k * 10 ^ ((Nat.toDigits 10 (m % 10 ^ k)).leftpad k '0').length + m % 10 ^ k := by
  have hpad : Nat.ofDigitChars 10 ((Nat.toDigits 10 (m % 10 ^ k)).leftpad k '0') 0 = m % 10 ^ k := by
    rw [List.leftpad, Nat.ofDigitChars_append, Nat.ofDigitChars_replicate_zero, Nat.mul_zero,
      Nat.ofDigitChars_ten_toDigits]
  rw [Nat.ofDigitChars_append, Nat.ofDigitChars_ten_toDigits, Nat.ofDigitChars_eq_ofDigitChars_zero, hpad,
    Nat.mul_comm]

theorem length_fraction {m k : ℕ} (hk : k ≠ 0) :
    ((Nat.toDigits 10 (m % 10 ^ k)).leftpad k '0').length = k := by
  have hlen : (Nat.toDigits 10 (m % 10 ^ k)).length ≤ k :=
    (Nat.length_toDigits_le_iff (by omega) (Nat.pos_of_ne_zero hk)).mpr (Nat.mod_lt _ (by positivity))
  rw [List.length_leftpad]
  omega

theorem scanMagnitude_units {k : ℕ} (hk : k ≠ 0) (m : ℕ) :
    scanMagnitude (Nat.toDigits 10 (m / 10 ^ k) ++
      '.' :: (Nat.toDigits 10 (m % 10 ^ k)).leftpad k '0') = some ((m : ℚ) / 10 ^ k, []) := by
  rw [scanMagnitude_fixed isDigit_toDigits Nat.toDigits_ne_nil isDigit_leftpad, ofDigitChars_units,
    length_fraction hk, Nat.div_add_mod']

theorem scanNumber_formatFixed {k : ℕ} (hk : k ≠ 0) (q : ℚ) :
    scanNumber (formatFixed k q) = some (fixedValue k q, []) := by
  have hunits := scanMagnitude_units hk (fixedUnits k q)
  unfold formatFixed fixedValue scanNumber
  rw [if_neg hk]
  by_cases hq : q < 0
  · simp only [if_pos hq, List.cons_append, List.nil_append, scanSign, hunits, Option.map_some]
    rfl
  · rw [if_neg hq, if_neg hq, List.nil_append]
    obtain ⟨c, cs, hdigits⟩ := List.exists_cons_of_ne_nil (Nat.toDigits_ne_nil (b := 10) (n := fixedUnits k q / 10 ^ k))
    have hc : c.isDigit := isDigit_toDigits c (hdigits ▸ List.mem_cons_self)
    rw [hdigits] at hunits ⊢
    rw [List.cons_append] at hunits ⊢
    simp only [scanSign_of_digit hc, hunits, Option.map_some]
    rfl

theorem fixedValue_nonneg {k : ℕ} {q : ℚ} (hq : 0 ≤ q) : 0 ≤ fixedValue k q := by
  rw [fixedValue, if_neg hq.not_gt]
  positivity

/-! ## Digits with zeros before them -/

theorem leftpad_injective (k : ℕ) : Function.Injective fun n => (Nat.toDigits 10 n).leftpad k '0' := by
  have hread : ∀ n, Nat.ofDigitChars 10 ((Nat.toDigits 10 n).leftpad k '0') 0 = n := by
    intro n
    rw [List.leftpad, Nat.ofDigitChars_append, Nat.ofDigitChars_replicate_zero, Nat.mul_zero,
      Nat.ofDigitChars_ten_toDigits]
  intro m n h
  rw [← hread m, ← hread n]
  exact congrArg (Nat.ofDigitChars 10 · 0) h

theorem length_leftpad {n k : ℕ} (hk : 0 < k) (h : n < 10 ^ k) :
    ((Nat.toDigits 10 n).leftpad k '0').length = k := by
  have hlen := (Nat.length_toDigits_le_iff (b := 10) (by omega) hk).mpr h
  rw [List.length_leftpad]
  omega

end BurrowBench.DecimalText
