import BurrowBench.Foundation.CheckedArithmetic
import BurrowBench.Foundation.DecimalText
import BurrowBench.Harness.Timer

/-! # The arguments of the harness

Options are set in the order they are given, and an argument that is none of them ends the
program. What the C library makes of the text of a double, and the conversion of seconds to
nanoseconds, are parameters.
-/
namespace BurrowBench.Harness
open CheckedArithmetic DecimalText

/-- The doubles of the C side: what atof reads, and `(int64_t)(seconds * 1e9)` where that is
defined. -/
structure Doubles (δ : Type) where
  one : δ
  atof : Text → δ
  nanoseconds : δ → Option ℤ

variable {δ : Type}

def isSpace (c : Char) : Bool :=
  c == ' ' || c == '\t' || c == '\n' || c == '\x0b' || c == '\x0c' || c == '\r'

/-- `strtoll(t, NULL, 10)`, which stops at the ends of the range. -/
def strtoll (t : Text) : ℤ :=
  let (negative, s) := scanSign (t.dropWhile isSpace)
  let v : ℤ := Nat.ofDigitChars 10 (s.takeWhile Char.isDigit) 0
  max (-2 ^ 63) (min (2 ^ 63 - 1) (if negative then -v else v))

def strtolInt (t : Text) : ℤ := (BitVec.ofInt 32 (strtoll t)).toInt

structure Options (δ : Type) where
  filter : Option Text
  seconds : δ
  fixedN : ℤ
  count : ℤ
  tsv : Bool
  list : Bool

def defaults (D : Doubles δ) : Options δ where
  filter := none
  seconds := D.one
  fixedN := 0
  count := 1
  tsv := false
  list := false

/-- The argument loop of bench_main, from the options set so far. -/
def parseFrom (D : Doubles δ) : Options δ → List Text → Option (Options δ)
  | o, [] => some o
  | o, a :: rest =>
    match rest with
    | value :: rest' =>
      if a = "-run".toList then parseFrom D { o with filter := some value } rest'
      else if a = "-time".toList then parseFrom D { o with seconds := D.atof value } rest'
      else if a = "-n".toList then parseFrom D { o with fixedN := strtoll value } rest'
      else if a = "-count".toList then parseFrom D { o with count := strtolInt value } rest'
      else if a = "-tsv".toList then parseFrom D { o with tsv := true } (value :: rest')
      else if a = "-list".toList then parseFrom D { o with list := true } (value :: rest')
      else none
    | [] =>
      if a = "-tsv".toList then some { o with tsv := true }
      else if a = "-list".toList then some { o with list := true }
      else none

def parseArgs (D : Doubles δ) (args : List Text) : Option (Options δ) := parseFrom D (defaults D) args

/-! ## Decimal seconds -/

/-- Seconds written as decimals and kept exact, where a count of nanoseconds fits an int64. -/
def decimalSeconds : Doubles ℚ where
  one := 1
  atof t := ((scanNumber (t.dropWhile isSpace)).map Prod.fst).getD 0
  nanoseconds seconds :=
    checked 64 (if 0 ≤ seconds then ⌊seconds * 1000000000⌋ else ⌈seconds * 1000000000⌉)

end BurrowBench.Harness
