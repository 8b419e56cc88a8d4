import BurrowBench.Harness.Timer
import Mathlib.Algebra.BigOperators.Group.List.Basic
import Mathlib.Data.List.Range

/-! # The rows over runes

Two rows do by hand what the library does: they count the bytes that begin a character, and add up
bytes where the others add up characters. The texts are given in bytes on the C side and in
characters on the Go side.
-/
namespace BurrowBench.Workloads.RuneRows
open String

/-- The text in bytes. -/
def encode (cs : List Char) : List UInt8 := cs.flatMap utf8EncodeChar

/-- A decoder of the first rune of a text, with the number of its bytes. Bytes that begin no
character are runes of their own. -/
structure Decoder where
  next : List UInt8 → ℕ × ℕ
  next_encode : ∀ (c : Char) (rest : List UInt8), next (utf8EncodeChar c ++ rest) = (c.toNat, c.utf8Size)
  next_error : ∀ p, p ≠ [] → (∀ (c : Char) (rest : List UInt8), p ≠ utf8EncodeChar c ++ rest) →
    next p = (0xFFFD, 1)

/-- The decoder of Lean's own strings is one. -/
instance : Inhabited Decoder where
  default := {
    next := fun p =>
      match p.toByteArray.utf8DecodeChar? 0 with
      | some c => (c.toNat, c.utf8Size)
      | none => (0xFFFD, 1)
    next_encode := by
      intro c rest
      rw [List.toByteArray_append, ByteArray.utf8DecodeChar?_utf8EncodeChar_append]
    next_error := by
      intro p _ h
      cases hdecode : p.toByteArray.utf8DecodeChar? 0 with
      | none => rfl
      | some c =>
        obtain ⟨l, hl⟩ := ByteArray.exists_of_utf8DecodeChar?_eq_some hdecode
        have hrest : l = l.data.toList.toByteArray := by
          apply ByteArray.ext
          rw [List.data_toByteArray, Array.toArray_toList]
        rw [hrest, ← List.toByteArray_append, List.toByteArray_inj] at hl
        exact absurd hl (h c _) }

/-! ## The rows -/

/-- `str_runes` and `str_next_rune`: where each rune begins, and the rune. Each is at least a byte
long. -/
def strRunes (D : Decoder) : ℕ → ℕ → List UInt8 → List (ℕ × ℕ)
  | 0, _, _ => []
  | _ + 1, _, [] => []
  | fuel + 1, i, b :: p =>
    (i, (D.next (b :: p)).1) :: strRunes D fuel (i + (D.next (b :: p)).2) ((b :: p).drop (D.next (b :: p)).2)

def runes (D : Decoder) (p : List UInt8) : List (ℕ × ℕ) := strRunes D p.length 0 p

/-- utf8_range_mixed and utf8_range_ascii -/
def rangeTotal (D : Decoder) (p : List UInt8) : ℕ := ((runes D p).map Prod.snd).foldl (· + ·) 0

/-- utf8_range_ascii_raw -/
def rangeTotalRaw (p : List UInt8) : ℕ := (p.map UInt8.toNat).foldl (· + ·) 0

/-- utf8_rune_count_ascii, _japanese and _long -/
def runeCount (D : Decoder) (p : List UInt8) : ℕ := (runes D p).length

/-- utf8_rune_count_long_raw -/
def runeCountRaw (p : List UInt8) : ℕ := p.foldl (fun n b => if b &&& 0xC0 ≠ 0x80 then n + 1 else n) 0

def ascii10 : List UInt8 := [0x30, 0x31, 0x32, 0x33, 0x34, 0x35, 0x36, 0x37, 0x38, 0x39]

def japanese10 : List UInt8 :=
  [0xe6, 0x97, 0xa5, 0xe6, 0x9c, 0xac, 0xe8, 0xaa, 0x9e,
    0xe6, 0x97, 0xa5, 0xe6, 0x9c, 0xac, 0xe8, 0xaa, 0x9e,
    0xe6, 0x97, 0xa5, 0xe6, 0x9c, 0xac, 0xe8, 0xaa, 0x9e,
    0xe6, 0x97, 0xa5]

def mixed : List UInt8 :=
  encode "the na".toList ++ [0xc3, 0xaf] ++ encode "ve caf".toList ++ [0xc3, 0xa9] ++ encode " r".toList ++
    [0xc3, 0xb4] ++ encode "le of ".toList ++ encode "co".toList ++ [0xc3, 0xb6] ++
    encode "rdination, said the ".toList ++ [0xe2, 0x9c, 0x93] ++ encode " sign".toList

def longLen : ℕ := 4096

def longAscii : List UInt8 := (List.range longLen).map fun i => UInt8.ofNat ('0'.toNat + i % 10)

/-- utf8_encode_ascii, and utf8_encode_wide and utf8_rune_len -/
def asciiRune (i : ℕ) : Char := Char.ofNat ('a'.toNat + (i &&& 15))
def wideRune (i : ℕ) : Char := Char.ofNat (0x1F300 + (i &&& 15))

/-! ## go/utf8_test.go -/

def goAscii10 : List Char := "0123456789".toList
def goJapanese10 : List Char := "日本語日本語日本語日".toList
def goMixedString : List Char := "the naïve café rôle of coördination, said the ✓ sign".toList
def goLongAscii : List Char := (List.range longLen).map fun i => Char.ofNat ('0'.toNat + i % 10)

/-! ## One character -/

theorem encode_cons (c : Char) (cs : List Char) : encode (c :: cs) = utf8EncodeChar c ++ encode cs := List.flatMap_cons

def Begins (b : UInt8) : Prop := b &&& 0xC0 ≠ 0x80

instance (b : UInt8) : Decidable (Begins b) := inferInstanceAs (Decidable (_ ≠ _))

theorem forall_byte {P : UInt8 → Prop} (h : ∀ n < 256, P (UInt8.ofNat n)) (b : UInt8) : P b := by
  have hb := h b.toNat b.toNat_lt_size
  rwa [UInt8.ofNat_toNat] at hb

theorem begins_two (b : UInt8) : Begins (b &&& 0x1f ||| 0xc0) :=
  forall_byte (P := fun b => Begins (b &&& 0x1f ||| 0xc0)) (by decide +kernel) b

theorem begins_three (b : UInt8) : Begins (b &&& 0x0f ||| 0xe0) :=
  forall_byte (P := fun b => Begins (b &&& 0x0f ||| 0xe0)) (by decide +kernel) b

theorem begins_four (b : UInt8) : Begins (b &&& 0x07 ||| 0xf0) :=
  forall_byte (P := fun b => Begins (b &&& 0x07 ||| 0xf0)) (by decide +kernel) b

theorem not_begins (b : UInt8) : ¬ Begins (b &&& 0x3f ||| 0x80) :=
  forall_byte (P := fun b => ¬ Begins (b &&& 0x3f ||| 0x80)) (by decide +kernel) b

theorem begins_of_lt {b : UInt8} (h : b.toNat < 128) : Begins b :=
  forall_byte (P := fun b => b.toNat < 128 → Begins b) (by decide +kernel) b h

theorem toNat_lt_of_utf8Size {c : Char} (h : c.utf8Size = 1) : c.toNat < 128 := by
  have hle := Char.utf8Size_eq_one_iff.mp h
  have hnat : c.val.toNat ≤ 127 := hle
  exact Nat.lt_succ_of_le hnat

/-- Of the bytes of a character the first begins one and no other does. -/
theorem countP_utf8EncodeChar (c : Char) : (utf8EncodeChar c).countP (Begins ·) = 1 := by
  have hpos := c.utf8Size_pos
  have hle := c.utf8Size_le_four
  have hsize : c.utf8Size = 1 ∨ c.utf8Size = 2 ∨ c.utf8Size = 3 ∨ c.utf8Size = 4 := by omega
  rcases hsize with h | h | h | h
  · have hbyte : (c.val.toUInt8).toNat < 128 := by
      have hlt := toNat_lt_of_utf8Size h
      have hmod : (c.val.toUInt8).toNat = c.val.toNat % 256 := rfl
      have hval : c.val.toNat = c.toNat := rfl
      omega
    rw [utf8EncodeChar_eq_singleton h, List.countP_singleton, if_pos (decide_eq_true (begins_of_lt hbyte))]
  · rw [utf8EncodeChar_eq_cons_cons h]
    simp [begins_two, not_begins]
  · rw [utf8EncodeChar_eq_cons_cons_cons h]
    simp [begins_three, not_begins]
  · rw [utf8EncodeChar_eq_cons_cons_cons_cons h]
    simp [begins_four, not_begins]

/-! ## Whole texts -/

theorem runeCountRaw_eq (p : List UInt8) : runeCountRaw p = p.countP (Begins ·) := by
  have hacc : ∀ n, p.foldl (fun n b => if b &&& 0xC0 ≠ 0x80 then n + 1 else n) n = n + p.countP (Begins ·) := by
    induction p with
    | nil =>
      intro n
      rfl
    | cons b p ih =>
      intro n
      rw [List.foldl_cons, ih, List.countP_cons]
      by_cases hb : Begins b
      · have hcond : b &&& 0xC0 ≠ 0x80 := hb
        rw [if_pos hcond, if_pos (decide_eq_true hb)]
        omega
      · have hcond : ¬ b &&& 0xC0 ≠ 0x80 := hb
        rw [if_neg hcond, if_neg (by simpa using hb)]
        omega
  rw [runeCountRaw, hacc, Nat.zero_add]

/-- Where the characters of a text begin. -/
def offsets : ℕ → List Char → List (ℕ × ℕ)
  | _, [] => []
  | i, c :: cs => (i, c.toNat) :: offsets (i + c.utf8Size) cs

theorem length_offsets (i : ℕ) (cs : List Char) : (offsets i cs).length = cs.length := by
  induction cs generalizing i with
  | nil => rfl
  | cons c cs ih => rw [offsets, List.length_cons, ih, List.length_cons]

theorem map_snd_offsets (i : ℕ) (cs : List Char) : (offsets i cs).map Prod.snd = cs.map Char.toNat := by
  induction cs generalizing i with
  | nil => rfl
  | cons c cs ih => rw [offsets, List.map_cons, ih, List.map_cons]

section Decoded
variable (D : Decoder)

/-- A character in front is one rune, and the rest of the text comes behind it. -/
theorem strRunes_encode_append (fuel i : ℕ) (c : Char) (rest : List UInt8) :
    strRunes D (fuel + 1) i (utf8EncodeChar c ++ rest) =
      (i, c.toNat) :: strRunes D fuel (i + c.utf8Size) rest := by
  have hnext := D.next_encode c rest
  have hdrop : (utf8EncodeChar c ++ rest).drop c.utf8Size = rest := by
    rw [← length_utf8EncodeChar, List.drop_left]
  cases htext : utf8EncodeChar c ++ rest with
  | nil =>
    have hlength := congrArg List.length htext
    rw [List.length_append, length_utf8EncodeChar, List.length_nil] at hlength
    have hpos := c.utf8Size_pos
    omega
  | cons b p =>
    rw [htext] at hnext hdrop
    rw [strRunes, hnext, hdrop]

theorem strRunes_encode {fuel : ℕ} (i : ℕ) (cs : List Char) (h : (encode cs).length ≤ fuel) :
    strRunes D fuel i (encode cs) = offsets i cs := by
  induction cs generalizing fuel i with
  | nil => cases fuel <;> rfl
  | cons c cs ih =>
    rw [encode_cons, List.length_append, length_utf8EncodeChar] at h
    have hpos := c.utf8Size_pos
    obtain ⟨fuel, rfl⟩ : ∃ k, fuel = k + 1 := ⟨fuel - 1, by omega⟩
    rw [encode_cons, strRunes_encode_append, ih _ (by omega), offsets]

theorem runes_encode (cs : List Char) : runes D (encode cs) = offsets 0 cs := strRunes_encode D 0 cs le_rfl

/-- Bytes that begin no character are runes, too, so the library counts at least as many. -/
theorem countP_le_length (fuel i : ℕ) (p : List UInt8) (h : p.length ≤ fuel) :
    p.countP (Begins ·) ≤ (strRunes D fuel i p).length := by
  induction fuel generalizing i p with
  | zero =>
    obtain rfl : p = [] := List.length_eq_zero_iff.mp (Nat.le_zero.mp h)
    rfl
  | succ fuel ih =>
    by_cases hchar : ∃ (c : Char) (rest : List UInt8), p = utf8EncodeChar c ++ rest
    · obtain ⟨c, rest, rfl⟩ := hchar
      rw [List.length_append, length_utf8EncodeChar] at h
      have hpos := c.utf8Size_pos
      have hrest := ih (i + c.utf8Size) rest (by omega)
      rw [strRunes_encode_append, List.countP_append, countP_utf8EncodeChar, List.length_cons]
      omega
    · cases p with
      | nil => exact Nat.zero_le _
      | cons b p =>
        have herror := D.next_error (b :: p) (List.cons_ne_nil b p) fun c rest heq => hchar ⟨c, rest, heq⟩
        have hrest := ih (i + 1) p (Nat.le_of_succ_le_succ h)
        have hfirst : [b].countP (Begins ·) ≤ 1 := List.countP_le_length
        rw [strRunes, herror, List.length_cons, List.drop_one, List.tail_cons]
        rw [← List.singleton_append, List.countP_append]
        change _ ≤ (strRunes D fuel (i + 1) p).length + 1
        omega

theorem runeCountRaw_le (p : List UInt8) : runeCountRaw p ≤ runeCount D p := by
  rw [runeCountRaw_eq]
  exact countP_le_length D p.length 0 p le_rfl

theorem countP_encode (cs : List Char) : (encode cs).countP (Begins ·) = cs.length := by
  induction cs with
  | nil => rfl
  | cons c cs ih =>
    rw [encode_cons, List.countP_append, countP_utf8EncodeChar, ih, List.length_cons, Nat.add_comm]

theorem encode_ascii {cs : List Char} (h : ∀ c ∈ cs, c.toNat < 128) :
    (encode cs).map UInt8.toNat = cs.map Char.toNat := by
  induction cs with
  | nil => rfl
  | cons c cs ih =>
    have hlt : c.toNat < 128 := h c List.mem_cons_self
    have hsize : c.utf8Size = 1 := Char.utf8Size_eq_one_iff.mpr (Nat.le_of_lt_succ hlt)
    have hbyte : c.val.toUInt8.toNat = c.toNat := Nat.mod_eq_of_lt (lt_trans hlt (by decide))
    rw [encode_cons, utf8EncodeChar_eq_singleton hsize, List.map_append,
      ih fun d hd => h d (List.mem_cons_of_mem c hd), List.map_singleton, hbyte]
    rfl

theorem rangeTotal_eq_raw {cs : List Char} (h : ∀ c ∈ cs, c.toNat < 128) :
    rangeTotalRaw (encode cs) = rangeTotal D (encode cs) := by
  rw [rangeTotalRaw, rangeTotal, runes_encode, map_snd_offsets, encode_ascii h]

end Decoded

/-! ## The texts of the rows -/

theorem encode_goLongAscii : encode goLongAscii = longAscii := by
  have hdigit : ∀ d < 10, utf8EncodeChar (Char.ofNat ('0'.toNat + d)) = [UInt8.ofNat ('0'.toNat + d)] := by
    decide
  rw [encode, goLongAscii, List.flatMap_map, longAscii, List.map_eq_flatMap]
  exact List.flatMap_congr fun i _ => hdigit (i % 10) (Nat.mod_lt i (by decide))

theorem utf8Size_asciiRune (i : ℕ) : (asciiRune i).utf8Size = 1 := by
  have hall : ∀ k < 16, (Char.ofNat ('a'.toNat + k)).utf8Size = 1 := by decide
  exact hall _ (Nat.lt_succ_of_le Nat.and_le_right)

theorem utf8Size_wideRune (i : ℕ) : (wideRune i).utf8Size = 4 := by
  have hall : ∀ k < 16, (Char.ofNat (0x1F300 + k)).utf8Size = 4 := by decide
  exact hall _ (Nat.lt_succ_of_le Nat.and_le_right)

/-- On the bytes of any text the rows by hand agree with the library: the count always, the sum where
the text is ASCII. On other bytes the count by hand is never the greater. Both sides have the same
texts. -/
theorem rune_rows (D : Decoder) :
    (∀ p, runeCountRaw p ≤ runeCount D p) ∧
    (∀ cs, runes D (encode cs) = offsets 0 cs ∧ runeCount D (encode cs) = cs.length ∧
      runeCountRaw (encode cs) = cs.length) ∧
    (∀ cs : List Char, (∀ c ∈ cs, c.toNat < 128) → rangeTotalRaw (encode cs) = rangeTotal D (encode cs)) ∧
    encode goAscii10 = ascii10 ∧ encode goJapanese10 = japanese10 ∧ encode goMixedString = mixed ∧
    encode goLongAscii = longAscii ∧
    ∀ i, (utf8EncodeChar (asciiRune i)).length = 1 ∧ (utf8EncodeChar (wideRune i)).length = 4 := by
  refine ⟨runeCountRaw_le D, fun cs => ⟨runes_encode D cs, ?_, ?_⟩, fun cs h => rangeTotal_eq_raw D h,
    by decide +kernel, by decide +kernel, by decide +kernel, encode_goLongAscii, fun i => ?_⟩
  · rw [runeCount, runes_encode, length_offsets]
  · rw [runeCountRaw_eq, countP_encode]
  · rw [length_utf8EncodeChar, length_utf8EncodeChar]
    exact ⟨utf8Size_asciiRune i, utf8Size_wideRune i⟩

/-- A text of four bytes in three characters, and one byte that begins no character. -/
theorem rune_rows_lean :
    runeCountRaw (encode "aéz".toList) = runeCount default (encode "aéz".toList) ∧
    runeCountRaw [0x80] < runeCount default [0x80] := by
  obtain ⟨hle, htext, _⟩ := rune_rows default
  obtain ⟨_, hcount, hraw⟩ := htext "aéz".toList
  exact ⟨hraw.trans hcount.symm, (hle [0x80]).lt_of_ne (by decide +kernel)⟩

end BurrowBench.Workloads.RuneRows
