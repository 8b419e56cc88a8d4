import BurrowBench.Foundation.CheckedArithmetic
import BurrowBench.Harness.Search
import BurrowBench.Workloads.RandTotals
import Mathlib.Algebra.BigOperators.Intervals

/-! # The rows of num_bench.c

A row that goes through burrow/num.h is paired with a raw one on C's own operator, and both with
Go's. C's operator has no result where a signed one overflows or a shift leaves the type.
-/
namespace BurrowBench.Workloads.NumRows
open CheckedArithmetic Harness

abbrev Word := BitVec 64

/-- The conversion of an Int to what bench_keep_u64 is handed. -/
def word (v : ℤ) : Word := BitVec.ofInt 64 v

/-- burrow/num.h: on every pair of words the answer of Go's operator. -/
structure NumHeader where
  intAdd : Word → Word → Word
  intMul : Word → Word → Word
  intDiv : Word → Word → Word
  intMod : Word → Word → Word
  intShl : Word → ℕ → Word
  intShr : Word → ℕ → Word
  intAdd_eq (a b : Word) : intAdd a b = a + b
  intMul_eq (a b : Word) : intMul a b = a * b
  intDiv_eq (a b : Word) : b ≠ 0 → intDiv a b = a.sdiv b
  intMod_eq (a b : Word) : b ≠ 0 → intMod a b = a.srem b
  intShl_eq (a : Word) (count : ℕ) : intShl a count = a <<< count
  intShr_eq (a : Word) (count : ℕ) : intShr a count = a.sshiftRight count

/-- Go's operators themselves. -/
def goHeader : NumHeader where
  intAdd := (· + ·)
  intMul := (· * ·)
  intDiv := BitVec.sdiv
  intMod := BitVec.srem
  intShl := (· <<< ·)
  intShr := BitVec.sshiftRight
  intAdd_eq _ _ := rfl
  intMul_eq _ _ := rfl
  intDiv_eq _ _ _ := rfl
  intMod_eq _ _ _ := rfl
  intShl_eq _ _ := rfl
  intShr_eq _ _ := rfl

/-- hidden_int hands back what it was given. -/
def hiddenInt (v : ℤ) : ℤ := v

section Rows
variable (num : NumHeader) (i : ℕ)

def numAdd : Word := num.intAdd (word (hiddenInt 1234567)) (word i)
/-- BURROW_ADD picks int_add by the type of its first argument. -/
def numAddGeneric : Word := num.intAdd (word (hiddenInt 1234567)) (word i)
def numMul : Word := num.intMul (word (hiddenInt 2654435761)) (word i)
def numDiv : Word := num.intDiv (word i) (word (hiddenInt 7))
def numMod : Word := num.intMod (word i) (word (hiddenInt 7))
def numShl : Word := num.intShl (word (hiddenInt 1)) (i &&& 127)
def numShr : Word := num.intShr (word (hiddenInt (-123456789))) (i &&& 127)

def numAddRaw : Option ℤ := add 64 (hiddenInt 1234567) i
def numMulRaw : Option ℤ := mul 64 (hiddenInt 2654435761) i
def numDivRaw : Option ℤ := div 64 i (hiddenInt 7)
def numModRaw : Option ℤ := rem 64 i (hiddenInt 7)
def numShlRaw : Option ℤ := shl 64 (hiddenInt 1) (i &&& 63)

def goNumAdd : Word := 1234567 + word i
def goNumMul : Word := 2654435761 * word i
def goNumDiv : Word := (word i).sdiv 7
def goNumMod : Word := (word i).srem 7
def goNumShl : Word := 1 <<< (i &&& 127)
def goNumShr : Word := (word (-123456789)).sshiftRight (i &&& 127)

end Rows

def hashBytes : ℕ := 64
def sumLen : ℕ := 256

/-- buf[j] of the hash round, and Go's byte(i*7 + 1). -/
def hashByte (j : ℕ) : BitVec 8 := BitVec.ofNat 8 (j * 7 + 1)

def numHashRound (num : NumHeader) : Word :=
  (List.range hashBytes).foldl
    (fun h j => num.intMul h (word (hiddenInt 1099511628211)) ^^^ (hashByte j).setWidth 64)
    14695981039346656037

def goNumHashRound : Word :=
  (List.range hashBytes).foldl (fun h j => h * word 1099511628211 ^^^ (hashByte j).setWidth 64)
    14695981039346656037

def numSum (num : NumHeader) : Word :=
  (List.range sumLen).foldl (fun t (j : ℕ) => num.intAdd t (word (j * 3))) 0

def numSumRaw : Option ℤ := total (fun j => j * 3) sumLen

def goNumSum : Word := (List.range sumLen).foldl (fun t (j : ℕ) => t + word (j * 3)) 0

variable {num : NumHeader} {i n : ℕ}

theorem fits_natCast (hi : i < 2 ^ 63) : Fits 64 (i : ℤ) := by
  rw [fits64_iff (Int.natCast_nonneg i)]
  omega

/-! ## Where the raw rows have a result -/

theorem numAddRaw_isSome_iff : (numAddRaw i).isSome ↔ i < 2 ^ 63 - 1234567 := by
  rw [numAddRaw, add, checked_isSome, hiddenInt, fits64_iff (by positivity)]
  omega

theorem numMulRaw_isSome_iff : (numMulRaw i).isSome ↔ i ≤ 3474701543 := by
  rw [numMulRaw, mul, checked_isSome, hiddenInt, fits64_iff (by positivity)]
  omega

theorem numDivRaw_eq (hi : i < 2 ^ 63) : numDivRaw i = some ((i : ℤ) / 7) :=
  div_of_fits (fits_natCast hi) (Int.natCast_nonneg i) (by norm_num [hiddenInt])

theorem numModRaw_eq (hi : i < 2 ^ 63) : numModRaw i = some ((i : ℤ) % 7) := by
  refine rem_of_quotient_fits (Int.natCast_nonneg i) (by norm_num [hiddenInt]) ?_
  exact (fits_natCast hi).mono (Int.ediv_nonneg (Int.natCast_nonneg i) (by norm_num [hiddenInt]))
    (Int.ediv_le_self _ (Int.natCast_nonneg i))

theorem and_sixtyThree (i : ℕ) : i &&& 63 = i % 64 := Nat.and_two_pow_sub_one_eq_mod i 6

theorem and_oneTwentySeven (i : ℕ) : i &&& 127 = i % 128 := Nat.and_two_pow_sub_one_eq_mod i 7

theorem two_pow_fits_iff (count : ℕ) : Fits 64 (2 ^ count) ↔ count < 63 := by
  have hneg : -(2 : ℤ) ^ 63 ≤ 2 ^ count :=
    (by norm_num : -(2 : ℤ) ^ 63 ≤ 0).trans (by positivity)
  refine (and_iff_right hneg).trans ?_
  exact pow_lt_pow_iff_right₀ (by norm_num : (1 : ℤ) < 2)

/-- The mask keeps the count below the width, and a one shifted into the sign is still no Int. -/
theorem numShlRaw_eq (i : ℕ) : numShlRaw i = if i % 64 < 63 then some (2 ^ (i % 64)) else none := by
  have hwidth : i % 64 < 64 := Nat.mod_lt _ (by norm_num)
  rw [numShlRaw, and_sixtyThree, shl, hiddenInt, if_pos ⟨by norm_num, hwidth⟩, one_mul, checked]
  exact if_congr (two_pow_fits_iff _) rfl rfl

theorem numSumRaw_isSome : numSumRaw.isSome := by
  refine (total_isSome_iff fun j => by positivity).mpr ?_
  rw [← Finset.sum_mul, ← Nat.cast_sum, Finset.sum_range_id, sumLen]
  norm_num

/-- A run of n iterations is defined when each of them is. -/
def Defined (raw : ℕ → Option ℤ) (n : ℕ) : Prop := ∀ i < n, (raw i).isSome

theorem defined_iff_of_lt {raw : ℕ → Option ℤ} {bound : ℕ} (h : ∀ i, (raw i).isSome ↔ i < bound) (n : ℕ) :
    Defined raw n ↔ n ≤ bound := by
  constructor
  · intro hraw
    by_contra hlt
    exact absurd ((h bound).mp (hraw bound (Nat.lt_of_not_le hlt))) (lt_irrefl bound)
  · exact fun hn i hi => (h i).mpr (hi.trans_le hn)

theorem defined_numShlRaw_iff (n : ℕ) : Defined numShlRaw n ↔ n ≤ 63 := by
  constructor
  · intro hraw
    by_contra hlt
    have hlast := hraw 63 (Nat.lt_of_not_le hlt)
    simp [numShlRaw_eq] at hlast
  · intro hn i hi
    have hmod : i % 64 = i := Nat.mod_eq_of_lt (by omega)
    rw [numShlRaw_eq, hmod, if_pos (hi.trans_le hn)]
    rfl

/-! ## What the rows keep -/

/-- The row through the header keeps what Go's does, and so does the raw one where it has a result. -/
def Agree (raw : ℕ → Option ℤ) (checked go : ℕ → Word) : Prop :=
  ∀ i < 2 ^ 63, checked i = go i ∧ ∀ v, raw i = some v → word v = checked i

theorem agree_add (num : NumHeader) : Agree numAddRaw (numAdd num) goNumAdd := by
  intro i _
  have hgo : numAdd num i = goNumAdd i := num.intAdd_eq _ _
  exact ⟨hgo, fun v hv => (ofInt_of_add hv).trans hgo.symm⟩

theorem agree_mul (num : NumHeader) : Agree numMulRaw (numMul num) goNumMul := by
  intro i _
  have hgo : numMul num i = goNumMul i := num.intMul_eq _ _
  exact ⟨hgo, fun v hv => (ofInt_of_mul hv).trans hgo.symm⟩

theorem fits_divisor : Fits 64 (hiddenInt 7) := by decide

theorem agree_div (num : NumHeader) : Agree numDivRaw (numDiv num) goNumDiv := by
  intro i hi
  have hgo : numDiv num i = goNumDiv i := num.intDiv_eq _ _ (by decide)
  exact ⟨hgo, fun v hv => (ofInt_of_div (by norm_num) (fits_natCast hi) fits_divisor hv).trans hgo.symm⟩

theorem agree_mod (num : NumHeader) : Agree numModRaw (numMod num) goNumMod := by
  intro i hi
  have hgo : numMod num i = goNumMod i := num.intMod_eq _ _ (by decide)
  exact ⟨hgo, fun v hv => (ofInt_of_rem (by norm_num) (fits_natCast hi) fits_divisor hv).trans hgo.symm⟩

theorem numShl_eq (num : NumHeader) (i : ℕ) : numShl num i = BitVec.twoPow 64 (i % 128) := by
  rw [numShl, num.intShl_eq, and_oneTwentySeven, BitVec.twoPow_eq]
  rfl

theorem twoPow_eq_iff {a b : ℕ} (ha : a < 64) (hb : b % 64 = a) :
    BitVec.twoPow 64 a = BitVec.twoPow 64 b ↔ b < 64 := by
  constructor
  · intro h
    by_contra hge
    have hzero := congrArg BitVec.toNat h
    rw [BitVec.toNat_twoPow_of_lt ha, BitVec.toNat_twoPow_of_le (Nat.le_of_not_lt hge)] at hzero
    exact absurd hzero (by positivity)
  · intro h
    rw [← hb, Nat.mod_eq_of_lt h]

/-- The raw shift keeps what the header's does in sixty three iterations out of a hundred and
twenty eight. -/
theorem numShlRaw_agrees_iff (num : NumHeader) (i : ℕ) :
    (numShlRaw i).map word = some (numShl num i) ↔ i % 128 < 63 := by
  have hmod : i % 128 % 64 = i % 64 := Nat.mod_mod_of_dvd i (by norm_num)
  rw [numShlRaw_eq, numShl_eq]
  split
  · rw [Option.map_some, Option.some_inj, word, ofInt_two_pow, twoPow_eq_iff (by omega) hmod]
    omega
  · simp only [Option.map_none, reduceCtorEq, false_iff]
    omega

theorem total_agrees (num : NumHeader) (draw : ℕ → ℤ) {v : ℤ} (n : ℕ) (h : total draw n = some v) :
    word v = (List.range n).foldl (fun t j => num.intAdd t (word (draw j))) 0 := by
  induction n generalizing v with
  | zero =>
    obtain rfl := Option.some.inj h
    rfl
  | succ n ih =>
    obtain ⟨t, ht, hadd⟩ := Option.bind_eq_some_iff.mp h
    rw [List.range_succ, List.foldl_append, ← ih ht, List.foldl_cons, List.foldl_nil, num.intAdd_eq]
    exact ofInt_of_add hadd

theorem numSum_eq (num : NumHeader) : numSum num = goNumSum := by
  unfold numSum goNumSum
  simp only [num.intAdd_eq]

theorem numHashRound_eq (num : NumHeader) : numHashRound num = goNumHashRound := by
  unfold numHashRound goNumHashRound hiddenInt
  simp only [num.intMul_eq]

/-- A run of a raw row has no undefined step up to a length of its own: for add and mul that lies
above every count the search picks, division and sum have none, and the masked shift, said to stay
quiet under a sanitiser, has one from its sixty fourth iteration on. Where a raw row has a result
it is the header's and Go's, the shift alone in other iterations than those it is defined in. -/
theorem num_rows (num : NumHeader) :
    (∀ n, (Defined numAddRaw n ↔ n ≤ 2 ^ 63 - 1234567) ∧ (Defined numMulRaw n ↔ n ≤ 3474701544) ∧
      (Defined numShlRaw n ↔ n ≤ 63) ∧ (n ≤ 2 ^ 63 → Defined numDivRaw n ∧ Defined numModRaw n) ∧
      (n ≤ nMax → Defined numAddRaw n ∧ Defined numMulRaw n)) ∧
    Agree numAddRaw (numAdd num) goNumAdd ∧ Agree numAddRaw (numAddGeneric num) goNumAdd ∧
    Agree numMulRaw (numMul num) goNumMul ∧ Agree numDivRaw (numDiv num) goNumDiv ∧
    Agree numModRaw (numMod num) goNumMod ∧
    (∀ i, numShl num i = goNumShl i ∧ numShr num i = goNumShr i ∧
      ((numShlRaw i).map word = some (numShl num i) ↔ i % 128 < 63)) ∧
    numSum num = goNumSum ∧ numSumRaw.map word = some (numSum num) ∧ numHashRound num = goNumHashRound := by
  have hadd : ∀ n, Defined numAddRaw n ↔ n ≤ 2 ^ 63 - 1234567 :=
    defined_iff_of_lt fun i => numAddRaw_isSome_iff
  have hmul : ∀ n, Defined numMulRaw n ↔ n ≤ 3474701544 :=
    defined_iff_of_lt fun i => numMulRaw_isSome_iff.trans Nat.lt_succ_iff.symm
  refine ⟨fun n => ⟨hadd n, hmul n, defined_numShlRaw_iff n, fun hn => ⟨?_, ?_⟩, fun hn => ⟨?_, ?_⟩⟩,
    agree_add num, agree_add num, agree_mul num, agree_div num, agree_mod num,
    fun i => ⟨num.intShl_eq _ _, num.intShr_eq _ _, numShlRaw_agrees_iff num i⟩, numSum_eq num, ?_,
    numHashRound_eq num⟩
  · exact fun i hi => by rw [numDivRaw_eq (hi.trans_le hn)]; rfl
  · exact fun i hi => by rw [numModRaw_eq (hi.trans_le hn)]; rfl
  · exact (hadd n).mpr (by unfold nMax at hn; omega)
  · exact (hmul n).mpr (by unfold nMax at hn; omega)
  · obtain ⟨v, hv⟩ := Option.isSome_iff_exists.mp numSumRaw_isSome
    rw [hv, Option.map_some, total_agrees num _ sumLen hv, numSum]

/-- A multiply past the range of an Int, and the first iteration whose masked shift has no result. -/
theorem num_rows_go :
    ¬ Defined numMulRaw 3474701545 ∧ numMul goHeader 3474701544 = goNumMul 3474701544 ∧
    ¬ Defined numShlRaw 64 ∧ (numShlRaw 63).map word ≠ some (numShl goHeader 63) := by
  obtain ⟨hdefined, _, _, hmul, _, _, hshift, _⟩ := num_rows goHeader
  refine ⟨?_, (hmul 3474701544 (by norm_num)).1, ?_, ?_⟩
  · rw [(hdefined _).2.1]
    norm_num
  · rw [(hdefined _).2.2.1]
    norm_num
  · rw [Ne, (hshift 63).2.2]
    norm_num

end BurrowBench.Workloads.NumRows
