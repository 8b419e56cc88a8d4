import BurrowBench.Workloads.Generators
import Mathlib.Data.List.Chain
import Mathlib.Data.Nat.Digits.Lemmas

/-! # The inputs of the strings and the big rows

The hard text is to be searched to its end, and the operands are to have as many words as a row
says. Each side builds its own.
-/
namespace BurrowBench.Workloads
open Function

/-! ## The hard text -/

/-- What strings_index_hard1 to 3, strings_last_index_hard2 and strings_count_hard2 look for. -/
def hardSeparators : List Text := ["<>", "</pre>", "<b>hello world</b>"].map String.toList

/-- `r ^= r << 13`, `r ^= r >> 7` and `r ^= r << 17` of strings_test.go -/
def goXorshift (r : BitVec 64) : BitVec 64 :=
  let r := r ^^^ (r <<< 13)
  let r := r ^^^ (r >>> 7)
  r ^^^ (r <<< 17)

def goFillHard (r : BitVec 64) (x : Text) : Text :=
  if x.length + (token (goXorshift r)).length ≥ 1 <<< 20 then x
  else goFillHard (goXorshift r) (x ++ token (goXorshift r))
termination_by 1 <<< 20 - x.length
decreasing_by
  have hlength := (token_length (goXorshift r)).1
  rw [List.length_append]
  omega

def goBenchHard : Text := goFillHard 99 []

theorem goFillHard_eq (r : BitVec 64) (x : Text) : goFillHard r x = fillHard r x := by
  induction r, x using fillHard.induct with
  | case1 r x hfull =>
    rw [fillHard, if_pos hfull, goFillHard]
    exact if_pos hfull
  | case2 r x hroom ih =>
    rw [fillHard, if_neg hroom, ← ih, goFillHard]
    exact if_neg hroom

/-- Which character may come behind which. -/
def Follows (x y : Char) : Prop := ¬ (x = '<' ∧ y = '>') ∧ ¬ (x = 'p' ∧ y = 'r') ∧ y ≠ ' '

instance (x y : Char) : Decidable (Follows x y) := inferInstanceAs (Decidable (_ ∧ _))

theorem tokens_follow : ∀ t ∈ tokens, ∀ t' ∈ tokens, (t ++ t').IsChain Follows := by decide +kernel

theorem separator_breaks : ∀ sep ∈ hardSeparators, ¬ sep.IsChain Follows := by decide

/-- A text made of tokens. -/
def Tokenised (x : Text) : Prop := ∃ ts : List Text, (∀ t ∈ ts, t ∈ tokens) ∧ x = ts.flatten

theorem token_mem (r : BitVec 64) : token r ∈ tokens := List.get_mem _ _

theorem fillHard_tokenised (r : BitVec 64) {x : Text} (hx : Tokenised x) : Tokenised (fillHard r x) := by
  induction r, x using fillHard.induct with
  | case1 r x hfull => rwa [fillHard, if_pos hfull]
  | case2 r x hroom ih =>
    rw [fillHard, if_neg hroom]
    obtain ⟨ts, hts, rfl⟩ := hx
    refine ih ⟨ts ++ [token (xorshift r)], fun t ht => ?_, ?_⟩
    · rcases List.mem_append.mp ht with ht | ht
      · exact hts t ht
      · exact List.mem_singleton.mp ht ▸ token_mem _
    · rw [List.flatten_append, List.flatten_singleton]

theorem Tokenised.isChain {x : Text} (hx : Tokenised x) : x.IsChain Follows := by
  obtain ⟨ts, hts, rfl⟩ := hx
  have hne : [] ∉ ts := fun hnil => absurd (hts [] hnil) (by decide)
  have hpair : ∀ t ∈ ts, ∀ t' ∈ ts, t.IsChain Follows ∧ t'.IsChain Follows ∧
      ∀ x ∈ t.getLast?, ∀ y ∈ t'.head?, Follows x y :=
    fun t ht t' ht' => List.isChain_append.mp (tokens_follow t (hts t ht) t' (hts t' ht'))
  refine (List.isChain_flatten hne).mpr ⟨fun t ht => (hpair t ht t ht).1, ?_⟩
  exact List.Pairwise.isChain (List.pairwise_of_forall_mem_list fun t ht t' ht' => (hpair t ht t' ht').2.2)

/-- None of the searches finds what it looks for. -/
theorem Tokenised.not_infix {x sep : Text} (hx : Tokenised x) (hsep : sep ∈ hardSeparators) : ¬ sep <:+: x := by
  intro h
  have hchain : sep.IsChain Follows := List.IsChain.infix hx.isChain h
  exact separator_breaks sep hsep hchain

/-! ## The operands -/

/-- The number that words stand for, the lowest first. -/
def wordsValue (ws : List (BitVec 64)) : ℕ := Nat.ofDigits (2 ^ 64) (ws.map BitVec.toNat)

/-- The loop of bigRand, which draws a word for each place. -/
def goBigWords : ℕ → BitVec 64 → List (BitVec 64)
  | 0, _ => []
  | n + 1, seed => (splitmix seed).2 :: goBigWords n (splitmix seed).1

def goBigRand (n : ℕ) (seed : BitVec 64) : List (BitVec 64) :=
  (goBigWords n seed).modify (n - 1) (· ||| (1 <<< 63))

theorem goBigWords_eq (n : ℕ) (seed : BitVec 64) : goBigWords n seed = (List.range n).map (draw seed) := by
  induction n generalizing seed with
  | zero => rfl
  | succ n ih =>
    have hfirst : (splitmix seed).2 = draw seed 0 := by rw [draw, stateAfter, iterate_zero_apply]
    have hnext : draw (splitmix seed).1 = draw seed ∘ Nat.succ := by
      funext k
      rw [comp_apply, Nat.succ_eq_add_one, draw, draw, stateAfter, stateAfter, iterate_succ_apply]
    rw [goBigWords, ih, hfirst, hnext, List.range_succ_eq_map, List.map_cons, List.map_map]

theorem goBigRand_eq (n : ℕ) (seed : BitVec 64) : goBigRand n seed = rnd n seed := by
  rw [goBigRand, goBigWords_eq, rnd]

theorem wordsValue_lt (ws : List (BitVec 64)) : wordsValue ws < 2 ^ (64 * ws.length) := by
  have hwords : ∀ w ∈ ws.map BitVec.toNat, w < 2 ^ 64 := by
    intro w hw
    obtain ⟨v, -, rfl⟩ := List.mem_map.mp hw
    exact v.isLt
  have hvalue := Nat.ofDigits_lt_base_pow_length (by norm_num) hwords
  rwa [List.length_map, ← Nat.pow_mul] at hvalue

theorem wordsValue_append (ws vs : List (BitVec 64)) :
    wordsValue (ws ++ vs) = wordsValue ws + 2 ^ (64 * ws.length) * wordsValue vs := by
  rw [wordsValue, List.map_append, Nat.ofDigits_append, List.length_map, ← Nat.pow_mul]
  rfl

theorem top_bit (w : BitVec 64) : 2 ^ 63 ≤ (w ||| (1 <<< 63)).toNat := by
  rw [BitVec.toNat_or]
  exact Nat.right_le_or

theorem rnd_length (n : ℕ) (seed : BitVec 64) : (rnd n seed).length = n := by
  rw [rnd, List.length_modify, List.length_map, List.length_range]

/-- A number of n words has neither fewer bits nor more. -/
theorem rnd_size {n : ℕ} (hn : 0 < n) (seed : BitVec 64) :
    2 ^ (64 * n - 1) ≤ wordsValue (rnd n seed) ∧ wordsValue (rnd n seed) < 2 ^ (64 * n) := by
  refine ⟨?_, by simpa only [rnd_length] using wordsValue_lt (rnd n seed)⟩
  obtain ⟨k, rfl⟩ := Nat.exists_eq_succ_of_ne_zero hn.ne'
  have htop : wordsValue [draw seed k ||| (1 <<< 63)] = (draw seed k ||| (1 <<< 63)).toNat := by
    rw [wordsValue, List.map_singleton, Nat.ofDigits_singleton]
  have hpow : 2 ^ (64 * (k + 1) - 1) = 2 ^ (64 * k) * 2 ^ 63 := by
    rw [← Nat.pow_add]
    congr 1
  rw [Nat.succ_eq_add_one, rnd_succ, wordsValue_append, List.length_map, List.length_range, htop, hpow]
  exact (Nat.mul_le_mul_left _ (top_bit _)).trans (Nat.le_add_left _ _)

/-- The lowest word of a number of two words or more is the first draw. -/
theorem rnd_mod {n : ℕ} (hn : 1 < n) (seed : BitVec 64) :
    wordsValue (rnd n seed) % 2 ^ 64 = (draw seed 0).toNat := by
  obtain ⟨k, rfl⟩ : ∃ k, n = k + 2 := ⟨n - 2, by omega⟩
  rw [rnd_succ, List.range_succ_eq_map, List.map_cons, List.cons_append, wordsValue, List.map_cons,
    Nat.ofDigits_cons, Nat.add_mul_mod_self_left, Nat.mod_eq_of_lt (draw seed 0).isLt]

/-- Operands with different seeds are different numbers, however many words they have. -/
theorem rnd_value_ne {n m : ℕ} (hn : 1 < n) (hm : 1 < m) {seed seed' : BitVec 64} (hne : seed ≠ seed') :
    wordsValue (rnd n seed) ≠ wordsValue (rnd m seed') := by
  intro heq
  have hmod : (draw seed 0).toNat = (draw seed' 0).toNat := by
    rw [← rnd_mod hn, ← rnd_mod hm, heq]
  exact hne (splitmix_injective (BitVec.eq_of_toNat_eq hmod))

/-! ## Both inputs -/

/-- From whatever state, and so from the one both sides begin with, the hard text fills its megabyte
up to less than a token and holds nothing of what is searched for in it. A number of n words has
exactly 64 n bits, no two of its words below the top one are the same, and operands with different
seeds differ. -/
theorem generated_inputs :
    (∀ r, hardLen ≤ (fillHard r []).length + 9 ∧ (fillHard r []).length < hardLen ∧
      Tokenised (fillHard r []) ∧ ∀ sep ∈ hardSeparators, ¬ sep <:+: fillHard r []) ∧
    goBenchHard = buildHard ∧
    (∀ n seed, 0 < n → (rnd n seed).length = n ∧ 2 ^ (64 * n - 1) ≤ wordsValue (rnd n seed) ∧
      wordsValue (rnd n seed) < 2 ^ (64 * n) ∧ (n ≤ 2 ^ 64 → ((rnd n seed).take (n - 1)).Nodup)) ∧
    (∀ n m seed seed', 1 < n → 1 < m → seed ≠ seed' → wordsValue (rnd n seed) ≠ wordsValue (rnd m seed')) ∧
    ∀ n seed, goBigRand n seed = rnd n seed := by
  refine ⟨fun r => ?_, goFillHard_eq 99 [], fun n seed hn => ?_, fun n m seed seed' hn hm hne =>
    rnd_value_ne hn hm hne, goBigRand_eq⟩
  · have hroom : ([] : Text).length < hardLen := by decide
    have htokens : Tokenised (fillHard r []) := fillHard_tokenised r ⟨[], by simp, rfl⟩
    exact ⟨(fillHard_length r [] hroom).1, (fillHard_length r [] hroom).2, htokens,
      fun sep hsep => htokens.not_infix hsep⟩
  · obtain ⟨hlow, hhigh⟩ := rnd_size hn seed
    refine ⟨rnd_length n seed, hlow, hhigh, fun hmax => ?_⟩
    obtain ⟨k, rfl⟩ := Nat.exists_eq_succ_of_ne_zero hn.ne'
    exact rnd_nodup (by omega) seed

/-- The text of the rows, and the operands of big_add_10. -/
theorem generated_inputs_ten : (∀ sep ∈ hardSeparators, ¬ sep <:+: buildHard) ∧
    2 ^ (64 * 10 - 1) ≤ wordsValue (rnd 10 1) ∧ wordsValue (rnd 10 1) ≠ wordsValue (rnd 10 2) := by
  obtain ⟨htext, -, hsize, hdiffer, -⟩ := generated_inputs
  exact ⟨(htext 99).2.2.2, (hsize 10 1 (by decide)).2.1, hdiffer 10 10 1 2 (by decide) (by decide) (by decide)⟩

end BurrowBench.Workloads
