import BurrowBench.Foundation.WordMixing
import BurrowBench.Harness.Timer

/-! # The generators of inputs

build_hard picks tokens with an xorshift, rnd fills the words of a big number from a
splitmix, and make_text writes text with a shift register. Words are those of the source,
and arithmetic on them wraps.
-/
namespace BurrowBench.Workloads
open Function WordMixing

/-! ## build_hard -/

/-- `r ^= r << 13; r ^= r >> 7; r ^= r << 17` -/
def xorshift (r : BitVec 64) : BitVec 64 :=
  let r := r ^^^ (r <<< 13)
  let r := r ^^^ (r >>> 7)
  r ^^^ (r <<< 17)

def tokens : List Text :=
  ["<a>", "<p>", "<b>", "<strong>", "</a>", "</p>", "</b>", "</strong>", "hello", "world"].map
    String.toList

/-- `tokens[r % 10]` -/
def token (r : BitVec 64) : Text := tokens.get ⟨r.toNat % 10, Nat.mod_lt _ (by decide)⟩

def hardLen : ℕ := 2 ^ 20

theorem token_length (r : BitVec 64) : 3 ≤ (token r).length ∧ (token r).length ≤ 9 := by
  have hall : ∀ t ∈ tokens, 3 ≤ t.length ∧ t.length ≤ 9 := by decide
  exact hall _ (List.get_mem _ _)

/-- The rounds of build_hard from a state and the text so far. -/
def fillHard (r : BitVec 64) (x : Text) : Text :=
  if x.length + (token (xorshift r)).length ≥ hardLen then x
  else fillHard (xorshift r) (x ++ token (xorshift r))
termination_by hardLen - x.length
decreasing_by
  have hlength := (token_length (xorshift r)).1
  rw [List.length_append]
  omega

def buildHard : Text := fillHard 99 []

theorem xorshift_eq (r : BitVec 64) :
    xorshift r = xorShiftLeft 17 (xorShiftRight 7 (xorShiftLeft 13 r)) := rfl

theorem xorshift_injective : Injective xorshift := by
  have hleft : Injective (xorShiftLeft (w := 64) 13) := xorShiftLeft_injective (by decide)
  have hright : Injective (xorShiftRight (w := 64) 7) := xorShiftRight_injective (by decide)
  have hlast : Injective (xorShiftLeft (w := 64) 17) := xorShiftLeft_injective (by decide)
  have hsteps : xorshift = fun r => xorShiftLeft 17 (xorShiftRight 7 (xorShiftLeft 13 r)) := by
    funext r
    exact xorshift_eq r
  rw [hsteps]
  exact hlast.comp (hright.comp hleft)

theorem xorshift_zero : xorshift 0 = 0 := by decide

/-- The text fills its buffer up to less than a token. -/
theorem fillHard_length (r : BitVec 64) (x : Text) (hx : x.length < hardLen) :
    hardLen ≤ (fillHard r x).length + 9 ∧ (fillHard r x).length < hardLen := by
  induction r, x using fillHard.induct with
  | case1 r x hfull =>
    rw [fillHard, if_pos hfull]
    have hlength := (token_length (xorshift r)).2
    omega
  | case2 r x hroom ih =>
    rw [fillHard, if_neg hroom]
    apply ih
    rw [List.length_append]
    exact not_le.mp hroom

/-! ## rnd -/

/-- The state after a draw, and what is drawn. -/
def splitmix (s : BitVec 64) : BitVec 64 × BitVec 64 :=
  let s := s + 0x9e3779b97f4a7c15#64
  let z := s
  let z := (z ^^^ (z >>> 30)) * 0xbf58476d1ce4e5b9#64
  let z := (z ^^^ (z >>> 27)) * 0x94d049bb133111eb#64
  (s, z ^^^ (z >>> 31))

def stateAfter (seed : BitVec 64) (k : ℕ) : BitVec 64 := (fun s => (splitmix s).1)^[k] seed

/-- What is drawn from a seed after k other draws. -/
def draw (seed : BitVec 64) (k : ℕ) : BitVec 64 := (splitmix (stateAfter seed k)).2

/-- The words of rnd, lowest first. -/
def rnd (n : ℕ) (seed : BitVec 64) : List (BitVec 64) :=
  ((List.range n).map (draw seed)).modify (n - 1) (· ||| (1 <<< 63))

theorem splitmix_injective : Injective fun s => (splitmix s).2 := by
  have hadd : Injective fun s : BitVec 64 => s + 0x9e3779b97f4a7c15#64 := add_left_injective _
  have h30 : Injective (xorShiftRight (w := 64) 30) := xorShiftRight_injective (by decide)
  have h27 : Injective (xorShiftRight (w := 64) 27) := xorShiftRight_injective (by decide)
  have h31 : Injective (xorShiftRight (w := 64) 31) := xorShiftRight_injective (by decide)
  have hfirst : Injective fun x : BitVec 64 => x * 0xbf58476d1ce4e5b9#64 :=
    mul_injective (d := 0x96de1b173f119089#64) (by decide)
  have hsecond : Injective fun x : BitVec 64 => x * 0x94d049bb133111eb#64 :=
    mul_injective (d := 0x319642b2d24d8ec3#64) (by decide)
  exact h31.comp (hsecond.comp (h27.comp (hfirst.comp (h30.comp hadd))))

theorem stateAfter_eq (seed : BitVec 64) (k : ℕ) :
    stateAfter seed k = seed + BitVec.ofNat 64 k * 0x9e3779b97f4a7c15#64 := by
  induction k with
  | zero => exact (BitVec.add_zero seed).symm.trans (congrArg (seed + ·) BitVec.zero_mul.symm)
  | succ k ih =>
    have hone : BitVec.ofNat 64 1 = 1 := rfl
    have hnext : stateAfter seed (k + 1) = stateAfter seed k + 0x9e3779b97f4a7c15#64 :=
      iterate_succ_apply' _ k seed
    rw [hnext, ih, BitVec.ofNat_add, hone, add_mul, one_mul, add_assoc]

/-- The draws from a seed come round after 2^64 of them and not before. -/
theorem draw_eq_iff (seed : BitVec 64) (i j : ℕ) : draw seed i = draw seed j ↔ i % 2 ^ 64 = j % 2 ^ 64 := by
  have hproduct : Injective fun x : BitVec 64 => x * 0x9e3779b97f4a7c15#64 :=
    mul_injective (d := 0xf1de83e19937733d#64) (by decide)
  rw [draw, draw, splitmix_injective.eq_iff, stateAfter_eq, stateAfter_eq, add_right_inj, hproduct.eq_iff,
    BitVec.toNat_eq, BitVec.toNat_ofNat, BitVec.toNat_ofNat]

theorem rnd_succ (n : ℕ) (seed : BitVec 64) :
    rnd (n + 1) seed = (List.range n).map (draw seed) ++ [draw seed n ||| (1 <<< 63)] := by
  rw [rnd, Nat.add_sub_cancel, List.range_succ, List.map_append, List.map_singleton]
  apply List.ext_getElem?
  intro i
  rw [List.getElem?_modify]
  rcases Nat.lt_trichotomy i n with hlt | rfl | hgt
  · simp [List.getElem?_append, hlt, hlt.ne']
  · simp
  · simp [List.getElem?_append, hgt.ne, hgt.not_gt, Nat.sub_ne_zero_of_lt hgt]

/-- The words of a big number below its top one are pairwise distinct. -/
theorem rnd_nodup {n : ℕ} (hn : n < 2 ^ 64) (seed : BitVec 64) : ((rnd (n + 1) seed).take n).Nodup := by
  have hwords : (rnd (n + 1) seed).take n = (List.range n).map (draw seed) := by
    rw [rnd_succ]
    exact List.take_left' (by rw [List.length_map, List.length_range])
  rw [hwords]
  refine List.nodup_range.map_on fun i hi j hj h => ?_
  have hmod := (draw_eq_iff seed i j).mp h
  rw [List.mem_range] at hi hj
  omega

/-! ## make_text -/

/-- `x += x; x ^= 1; if ((int32_t)x < 0) x ^= 0x88888eef` -/
def textStep (x : BitVec 32) : BitVec 32 :=
  let x := x + x
  let x := x ^^^ 1
  if x.toInt < 0 then x ^^^ 0x88888eef#32 else x

/-- `x % 31 == 0 ? '\n' : x % (0x7E + 1 - 0x20) + 0x20` -/
def textByte (x : BitVec 32) : BitVec 8 :=
  if x % 31 = 0 then 0x0a else (x % (0x7e + 1 - 0x20) + 0x20).setWidth 8

def textFrom : BitVec 32 → ℕ → List (BitVec 8)
  | _, 0 => []
  | x, n + 1 => textByte (textStep x) :: textFrom (textStep x) n

def makeText (n : ℕ) : List (BitVec 8) := textFrom (~~~0) n

/-- The states below 2^31. -/
def Low (x : BitVec 32) : Prop := x.toNat < 2 ^ 31

/-- The state before the conditional xor. -/
def shifted (x : BitVec 32) : BitVec 32 := (x + x) ^^^ 1

theorem textStep_eq (x : BitVec 32) :
    textStep x = if (shifted x).msb then shifted x ^^^ 0x88888eef#32 else shifted x := by
  have hsign : (shifted x).toInt < 0 ↔ (shifted x).msb := by
    rw [BitVec.msb_eq_toInt, decide_eq_true_eq]
  simp only [textStep, ← hsign]
  rfl

theorem shifted_low_bit (x : BitVec 32) : (shifted x).getLsbD 0 = true := by
  have hadd : (x + x).getLsbD 0 = false := by
    rw [BitVec.getLsbD, BitVec.toNat_add, Nat.testBit_zero, decide_eq_false_iff_not]
    omega
  rw [shifted, BitVec.getLsbD_xor, hadd]
  rfl

theorem low_iff (x : BitVec 32) : Low x ↔ x.msb = false := by
  rw [Low, BitVec.msb_eq_decide, decide_eq_false_iff_not, not_le]

/-- The constant clears the top bit that made it be used. -/
theorem textStep_low (x : BitVec 32) : Low (textStep x) := by
  rw [low_iff, textStep_eq]
  cases htaken : (shifted x).msb with
  | false => simpa using htaken
  | true =>
    rw [if_pos rfl, BitVec.msb_xor, htaken]
    rfl

/-- The low bit records whether the constant was used. -/
theorem textStep_low_bit (x : BitVec 32) : (textStep x).getLsbD 0 = !(shifted x).msb := by
  rw [textStep_eq]
  cases htaken : (shifted x).msb with
  | false => simpa using shifted_low_bit x
  | true =>
    rw [if_pos rfl, BitVec.getLsbD_xor, shifted_low_bit]
    rfl

theorem shifted_injOn : Set.InjOn shifted {x | Low x} := by
  intro x hx y hy h
  have hx' : x.toNat < 2 ^ 31 := hx
  have hy' : y.toNat < 2 ^ 31 := hy
  have hdouble : x + x = y + y := (BitVec.xor_left_inj _).mp h
  have hnat := congrArg BitVec.toNat hdouble
  rw [BitVec.toNat_add, BitVec.toNat_add] at hnat
  exact BitVec.eq_of_toNat_eq (by omega)

theorem textStep_injOn : Set.InjOn textStep {x | Low x} := by
  intro x hx y hy h
  have hbit := textStep_low_bit x
  rw [h, textStep_low_bit y, Bool.not_inj_iff] at hbit
  apply shifted_injOn hx hy
  rw [textStep_eq, textStep_eq, hbit] at h
  cases htaken : (shifted x).msb with
  | false => simpa [htaken] using h
  | true => simpa [htaken] using h

theorem textStep_bijOn : Set.BijOn textStep {x | Low x} {x | Low x} :=
  ((finite_words _).injOn_iff_bijOn_of_mapsTo fun x _ => textStep_low x).mp textStep_injOn

/-- From the first step on the states of a text go round. -/
theorem textStep_periodic (x : BitVec 32) :
    ∃ p, 0 < p ∧ ∀ i, 1 ≤ i → textStep^[i + p] x = textStep^[i] x := by
  have hmaps : Set.MapsTo textStep {x | Low x} {x | Low x} := fun x _ => textStep_low x
  obtain ⟨p, hp, hperiod⟩ := exists_period (finite_words _) hmaps textStep_injOn (textStep_low x)
  refine ⟨p, hp, fun i hi => ?_⟩
  obtain ⟨j, rfl⟩ := Nat.exists_eq_add_of_le' hi
  have hfirst := hperiod j
  rw [Nat.add_right_comm]
  exact hfirst

def Printable (b : BitVec 8) : Prop := b = 0x0a ∨ 0x20 ≤ b.toNat ∧ b.toNat ≤ 0x7e

theorem textByte_printable (x : BitVec 32) : Printable (textByte x) := by
  unfold textByte
  split
  · exact Or.inl rfl
  · right
    have hbyte : ((x % (0x7e + 1 - 0x20) + 0x20).setWidth 8).toNat = x.toNat % 95 + 32 := by
      simp
      omega
    rw [hbyte]
    omega

theorem textFrom_eq (x : BitVec 32) (n : ℕ) :
    textFrom x n = (List.range n).map fun i => textByte (textStep^[i + 1] x) := by
  induction n generalizing x with
  | zero => rfl
  | succ n ih =>
    have hrest : ∀ i, textStep^[i + 1] (textStep x) = textStep^[i + 1 + 1] x :=
      fun i => (iterate_succ_apply textStep (i + 1) x).symm
    rw [textFrom, ih, List.range_succ_eq_map, List.map_cons, List.map_map, Nat.zero_add, iterate_one]
    simp only [hrest, comp_def, Nat.succ_eq_add_one]

/-! ## No degeneration -/

/-- The xorshift permutes the words and never gets to 0 from elsewhere; no output of splitmix
has two states, so that its draws come round after 2^64 of them; the register of make_text
permutes the states below 2^31, which one step leads to, and its bytes are text. -/
theorem generators_never_degenerate :
    (Bijective xorshift ∧ ∀ seed, seed ≠ 0 → ∀ k, xorshift^[k] seed ≠ 0) ∧
    (Injective (fun s => (splitmix s).2) ∧
      ∀ seed i j, draw seed i = draw seed j ↔ i % 2 ^ 64 = j % 2 ^ 64) ∧
    ((∀ x, (textStep x).toNat < 2 ^ 31) ∧
      Set.BijOn textStep {x | x.toNat < 2 ^ 31} {x | x.toNat < 2 ^ 31} ∧
      (∀ x, ∃ p, 0 < p ∧ ∀ i, 1 ≤ i → textStep^[i + p] x = textStep^[i] x) ∧
      ∀ n, (makeText n).length = n ∧ ∀ b ∈ makeText n, b = 0x0a ∨ 0x20 ≤ b.toNat ∧ b.toNat ≤ 0x7e) := by
  refine ⟨⟨bijective_of_injective xorshift_injective, ?_⟩, ⟨splitmix_injective, draw_eq_iff⟩, ?_⟩
  · exact fun seed hseed k => iterate_ne xorshift_injective xorshift_zero hseed k
  · refine ⟨textStep_low, textStep_bijOn, textStep_periodic, fun n => ⟨?_, ?_⟩⟩
    · rw [makeText, textFrom_eq, List.length_map, List.length_range]
    · intro b hb
      rw [makeText, textFrom_eq] at hb
      obtain ⟨i, _, rfl⟩ := List.mem_map.mp hb
      exact textByte_printable _

end BurrowBench.Workloads
