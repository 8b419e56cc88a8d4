import Mathlib.Data.List.DropRight

/-! # Records and fields of a text

A text is cut into records at a terminator and a record into fields at runs of
separators. Cutting at runs keeps an empty piece before a leading run and after a
trailing one; the fields proper are the pieces that are not empty.
-/
namespace BurrowBench.FieldSplitting
variable {α : Type*}

section Records
variable [DecidableEq α]

/-- The records that their terminator follows. -/
def terminated (nl : α) (text : List α) : List (List α) := (text.splitOn nl).dropLast

def remainder (nl : α) (text : List α) : List α := (text.splitOn nl).getLastD []

def records (nl : α) (text : List α) : List (List α) :=
  terminated nl text ++ if remainder nl text = [] then [] else [remainder nl text]

def lines (nl : α) (ls : List (List α)) : List α := ls.flatMap (· ++ [nl])

theorem splitOn_lines {nl : α} {ls : List (List α)} (h : ∀ l ∈ ls, nl ∉ l) :
    (lines nl ls).splitOn nl = ls ++ [[]] := by
  induction ls with
  | nil => exact List.splitOn_nil nl
  | cons l ls ih =>
    have hsplit : lines nl (l :: ls) = l ++ nl :: lines nl ls := by simp [lines]
    rw [hsplit, List.splitOn_append_cons_self_of_not_mem (h l List.mem_cons_self),
      ih fun l' hl' => h l' (List.mem_cons_of_mem _ hl')]
    rfl

theorem records_lines {nl : α} {ls : List (List α)} (h : ∀ l ∈ ls, nl ∉ l) :
    records nl (lines nl ls) = ls := by
  simp [records, terminated, remainder, splitOn_lines h]

end Records

variable (sep : α → Bool)

/-- The piece a record starts with and the pieces after it. The flag says whether a
separator was just passed, so that the rest of its run is skipped. -/
def cut : Bool → List α → List α × List (List α)
  | _, [] => ([], [])
  | skipping, c :: cs =>
    if sep c then
      if skipping then cut true cs
      else ([], (cut true cs).1 :: (cut true cs).2)
    else (c :: (cut false cs).1, (cut false cs).2)

def pieces (l : List α) : List (List α) := (cut sep false l).1 :: (cut sep false l).2

def fields (l : List α) : List (List α) := (pieces sep l).filter (· ≠ [])

variable {sep}

theorem cut_sep {c : α} (h : sep c) (cs : List α) :
    cut sep false (c :: cs) = ([], (cut sep true cs).1 :: (cut sep true cs).2) := by simp [cut, h]

theorem cut_skip {c : α} (h : sep c) (cs : List α) : cut sep true (c :: cs) = cut sep true cs := by
  simp [cut, h]

theorem cut_word {c : α} (h : ¬ sep c) (skipping : Bool) (cs : List α) :
    cut sep skipping (c :: cs) = (c :: (cut sep false cs).1, (cut sep false cs).2) := by simp [cut, h]

theorem cut_true (l : List α) : cut sep true l = ([], []) ∨ (cut sep true l).1 ≠ [] := by
  induction l with
  | nil => exact Or.inl rfl
  | cons c cs ih =>
    by_cases hc : sep c
    · rwa [cut_skip hc]
    · exact Or.inr (by rw [cut_word hc]; simp)

theorem headD_filter_cut (skipping : Bool) (l : List α) :
    ((cut sep skipping l).2.filter (· ≠ [])).headD [] = (cut sep skipping l).2.headD [] := by
  induction l generalizing skipping with
  | nil => rfl
  | cons c cs ih =>
    by_cases hc : sep c
    · cases skipping with
      | true => rw [cut_skip hc]; exact ih true
      | false =>
        rw [cut_sep hc]
        rcases @cut_true _ sep cs with h | h
        · simp [h]
        · simp [h]
    · rw [cut_word hc]
      exact ih false

theorem fields_eq_filter_cut (l : List α) :
    fields sep l = ((cut sep true l).1 :: (cut sep true l).2).filter (· ≠ []) := by
  unfold fields pieces
  cases l with
  | nil => rfl
  | cons c cs =>
    by_cases hc : sep c
    · simp [cut_skip hc, cut_sep hc]
    · simp [cut_word hc]

theorem fields_sep {c : α} (h : sep c) (cs : List α) : fields sep (c :: cs) = fields sep cs := by
  rw [fields_eq_filter_cut, fields_eq_filter_cut, cut_skip h]

theorem fields_word {c : α} (h : ¬ sep c) (cs : List α) :
    fields sep (c :: cs) = (c :: (cut sep false cs).1) :: (cut sep false cs).2.filter (· ≠ []) := by
  unfold fields pieces
  rw [cut_word h]
  simp

theorem fields_nil : fields sep [] = [] := by simp [fields, pieces, cut]

theorem fields_eq_nil_iff {l : List α} : fields sep l = [] ↔ ∀ c ∈ l, sep c := by
  induction l with
  | nil => simp [fields_nil]
  | cons c cs ih =>
    by_cases hc : sep c
    · simp [fields_sep hc, ih, hc]
    · simp [fields_word hc, hc]

theorem fields_dropWhile (l : List α) : fields sep (l.dropWhile sep) = fields sep l := by
  induction l with
  | nil => rfl
  | cons c cs ih =>
    by_cases hc : sep c
    · rw [List.dropWhile_cons_of_pos hc, ih, fields_sep hc]
    · rw [List.dropWhile_cons_of_neg hc]

theorem cut_concat {c : α} (h : sep c) (skipping : Bool) (l : List α) :
    cut sep skipping (l ++ [c]) = cut sep skipping l ∨
      cut sep skipping (l ++ [c]) = ((cut sep skipping l).1, (cut sep skipping l).2 ++ [[]]) := by
  induction l generalizing skipping with
  | nil => cases skipping <;> simp [cut, h]
  | cons d ds ih =>
    rw [List.cons_append]
    by_cases hd : sep d
    · cases skipping with
      | true => simpa only [cut_skip hd] using ih true
      | false => rcases ih true with h' | h' <;> simp [cut_sep hd, h']
    · rcases ih false with h' | h' <;> simp [cut_word hd, h']

theorem fields_concat {c : α} (h : sep c) (l : List α) : fields sep (l ++ [c]) = fields sep l := by
  unfold fields pieces
  rcases cut_concat h false l with h' | h'
  · rw [h']
  · rw [h', ← List.cons_append, List.filter_append]
    simp

theorem fields_rdropWhile (l : List α) : fields sep (l.rdropWhile sep) = fields sep l := by
  induction l using List.reverseRecOn with
  | nil => rfl
  | append_singleton l c ih =>
    by_cases hc : sep c
    · rw [List.rdropWhile_concat_pos _ _ _ hc, ih, fields_concat hc]
    · rw [List.rdropWhile_concat_neg _ _ _ hc]

theorem pieces_of_word {c : α} (h : ¬ sep c) (cs : List α) :
    (pieces sep (c :: cs)).headD [] = (fields sep (c :: cs)).headD [] ∧
    (pieces sep (c :: cs)).tail.headD [] = (fields sep (c :: cs)).tail.headD [] := by
  rw [fields_word h, pieces, cut_word h]
  exact ⟨rfl, (headD_filter_cut false cs).symm⟩

theorem pieces_of_sep {c : α} (h : sep c) (cs : List α) :
    (pieces sep (c :: cs)).headD [] = [] ∧
    (pieces sep (c :: cs)).tail.headD [] = (fields sep (c :: cs)).headD [] := by
  rw [fields_eq_filter_cut, cut_skip h, pieces, cut_sep h]
  rcases @cut_true _ sep cs with h' | h' <;> simp [h']

theorem ne_nil_of_mem_fields {f l : List α} (h : f ∈ fields sep l) : f ≠ [] := by
  simpa using (List.mem_filter.mp h).2

theorem cut_append {w : List α} (h : ∀ c ∈ w, ¬ sep c) (l : List α) :
    cut sep false (w ++ l) = (w ++ (cut sep false l).1, (cut sep false l).2) := by
  induction w with
  | nil => rfl
  | cons c cs ih =>
    rw [List.cons_append, cut_word (h c List.mem_cons_self),
      ih fun d hd => h d (List.mem_cons_of_mem _ hd)]
    rfl

theorem pieces_of_plain {w : List α} (hw : ∀ c ∈ w, ¬ sep c) : pieces sep w = [w] := by
  have hcut := cut_append hw []
  rw [List.append_nil] at hcut
  simp [pieces, hcut, cut]

theorem fields_of_word {w : List α} (hne : w ≠ []) (h : ∀ c ∈ w, ¬ sep c) : fields sep w = [w] := by
  simp [fields, pieces_of_plain h, hne]

theorem fields_word_append {w : List α} {s : α} (hne : w ≠ []) (h : ∀ c ∈ w, ¬ sep c) (hs : sep s)
    (l : List α) : fields sep (w ++ s :: l) = w :: fields sep l := by
  rw [fields, pieces, cut_append h, cut_sep hs, fields_eq_filter_cut l]
  simp [hne]

/-! ## A record put together from words -/

/-- Words without separators, each followed by a run of them. -/
inductive Spelled (sep : α → Bool) : List α → List (List α) → Prop
  | last {w : List α} (hw : ∀ c ∈ w, ¬ sep c) : Spelled sep w [w]
  | word {w run rest : List α} {ws : List (List α)} (hw : ∀ c ∈ w, ¬ sep c) (hne : run ≠ [])
      (hrun : ∀ c ∈ run, sep c) (hrest : ∀ c, rest.head? = some c → ¬ sep c)
      (h : Spelled sep rest ws) : Spelled sep (w ++ (run ++ rest)) (w :: ws)

theorem cut_run {run : List α} (hrun : ∀ c ∈ run, sep c) (l : List α) :
    cut sep true (run ++ l) = cut sep true l := by
  induction run with
  | nil => rfl
  | cons c cs ih =>
    rw [List.cons_append, cut_skip (hrun c List.mem_cons_self)]
    exact ih fun d hd => hrun d (List.mem_cons_of_mem _ hd)

theorem cut_unspaced {l : List α} (h : ∀ c, l.head? = some c → ¬ sep c) :
    cut sep true l = cut sep false l := by
  cases l with
  | nil => rfl
  | cons c cs => rw [cut_word (h c rfl), cut_word (h c rfl)]

theorem pieces_of_run {w run rest : List α} (hw : ∀ c ∈ w, ¬ sep c) (hne : run ≠ [])
    (hrun : ∀ c ∈ run, sep c) (hrest : ∀ c, rest.head? = some c → ¬ sep c) :
    pieces sep (w ++ (run ++ rest)) = w :: pieces sep rest := by
  obtain ⟨s, run, rfl⟩ := List.exists_cons_of_ne_nil hne
  have htail : cut sep true (run ++ rest) = cut sep false rest := by
    rw [cut_run fun c hc => hrun c (List.mem_cons_of_mem _ hc), cut_unspaced hrest]
  rw [pieces, cut_append hw, List.cons_append, cut_sep (hrun s List.mem_cons_self), htail]
  simp [pieces]

theorem spelled_pieces (l : List α) : Spelled sep l (pieces sep l) := by
  induction hlen : l.length using Nat.strong_induction_on generalizing l with
  | _ n ih =>
    -- the first word, the run behind it and the rest
    set w := l.takeWhile fun c => !sep c
    set tail := l.dropWhile fun c => !sep c with htail
    have hl : w ++ tail = l := List.takeWhile_append_dropWhile
    have hw : ∀ c ∈ w, ¬ sep c := fun c hc => by simpa using List.mem_takeWhile_imp hc
    by_cases hend : tail = []
    · rw [hend, List.append_nil] at hl
      rw [← hl, pieces_of_plain hw]
      exact Spelled.last hw
    · set run := tail.takeWhile sep with hrundef
      set rest := tail.dropWhile sep with hrestdef
      have hsplit : run ++ rest = tail := List.takeWhile_append_dropWhile
      have hrun : ∀ c ∈ run, sep c := fun c hc => List.mem_takeWhile_imp hc
      have hrest : ∀ c, rest.head? = some c → ¬ sep c := by
        intro c hc
        have hneg := List.head?_dropWhile_not sep tail
        rw [← hrestdef, hc] at hneg
        simpa using hneg
      have hne : run ≠ [] := by
        obtain ⟨c, cs, hcons⟩ := List.exists_cons_of_ne_nil hend
        have hneg := List.head?_dropWhile_not (fun c => !sep c) l
        rw [← htail, hcons] at hneg
        rw [hrundef, hcons, List.takeWhile_cons_of_pos (by simpa using hneg)]
        exact List.cons_ne_nil _ _
      have hshort : rest.length < n := by
        have hlength := congrArg List.length (hl.symm.trans (congrArg (w ++ ·) hsplit.symm))
        have hpos := List.length_pos_iff.mpr hne
        simp only [List.length_append] at hlength
        omega
      rw [← hl, ← hsplit, pieces_of_run hw hne hrun hrest]
      exact Spelled.word hw hne hrun hrest (ih _ hshort rest rfl)

theorem spelled_iff {l : List α} {ws : List (List α)} : Spelled sep l ws ↔ ws = pieces sep l := by
  constructor
  · intro h
    induction h with
    | last hw => exact (pieces_of_plain hw).symm
    | word hw hne hrun hrest _ ih => rw [pieces_of_run hw hne hrun hrest, ih]
  · rintro rfl
    exact spelled_pieces l

/-! ## Two readers of one text -/

section Readers
variable {β γ : Type*} {f g : β → Option γ}

theorem filterMap_length_le (h : ∀ x, (f x).isSome → (g x).isSome) (xs : List β) :
    (xs.filterMap f).length ≤ (xs.filterMap g).length := by
  induction xs with
  | nil => exact le_rfl
  | cons x xs ih =>
    have hx := h x
    cases hf : f x <;> cases hg : g x <;> simp_all
    omega

/-- A reader that yields less often agrees with one that also sees more records exactly
when they agree on every shared record and the others yield nothing. -/
theorem filterMap_agree_iff (h : ∀ x, (f x).isSome → (g x).isSome) (xs ys : List β) :
    xs.filterMap f = (xs ++ ys).filterMap g ↔ (∀ x ∈ xs, f x = g x) ∧ ∀ y ∈ ys, g y = none := by
  induction xs with
  | nil => simp [eq_comm]
  | cons x xs ih =>
    have hx := h x
    cases hf : f x with
    | none =>
      cases hg : g x with
      | none => simpa [hf, hg] using ih
      | some b =>
        have hle := filterMap_length_le h xs
        constructor
        · intro heq
          have hlen := congrArg List.length heq
          simp only [List.filterMap_cons, hf, hg, List.cons_append, List.filterMap_append,
            List.length_cons, List.length_append] at hlen
          omega
        · intro hall
          have hbad := hall.1 x List.mem_cons_self
          rw [hf, hg] at hbad
          cases hbad
    | some a =>
      obtain ⟨b, hg⟩ := Option.isSome_iff_exists.mp (hx (by simp [hf]))
      simp only [List.cons_append, List.filterMap_cons, hf, hg, List.cons.injEq, ih,
        List.forall_mem_cons, Option.some.injEq, and_assoc]

end Readers

end BurrowBench.FieldSplitting
