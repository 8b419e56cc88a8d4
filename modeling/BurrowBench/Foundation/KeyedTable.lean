import Mathlib.Data.List.AList
import Mathlib.Data.List.Range

/-! # Tables under families of keys

A table is known by what can be seen of it: what is found under a key, and what a walk hands
out. A table that was filled under the first `k` keys of a family holds these and nothing else,
whatever its layout, and a walk over it hands out each of them once.
-/
namespace BurrowBench.KeyedTable

structure Tables (κ ν : Type) [DecidableEq κ] where
  Table : Type
  get : Table → κ → Option ν
  set : Table → κ → ν → Table
  del : Table → κ → Table
  /-- What a walk hands out, in whatever order. -/
  walk : Table → List (κ × ν)
  get_set : ∀ m a v b, get (set m a v) b = if b = a then some v else get m b
  get_del : ∀ m a b, get (del m a) b = if b = a then none else get m b
  walk_nodup : ∀ m, ((walk m).map Prod.fst).Nodup
  mem_walk : ∀ m a v, (a, v) ∈ walk m ↔ get m a = some v

variable {κ ν : Type} [DecidableEq κ]

/-- Lists of entries with no key twice. -/
def assocTables : Tables κ ν where
  Table := AList fun _ : κ => ν
  get m a := m.lookup a
  set m a v := m.insert a v
  del m a := m.erase a
  walk m := m.entries.map fun e => (e.1, e.2)
  get_set m a v b := by
    by_cases h : b = a
    · rw [if_pos h, h, AList.lookup_insert]
    · rw [if_neg h, AList.lookup_insert_ne h]
  get_del m a b := by
    by_cases h : b = a
    · rw [if_pos h, h, AList.lookup_erase]
    · rw [if_neg h, AList.lookup_erase_ne h]
  walk_nodup m := by
    rw [List.map_map]
    exact m.nodupKeys
  mem_walk m a v := by
    rw [List.mem_map, ← Option.mem_def, AList.mem_lookup_iff]
    constructor
    · rintro ⟨⟨_, _⟩, he, heq⟩
      obtain ⟨rfl, rfl⟩ := Prod.mk.inj heq
      exact he
    · exact fun he => ⟨⟨a, v⟩, he, rfl⟩

namespace Tables
variable (T : Tables κ ν)

def fill (key : ℕ → κ) (value : ℕ → ν) (k : ℕ) (m : T.Table) : T.Table :=
  (List.range k).foldl (fun m i => T.set m (key i) (value i)) m

def drain (key : ℕ → κ) (k : ℕ) (m : T.Table) : T.Table :=
  (List.range k).foldl (fun m i => T.del m (key i)) m

/-- Nothing is found in the table. -/
def Empty (m : T.Table) : Prop := ∀ a, T.get m a = none

/-- The table holds the first `k` keys of a family with their values, and no other key. -/
structure Holds (key : ℕ → κ) (value : ℕ → ν) (k : ℕ) (m : T.Table) : Prop where
  found : ∀ i < k, T.get m (key i) = some (value i)
  missing : ∀ a, (∀ i < k, key i ≠ a) → T.get m a = none

variable {T} {key : ℕ → κ} {value : ℕ → ν} {k : ℕ} {m m' : T.Table} {a : κ} {v : ν}

theorem fill_succ (key : ℕ → κ) (value : ℕ → ν) (k : ℕ) (m : T.Table) :
    T.fill key value (k + 1) m = T.set (T.fill key value k m) (key k) (value k) := by
  rw [fill, List.range_succ, List.foldl_append]
  rfl

theorem drain_succ (key : ℕ → κ) (k : ℕ) (m : T.Table) :
    T.drain key (k + 1) m = T.del (T.drain key k m) (key k) := by
  rw [drain, List.range_succ, List.foldl_append]
  rfl

theorem get_fill_of_ne (h : ∀ i < k, key i ≠ a) : T.get (T.fill key value k m) a = T.get m a := by
  induction k with
  | zero => rfl
  | succ k ih =>
    rw [fill_succ, T.get_set, if_neg (h k (Nat.lt_succ_self k)).symm]
    exact ih fun i hi => h i (Nat.lt_succ_of_lt hi)

theorem get_fill (hkey : ∀ i < k, ∀ j < k, key i = key j → i = j) {i : ℕ} (hi : i < k) :
    T.get (T.fill key value k m) (key i) = some (value i) := by
  induction k with
  | zero => exact absurd hi (Nat.not_lt_zero i)
  | succ k ih =>
    rw [fill_succ, T.get_set]
    rcases Nat.lt_succ_iff_lt_or_eq.mp hi with hlt | rfl
    · rw [if_neg fun heq => Nat.ne_of_lt hlt (hkey i hi k (Nat.lt_succ_self k) heq)]
      exact ih (fun i hi j hj => hkey i (Nat.lt_succ_of_lt hi) j (Nat.lt_succ_of_lt hj)) hlt
    · rw [if_pos rfl]

theorem get_drain (k : ℕ) (m : T.Table) (a : κ) :
    T.get (T.drain key k m) a = if ∃ i < k, key i = a then none else T.get m a := by
  induction k with
  | zero => simp [drain]
  | succ k ih =>
    rw [drain_succ, T.get_del, ih]
    by_cases ha : a = key k
    · rw [if_pos ha, if_pos ⟨k, Nat.lt_succ_self k, ha.symm⟩]
    · rw [if_neg ha]
      refine if_congr ⟨?_, ?_⟩ rfl rfl
      · rintro ⟨i, hi, hia⟩
        exact ⟨i, Nat.lt_succ_of_lt hi, hia⟩
      · rintro ⟨i, hi, rfl⟩
        exact ⟨i, Nat.lt_of_le_of_ne (Nat.le_of_lt_succ hi) fun hik => ha (congrArg key hik), rfl⟩

/-- Filling an empty table, and one that holds the keys already. -/
theorem holds_fill (hkey : ∀ i < k, ∀ j < k, key i = key j → i = j)
    (hm : ∀ a, (∀ i < k, key i ≠ a) → T.get m a = none) : T.Holds key value k (T.fill key value k m) where
  found _ hi := get_fill hkey hi
  missing a ha := (get_fill_of_ne ha).trans (hm a ha)

theorem empty_drain (hm : T.Holds key value k m) : T.Empty (T.drain key k m) := by
  intro a
  rw [get_drain]
  split
  · rfl
  · rename_i hnone
    exact hm.missing a fun i hi heq => hnone ⟨i, hi, heq⟩

/-! ## Tables that look alike -/

theorem Holds.congr (hm : T.Holds key value k m) (h : ∀ a, T.get m' a = T.get m a) :
    T.Holds key value k m' where
  found i hi := (h _).trans (hm.found i hi)
  missing a ha := (h a).trans (hm.missing a ha)

theorem get_set_of_found (h : T.get m a = some v) (b : κ) : T.get (T.set m a v) b = T.get m b := by
  rw [T.get_set]
  split
  · rename_i hb
    rw [hb, h]
  · rfl

theorem get_del_of_missing (h : T.get m a = none) (b : κ) : T.get (T.del m a) b = T.get m b := by
  rw [T.get_del]
  split
  · rename_i hb
    rw [hb, h]
  · rfl

theorem get_set_del (h : T.get m a = some v) (b : κ) : T.get (T.set (T.del m a) a v) b = T.get m b := by
  rw [T.get_set, T.get_del]
  split
  · rename_i hb
    rw [hb, h]
  · rfl

theorem get_del_set (h : T.get m a = none) (b : κ) : T.get (T.del (T.set m a v) a) b = T.get m b := by
  rw [T.get_del, T.get_set]
  split
  · rename_i hb
    rw [hb, h]
  · rfl

/-! ## Walks -/

theorem walk_perm (hkey : ∀ i < k, ∀ j < k, key i = key j → i = j) (hm : T.Holds key value k m) :
    (T.walk m).Perm ((List.range k).map fun i => (key i, value i)) := by
  have hnodup : ((List.range k).map fun i => (key i, value i)).Nodup := by
    refine List.Nodup.map_on ?_ List.nodup_range
    intro i hi j hj heq
    exact hkey i (List.mem_range.mp hi) j (List.mem_range.mp hj) (congrArg Prod.fst heq)
  refine (List.perm_ext_iff_of_nodup (T.walk_nodup m).of_map hnodup).mpr ?_
  rintro ⟨a, v⟩
  rw [T.mem_walk, List.mem_map]
  constructor
  · intro hget
    by_cases ha : ∃ i < k, key i = a
    · obtain ⟨i, hi, rfl⟩ := ha
      rw [hm.found i hi] at hget
      exact ⟨i, List.mem_range.mpr hi, congrArg (key i, ·) (Option.some.inj hget)⟩
    · rw [hm.missing a fun i hi heq => ha ⟨i, hi, heq⟩] at hget
      cases hget
  · rintro ⟨i, hi, heq⟩
    obtain ⟨rfl, rfl⟩ := Prod.mk.inj heq
    exact hm.found i (List.mem_range.mp hi)

theorem walk_empty (hm : T.Empty m) : T.walk m = [] := by
  refine List.eq_nil_iff_forall_not_mem.mpr ?_
  rintro ⟨a, v⟩ hmem
  rw [T.mem_walk, hm a] at hmem
  cases hmem

end Tables

end BurrowBench.KeyedTable
