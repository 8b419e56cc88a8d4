import BurrowBench.Foundation.DecimalText
import BurrowBench.Foundation.KeyedTable
import BurrowBench.Foundation.SteadyLoop
import BurrowBench.Harness.Timer
import Mathlib.Data.Nat.Bitwise

/-! # The rows of the two maps

Each row but two prefills a table with a thousand and twenty four keys and then reads or writes it
under one of them, or under a key that is not there, as often as it is asked to. A row measures one
thing only as long as every turn finds the table as the first one did. The two maps of burrow are
parameters.
-/
namespace BurrowBench.Workloads
open DecimalText KeyedTable SteadyLoop

/-! ## Keys -/

/-- `N` -/
def mapSize : ℕ := 1024

/-- `i & (N - 1)` -/
def slot (i : ℕ) : ℕ := i &&& (mapSize - 1)

def intKey (i : ℕ) : ℤ := i * 7 + 1
def intMiss (i : ℕ) : ℤ := -(i * 7 + 1)

/-- Eleven bytes of a buffer of sixteen that a number is printed into behind a name. -/
def strOf (name : Text) (i : ℕ) : Text := ((name ++ (Nat.toDigits 10 i).leftpad 8 '0').take 15).take 11

def strKey (i : ℕ) : Text := strOf "key".toList i
def strMiss (i : ℕ) : Text := strOf "nyk".toList i

theorem slot_eq (i : ℕ) : slot i = i % mapSize := Nat.and_two_pow_sub_one_eq_mod i 10

theorem slot_lt (i : ℕ) : slot i < mapSize := slot_eq i ▸ Nat.mod_lt i (by decide)

theorem intKey_injective {i j : ℕ} (h : intKey i = intKey j) : i = j := by
  unfold intKey at h
  omega

theorem intKey_ne_intMiss (i j : ℕ) : intKey i ≠ intMiss j := by
  unfold intKey intMiss
  omega

/-- As long as eight digits do, the buffer holds all of the text and the string all of the buffer. -/
theorem strOf_eq {name : Text} (hname : name.length = 3) {i : ℕ} (hi : i < 10 ^ 8) :
    strOf name i = name ++ (Nat.toDigits 10 i).leftpad 8 '0' := by
  have hlength : (name ++ (Nat.toDigits 10 i).leftpad 8 '0').length = 11 := by
    rw [List.length_append, hname, length_leftpad (by omega) hi]
  have hprinted := List.take_of_length_le (Nat.le_trans hlength.le (by omega : 11 ≤ 15))
  rw [strOf, hprinted, List.take_of_length_le hlength.le]

theorem strKey_injective {i j : ℕ} (hi : i < mapSize) (hj : j < mapSize) (h : strKey i = strKey j) : i = j := by
  have hsize : mapSize < 10 ^ 8 := by decide
  rw [strKey, strKey, strOf_eq rfl (by omega), strOf_eq rfl (by omega)] at h
  exact leftpad_injective 8 (List.append_cancel_left h)

theorem strKey_ne_strMiss {i j : ℕ} (hi : i < mapSize) (hj : j < mapSize) : strKey i ≠ strMiss j := by
  have hsize : mapSize < 10 ^ 8 := by decide
  rw [strKey, strMiss, strOf_eq rfl (by omega), strOf_eq rfl (by omega)]
  intro h
  exact absurd (congrArg List.head? h) (by simp)

/-! ## map_bench.c -/

/-- burrow/map.h: a map is made for a number of entries it is told to expect. -/
structure BurrowMap (κ ν : Type) [DecidableEq κ] extends Tables κ ν where
  make : ℕ → Table
  clear : Table → Table
  len : Table → ℕ
  get_make : ∀ hint a, get (make hint) a = none
  get_clear : ∀ m a, get (clear m) a = none
  len_eq : ∀ m, len m = (walk m).length

def assocMap {κ ν : Type} [DecidableEq κ] : BurrowMap κ ν where
  toTables := assocTables
  make _ := (∅ : AList fun _ : κ => ν)
  clear _ := (∅ : AList fun _ : κ => ν)
  len m := AList.entries m |>.length
  get_make _ a := AList.lookup_empty (β := fun _ => ν) a
  get_clear _ a := AList.lookup_empty (β := fun _ => ν) a
  len_eq m := by simp [assocTables]

section MapRows
variable (M : BurrowMap ℤ ℤ) (S : BurrowMap Text ℤ)

def filledIntMap : M.Table := M.fill intKey intKey mapSize (M.make mapSize)
def filledStrMap : S.Table := S.fill strKey (fun i => (i : ℤ)) mapSize (S.make mapSize)

/-- A lookup under the key of the turn. The two return form finds the same. -/
def getRow {κ : Type} [DecidableEq κ] (T : Tables κ ℤ) (key : ℕ → κ) (i : ℕ) (m : T.Table) :
    T.Table × Option ℤ :=
  (m, T.get m (key (slot i)))

def mapGetHitInt : ℕ → M.Table → M.Table × Option ℤ := getRow M.toTables intKey
def mapGetMissInt : ℕ → M.Table → M.Table × Option ℤ := getRow M.toTables intMiss
def mapGet2HitInt : ℕ → M.Table → M.Table × Option ℤ := getRow M.toTables intKey
def mapGetHitStr : ℕ → S.Table → S.Table × Option ℤ := getRow S.toTables strKey
def mapGetMissStr : ℕ → S.Table → S.Table × Option ℤ := getRow S.toTables strMiss

def mapSetUpdate (i : ℕ) (m : M.Table) : M.Table × ℕ :=
  let k := intKey (slot i)
  let m := M.set m k k
  (m, M.len m)

/-- The three rows that build a map make one of their own each turn. -/
def mapSetGrow (_ : ℕ) (_ : Unit) : Unit × ℕ := ((), M.len (M.fill intKey intKey mapSize (M.make 0)))
def mapSetPrealloc (_ : ℕ) (_ : Unit) : Unit × ℕ :=
  ((), M.len (M.fill intKey intKey mapSize (M.make mapSize)))
def mapSetPreallocStr (_ : ℕ) (_ : Unit) : Unit × ℕ :=
  ((), S.len (S.fill strKey (fun i => (i : ℤ)) mapSize (S.make mapSize)))

def mapDelMiss (i : ℕ) (m : M.Table) : M.Table × ℕ :=
  let m := M.del m (intMiss (slot i))
  (m, M.len m)

def mapSetDelPair (i : ℕ) (m : M.Table) : M.Table × ℕ :=
  let k := intKey (slot i)
  let m := M.set (M.del m k) k k
  (m, M.len m)

def mapIter (_ : ℕ) (m : M.Table) : M.Table × ℤ := (m, (M.walk m).foldl (fun sum e => sum + e.2) 0)

def mapChurn (_ : ℕ) (m : M.Table) : M.Table × ℕ :=
  let m := M.drain intKey mapSize (M.fill intKey intKey mapSize m)
  (m, M.len m)

def mapClearRefill (_ : ℕ) (m : M.Table) : M.Table × ℕ :=
  let m := M.fill intKey intKey mapSize (M.clear m)
  (m, M.len m)

end MapRows

/-! ## sync_map_bench.c -/

/-- burrow/sync.h: load, store and delete are `get`, `set` and `del`, and a range is a walk. -/
structure BurrowSyncMap (κ ν : Type) [DecidableEq κ] extends Tables κ ν where
  init : Table
  loadOrStore : Table → κ → ν → Table × ν
  get_init : ∀ a, get init a = none
  loadOrStore_loaded : ∀ {m a v}, get m a = some v → ∀ w,
    (loadOrStore m a w).2 = v ∧ ∀ b, get (loadOrStore m a w).1 b = get m b
  loadOrStore_stored : ∀ {m a}, get m a = none → ∀ w,
    (loadOrStore m a w).2 = w ∧ ∀ b, get (loadOrStore m a w).1 b = if b = a then some w else get m b

def assocSyncMap {κ ν : Type} [DecidableEq κ] : BurrowSyncMap κ ν where
  toTables := assocTables
  init := (∅ : AList fun _ : κ => ν)
  loadOrStore m a w :=
    match AList.lookup a m with
    | some v => (m, v)
    | none => (AList.insert a w m, w)
  get_init a := AList.lookup_empty (β := fun _ => ν) a
  loadOrStore_loaded {m a v} h w := by
    have hlookup : AList.lookup a m = some v := h
    rw [hlookup]
    exact ⟨rfl, fun _ => rfl⟩
  loadOrStore_stored {m a} h w := by
    have hlookup : AList.lookup a m = none := h
    rw [hlookup]
    exact ⟨rfl, assocTables.get_set m a w⟩

section SyncMapRows
variable (M : BurrowSyncMap ℤ ℤ)

def filledSyncMap : M.Table := M.fill intKey intKey mapSize M.init

/-- `got` is zero unless the load finds something. -/
def syncMapLoadHit (i : ℕ) (m : M.Table) : M.Table × ℤ := (m, (M.get m (intKey (slot i))).getD 0)
def syncMapLoadMiss (i : ℕ) (m : M.Table) : M.Table × Bool := (m, (M.get m (intMiss (slot i))).isSome)
def syncMapHasHit (i : ℕ) (m : M.Table) : M.Table × Bool := (m, (M.get m (intKey (slot i))).isSome)

def syncMapLoadOrStoreHit (i : ℕ) (m : M.Table) : M.Table × ℤ :=
  let k := intKey (slot i)
  M.loadOrStore m k k

def syncMapStoreUpdate (i : ℕ) (m : M.Table) : M.Table × Unit :=
  let k := intKey (slot i)
  (M.set m k k, ())

def syncMapStoreDeletePair (i : ℕ) (m : M.Table) : M.Table × Unit :=
  let k := intMiss (slot i)
  (M.del (M.set m k k) k, ())

/-- count_one adds one and lets the walk go on. -/
def syncMapRange (_ : ℕ) (m : M.Table) : M.Table × ℕ := (m, (M.walk m).foldl (fun n _ => n + 1) 0)

end SyncMapRows

/-! ## What a filled table holds -/

/-- The keys of the rows with their own values, and nothing else. -/
def Filled (T : Tables ℤ ℤ) : T.Table → Prop := T.Holds intKey intKey mapSize

def FilledStr (T : Tables Text ℤ) : T.Table → Prop := T.Holds strKey (fun i => (i : ℤ)) mapSize

section Filled
variable {T : Tables ℤ ℤ} {m : T.Table}

theorem filled_fill (hm : T.Empty m) : Filled T (T.fill intKey intKey mapSize m) :=
  Tables.holds_fill (fun _ _ _ _ => intKey_injective) fun a _ => hm a

theorem Filled.get_key (hm : Filled T m) (i : ℕ) : T.get m (intKey (slot i)) = some (intKey (slot i)) :=
  hm.found _ (slot_lt i)

theorem Filled.get_miss (hm : Filled T m) (i : ℕ) : T.get m (intMiss i) = none :=
  hm.missing _ fun j _ => intKey_ne_intMiss j i

theorem Filled.walk_perm (hm : Filled T m) :
    (T.walk m).Perm ((List.range mapSize).map fun i => (intKey i, intKey i)) :=
  Tables.walk_perm (fun _ _ _ _ => intKey_injective) hm

theorem Filled.sum_walk (hm : Filled T m) :
    ((T.walk m).map Prod.snd).sum = ((List.range mapSize).map intKey).sum := by
  have hvalues := (hm.walk_perm.map Prod.snd).sum_eq
  rwa [List.map_map] at hvalues

theorem Filled.walk_length (hm : Filled T m) : (T.walk m).length = mapSize := by
  rw [hm.walk_perm.length_eq, List.length_map, List.length_range]

theorem filledStr_fill {T : Tables Text ℤ} {m : T.Table} (hm : T.Empty m) :
    FilledStr T (T.fill strKey (fun i => (i : ℤ)) mapSize m) :=
  Tables.holds_fill (fun _ hi _ hj => strKey_injective hi hj) fun a _ => hm a

theorem FilledStr.walk_length {T : Tables Text ℤ} {m : T.Table} (hm : FilledStr T m) :
    (T.walk m).length = mapSize := by
  rw [(Tables.walk_perm (fun _ hi _ hj => strKey_injective hi hj) hm).length_eq, List.length_map,
    List.length_range]

theorem foldl_sum_walk (walk : List (ℤ × ℤ)) (start : ℤ) :
    walk.foldl (fun sum e => sum + e.2) start = start + (walk.map Prod.snd).sum := by
  induction walk generalizing start with
  | nil => simp
  | cons e walk ih => rw [List.foldl_cons, ih, List.map_cons, List.sum_cons, add_assoc]

theorem foldl_count_walk {α : Type} (walk : List α) (start : ℕ) :
    walk.foldl (fun n _ => n + 1) start = start + walk.length := by
  induction walk generalizing start with
  | nil => rfl
  | cons e walk ih => rw [List.foldl_cons, ih, List.length_cons, Nat.add_assoc, Nat.add_comm 1]

end Filled

/-! ## The rows -/

theorem getRow_steady {κ : Type} [DecidableEq κ] {T : Tables κ ℤ} {P : T.Table → Prop} {key : ℕ → κ}
    (found : ℕ → Option ℤ) (h : ∀ m, P m → ∀ i < mapSize, T.get m (key i) = found i) :
    Steady (getRow T key) P fun i => found (i % mapSize) := by
  refine steady_of_turn fun i m hm => ⟨hm, ?_⟩
  exact (h m hm _ (slot_lt i)).trans (congrArg found (slot_eq i))

/-- A turn of a row that keeps the length of a table which holds the keys as before. -/
theorem len_steady {M : BurrowMap ℤ ℤ} {turn : ℕ → M.Table → M.Table}
    (h : ∀ i m, Filled M.toTables m → Filled M.toTables (turn i m)) :
    Steady (fun i m => (turn i m, M.len (turn i m))) (Filled M.toTables) fun _ => mapSize :=
  steady_of_turn fun i m hm => ⟨h i m hm, (M.len_eq _).trans (h i m hm).walk_length⟩

/-- However often a row of the map is repeated, every lookup of a key that is there finds its value
and no other lookup finds anything, and after each turn the table holds again what it held: writes
put back what they take out, a table that is emptied is empty, one that is built has an entry a
key, and a walk adds up the values of all of them. -/
theorem map_rows_steady (M : BurrowMap ℤ ℤ) (S : BurrowMap Text ℤ) :
    (Filled M.toTables (filledIntMap M) ∧ FilledStr S.toTables (filledStrMap S) ∧ M.Empty (M.make 0)) ∧
    Steady (mapGetHitInt M) (Filled M.toTables) (fun i => some (intKey (i % mapSize))) ∧
    Steady (mapGetMissInt M) (Filled M.toTables) (fun _ => none) ∧
    Steady (mapGet2HitInt M) (Filled M.toTables) (fun i => some (intKey (i % mapSize))) ∧
    Steady (mapGetHitStr S) (FilledStr S.toTables) (fun i => some ((i % mapSize : ℕ) : ℤ)) ∧
    Steady (mapGetMissStr S) (FilledStr S.toTables) (fun _ => none) ∧
    Steady (mapSetUpdate M) (Filled M.toTables) (fun _ => mapSize) ∧
    Steady (mapSetGrow M) (fun _ => True) (fun _ => mapSize) ∧
    Steady (mapSetPrealloc M) (fun _ => True) (fun _ => mapSize) ∧
    Steady (mapSetPreallocStr S) (fun _ => True) (fun _ => mapSize) ∧
    Steady (mapDelMiss M) (Filled M.toTables) (fun _ => mapSize) ∧
    Steady (mapSetDelPair M) (Filled M.toTables) (fun _ => mapSize) ∧
    Steady (mapIter M) (Filled M.toTables) (fun _ => ((List.range mapSize).map intKey).sum) ∧
    Steady (mapChurn M) M.Empty (fun _ => 0) ∧
    Steady (mapClearRefill M) (Filled M.toTables) (fun _ => mapSize) := by
  have hbuilt : ∀ hint, M.len (M.fill intKey intKey mapSize (M.make hint)) = mapSize := fun hint =>
    (M.len_eq _).trans (filled_fill (M.get_make hint)).walk_length
  have hbuiltStr : S.len (S.fill strKey (fun i => (i : ℤ)) mapSize (S.make mapSize)) = mapSize := by
    rw [S.len_eq, FilledStr.walk_length (filledStr_fill (S.get_make mapSize))]
  refine ⟨⟨filled_fill (M.get_make mapSize), filledStr_fill (S.get_make mapSize), M.get_make 0⟩,
    getRow_steady (fun i => some (intKey i)) fun _ hm => hm.found,
    getRow_steady (fun _ => none) fun _ hm i _ => Filled.get_miss hm i,
    getRow_steady (fun i => some (intKey i)) fun _ hm => hm.found,
    getRow_steady (fun i => some (i : ℤ)) fun _ hm => hm.found,
    getRow_steady (fun _ => none) fun _ hm _ hi => hm.missing _ fun _ hj => strKey_ne_strMiss hj hi,
    len_steady fun i m hm => hm.congr (Tables.get_set_of_found (Filled.get_key hm i)),
    steady_of_turn fun _ _ _ => ⟨trivial, hbuilt 0⟩, steady_of_turn fun _ _ _ => ⟨trivial, hbuilt mapSize⟩,
    steady_of_turn fun _ _ _ => ⟨trivial, hbuiltStr⟩,
    len_steady fun i m hm => hm.congr (Tables.get_del_of_missing (Filled.get_miss hm (slot i))),
    len_steady fun i m hm => hm.congr (Tables.get_set_del (Filled.get_key hm i)),
    steady_of_turn fun _ m hm => ⟨hm, ?_⟩, steady_of_turn fun _ m hm => ?_,
    len_steady fun _ m _ => filled_fill (M.get_clear m)⟩
  · rw [mapIter, foldl_sum_walk, zero_add, Filled.sum_walk hm]
  · have hempty : M.Empty (M.drain intKey mapSize (M.fill intKey intKey mapSize m)) :=
      Tables.empty_drain (filled_fill hm)
    have hlen : M.len (M.drain intKey mapSize (M.fill intKey intKey mapSize m)) = 0 := by
      rw [M.len_eq, Tables.walk_empty hempty, List.length_nil]
    simp only [mapChurn, hlen, hempty, and_self]

theorem map_rows_steady_assoc :
    (turns (mapIter assocMap) 2 (filledIntMap assocMap)).2 =
      [((List.range mapSize).map intKey).sum, ((List.range mapSize).map intKey).sum] ∧
    (turns (mapChurn assocMap) 3 (assocMap.make 0)).2 = [0, 0, 0] := by
  obtain ⟨⟨hfilled, -, hempty⟩, -, -, -, -, -, -, -, -, -, -, -, hiter, hchurn, -⟩ :=
    map_rows_steady assocMap assocMap
  exact ⟨(hiter 2 _ hfilled).2, (hchurn 3 _ hempty).2⟩

/-- The rows of the concurrent map, too: a key of the table is found under its own value, a missing
one is not found and is gone again after it was stored and deleted, and a walk sees every entry. -/
theorem sync_map_rows_steady (M : BurrowSyncMap ℤ ℤ) :
    Filled M.toTables (filledSyncMap M) ∧
    Steady (syncMapLoadHit M) (Filled M.toTables) (fun i => intKey (i % mapSize)) ∧
    Steady (syncMapLoadMiss M) (Filled M.toTables) (fun _ => false) ∧
    Steady (syncMapHasHit M) (Filled M.toTables) (fun _ => true) ∧
    Steady (syncMapLoadOrStoreHit M) (Filled M.toTables) (fun i => intKey (i % mapSize)) ∧
    Steady (syncMapStoreUpdate M) (Filled M.toTables) (fun _ => ()) ∧
    Steady (syncMapStoreDeletePair M) (Filled M.toTables) (fun _ => ()) ∧
    Steady (syncMapRange M) (Filled M.toTables) (fun _ => mapSize) := by
  refine ⟨filled_fill M.get_init, ?_, ?_, ?_, ?_, ?_, ?_, ?_⟩ <;>
    refine steady_of_turn fun i m hm => ?_
  · refine ⟨hm, ?_⟩
    rw [syncMapLoadHit, Filled.get_key hm i, slot_eq]
    rfl
  · refine ⟨hm, ?_⟩
    rw [syncMapLoadMiss, Filled.get_miss hm]
    rfl
  · refine ⟨hm, ?_⟩
    rw [syncMapHasHit, Filled.get_key hm i]
    rfl
  · obtain ⟨hgot, hsame⟩ := M.loadOrStore_loaded (Filled.get_key hm i) (intKey (slot i))
    exact ⟨hm.congr hsame, hgot.trans (congrArg intKey (slot_eq i))⟩
  · exact ⟨hm.congr (Tables.get_set_of_found (Filled.get_key hm i)), rfl⟩
  · exact ⟨hm.congr (Tables.get_del_set (Filled.get_miss hm (slot i))), rfl⟩
  · exact ⟨hm, (foldl_count_walk _ 0).trans ((Nat.zero_add _).trans (Filled.walk_length hm))⟩

theorem sync_map_rows_steady_assoc :
    (turns (syncMapLoadOrStoreHit assocSyncMap) 3 (filledSyncMap assocSyncMap)).2 = [1, 8, 15] ∧
    (turns (syncMapRange assocSyncMap) 1 (filledSyncMap assocSyncMap)).2 = [1024] := by
  obtain ⟨hfilled, -, -, -, hload, -, -, hrange⟩ := sync_map_rows_steady assocSyncMap
  exact ⟨(hload 3 _ hfilled).2.trans (by decide), (hrange 1 _ hfilled).2⟩

end BurrowBench.Workloads
