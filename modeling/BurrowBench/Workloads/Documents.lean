import BurrowBench.Foundation.BoundedText
import BurrowBench.Foundation.JsonGrammar
import BurrowBench.Harness.Timer
import Mathlib.Tactic.Linarith

/-! # The documents of the JSON and XML rows

Both sides build the same text before they measure anything. The C side does it with a chain of
snprintf into a buffer of fixed size, the Go side with writes into a buffer that grows.
-/
namespace BurrowBench.Workloads
open BoundedText DecimalText JsonGrammar

/-- `%d` of what is not negative, and `%0kd` -/
def decimal (n : ℕ) : Text := Nat.toDigits 10 n
def padded (k n : ℕ) : Text := (Nat.toDigits 10 n).leftpad k '0'

theorem length_decimal {n k : ℕ} (hk : 0 < k) (h : n < 10 ^ k) : (decimal n).length ≤ k :=
  (Nat.length_toDigits_le_iff (by omega) hk).mpr h

/-! ## Lengths -/

theorem sum_range_mono (f : ℕ → ℕ) {m n : ℕ} (h : m ≤ n) :
    ((List.range m).map f).sum ≤ ((List.range n).map f).sum := by
  obtain ⟨k, rfl⟩ := Nat.exists_eq_add_of_le h
  rw [List.range_add, List.map_append, List.sum_append]
  exact Nat.le_add_right _ _

theorem lt_iff_le_last {f : ℕ → ℕ} (hmono : Monotone f) {bound last : ℕ} (hlast : f last < bound)
    (hnext : bound ≤ f (last + 1)) (n : ℕ) : f n < bound ↔ n ≤ last := by
  constructor
  · intro h
    by_contra hlt
    have hle : f (last + 1) ≤ f n := hmono (by omega)
    omega
  · exact fun h => Nat.lt_of_le_of_lt (hmono h) hlast

/-! ## JSON -/

/-- The format of an item, which both sides spell alike. -/
def jsonItem (id name whole cents : ℕ) (ok : Text) : Text :=
  "\x7b\"id\":".toList ++ decimal id ++ ",\"name\":\"item ".toList ++ decimal name ++
    "\",\"price\":".toList ++ decimal whole ++ ".".toList ++ padded 2 cents ++
    ",\"tags\":[\"tea\",\"green\",\"loose\"],\"ok\":".toList ++ ok ++ "\x7d".toList

def jbOk (i : ℕ) : Text := if i % 3 = 0 then "true".toList else "false".toList

def jsonPieces (n : ℕ) : List Text :=
  ["[".toList] ++
    (List.range n).map (fun i =>
      (if 0 < i then ",".toList else []) ++ jsonItem i i (i / 4) (i % 4 * 25) (jbOk i)) ++
    ["]".toList]

/-- build_doc of json_bench.c, with JB_N items. -/
def jsonBuildDoc (n : ℕ) : Option Text := build (16 <<< 10) (jsonPieces n)

/-- jsonDoc of json_test.go -/
def goJsonWrites (n : ℕ) : List Text :=
  ["[".toList] ++
    (List.range n).flatMap (fun i =>
      (if 0 < i then [",".toList] else []) ++ [jsonItem i i (i / 4) (i % 4 * 25) (jbOk i)]) ++
    ["]".toList]

def goJsonDoc (n : ℕ) : Text := (goJsonWrites n).flatten

/-- The record both sides decode an item into. -/
def jbItem (i : ℕ) : Json :=
  .object [("id".toList, .number i), ("name".toList, .string ("item ".toList ++ decimal i)),
    ("price".toList, .number (i / 4)),
    ("tags".toList, .array [.string "tea".toList, .string "green".toList, .string "loose".toList]),
    ("ok".toList, .bool (i % 3 = 0))]

theorem plain_decimal (n : ℕ) : Plain (decimal n) := by
  intro c hc
  have hdigit := isDigit_toDigits c hc
  refine ⟨?_, ?_, ?_⟩
  · rintro rfl
    exact absurd hdigit (by decide)
  · rintro rfl
    exact absurd hdigit (by decide)
  · simp only [Char.isDigit, Bool.and_eq_true, decide_eq_true_eq] at hdigit
    exact UInt32.le_trans (by decide) hdigit.1

theorem reads_tags : Reads "[\"tea\",\"green\",\"loose\"]".toList
    (.array [.string "tea".toList, .string "green".toList, .string "loose".toList]) :=
  .array (.cons (.string "tea".toList (by decide))
    (.cons (.string "green".toList (by decide)) (.one (.string "loose".toList (by decide)))))

theorem reads_ok (i : ℕ) : Reads (jbOk i) (.bool (i % 3 = 0)) := by
  unfold jbOk
  split
  · rename_i h
    simp only [h, decide_true]
    exact .true
  · rename_i h
    simp only [h, decide_false]
    exact .false

theorem reads_decimal (i : ℕ) : Reads (decimal i) (.number i) := .nat i

/-- Prices are quarters, and two places hold a quarter exactly. -/
theorem reads_price (i : ℕ) :
    Reads (decimal (i / 4) ++ '.' :: padded 2 (i % 4 * 25)) (.number ((i : ℚ) / 4)) := by
  have h := Reads.decimal (25 * i) 2 (by omega)
  have hwhole : 25 * i / 10 ^ 2 = i / 4 := Nat.mul_div_mul_left i 4 (by omega : 0 < 25)
  have hcents : 25 * i % 10 ^ 2 = i % 4 * 25 := (Nat.mul_mod_mul_left 25 i 4).trans (Nat.mul_comm _ _)
  have hvalue : ((25 * i : ℕ) : ℚ) / 10 ^ 2 = i / 4 := by
    push_cast
    ring
  rwa [hwhole, hcents, hvalue] at h

/-- An object of five members, from the parts of a format that the values stand between. -/
theorem object_layout {k₁ k₂ k₃ k₄ k₅ item tags a b c d e f : Text} (x y u v ok : Text)
    (ha : a = '{' :: (quoted k₁ ++ [':'])) (hb : b = ',' :: (quoted k₂ ++ ':' :: '"' :: item))
    (hc : c = '"' :: ',' :: (quoted k₃ ++ [':'])) (hd : d = ['.'])
    (he : e = ',' :: (quoted k₄ ++ ':' :: (tags ++ ',' :: (quoted k₅ ++ [':'])))) (hf : f = ['}']) :
    a ++ x ++ b ++ y ++ c ++ u ++ d ++ v ++ e ++ ok ++ f =
      '{' :: ((quoted k₁ ++ ':' :: (x ++ ',' :: (quoted k₂ ++ ':' :: (quoted (item ++ y) ++ ',' ::
        (quoted k₃ ++ ':' :: ((u ++ '.' :: v) ++ ',' ::
          (quoted k₄ ++ ':' :: (tags ++ ',' :: (quoted k₅ ++ ':' :: ok))))))))) ++ ['}']) := by
  subst ha hb hc hd he hf
  simp only [quoted, List.append_assoc, List.cons_append, List.nil_append]

theorem jsonItem_eq (id name whole cents : ℕ) (ok : Text) : jsonItem id name whole cents ok =
    '{' :: ((quoted "id".toList ++ ':' :: (decimal id ++ ',' ::
      (quoted "name".toList ++ ':' :: (quoted ("item ".toList ++ decimal name) ++ ',' ::
        (quoted "price".toList ++ ':' :: ((decimal whole ++ '.' :: padded 2 cents) ++ ',' ::
          (quoted "tags".toList ++ ':' :: ("[\"tea\",\"green\",\"loose\"]".toList ++ ',' ::
            (quoted "ok".toList ++ ':' :: ok))))))))) ++ ['}']) :=
  object_layout _ _ _ _ _ (by decide) (by decide) (by decide) (by decide) (by decide) (by decide)

theorem reads_item (i : ℕ) : Reads (jsonItem i i (i / 4) (i % 4 * 25) (jbOk i)) (jbItem i) := by
  have hname : Plain ("item ".toList ++ decimal i) := by
    intro c hc
    rcases List.mem_append.mp hc with hc | hc
    · exact (by decide : Plain "item ".toList) c hc
    · exact plain_decimal i c hc
  rw [jsonItem_eq]
  exact .object (.cons (by decide) (reads_decimal i) (.cons (by decide) (.string _ hname)
    (.cons (by decide) (reads_price i) (.cons (by decide) reads_tags (.one (by decide) (reads_ok i))))))

/-- The items with the commas between them. -/
def jsonItems (n : ℕ) : Text :=
  ((List.range n).map fun i =>
    (if 0 < i then ",".toList else []) ++ jsonItem i i (i / 4) (i % 4 * 25) (jbOk i)).flatten

theorem jsonItems_succ (n : ℕ) : jsonItems (n + 1) =
    jsonItems n ++ ((if 0 < n then ",".toList else []) ++ jsonItem n n (n / 4) (n % 4 * 25) (jbOk n)) := by
  rw [jsonItems, List.range_succ, List.map_append, List.flatten_append, List.map_singleton,
    List.flatten_singleton]
  rfl

theorem reads_items (n : ℕ) : ReadsValues (jsonItems n) ((List.range n).map jbItem) := by
  induction n with
  | zero => exact .nil
  | succ n ih =>
    rw [jsonItems_succ, List.range_succ, List.map_append, List.map_singleton]
    cases n with
    | zero => exact .one (reads_item 0)
    | succ n =>
      have hcomma : ",".toList = [','] := by decide
      rw [if_pos (Nat.succ_pos n), hcomma]
      exact ih.concat (by simp) (reads_item (n + 1))

theorem jsonPieces_flatten (n : ℕ) : (jsonPieces n).flatten = "[".toList ++ jsonItems n ++ "]".toList := by
  rw [jsonPieces, List.flatten_append, List.flatten_append, List.flatten_singleton, List.flatten_singleton]
  rfl

/-- The comma is a write of its own on the Go side. -/
theorem goJsonDoc_eq (n : ℕ) : goJsonDoc n = "[".toList ++ jsonItems n ++ "]".toList := by
  have hitems : ((List.range n).flatMap fun i =>
      (if 0 < i then [",".toList] else []) ++ [jsonItem i i (i / 4) (i % 4 * 25) (jbOk i)]).flatten =
        jsonItems n := by
    rw [List.flatMap_def, List.flatten_flatten, List.map_map, jsonItems]
    congr 1
    apply List.map_congr_left
    intro i _
    by_cases hi : 0 < i
    · rw [Function.comp_apply, if_pos hi, if_pos hi, List.singleton_append, List.flatten_cons,
        List.flatten_singleton]
    · rw [Function.comp_apply, if_neg hi, if_neg hi, List.nil_append, List.flatten_singleton,
        List.nil_append]
  rw [goJsonDoc, goJsonWrites, List.flatten_append, List.flatten_append, List.flatten_singleton,
    List.flatten_singleton, hitems]

def jsonItemLength (i : ℕ) : ℕ :=
  69 + (decimal i).length + (decimal i).length + (decimal (i / 4)).length +
    (padded 2 (i % 4 * 25)).length + if i % 3 = 0 then 4 else 5

theorem length_layout (a b c d e f x y u v ok : Text) :
    (a ++ x ++ b ++ y ++ c ++ u ++ d ++ v ++ e ++ ok ++ f).length =
      a.length + b.length + c.length + d.length + e.length + f.length + x.length + y.length + u.length +
        v.length + ok.length := by
  simp only [List.length_append]
  omega

theorem length_jsonItem (i : ℕ) : (jsonItem i i (i / 4) (i % 4 * 25) (jbOk i)).length = jsonItemLength i := by
  have hok : (jbOk i).length = if i % 3 = 0 then 4 else 5 := by
    unfold jbOk
    split <;> decide
  refine (length_layout _ _ _ _ _ _ _ _ _ _ _).trans ?_
  rw [jsonItemLength, hok]
  congr 5

theorem length_jsonItems (n : ℕ) :
    (jsonItems n).length + (if 0 < n then 1 else 0) = ((List.range n).map jsonItemLength).sum + n := by
  induction n with
  | zero => rfl
  | succ n ih =>
    have hcomma : (if 0 < n then ",".toList else []).length = if 0 < n then 1 else 0 := by
      split <;> decide
    rw [jsonItems_succ, List.range_succ, List.map_append, List.sum_append, List.length_append,
      List.length_append, hcomma, length_jsonItem, List.map_singleton, List.sum_singleton,
      if_pos (Nat.succ_pos n)]
    omega

theorem length_goJsonDoc (n : ℕ) : (goJsonDoc n).length = ((List.range n).map jsonItemLength).sum + (n - 1) + 2 := by
  have hopen : "[".toList.length = 1 := by decide
  have hclose : "]".toList.length = 1 := by decide
  have hitems := length_jsonItems n
  rw [goJsonDoc_eq, List.length_append, List.length_append, hopen, hclose]
  split at hitems <;> omega

/-- There is room for 196 items. -/
theorem goJsonDoc_fits_iff (n : ℕ) : (goJsonDoc n).length < 16 <<< 10 ↔ n ≤ 196 := by
  have hmono : Monotone fun n => (goJsonDoc n).length := by
    intro m n h
    have hsum := sum_range_mono jsonItemLength h
    simp only [length_goJsonDoc]
    omega
  refine lt_iff_le_last hmono ?_ ?_ n
  · rw [length_goJsonDoc]
    decide +kernel
  · rw [length_goJsonDoc]
    decide +kernel

theorem jsonBuildDoc_eq (n : ℕ) : jsonBuildDoc n = if n ≤ 196 then some (goJsonDoc n) else none := by
  have hflatten : (jsonPieces n).flatten = goJsonDoc n := (jsonPieces_flatten n).trans (goJsonDoc_eq n).symm
  rw [jsonBuildDoc, build_eq, hflatten]
  simp only [goJsonDoc_fits_iff]

theorem reads_goJsonDoc (n : ℕ) : Reads (goJsonDoc n) (.array ((List.range n).map jbItem)) := by
  have hopen : "[".toList = ['['] := by decide
  have hclose : "]".toList = [']'] := by decide
  rw [goJsonDoc_eq, hopen, hclose]
  exact .array (reads_items n)

/-! ## XML -/

def xmlHead : Text :=
  "<?xml version=\"1.0\" encoding=\"UTF-8\"?>\n".toList ++
    "<feed xmlns=\"http://www.w3.org/2005/Atom\" xmlns:media=\"http://search.yahoo.com/mrss/\">\n".toList

def xmlTail : Text := "</feed>\n".toList

/-- The format of an entry, which both sides spell alike. -/
def xmlEntry (id title url grams : ℕ) : Text :=
  "  <entry id=\"".toList ++ decimal id ++ "\" lang=\"en\">\n    <title>Item ".toList ++ decimal title ++
    " &amp; friends</title>\n    <media:thumbnail url=\"https://example.com/".toList ++ decimal url ++
    ".jpg\" width=\"120\"/>\n    <summary>Green tea, loose leaf, ".toList ++ decimal grams ++
    " grams.</summary>\n  </entry>\n".toList

def xmlPieces (n : ℕ) : List Text :=
  [xmlHead] ++ (List.range n).map (fun i => xmlEntry i i i (50 + i)) ++ [xmlTail]

/-- build_doc of xml_bench.c, with XB_N entries. -/
def xmlBuildDoc (n : ℕ) : Option Text := build (32 <<< 10) (xmlPieces n)

/-- xmlDoc of xml_test.go makes the same writes. -/
def goXmlDoc (n : ℕ) : Text := (xmlPieces n).flatten

def xmlEntryLength (i : ℕ) : ℕ :=
  196 + (decimal i).length + (decimal i).length + (decimal i).length + (decimal (50 + i)).length

theorem length_entry_layout (a b c d e x y u v : Text) :
    (a ++ x ++ b ++ y ++ c ++ u ++ d ++ v ++ e).length =
      a.length + b.length + c.length + d.length + e.length + x.length + y.length + u.length + v.length := by
  simp only [List.length_append]
  omega

theorem length_xmlEntry (i : ℕ) : (xmlEntry i i i (50 + i)).length = xmlEntryLength i := by
  refine (length_entry_layout _ _ _ _ _ _ _ _ _).trans ?_
  rw [xmlEntryLength]
  congr 4

theorem length_goXmlDoc (n : ℕ) : (goXmlDoc n).length = ((List.range n).map xmlEntryLength).sum + 134 := by
  have hhead : xmlHead.length = 126 := by decide +kernel
  have htail : xmlTail.length = 8 := by decide
  have hentries : (((List.range n).map fun i => xmlEntry i i i (50 + i)).flatten).length =
      ((List.range n).map xmlEntryLength).sum := by
    rw [List.length_flatten, List.map_map]
    exact congrArg _ (List.map_congr_left fun i _ => length_xmlEntry i)
  rw [goXmlDoc, xmlPieces, List.flatten_append, List.flatten_append, List.length_append, List.length_append,
    List.flatten_singleton, List.flatten_singleton, hhead, htail, hentries]
  omega

/-- There is room for 158 entries. -/
theorem goXmlDoc_fits_iff (n : ℕ) : (goXmlDoc n).length < 32 <<< 10 ↔ n ≤ 158 := by
  have hmono : Monotone fun n => (goXmlDoc n).length := by
    intro m n h
    have hsum := sum_range_mono xmlEntryLength h
    simp only [length_goXmlDoc]
    omega
  refine lt_iff_le_last hmono ?_ ?_ n
  · rw [length_goXmlDoc]
    decide +kernel
  · rw [length_goXmlDoc]
    decide +kernel

theorem xmlBuildDoc_eq (n : ℕ) : xmlBuildDoc n = if n ≤ 158 then some (goXmlDoc n) else none := by
  rw [xmlBuildDoc, build_eq]
  change (if (goXmlDoc n).length < 32 <<< 10 then some (goXmlDoc n) else none) = _
  simp only [goXmlDoc_fits_iff]

/-! ## The records of the XML rows -/

structure Entry where
  id : ℕ
  lang : Text
  title : Text
  url : Text
  width : ℕ
  summary : Text
  deriving DecidableEq

/-- An entry of xmlFeed in xml_test.go -/
def goEntry (i : ℕ) : Entry where
  id := i
  lang := "en".toList
  title := "Item ".toList ++ decimal i ++ " & friends".toList
  url := "https://example.com/".toList ++ decimal i ++ ".jpg".toList
  width := 120
  summary := "Green tea, loose leaf, ".toList ++ decimal (50 + i) ++ " grams.".toList

/-- An entry of build_feed: each text is printed into a buffer of its own. -/
def feedEntry (i : ℕ) : Option Entry := do
  let title ← build 64 ["Item ".toList ++ decimal i ++ " & friends".toList]
  let url ← build 64 ["https://example.com/".toList ++ decimal i ++ ".jpg".toList]
  let summary ← build 64 ["Green tea, loose leaf, ".toList ++ decimal (50 + i) ++ " grams.".toList]
  some { id := i, lang := "en".toList, title, url, width := 120, summary }

def buildFeed (n : ℕ) : Option (List Entry) := (List.range n).mapM feedEntry

theorem build_of_short {a b text : Text} (ha : a.length ≤ 25) (hb : b.length ≤ 15)
    (htext : text.length ≤ 10) : build 64 [a ++ text ++ b] = some (a ++ text ++ b) := by
  rw [build_eq, List.flatten_singleton, if_pos]
  simp only [List.length_append]
  omega

/-- Every entry whose numbers an int can hold fits into its buffers. -/
theorem feedEntry_eq {i : ℕ} (h : 50 + i < 2 ^ 31) : feedEntry i = some (goEntry i) := by
  have hid : (decimal i).length ≤ 10 := length_decimal (by omega) (by omega)
  have hgrams : (decimal (50 + i)).length ≤ 10 := length_decimal (by omega) (by omega)
  unfold feedEntry
  rw [build_of_short (by decide) (by decide) hid, build_of_short (by decide) (by decide) hid,
    build_of_short (by decide) (by decide) hgrams]
  rfl

theorem buildFeed_eq {n : ℕ} (h : 50 + n ≤ 2 ^ 31) : buildFeed n = some ((List.range n).map goEntry) := by
  have hentries : ∀ l : List ℕ, (∀ i ∈ l, i < n) → l.mapM feedEntry = some (l.map goEntry) := by
    intro l hl
    induction l with
    | nil => rfl
    | cons i l ih =>
      have hi := hl i List.mem_cons_self
      rw [List.mapM_cons, feedEntry_eq (by omega), ih fun j hj => hl j (List.mem_cons_of_mem i hj)]
      rfl
  exact hentries _ fun i hi => List.mem_range.mp hi

/-! ## Both sides measure the same text -/

/-- As long as its buffer has room the C side of a document is the Go side, and beyond that it has
no meaning. The JSON text is an array of the items, with each price exact. The records of the
XML rows are the same on both sides for every number an int can hold. -/
theorem documents_agree (n : ℕ) :
    (jsonBuildDoc n = if n ≤ 196 then some (goJsonDoc n) else none) ∧
    Reads (goJsonDoc n) (.array ((List.range n).map jbItem)) ∧
    (xmlBuildDoc n = if n ≤ 158 then some (goXmlDoc n) else none) ∧
    (50 + n ≤ 2 ^ 31 → buildFeed n = some ((List.range n).map goEntry)) :=
  ⟨jsonBuildDoc_eq n, reads_goJsonDoc n, xmlBuildDoc_eq n, buildFeed_eq⟩

end BurrowBench.Workloads
