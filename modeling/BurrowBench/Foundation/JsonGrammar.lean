import BurrowBench.Foundation.DecimalText

/-! # What a JSON text stands for

The part of the grammar that has no white space between the tokens, no escapes in the strings
and no exponents and signs in the numbers. A number without leading zeros and with a fixed
number of places is what `Nat.toDigits` writes.
-/
namespace BurrowBench.JsonGrammar

inductive Json where
  | bool (b : Bool)
  | number (q : ℚ)
  | string (s : List Char)
  | array (values : List Json)
  | object (members : List (List Char × Json))

def Plain (s : List Char) : Prop := ∀ c ∈ s, c ≠ '"' ∧ c ≠ '\\' ∧ ' ' ≤ c

instance (s : List Char) : Decidable (Plain s) := List.decidableBAll _ s

def quoted (s : List Char) : List Char := '"' :: (s ++ ['"'])

mutual

inductive Reads : List Char → Json → Prop
  | true : Reads "true".toList (.bool true)
  | false : Reads "false".toList (.bool false)
  | nat (n : ℕ) : Reads (Nat.toDigits 10 n) (.number n)
  | decimal (m k : ℕ) (hk : 0 < k) :
      Reads (Nat.toDigits 10 (m / 10 ^ k) ++ '.' :: (Nat.toDigits 10 (m % 10 ^ k)).leftpad k '0')
        (.number (m / 10 ^ k))
  | string (s : List Char) (h : Plain s) : Reads (quoted s) (.string s)
  | array {text : List Char} {values : List Json} (h : ReadsValues text values) :
      Reads ('[' :: (text ++ [']'])) (.array values)
  | object {text : List Char} {members : List (List Char × Json)} (h : ReadsMembers text members) :
      Reads ('{' :: (text ++ ['}'])) (.object members)

inductive ReadsValues : List Char → List Json → Prop
  | nil : ReadsValues [] []
  | one {text : List Char} {value : Json} (h : Reads text value) : ReadsValues text [value]
  | cons {text rest : List Char} {value next : Json} {values : List Json} (h : Reads text value)
      (hrest : ReadsValues rest (next :: values)) : ReadsValues (text ++ ',' :: rest) (value :: next :: values)

inductive ReadsMembers : List Char → List (List Char × Json) → Prop
  | nil : ReadsMembers [] []
  | one {text key : List Char} {value : Json} (hkey : Plain key) (h : Reads text value) :
      ReadsMembers (quoted key ++ ':' :: text) [(key, value)]
  | cons {text rest key : List Char} {value : Json} {next : List Char × Json}
      {members : List (List Char × Json)} (hkey : Plain key) (h : Reads text value)
      (hrest : ReadsMembers rest (next :: members)) :
      ReadsMembers (quoted key ++ ':' :: (text ++ ',' :: rest)) ((key, value) :: next :: members)

end

/-- One more value behind the others. -/
theorem ReadsValues.concat {text last : List Char} {values : List Json} {value : Json}
    (h : ReadsValues text values) (hne : values ≠ []) (hlast : Reads last value) :
    ReadsValues (text ++ ',' :: last) (values ++ [value]) := by
  induction values generalizing text with
  | nil => exact absurd rfl hne
  | cons first values ih =>
    cases h with
    | one hfirst => exact .cons hfirst (.one hlast)
    | cons hfirst hrest =>
      have htail := ih hrest (List.cons_ne_nil _ _)
      rw [List.append_assoc]
      exact .cons hfirst htail

end BurrowBench.JsonGrammar
