/-!
# Reading numerals

A natural numeral is a non-empty string of decimal digits, with any number of zeros in front and at
most one plus sign before them. An integer numeral may have a minus sign instead. Both are refused
when the number does not fit its type.
-/

namespace Microboard.Text

/-- The number that a string of decimal digits denotes. -/
def digits? (cs : List Char) : Option Nat :=
  if cs.isEmpty || !cs.all Char.isDigit then none
  else some (cs.foldl (fun value c => 10 * value + (c.toNat - '0'.toNat)) 0)

/-- The number of a natural numeral, if it is below `bound`. -/
def numeral? (bound : Nat) (cs : List Char) : Option Nat :=
  let unsigned :=
    match cs with
    | '+' :: rest => rest
    | cs => cs
  (digits? unsigned).filter (· < bound)

/-- The number of an integer numeral, if it lies between two bounds. -/
def integer? (low high : Int) (cs : List Char) : Option Int :=
  let value : Option Int :=
    match cs with
    | '-' :: rest => (digits? rest).map fun n => -(n : Int)
    | '+' :: rest => (digits? rest).map Int.ofNat
    | cs => (digits? cs).map Int.ofNat
  value.filter fun i => low ≤ i ∧ i ≤ high

example : numeral? 256 "+007".toList = some 7 := by decide
example : numeral? 256 "256".toList = none := by decide
example : integer? (-5) 5 "-0".toList = some 0 := by decide

end Microboard.Text
