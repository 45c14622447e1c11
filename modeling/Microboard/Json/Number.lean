/-!
# Numbers of JSON

A number literal consists of a sign, a whole part, a fraction and an exponent. It is an integer only
if it is written without fraction and exponent, and minus zero is none. A literal can also be too
large for binary floating point of 64 bits; `Number.overflows` decides that exactly.
-/

namespace Microboard.Json

/-- A number literal. An absent fraction is empty. -/
structure Number where
  negative : Bool
  whole : List Char
  fraction : List Char
  exponent : Option Int
deriving DecidableEq, Repr

namespace Number

/-! ### Digits -/

def digitValue (c : Char) : Nat :=
  c.toNat - '0'.toNat

def digitsValue (ds : List Char) : Nat :=
  ds.foldl (fun value d => 10 * value + digitValue d) 0

/-! ### Reading -/

/-- Whether digits can be the whole part: there is one at least, and no needless zero in front. -/
def isWhole : List Char → Bool
  | [] => false
  | ['0'] => true
  | d :: _ => d ≠ '0'

/-- The fraction and what follows it; a point must have a digit behind it. -/
def fractionOf? : List Char → Option (List Char × List Char)
  | '.' :: rest =>
    let digits := rest.takeWhile Char.isDigit
    if digits.isEmpty then none else some (digits, rest.dropWhile Char.isDigit)
  | rest => some ([], rest)

/-- The exponent, which must end the literal. -/
def exponentOf? : List Char → Option (Option Int)
  | [] => some none
  | mark :: rest =>
    if mark = 'e' || mark = 'E' then
      let (negative, digits) : Bool × List Char :=
        match rest with
        | '-' :: digits => (true, digits)
        | '+' :: digits => (false, digits)
        | digits => (false, digits)
      if digits.isEmpty || !digits.all Char.isDigit then none
      else
        let size : Int := digitsValue digits
        some (some (if negative then -size else size))
    else none

def ofChars? (cs : List Char) : Option Number := do
  let (negative, rest) : Bool × List Char :=
    match cs with
    | '-' :: rest => (true, rest)
    | rest => (false, rest)
  let whole := rest.takeWhile Char.isDigit
  guard (isWhole whole)
  let (fraction, rest) ← fractionOf? (rest.dropWhile Char.isDigit)
  let exponent ← exponentOf? rest
  return { negative, whole, fraction, exponent }

/-! ### Integers -/

/-- The integer that the literal denotes, if it is written as one. -/
def toInt? (n : Number) : Option Int :=
  if n.fraction.isEmpty && n.exponent.isNone then
    let size : Int := digitsValue n.whole
    if n.negative then (if size = 0 then none else some (-size)) else some size
  else none

def ofInt (i : Int) : Number :=
  { negative := i < 0, whole := Nat.toDigits 10 i.natAbs, fraction := [], exponent := none }

def lexeme (n : Number) : List Char :=
  let sign := if n.negative then ['-'] else []
  let fraction := if n.fraction.isEmpty then [] else '.' :: n.fraction
  let exponent :=
    match n.exponent with
    | none => []
    | some e => 'e' :: (if e < 0 then ['-'] else []) ++ Nat.toDigits 10 e.natAbs
  sign ++ n.whole ++ fraction ++ exponent

/-! ### Too large for floating point

The first digits of the literal, as many as fit 64 bits, form its significand; the others count
only through the exponent that they leave. The significand and the power of ten are each rounded to
a binary significand of 53 bits, and the literal overflows if their product rounds to infinity. -/

/-- Takes digits into a significand while it fits 64 bits; the second part counts the digits that
    are left. -/
def significand (value : Nat) : List Char → Nat × Nat
  | [] => (value, 0)
  | d :: ds =>
    let next := 10 * value + digitValue d
    if next < 2 ^ 64 then significand next ds else (value, ds.length + 1)

/-- The nearest number with a binary significand of 53 bits; of two, the one with the even
    significand. -/
def roundedTo53Bits (n : Nat) : Nat :=
  if n < 1 <<< 53 then n
  else
    let unit := 1 <<< (n.log2 - 52)
    let quotient := n / unit
    let rest := n % unit
    let up := unit < 2 * rest || (2 * rest = unit && quotient % 2 = 1)
    (if up then quotient + 1 else quotient) * unit

/-- The least number that rounds to infinity. -/
def infinityThreshold : Nat := 1 <<< 1024 - 1 <<< 970

/-- Largest power of ten that is finite in floating point. -/
def largestPower : Int := 308

/-- Whether the literal is too large for floating point. A negative exponent never is. -/
def overflows (n : Number) : Bool :=
  let (digits, left) := significand 0 (n.whole ++ n.fraction)
  let exponent : Int := n.exponent.getD 0 - n.fraction.length + left
  digits ≠ 0 && 0 ≤ exponent &&
    (largestPower < exponent ||
      infinityThreshold ≤ roundedTo53Bits digits * roundedTo53Bits (Nat.pow 10 exponent.toNat))

end Number

end Microboard.Json
