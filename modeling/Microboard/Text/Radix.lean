/-!
# Numerals as text

Decimal numerals as the listings, the views and the JSON texts write them, and hexadecimal numerals
as addresses and operands write them: upper case, with zeros in front up to a least width.
-/

namespace Microboard.Text

/-- Decimal numeral of `n`, without sign and without leading zeros. -/
def decimal (n : Nat) : String :=
  String.ofList (Nat.toDigits 10 n)

/-- Decimal numeral of an integer, with a minus sign in front of a negative one. -/
def signedDecimal (i : Int) : String :=
  if i < 0 then "-" ++ decimal i.natAbs else decimal i.natAbs

/-- Upper-case hexadecimal numeral of `n` with at least `width` digits. A longer numeral is written
    in full. -/
def hexadecimal (width n : Nat) : String :=
  let digits := (Nat.toDigits 16 n).map Char.toUpper
  String.ofList (List.replicate (width - digits.length) '0' ++ digits)

example : hexadecimal 4 0x1F = "001F" := by decide
example : hexadecimal 2 0x12AB = "12AB" := by decide

end Microboard.Text
