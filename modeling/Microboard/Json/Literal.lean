import Microboard.Text.Radix

/-!
# String literals of JSON

A string literal spells a sequence of code points. Escapes can also spell surrogates, which are no
characters: a high one followed at once by a low one stands for one character, and a literal with
any other surrogate denotes no text, although it is grammatical.
-/

namespace Microboard.Json

/-- The code points that a string literal spells, surrogates included. -/
structure Literal where
  points : List Nat
deriving DecidableEq, Repr

namespace Literal

/-- Whether a code point is the first half of a surrogate pair. -/
def isHigh (p : Nat) : Bool :=
  0xD800 ≤ p && p < 0xDC00

/-- Whether a code point is the second half of a surrogate pair. -/
def isLow (p : Nat) : Bool :=
  0xDC00 ≤ p && p < 0xE000

/-- The character that a surrogate pair stands for. -/
def joined (high low : Nat) : Char :=
  Char.ofNat (0x10000 + (high - 0xD800) * 0x400 + (low - 0xDC00))

/-- Reads code points as characters behind those already `read`, the latest of which comes first.
    A `high` surrogate waits for its low one. -/
def characters (read : List Char) (high : Option Nat) : List Nat → Option (List Char)
  | [] => if high.isNone then some read.reverse else none
  | p :: rest =>
    match high with
    | some h => if isLow p then characters (joined h p :: read) none rest else none
    | none =>
      if isHigh p then characters read (some p) rest
      else if isLow p then none
      else characters (Char.ofNat p :: read) none rest

/-- The text that the literal denotes, if its surrogates form pairs. -/
def text? (l : Literal) : Option String :=
  (characters [] none l.points).map String.ofList

def ofText (s : String) : Literal :=
  ⟨s.toList.map Char.toNat⟩

/-! ### Spelling -/

def hexDigit (n : Nat) : Char :=
  Nat.digitChar n

/-- A code point below 65536 as an escape with four digits. -/
def numericEscape (p : Nat) : List Char :=
  ['\\', 'u', hexDigit (p / 4096 % 16), hexDigit (p / 256 % 16), hexDigit (p / 16 % 16),
    hexDigit (p % 16)]

/-- How a code point is written. Quotes, backslashes and control characters are escaped, as are
    surrogates; everything else stands for itself. -/
def spell (p : Nat) : List Char :=
  if p = 0x22 then ['\\', '"']
  else if p = 0x5C then ['\\', '\\']
  else if p = 0x08 then ['\\', 'b']
  else if p = 0x09 then ['\\', 't']
  else if p = 0x0A then ['\\', 'n']
  else if p = 0x0C then ['\\', 'f']
  else if p = 0x0D then ['\\', 'r']
  else if p < 0x20 || isHigh p || isLow p then numericEscape p
  else [Char.ofNat p]

def lexeme (l : Literal) : List Char :=
  '"' :: l.points.flatMap spell ++ ['"']

/-! ### Reading back a text -/

theorem isHigh_toNat (c : Char) : isHigh c.toNat = false := by
  have h := c.valid
  simp only [UInt32.isValidChar, Nat.isValidChar] at h
  simp only [isHigh, Char.toNat]
  rw [Bool.and_eq_false_iff]
  simp only [decide_eq_false_iff_not]
  omega

theorem isLow_toNat (c : Char) : isLow c.toNat = false := by
  have h := c.valid
  simp only [UInt32.isValidChar, Nat.isValidChar] at h
  simp only [isLow, Char.toNat]
  rw [Bool.and_eq_false_iff]
  simp only [decide_eq_false_iff_not]
  omega

theorem characters_map_toNat (read cs : List Char) :
    characters read none (cs.map Char.toNat) = some (read.reverse ++ cs) := by
  induction cs generalizing read with
  | nil => simp [characters]
  | cons c cs ih => simp [characters, isHigh_toNat, isLow_toNat, ih]

@[simp] theorem text?_ofText (s : String) : (ofText s).text? = some s := by
  simp [text?, ofText, characters_map_toNat]

end Literal

end Microboard.Json
