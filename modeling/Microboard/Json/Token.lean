import Microboard.Json.Basic

/-!
# Tokens of JSON

The text of a value is a sequence of tokens with blanks between them. A `Token.Scanner` takes the
text character by character. A punctuation mark is a token by itself and a string literal ends at
its closing quote; any other run of characters is one word, and has to be a number or one of the
three words that JSON knows.
-/

namespace Microboard.Json

/-- The smallest units of a JSON text. -/
inductive Token where
  | openArray
  | closeArray
  | openObject
  | closeObject
  | colon
  | comma
  | null
  | bool (value : Bool)
  | number (value : Number)
  | string (value : Literal)
deriving DecidableEq, Repr

namespace Token

/-- The characters that may stand between tokens. -/
def isBlank (c : Char) : Bool :=
  c = ' ' || c = '\t' || c = '\n' || c = '\r'

def ofMark? : Char → Option Token
  | '[' => some .openArray
  | ']' => some .closeArray
  | '\x7b' => some .openObject
  | '\x7d' => some .closeObject
  | ':' => some .colon
  | ',' => some .comma
  | _ => none

def ofWord? (word : List Char) : Option Token :=
  if word = "null".toList then some .null
  else if word = "true".toList then some (.bool true)
  else if word = "false".toList then some (.bool false)
  else (Number.ofChars? word).map .number

def lexeme : Token → List Char
  | .openArray => ['[']
  | .closeArray => [']']
  | .openObject => ['\x7b']
  | .closeObject => ['\x7d']
  | .colon => [':']
  | .comma => [',']
  | .null => "null".toList
  | .bool true => "true".toList
  | .bool false => "false".toList
  | .number n => n.lexeme
  | .string s => s.lexeme

/-! ### Scanning -/

/-- The code point of an escape other than a numeric one. -/
def escape? : Char → Option Nat
  | '"' => some 0x22
  | '\\' => some 0x5C
  | '/' => some 0x2F
  | 'b' => some 0x08
  | 't' => some 0x09
  | 'n' => some 0x0A
  | 'f' => some 0x0C
  | 'r' => some 0x0D
  | _ => none

def hexValue? (c : Char) : Option Nat :=
  if c.isDigit then some (c.toNat - '0'.toNat)
  else if 'a' ≤ c && c ≤ 'f' then some (c.toNat - 'a'.toNat + 10)
  else if 'A' ≤ c && c ≤ 'F' then some (c.toNat - 'A'.toNat + 10)
  else none

/-- Where a scanner stands inside the text. Collected parts have the latest first. -/
inductive Place where
  /-- Between tokens or inside a word; an empty word is none. -/
  | word (read : List Char)
  /-- Inside a string literal. -/
  | literal (read : List Nat)
  /-- Behind the backslash of an escape. -/
  | escape (read : List Nat)
  /-- Behind some of the four digits of a numeric escape. -/
  | code (read : List Nat) (value : Nat) (missing : Nat)

/-- The tokens found so far, the latest first, and where the scanner stands. -/
structure Scanner where
  found : List Token
  place : Place

namespace Scanner

/-- The tokens behind which a word ends, if it is one. -/
def ended (found : List Token) (word : List Char) : Option (List Token) :=
  if word.isEmpty then some found else (ofWord? word.reverse).map (· :: found)

def take (s : Scanner) (c : Char) : Option Scanner :=
  match s.place with
  | .word read =>
    if isBlank c then (ended s.found read).map (⟨·, .word []⟩)
    else if c = '"' then (ended s.found read).map (⟨·, .literal []⟩)
    else
      match ofMark? c with
      | some mark => (ended s.found read).map fun found => ⟨mark :: found, .word []⟩
      | none => some ⟨s.found, .word (c :: read)⟩
  | .literal read =>
    if c = '"' then some ⟨.string ⟨read.reverse⟩ :: s.found, .word []⟩
    else if c = '\\' then some ⟨s.found, .escape read⟩
    else if c.toNat < 0x20 then none
    else some ⟨s.found, .literal (c.toNat :: read)⟩
  | .escape read =>
    if c = 'u' then some ⟨s.found, .code read 0 4⟩
    else (escape? c).map fun p => ⟨s.found, .literal (p :: read)⟩
  | .code read value missing =>
    (hexValue? c).map fun digit =>
      let value := 16 * value + digit
      if missing ≤ 1 then ⟨s.found, .literal (value :: read)⟩
      else ⟨s.found, .code read value (missing - 1)⟩

/-- The tokens in order, when the text ends here. -/
def finish (s : Scanner) : Option (List Token) :=
  match s.place with
  | .word read => (ended s.found read).map List.reverse
  | _ => none

end Scanner

def scan? (cs : List Char) : Option (List Token) := do
  let s ← cs.foldlM Scanner.take ⟨[], .word []⟩
  s.finish

end Token

end Microboard.Json
