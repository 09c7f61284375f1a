import CodeReach.Text.Decimal
import CodeReach.Text.Hex

namespace CodeReach.Json.Literal

open Text

/-- The characters with an escape of one letter. -/
def letterOf? (c : Char) : Option Char :=
  if c = '"' then some '"'
  else if c = '\\' then some '\\'
  else if c = '\x08' then some 'b'
  else if c = '\t' then some 't'
  else if c = '\n' then some 'n'
  else if c = '\x0c' then some 'f'
  else if c = '\r' then some 'r'
  else none

/-- The character that an escape of one letter stands for. -/
def ofLetter? (c : Char) : Option Char :=
  if c = '"' then some '"'
  else if c = '\\' then some '\\'
  else if c = '/' then some '/'
  else if c = 'b' then some '\x08'
  else if c = 't' then some '\t'
  else if c = 'n' then some '\n'
  else if c = 'f' then some '\x0c'
  else if c = 'r' then some '\r'
  else none

/-- Quote, backslash and the characters below the space are escaped. -/
def escapeChar (c : Char) : List Char :=
  match letterOf? c with
  | some letter => ['\\', letter]
  | none =>
    if c.toNat < 0x20 then
      ['\\', 'u', '0', '0', Nat.digitChar (c.toNat / 16), Nat.digitChar (c.toNat % 16)]
    else [c]

def escape : List Char → List Char
  | [] => []
  | c :: cs => escapeChar c ++ escape cs

def isHighUnit (n : Nat) : Bool := 0xd800 ≤ n && n < 0xdc00

def isLowUnit (n : Nat) : Bool := 0xdc00 ≤ n && n < 0xe000

def joinUnits (high low : Nat) : Char := Char.ofNat (0x10000 + (high - 0xd800) * 0x400 + (low - 0xdc00))

/-- The text of an escaped string; half of a pair of code units gives none. The solidus and any code
unit may be escaped as well. -/
def unescape : List Char → Option (List Char)
  | [] => some []
  | '\\' :: 'u' :: a :: b :: c :: d :: cs =>
    let unit := Hex.value [a, b, c, d]
    if isLowUnit unit then none
    else if isHighUnit unit then
      match cs with
      | '\\' :: 'u' :: a :: b :: c :: d :: cs =>
        let low := Hex.value [a, b, c, d]
        if isLowUnit low then (unescape cs).map (joinUnits unit low :: ·) else none
      | _ => none
    else (unescape cs).map (Char.ofNat unit :: ·)
  | '\\' :: letter :: cs =>
    match ofLetter? letter with
    | some c => (unescape cs).map (c :: ·)
    | none => none
  | c :: cs => (unescape cs).map (c :: ·)

/-- A number below 2 ^ 64 in plain digits. -/
def word? (literal : List Char) : Option UInt64 :=
  if literal.all Decimal.isDigit && decide (Decimal.value literal < UInt64.size) then
    some (UInt64.ofNat (Decimal.value literal))
  else none

/-- Whether a number can be read as a double. -/
def inDoubleRange (literal : List Char) : Bool :=
  match literal with
  | '-' :: cs => (Decimal.scientific cs).packedInDoubleRange
  | cs => (Decimal.scientific cs).packedInDoubleRange

end CodeReach.Json.Literal
