import CodeReach.Json.Literal

namespace CodeReach.Json

open Text

/-- Strings and numbers are taken as they are written, once their form is right. -/
inductive Token where
  | null
  | bool (b : Bool)
  | number (literal : List Char)
  | string (literal : List Char)
  | openArray
  | closeArray
  | openObject
  | closeObject
  | comma
  | colon
deriving DecidableEq

namespace Token

def isBlank (c : Char) : Bool := c == ' ' || c == '\t' || c == '\n' || c == '\r'

/-- The rest of a string up to its closing quote, and what follows it. -/
def stringRest : List Char → Option (List Char × List Char)
  | [] => none
  | '"' :: cs => some ([], cs)
  | '\\' :: 'u' :: a :: b :: c :: d :: cs =>
    if [a, b, c, d].all Hex.isDigit then
      (stringRest cs).map fun (s, rest) => ('\\' :: 'u' :: a :: b :: c :: d :: s, rest)
    else none
  | '\\' :: letter :: cs =>
    if (Literal.ofLetter? letter).isSome then
      (stringRest cs).map fun (s, rest) => ('\\' :: letter :: s, rest)
    else none
  | c :: cs =>
    if c.toNat < 0x20 || c == '\\' then none
    else (stringRest cs).map fun (s, rest) => (c :: s, rest)

/-- At least one digit. -/
def digits? (cs : List Char) : Option (List Char × List Char) :=
  if (cs.takeWhile Decimal.isDigit).isEmpty then none
  else some (cs.takeWhile Decimal.isDigit, cs.dropWhile Decimal.isDigit)

/-- A zero alone, or digits that do not start with one. -/
def whole? (cs : List Char) : Option (List Char × List Char) :=
  match cs with
  | '0' :: rest => if (rest.head?.any Decimal.isDigit) then none else some (['0'], rest)
  | _ => digits? cs

def fraction? (cs : List Char) : Option (List Char × List Char) :=
  match cs with
  | '.' :: rest => (digits? rest).map fun (ds, rest) => ('.' :: ds, rest)
  | _ => some ([], cs)

def exponent? (cs : List Char) : Option (List Char × List Char) :=
  match cs with
  | e :: rest =>
    if e == 'e' || e == 'E' then
      match rest with
      | s :: rest' =>
        if s == '+' || s == '-' then (digits? rest').map fun (ds, r) => (e :: s :: ds, r)
        else (digits? rest).map fun (ds, r) => (e :: ds, r)
      | [] => none
    else some ([], cs)
  | [] => some ([], [])

def unsigned? (cs : List Char) : Option (List Char × List Char) := do
  let (whole, rest) ← whole? cs
  let (fraction, rest) ← fraction? rest
  let (exponent, rest) ← exponent? rest
  some (whole ++ fraction ++ exponent, rest)

def number? (cs : List Char) : Option (List Char × List Char) :=
  match cs with
  | '-' :: rest => (unsigned? rest).map fun (n, rest) => ('-' :: n, rest)
  | _ => unsigned? cs

/-- The token that a text starts with. -/
def first? (cs : List Char) : Option (Token × List Char) :=
  match cs with
  | '[' :: rest => some (openArray, rest)
  | ']' :: rest => some (closeArray, rest)
  | '\x7b' :: rest => some (openObject, rest)
  | '\x7d' :: rest => some (closeObject, rest)
  | ',' :: rest => some (comma, rest)
  | ':' :: rest => some (colon, rest)
  | '"' :: rest => (stringRest rest).map fun (s, rest) => (string s, rest)
  | 'n' :: 'u' :: 'l' :: 'l' :: rest => some (null, rest)
  | 't' :: 'r' :: 'u' :: 'e' :: rest => some (bool true, rest)
  | 'f' :: 'a' :: 'l' :: 's' :: 'e' :: rest => some (bool false, rest)
  | _ => (number? cs).map fun (n, rest) => (number n, rest)

/-- Each token takes at least one character, so as many steps as there are characters are enough. -/
def tokensFrom : Nat → List Char → Option (List Token)
  | _, [] => some []
  | 0, _ :: _ => none
  | n + 1, c :: cs =>
    if isBlank c then tokensFrom n cs
    else
      match first? (c :: cs) with
      | none => none
      | some (t, rest) => (tokensFrom n rest).map (t :: ·)

end Token

def tokens? (cs : List Char) : Option (List Token) := Token.tokensFrom cs.length cs

end CodeReach.Json
