import CodeReach.Text.Decimal
import CodeReach.Text.Hex
import CodeReach.Toml.Basic

namespace CodeReach.Toml

open Text

/-- Digits with single underscores between them; gives the digits alone. -/
def underscored? (isDigit : Char → Bool) : List Char → Option (List Char)
  | [] => none
  | [c] => if isDigit c then some [c] else none
  | c :: '_' :: cs => if isDigit c then (underscored? isDigit cs).map (c :: ·) else none
  | c :: cs => if isDigit c then (underscored? isDigit cs).map (c :: ·) else none

/-- Decimal digits without a zero in front. -/
def whole? (cs : List Char) : Option (List Char) :=
  match underscored? Decimal.isDigit cs with
  | some ('0' :: _ :: _) => none
  | r => r

/-- Sign and rest of a signed numeral. -/
def sign (cs : List Char) : Bool × List Char :=
  match cs with
  | '-' :: rest => (true, rest)
  | '+' :: rest => (false, rest)
  | _ => (false, cs)

def inRange (n : Int) : Option Int :=
  if Int64.minValue.toInt ≤ n ∧ n ≤ Int64.maxValue.toInt then some n else none

def isOctal (c : Char) : Bool := '0' ≤ c && c ≤ '7'

def isBinary (c : Char) : Bool := c == '0' || c == '1'

/-- The value of digits in a base. -/
def valueIn (base : Nat) (digits : List Char) : Nat :=
  digits.foldl (fun n c => n * base + Hex.digitValue c) 0

/-- Integers have 64 bits; those with a base have no sign. -/
def integer? (cs : List Char) : Option Int :=
  match cs with
  | '0' :: 'x' :: ds => (underscored? Hex.isDigit ds).bind fun ds => inRange (valueIn 16 ds)
  | '0' :: 'o' :: ds => (underscored? isOctal ds).bind fun ds => inRange (valueIn 8 ds)
  | '0' :: 'b' :: ds => (underscored? isBinary ds).bind fun ds => inRange (valueIn 2 ds)
  | _ =>
    let (negative, ds) := sign cs
    (whole? ds).bind fun ds =>
      inRange (if negative then -(Decimal.value ds : Int) else Decimal.value ds)

/-- A fraction and an exponent, of which at least one is there; gives them without underscores. -/
def floatTail? (cs : List Char) : Option (List Char) :=
  let isExponent c := c == 'e' || c == 'E'
  let exponent? : List Char → Option (List Char)
    | [] => some []
    | _ :: ds =>
      let (negative, ds) := sign ds
      (underscored? Decimal.isDigit ds).map fun ds => 'e' :: (if negative then '-' :: ds else ds)
  match cs with
  | '.' :: rest =>
    match underscored? Decimal.isDigit (rest.takeWhile (!isExponent ·)),
        exponent? (rest.dropWhile (!isExponent ·)) with
    | some fraction, some e => some ('.' :: fraction ++ e)
    | _, _ => none
  | c :: _ => if isExponent c then exponent? cs else none
  | [] => none

/-- Whether the characters are a float that rounds to a finite double, or a special one. -/
def isFloat (cs : List Char) : Bool :=
  let ds := (sign cs).2
  if ds = "inf".toList || ds = "nan".toList then true
  else
    let isWhole c := Decimal.isDigit c || c == '_'
    match whole? (ds.takeWhile isWhole), floatTail? (ds.dropWhile isWhole) with
    | some whole, some tail => (Decimal.scientific (whole ++ tail)).inDoubleRange
    | _, _ => false

/-- A number of two digits below a bound. -/
def two? (low high : Nat) (a b : Char) : Option Nat :=
  if Decimal.isDigit a && Decimal.isDigit b then
    let n := Decimal.value [a, b]
    if low ≤ n && n ≤ high then some n else none
  else none

def isLeap (year : Nat) : Bool := year % 4 == 0 && (year % 100 != 0 || year % 400 == 0)

def daysOf (year month : Nat) : Nat :=
  if month = 2 then (if isLeap year then 29 else 28)
  else if month = 4 ∨ month = 6 ∨ month = 9 ∨ month = 11 then 30
  else 31

/-- What follows a date of the calendar. -/
def dateRest? (cs : List Char) : Option (List Char) :=
  match cs with
  | y1 :: y2 :: y3 :: y4 :: '-' :: m1 :: m2 :: '-' :: d1 :: d2 :: rest =>
    if [y1, y2, y3, y4].all Decimal.isDigit then
      match two? 1 12 m1 m2 with
      | some month =>
        (two? 1 (daysOf (Decimal.value [y1, y2, y3, y4]) month) d1 d2).map fun _ => rest
      | none => none
    else none
  | _ => none

/-- What follows the fraction of a second, if there is one. -/
def fractionRest? (cs : List Char) : Option (List Char) :=
  match cs with
  | '.' :: ds =>
    if (ds.head?.any Decimal.isDigit) then some (ds.dropWhile Decimal.isDigit) else none
  | _ => some cs

/-- What follows the seconds with their fraction, if there are any; a leap second counts. -/
def secondsRest? (cs : List Char) : Option (List Char) :=
  match cs with
  | ':' :: s1 :: s2 :: rest => (two? 0 60 s1 s2).bind fun _ => fractionRest? rest
  | ':' :: _ => none
  | _ => some cs

/-- What follows a time of day. -/
def timeRest? (cs : List Char) : Option (List Char) :=
  match cs with
  | h1 :: h2 :: ':' :: m1 :: m2 :: rest =>
    match two? 0 23 h1 h2, two? 0 59 m1 m2 with
    | some _, some _ => secondsRest? rest
    | _, _ => none
  | _ => none

/-- Whether the characters are an offset from universal time, or nothing. -/
def isOffset (cs : List Char) : Bool :=
  match cs with
  | [] => true
  | [z] => z == 'Z' || z == 'z'
  | [s, h1, h2, ':', m1, m2] =>
    (s == '+' || s == '-') && (two? 0 23 h1 h2).isSome && (two? 0 59 m1 m2).isSome
  | _ => false

/-- Whether the characters are a date, a time, or both with an optional offset. -/
def isDatetime (cs : List Char) : Bool :=
  match dateRest? cs with
  | some [] => true
  | some (t :: time) =>
    (t == 'T' || t == 't' || t == ' ') && ((timeRest? time).any isOffset)
  | none => timeRest? cs == some []

def isAtomChar (c : Char) : Bool :=
  c.isAlphanum || c == '_' || c == '+' || c == '-' || c == '.' || c == ':'

/-- The run of characters of a value, and what follows. One space may stand between a date and a
time. -/
def atom (cs : List Char) : List Char × List Char :=
  let word := cs.takeWhile isAtomChar
  match dateRest? word, cs.dropWhile isAtomChar with
  | some [], ' ' :: d :: rest =>
    if Decimal.isDigit d then
      (word ++ ' ' :: (d :: rest).takeWhile isAtomChar, (d :: rest).dropWhile isAtomChar)
    else (word, ' ' :: d :: rest)
  | _, rest => (word, rest)

def ofAtom? (cs : List Char) : Option Toml :=
  if cs = "true".toList then some (boolean true)
  else if cs = "false".toList then some (boolean false)
  else
    match integer? cs with
    | some n => some (integer n)
    | none =>
      if isFloat cs then some (float cs) else if isDatetime cs then some (datetime cs) else none

end CodeReach.Toml
