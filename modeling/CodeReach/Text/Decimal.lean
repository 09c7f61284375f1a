import CodeReach.Text.Double

namespace CodeReach.Text.Decimal

def isDigit (c : Char) : Bool := '0' ≤ c && c ≤ '9'

def digitValue (c : Char) : Nat := c.toNat - '0'.toNat

def value (digits : List Char) : Nat := digits.foldl (fun n c => n * 10 + digitValue c) 0

/-- A numeral taken apart: the digits before the point, those behind it, and the power of ten. -/
structure Scientific where
  whole : List Char
  fraction : List Char
  exponent : Int

namespace Scientific

/-- Whether the number rounds to a finite double. A numeral with its point far off to the right is
settled by the number of its digits alone. -/
def inDoubleRange (s : Scientific) : Bool :=
  let digits := (s.whole ++ s.fraction).dropWhile (· == '0')
  let shift := s.exponent - s.fraction.length
  if digits.isEmpty then true
  else if 310 < digits.length + shift then false
  else if digits.length + shift < 300 then true
  else if 0 ≤ shift then decide (value digits * Nat.pow 10 shift.toNat < doubleLimit)
  else decide (value digits < doubleLimit * Nat.pow 10 (-shift).toNat)

/-- Appends digits to a number as long as it fits into 64 bits; gives it and the digits left. -/
def pack (n : Nat) : List Char → Nat × List Char
  | [] => (n, [])
  | c :: cs =>
    if n * 10 + digitValue c < UInt64.size then pack (n * 10 + digitValue c) cs else (n, c :: cs)

/-- The numeral by the digits that fit into 64 bits: a number and its power of ten. Of the digits
left, those before the point still count as places and those behind it do not. -/
def packed (s : Scientific) : Nat × Int :=
  let (n, places) := pack 0 s.whole
  let (m, dropped) := pack n s.fraction
  (m, places.length + dropped.length - s.fraction.length + s.exponent)

/-- The largest power of ten that is a double. -/
def maxPower : Nat := 308

/-- Whether the packed number and its power of ten, each rounded to a double, have a finite product.
No number but zero has a power of ten that is too large for a double. -/
def packedInDoubleRange (s : Scientific) : Bool :=
  let (n, power) := s.packed
  if n = 0 || power < 0 then true
  else if maxPower < power then false
  else decide (to53Bits n * to53Bits (Nat.pow 10 power.toNat) < doubleLimit)

end Scientific

/-- The digits after a sign, as a signed number. -/
def signed (cs : List Char) : Int :=
  match cs with
  | '-' :: ds => -(value ds : Int)
  | '+' :: ds => value ds
  | ds => value ds

/-- Takes apart a numeral without its sign; a fraction follows a point and an exponent an `e`. -/
def scientific (cs : List Char) : Scientific :=
  let whole := cs.takeWhile isDigit
  let (fraction, rest) :=
    match cs.dropWhile isDigit with
    | '.' :: rest => (rest.takeWhile isDigit, rest.dropWhile isDigit)
    | rest => ([], rest)
  { whole, fraction, exponent := signed (rest.drop 1) }

end CodeReach.Text.Decimal
