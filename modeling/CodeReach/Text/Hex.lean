namespace CodeReach.Text.Hex

def isDigit (c : Char) : Bool :=
  ('0' ≤ c && c ≤ '9') || ('a' ≤ c && c ≤ 'f') || ('A' ≤ c && c ≤ 'F')

/-- The value of a hexadecimal digit. -/
def digitValue (c : Char) : Nat :=
  if c ≤ '9' then c.toNat - '0'.toNat
  else if c ≤ 'F' then c.toNat - 'A'.toNat + 10
  else c.toNat - 'a'.toNat + 10

def value (digits : List Char) : Nat := digits.foldl (fun n c => n * 16 + digitValue c) 0

/-- The numeral as a 64-bit word, if it fits. -/
def word? (digits : List Char) : Option UInt64 :=
  if value digits < UInt64.size then some (UInt64.ofNat (value digits)) else none

end CodeReach.Text.Hex
