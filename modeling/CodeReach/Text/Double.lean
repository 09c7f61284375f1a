namespace CodeReach.Text

/-- The whole number nearest to `n / d`, the even one of two. -/
def roundHalfEven (n d : Nat) : Nat :=
  if 2 * (n % d) < d then n / d
  else if d < 2 * (n % d) then n / d + 1
  else if n / d % 2 = 0 then n / d
  else n / d + 1

/-- The nearest number that has at most 53 significant bits. -/
def to53Bits (n : Nat) : Nat :=
  if n < Nat.pow 2 53 then n
  else roundHalfEven n (Nat.pow 2 (n.log2 - 52)) * Nat.pow 2 (n.log2 - 52)

/-- Below this every number rounds to a double, halfway between the largest and the next power of
two. -/
def doubleLimit : Nat := Nat.pow 2 1024 - Nat.pow 2 970

end CodeReach.Text
