import CodeReach.Text.Double

namespace CodeReach.Text

def twoPlaces (hundredths : Nat) : String :=
  toString (hundredths / 100) ++ "." ++
    toString (hundredths % 100 / 10) ++ toString (hundredths % 10)

def kilobyte : Nat := 1024

def megabyte : Nat := 1024 * kilobyte

/-- How many hundredths of `unit` a size is written as. The size is first taken to the nearest
number of 53 significant bits, and each time a half goes to the even neighbour. -/
def hundredthsOf (unit n : Nat) : Nat := roundHalfEven (to53Bits n * 100) unit

def byteSize (n : Nat) : String :=
  if megabyte ≤ n then twoPlaces (hundredthsOf megabyte n) ++ " MB"
  else if kilobyte ≤ n then twoPlaces (hundredthsOf kilobyte n) ++ " KB"
  else toString n ++ " B"

end CodeReach.Text
