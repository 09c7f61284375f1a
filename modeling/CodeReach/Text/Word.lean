import CodeReach.Text.Ranges
import CodeReach.Text.WordTable

namespace CodeReach.Text

def isWord (c : Char) : Bool :=
  if c.toNat < 0x80 then c.isAlphanum || c == '_'
  else if c.toNat < 0x1000 then inRanges c.toNat Word.firstRanges
  else if c.toNat < 0x10000 then inRanges c.toNat Word.basicRanges
  else inRanges c.toNat Word.supplementaryRanges

/-- Whether a text starts with a word character. A word boundary lies between two neighbours of
which exactly one is a word character; the ends of a text count as no word character. -/
def startsWord : List Char → Bool
  | [] => false
  | c :: _ => isWord c

/-- Names may hold the marks that compilers and linkers put into them: dollar, at sign, dot. -/
def isNameChar (c : Char) : Bool := isWord c || c == '$' || c == '@' || c == '.'

end CodeReach.Text
