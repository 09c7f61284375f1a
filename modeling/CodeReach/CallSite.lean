import CodeReach.Mnemonic
import CodeReach.Text.Lines
import CodeReach.Text.Word

namespace CodeReach

open Text

/-- The name that a text starts with, if the bracket opened before it is closed right after. -/
def closedName? (cs : List Char) : Option (List Char) :=
  match cs.takeWhile isNameChar, cs.dropWhile isNameChar with
  | c :: name, '>' :: _ => some (c :: name)
  | _, _ => none

/-- The last bracketed name of a text. -/
def lastName? : List Char → Option (List Char)
  | [] => none
  | c :: cs =>
    match lastName? cs with
    | some name => some name
    | none => if c = '<' then closedName? cs else none

/-- Whether `m` starts `cs` with a word boundary at both ends; `left` tells whether a word character
stands before. -/
def standsAtStart (m : List Char) (left : Bool) (cs : List Char) : Bool :=
  m.isPrefixOf cs && left != startsWord cs &&
    (m.getLast?.any isWord) != startsWord (cs.drop m.length)

/-- The call target if one of the mnemonics `ms` stands at the start of a text. They are tried in
their order, and one with no bracketed name after it leaves the place to the next. -/
def targetAtStart? (ms : List (List Char)) (left : Bool) (cs : List Char) : Option (List Char) :=
  ms.findSome? fun m => if standsAtStart m left cs then lastName? (cs.drop m.length) else none

/-- The call target at the leftmost place of a text that gives one. -/
def firstTarget? (ms : List (List Char)) (left : Bool) : List Char → Option (List Char)
  | [] => none
  | c :: cs =>
    match targetAtStart? ms left (c :: cs) with
    | some name => some name
    | none => firstTarget? ms (isWord c) cs

/-- Puts a mnemonic before the first one that is not longer. -/
def insertByLength (m : String) : List String → List String
  | [] => [m]
  | n :: ns => if n.utf8ByteSize ≤ m.utf8ByteSize then m :: n :: ns else n :: insertByLength m ns

namespace MnemonicSet

/-- The mnemonics in the order in which they are tried: longer ones first, and those of one length
in the order of their names. -/
def alternatives (s : MnemonicSet) : List (List Char) :=
  (s.names.toList.foldr insertByLength []).map String.toList

/-- The call target of a piece of text without line feeds. -/
def calleeIn? (s : MnemonicSet) (cs : List Char) : Option String :=
  (firstTarget? s.alternatives false cs).map String.ofList

/-- The call target of a text: that of its first line that has one. A line calls the last bracketed
name on it, provided that one of the mnemonics stands before the bracket as a word of its own. -/
def callee? (s : MnemonicSet) (cs : List Char) : Option String :=
  (segments cs).findSome? s.calleeIn?

end MnemonicSet

end CodeReach
