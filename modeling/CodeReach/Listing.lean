import CodeReach.CallGraph
import CodeReach.CallSite
import CodeReach.Text.Hex

namespace CodeReach.Listing

open Text

/-- The function that a block line opens: blanks, a hexadecimal address, one space, the name in
brackets and a colon. -/
def blockName? (line : List Char) : Option (List Char) :=
  let cs := skipBlanks line
  if (cs.takeWhile Hex.isDigit).isEmpty then none
  else
    match cs.dropWhile Hex.isDigit with
    | ' ' :: '<' :: rest =>
      match rest.takeWhile isNameChar, rest.dropWhile isNameChar with
      | c :: name, '>' :: ':' :: _ => some (c :: name)
      | _, _ => none
    | _ => none

/-- The function whose block is being read, and the graph so far. -/
structure Reader where
  current : Option String
  graph : CallGraph

def Reader.start : Reader := ⟨none, .empty⟩

/-- A block line opens the code of a function, and the call sites up to the next one are calls of
that function; call sites before the first block line belong to nothing. -/
def Reader.readLine (s : MnemonicSet) (r : Reader) (line : List Char) : Reader :=
  match blockName? line with
  | some name => ⟨some (String.ofList name), r.graph.observe (String.ofList name)⟩
  | none =>
    match r.current, s.callee? line with
    | some caller, some callee => { r with graph := r.graph.addCall caller callee }
    | _, _ => r

def callGraph (s : MnemonicSet) (text : String) : CallGraph :=
  ((lines text.toList).foldl (Reader.readLine s) .start).graph

end CodeReach.Listing
