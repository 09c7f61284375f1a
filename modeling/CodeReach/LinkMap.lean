import CodeReach.Symbol
import CodeReach.Text.Blank
import CodeReach.Text.Hex
import CodeReach.Text.Lines

namespace CodeReach.LinkMap

open Text

/-- The text after `start`, if that is how the text begins. -/
def dropStart? (start : List Char) (cs : List Char) : Option (List Char) :=
  if start.isPrefixOf cs then some (cs.drop start.length) else none

def sectionStart : List Char := ".text.".toList

/-- The function named by a section line: blanks, the section's start, and a name up to a blank. -/
def sectionName? (line : List Char) : Option (List Char) :=
  match dropStart? sectionStart (skipBlanks line) with
  | none => none
  | some rest =>
    let name := rest.takeWhile fun c => !isBlank c
    if name.isEmpty then none else some name

def hexStart : List Char := "0x".toList

/-- The digits of a hexadecimal numeral that a text begins with, and the rest. -/
def numeral? (cs : List Char) : Option (List Char × List Char) :=
  match dropStart? hexStart cs with
  | none => none
  | some rest =>
    let digits := rest.takeWhile Hex.isDigit
    if digits.isEmpty then none else some (digits, rest.dropWhile Hex.isDigit)

/-- The digits of address and size: two numerals with blanks between them. -/
def placementDigits? (line : List Char) : Option (List Char × List Char) :=
  match numeral? (skipBlanks line) with
  | none => none
  | some (address, rest) =>
    if (rest.head?.any isBlank) then
      (numeral? (skipBlanks rest)).map fun (size, _) => (address, size)
    else none

/-- A line whose numbers exceed 64 bits places nothing. -/
def placement? (line : List Char) : Option Placement :=
  match placementDigits? line with
  | none => none
  | some (address, size) =>
    match Hex.word? address, Hex.word? size with
    | some a, some s => some ⟨a, s⟩
    | _, _ => none

/-- Reads a line with the name that awaits its placement; gives the name that awaits it then, and
the symbol that the line completes. A placement without a name before it belongs to nothing. -/
def readLine (awaiting : Option String) (line : List Char) : Option String × Option Symbol :=
  match sectionName? line with
  | some name => (some (String.ofList name), none)
  | none =>
    match awaiting, placement? line with
    | some name, some p => (none, some ⟨name, p.address, p.size⟩)
    | _, _ => (awaiting, none)

/-- What each line completes; `done` is what the lines before completed, in reverse. -/
def scanFrom (done : List (Option Symbol)) (awaiting : Option String) :
    List (List Char) → List (Option Symbol)
  | [] => done.reverse
  | line :: rest => scanFrom ((readLine awaiting line).2 :: done) (readLine awaiting line).1 rest

def scan (lines : List (List Char)) : List (Option Symbol) := scanFrom [] none lines

def symbols (text : String) : List Symbol := (scan (lines text.toList)).filterMap id

def symbolTable (text : String) : SymbolTable := .ofList (symbols text)

theorem scanFrom_done (done : List (Option Symbol)) (awaiting : Option String)
    (lines : List (List Char)) :
    scanFrom done awaiting lines = done.reverse ++ scanFrom [] awaiting lines := by
  induction lines generalizing done awaiting with
  | nil => simp [scanFrom]
  | cons line rest ih =>
    rw [scanFrom, ih, scanFrom, ih [(readLine awaiting line).2]]
    simp

theorem scanFrom_cons (awaiting : Option String) (line : List Char) (rest : List (List Char)) :
    scanFrom [] awaiting (line :: rest) =
      (readLine awaiting line).2 :: scanFrom [] (readLine awaiting line).1 rest := by
  rw [scanFrom, scanFrom_done]
  rfl

end CodeReach.LinkMap
