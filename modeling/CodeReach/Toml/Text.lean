import CodeReach.Text.Hex
import CodeReach.Toml.Layout

namespace CodeReach.Toml

open Text

/-- The text of a string, and what follows its closing quotes. -/
abbrev Read := Option (List Char × List Char)

def Read.push (c : Char) (r : Read) : Read := r.map fun (s, rest) => (c :: s, rest)

/-- A code point given by hexadecimal digits, if it is a character. -/
def scalar? (digits : List Char) : Option Char :=
  if digits.all Hex.isDigit then
    let n := Hex.value digits
    if n < 0xd800 || (0xdfff < n && n < 0x110000) then some (Char.ofNat n) else none
  else none

def ofLetter? (c : Char) : Option Char :=
  if c = '"' then some '"'
  else if c = '\\' then some '\\'
  else if c = 'b' then some '\x08'
  else if c = 'e' then some '\x1b'
  else if c = 't' then some '\t'
  else if c = 'n' then some '\n'
  else if c = 'f' then some '\x0c'
  else if c = 'r' then some '\r'
  else none

/-- The rest of a basic string after its opening quote. -/
def basicRest : List Char → Read
  | [] => none
  | '"' :: cs => some ([], cs)
  | '\\' :: 'x' :: a :: b :: cs =>
    match scalar? [a, b] with
    | some x => (basicRest cs).push x
    | none => none
  | '\\' :: 'u' :: a :: b :: c :: d :: cs =>
    match scalar? [a, b, c, d] with
    | some x => (basicRest cs).push x
    | none => none
  | '\\' :: 'U' :: a :: b :: c :: d :: e :: f :: g :: h :: cs =>
    match scalar? [a, b, c, d, e, f, g, h] with
    | some x => (basicRest cs).push x
    | none => none
  | '\\' :: letter :: cs =>
    match ofLetter? letter with
    | some x => (basicRest cs).push x
    | none => none
  | c :: cs => if isPlain c && c != '\\' then (basicRest cs).push c else none

/-- The rest of a literal string after its opening quote. -/
def literalRest : List Char → Read
  | [] => none
  | '\'' :: cs => some ([], cs)
  | c :: cs => if isPlain c then (literalRest cs).push c else none

/-- Up to two quotes right before the closing three belong to the text. -/
def closing (quote : Char) (cs : List Char) : List Char × List Char :=
  match cs with
  | a :: b :: rest =>
    if a == quote && b == quote then ([quote, quote], rest)
    else if a == quote then ([quote], b :: rest)
    else ([], cs)
  | [a] => if a == quote then ([quote], []) else ([], cs)
  | [] => ([], [])

/-- Whether a line ends after blanks, so that a backslash before them joins it to the next. -/
def endsLine (cs : List Char) : Bool := (newline? (skipSpace cs)).isSome

/-- The rest of a basic string on several lines; while `joining` is set, blanks and line ends are
dropped. -/
def multiBasicRest (joining : Bool) : List Char → Read
  | [] => none
  | '"' :: '"' :: '"' :: cs => some (closing '"' cs)
  | '\r' :: '\n' :: cs =>
    if joining then multiBasicRest true cs else ((multiBasicRest false cs).push '\n').push '\r'
  | '\\' :: 'x' :: a :: b :: cs =>
    match scalar? [a, b] with
    | some x => (multiBasicRest false cs).push x
    | none => none
  | '\\' :: 'u' :: a :: b :: c :: d :: cs =>
    match scalar? [a, b, c, d] with
    | some x => (multiBasicRest false cs).push x
    | none => none
  | '\\' :: 'U' :: a :: b :: c :: d :: e :: f :: g :: h :: cs =>
    match scalar? [a, b, c, d, e, f, g, h] with
    | some x => (multiBasicRest false cs).push x
    | none => none
  | '\\' :: letter :: cs =>
    match ofLetter? letter with
    | some x => (multiBasicRest false cs).push x
    | none => if endsLine (letter :: cs) then multiBasicRest true (letter :: cs) else none
  | c :: cs =>
    if joining && (isSpace c || c == '\n') then multiBasicRest true cs
    else if c == '\n' || (isPlain c && c != '\\') then (multiBasicRest false cs).push c
    else none

/-- The rest of a literal string on several lines. -/
def multiLiteralRest : List Char → Read
  | [] => none
  | '\'' :: '\'' :: '\'' :: cs => some (closing '\'' cs)
  | '\r' :: '\n' :: cs => ((multiLiteralRest cs).push '\n').push '\r'
  | c :: cs => if c == '\n' || isPlain c then (multiLiteralRest cs).push c else none

/-- A line end right after the opening quotes is no part of the text. -/
def dropFirstNewline (cs : List Char) : List Char := (newline? cs).getD cs

/-- A string on one line, as it may also stand as a key. -/
def lineString? : List Char → Read
  | '"' :: cs => basicRest cs
  | '\'' :: cs => literalRest cs
  | _ => none

def string? : List Char → Read
  | '"' :: '"' :: '"' :: cs => multiBasicRest false (dropFirstNewline cs)
  | '\'' :: '\'' :: '\'' :: cs => multiLiteralRest (dropFirstNewline cs)
  | cs => lineString? cs

end CodeReach.Toml
