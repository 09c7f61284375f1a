import CodeReach.Toml.Scalar
import CodeReach.Toml.Text

namespace CodeReach.Toml

def isBareKeyChar (c : Char) : Bool := c.isAlphanum || c == '_' || c == '-'

/-- One part of a key: bare or a string on one line. -/
def keyPart? (cs : List Char) : Option (String × List Char) :=
  match cs with
  | '"' :: _ => (lineString? cs).map fun (s, rest) => (String.ofList s, rest)
  | '\'' :: _ => (lineString? cs).map fun (s, rest) => (String.ofList s, rest)
  | _ =>
    if (cs.takeWhile isBareKeyChar).isEmpty then none
    else some (String.ofList (cs.takeWhile isBareKeyChar), cs.dropWhile isBareKeyChar)

/-- The parts of a key with dots between them: those before the last, the last, and what follows;
`n` bounds their number. -/
def keyParts? : Nat → List Char → Option (List String × String × List Char)
  | 0, _ => none
  | n + 1, cs =>
    match keyPart? (skipSpace cs) with
    | none => none
    | some (part, rest) =>
      match skipSpace rest with
      | '.' :: rest =>
        (keyParts? n rest).map fun (path, last, rest) => (part :: path, last, rest)
      | rest => some ([], part, rest)

def keyLimit : Nat := 80

def key? (cs : List Char) : Option (List String × String × List Char) := keyParts? keyLimit cs

def nestingLimit : Nat := 80

mutual

/-- A value, `room` levels of nesting below the limit; `n` bounds the steps. -/
def value? : Nat → Nat → List Char → Option (Toml × List Char)
  | 0, _, _ => none
  | n + 1, room, cs =>
    match cs with
    | '"' :: _ => (string? cs).map fun (s, rest) => (string (String.ofList s), rest)
    | '\'' :: _ => (string? cs).map fun (s, rest) => (string (String.ofList s), rest)
    | '[' :: rest =>
      if room = 0 then none
      else (items? n (room - 1) (skipLayout rest)).map fun (vs, rest) => (array vs, rest)
    | '\x7b' :: rest =>
      if room = 0 then none
      else
        (entries? n (room - 1) [] (skipLayout rest)).map fun (es, rest) => (table .inline es, rest)
    | _ => (ofAtom? (atom cs).1).map fun v => (v, (atom cs).2)

/-- The items of an array up to its end; a comma may follow the last. -/
def items? : Nat → Nat → List Char → Option (List Toml × List Char)
  | 0, _, _ => none
  | _ + 1, _, ']' :: rest => some ([], rest)
  | n + 1, room, cs =>
    match value? n room cs with
    | none => none
    | some (v, rest) =>
      match skipLayout rest with
      | ',' :: rest => (items? n room (skipLayout rest)).map fun (vs, rest) => (v :: vs, rest)
      | ']' :: rest => some ([v], rest)
      | _ => none

/-- The entries of an inline table up to its end; a comma may follow the last. A line may end
between any two parts of an entry, but not within its key. -/
def entries? : Nat → Nat → Entries → List Char → Option (Entries × List Char)
  | 0, _, _, _ => none
  | _ + 1, _, entries, '\x7d' :: rest => some (entries, rest)
  | n + 1, room, entries, cs =>
    match key? cs with
    | none => none
    | some (path, last, rest) =>
      match skipLayout rest with
      | '=' :: rest =>
        match value? n room (skipLayout rest) with
        | none => none
        | some (v, rest) =>
          match assign v last path entries with
          | none => none
          | some entries =>
            match skipLayout rest with
            | ',' :: rest => entries? n room entries (skipLayout rest)
            | '\x7d' :: rest => some (entries, rest)
            | _ => none
      | _ => none

end

/-- The document so far: its entries, and the path of the table that lines add to. -/
structure Draft where
  entries : Entries
  path : List String

/-- A header between brackets: its path, its last part, and what follows. -/
def header? (close : List Char) (cs : List Char) : Option (List String × String × List Char) :=
  match key? cs with
  | some (path, last, rest) =>
    if close.isPrefixOf rest then some (path, last, rest.drop close.length) else none
  | none => none

/-- Reads a line that is not empty, up to what is left of it after its statement. -/
def statement? (d : Draft) (cs : List Char) : Option (Draft × List Char) :=
  match cs with
  | '[' :: '[' :: rest =>
    match header? [']', ']'] rest with
    | some (path, last, rest) =>
      (underPath (openItem last) path d.entries).map fun es => (⟨es, path ++ [last]⟩, rest)
    | none => none
  | '[' :: rest =>
    match header? [']'] rest with
    | some (path, last, rest) =>
      (underPath (openTable last) path d.entries).map fun es => (⟨es, path ++ [last]⟩, rest)
    | none => none
  | _ =>
    match key? cs with
    | some (path, last, '=' :: rest) =>
      match value? (2 * cs.length) nestingLimit (skipSpace rest) with
      | some (v, rest) =>
        (underPath (assign v last path) d.path d.entries).map fun es => ({ d with entries := es }, rest)
      | none => none
    | _ => none

/-- Reads line by line; `n` bounds the lines. -/
def documentFrom : Nat → Draft → List Char → Option Entries
  | 0, _, _ => none
  | n + 1, d, cs =>
    match skipLayout cs with
    | [] => some d.entries
    | cs =>
      match statement? d cs with
      | none => none
      | some (d, rest) =>
        match lineEnd? rest with
        | some rest => documentFrom n d rest
        | none => none

/-- A byte order mark in front is no part of the document. -/
def dropMark (cs : List Char) : List Char :=
  match cs with
  | '\ufeff' :: rest => rest
  | _ => cs

def parse? (text : String) : Option Entries :=
  let cs := dropMark text.toList
  documentFrom (cs.length + 1) ⟨[], []⟩ cs

end CodeReach.Toml
