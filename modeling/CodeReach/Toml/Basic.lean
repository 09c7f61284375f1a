namespace CodeReach

/-- How a table came about: between braces, by a header of its own, on the way of a header to a
table below it, or by a dotted key. That decides who may still add to it. -/
inductive TableOrigin where
  | inline
  | header
  | passed
  | dotted
deriving DecidableEq

inductive Toml where
  | string (s : String)
  | integer (n : Int)
  | float (literal : List Char)
  | boolean (b : Bool)
  | datetime (literal : List Char)
  | array (items : List Toml)
  | tables (items : List Toml)
  | table (origin : TableOrigin) (entries : List (String × Toml))

namespace Toml

abbrev Entries := List (String × Toml)

def find? (key : String) : Entries → Option Toml
  | [] => none
  | (k, v) :: rest => if k = key then some v else find? key rest

/-- Puts a value in the place of the one under a key, or behind all others. -/
def put (key : String) (v : Toml) : Entries → Entries
  | [] => [(key, v)]
  | (k, w) :: rest => if k = key then (k, v) :: rest else (k, w) :: put key v rest

/-- Changes the last table of an array of tables. -/
def changeLast (f : Entries → Option Entries) : List Toml → Option (List Toml)
  | [] => none
  | [table origin entries] => (f entries).map fun es => [table origin es]
  | v :: rest => (changeLast f rest).map (v :: ·)

/-- Changes the table that lies below a path of headers, making the tables on the way. -/
def underPath (f : Entries → Option Entries) : List String → Entries → Option Entries
  | [], entries => f entries
  | key :: path, entries =>
    match find? key entries with
    | none => (underPath f path []).map fun es => put key (table .passed es) entries
    | some (table .inline _) => none
    | some (table origin es) => (underPath f path es).map fun es => put key (table origin es) entries
    | some (tables items) => (changeLast (underPath f path) items).map fun ts => put key (tables ts) entries
    | some _ => none

/-- A header opens a table that is new or was only passed on the way to another. -/
def openTable (key : String) (entries : Entries) : Option Entries :=
  match find? key entries with
  | none => some (put key (table .header []) entries)
  | some (table .passed es) => some (put key (table .header es) entries)
  | some _ => none

/-- A double header adds a table to an array of tables. -/
def openItem (key : String) (entries : Entries) : Option Entries :=
  match find? key entries with
  | none => some (put key (tables [table .header []]) entries)
  | some (tables items) => some (put key (tables (items ++ [table .header []])) entries)
  | some _ => none

/-- Sets a key that is not there yet, below a path of dotted keys. A dotted key may add to a table
that dotted keys made, and pass through one that headers passed or the last of an array of tables.
-/
def assign (v : Toml) (key : String) : List String → Entries → Option Entries
  | [], entries =>
    match find? key entries with
    | none => some (put key v entries)
    | some _ => none
  | part :: path, entries =>
    match find? part entries with
    | none => (assign v key path []).map fun es => put part (table .dotted es) entries
    | some (table .dotted es) =>
      (assign v key path es).map fun es => put part (table .dotted es) entries
    | some (table .passed es) =>
      if path.isEmpty then none
      else (assign v key path es).map fun es => put part (table .passed es) entries
    | some (tables items) =>
      if path.isEmpty then none
      else (changeLast (assign v key path) items).map fun ts => put part (tables ts) entries
    | some _ => none

end Toml

end CodeReach
