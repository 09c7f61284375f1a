import CodeReach.Json.Literal

namespace CodeReach

/-- Numbers and strings are kept as they are written, a string without its quotes, so that a value
can be read and skipped without its numerals and escapes having a meaning here. -/
inductive Json where
  | null
  | bool (b : Bool)
  | number (literal : List Char)
  | string (literal : List Char)
  | array (items : List Json)
  | object (members : List (List Char × Json))

namespace Json

def ofNat (n : Nat) : Json := number (Nat.toDigits 10 n)

def ofString (s : String) : Json := string (Literal.escape s.toList)

def ofMembers (members : List (String × Json)) : Json :=
  object (members.map fun (key, v) => (Literal.escape key.toList, v))

/-- The text of a string, if it is one and its escapes give a text. -/
def text? : Json → Option String
  | string literal => (Literal.unescape literal).map String.ofList
  | _ => none

/-- A number below 2 ^ 64 written as plain digits. -/
def word? : Json → Option UInt64
  | number literal => Literal.word? literal
  | _ => none

def items? : Json → Option (List Json)
  | array items => some items
  | _ => none

mutual

/-- How deep arrays and objects lie within each other. -/
def depth : Json → Nat
  | array items => depthOfItems items + 1
  | object members => depthOfMembers members + 1
  | _ => 0

def depthOfItems : List Json → Nat
  | [] => 0
  | v :: rest => max (depth v) (depthOfItems rest)

def depthOfMembers : List (List Char × Json) → Nat
  | [] => 0
  | (_, v) :: rest => max (depth v) (depthOfMembers rest)

end

mutual

/-- Whether every string within is a text and every number within the range of doubles. -/
def hasMeaning : Json → Bool
  | number literal => Literal.inDoubleRange literal
  | string literal => (Literal.unescape literal).isSome
  | array items => itemsHaveMeaning items
  | object members => membersHaveMeaning members
  | _ => true

def itemsHaveMeaning : List Json → Bool
  | [] => true
  | v :: rest => hasMeaning v && itemsHaveMeaning rest

def membersHaveMeaning : List (List Char × Json) → Bool
  | [] => true
  | (key, v) :: rest =>
    (Literal.unescape key).isSome && hasMeaning v && membersHaveMeaning rest

end

end Json

end CodeReach
