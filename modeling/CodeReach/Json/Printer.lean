import CodeReach.Json.Basic

namespace CodeReach.Json

def quoted (literal : List Char) : List Char := '"' :: literal ++ ['"']

def boolText (b : Bool) : List Char := if b then "true".toList else "false".toList

mutual

def compact : Json → List Char
  | null => "null".toList
  | bool b => boolText b
  | number literal => literal
  | string literal => quoted literal
  | array [] => "[]".toList
  | array (v :: rest) => '[' :: compact v ++ compactItems rest ++ [']']
  | object [] => "\x7b\x7d".toList
  | object ((key, v) :: rest) =>
    '\x7b' :: quoted key ++ ':' :: compact v ++ compactMembers rest ++ ['\x7d']

def compactItems : List Json → List Char
  | [] => []
  | v :: rest => ',' :: compact v ++ compactItems rest

def compactMembers : List (List Char × Json) → List Char
  | [] => []
  | (key, v) :: rest => ',' :: quoted key ++ ':' :: compact v ++ compactMembers rest

end

def newline (level : Nat) : List Char := '\n' :: List.replicate (2 * level) ' '

mutual

def pretty (level : Nat) : Json → List Char
  | null => "null".toList
  | bool b => boolText b
  | number literal => literal
  | string literal => quoted literal
  | array [] => "[]".toList
  | array (v :: rest) =>
    '[' :: newline (level + 1) ++ pretty (level + 1) v ++ prettyItems (level + 1) rest ++
      newline level ++ [']']
  | object [] => "\x7b\x7d".toList
  | object ((key, v) :: rest) =>
    '\x7b' :: newline (level + 1) ++ quoted key ++ ':' :: ' ' :: pretty (level + 1) v ++
      prettyMembers (level + 1) rest ++ newline level ++ ['\x7d']

def prettyItems (level : Nat) : List Json → List Char
  | [] => []
  | v :: rest => ',' :: newline level ++ pretty level v ++ prettyItems level rest

def prettyMembers (level : Nat) : List (List Char × Json) → List Char
  | [] => []
  | (key, v) :: rest =>
    ',' :: newline level ++ quoted key ++ ':' :: ' ' :: pretty level v ++ prettyMembers level rest

end

/-- Without any blanks. -/
def toCompact (v : Json) : String := String.ofList (compact v)

/-- One item or member a line, and two columns of indentation for each level. -/
def toPretty (v : Json) : String := String.ofList (pretty 0 v)

end CodeReach.Json
