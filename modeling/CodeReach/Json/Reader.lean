import CodeReach.Json.Basic
import CodeReach.Json.Token

namespace CodeReach.Json

mutual

/-- The value that a list of tokens starts with. -/
def value? : Nat → List Token → Option (Json × List Token)
  | 0, _ => none
  | _ + 1, .null :: rest => some (null, rest)
  | _ + 1, .bool b :: rest => some (bool b, rest)
  | _ + 1, .number literal :: rest => some (number literal, rest)
  | _ + 1, .string literal :: rest => some (string literal, rest)
  | _ + 1, .openArray :: .closeArray :: rest => some (array [], rest)
  | n + 1, .openArray :: rest => (itemsOf? n rest).map fun (items, rest) => (array items, rest)
  | _ + 1, .openObject :: .closeObject :: rest => some (object [], rest)
  | n + 1, .openObject :: rest => (membersOf? n rest).map fun (ms, rest) => (object ms, rest)
  | _ + 1, _ => none

/-- One or more items up to the end of their array. -/
def itemsOf? : Nat → List Token → Option (List Json × List Token)
  | 0, _ => none
  | n + 1, ts =>
    match value? n ts with
    | some (v, .comma :: rest) => (itemsOf? n rest).map fun (items, rest) => (v :: items, rest)
    | some (v, .closeArray :: rest) => some ([v], rest)
    | _ => none

/-- One or more members up to the end of their object. -/
def membersOf? : Nat → List Token → Option (List (List Char × Json) × List Token)
  | 0, _ => none
  | n + 1, .string key :: .colon :: ts =>
    match value? n ts with
    | some (v, .comma :: rest) => (membersOf? n rest).map fun (ms, rest) => ((key, v) :: ms, rest)
    | some (v, .closeObject :: rest) => some ([(key, v)], rest)
    | _ => none
  | _ + 1, _ => none

end

/-- The one value that the tokens are. Between two steps that take no token there is one that does.
-/
def ofTokens? (ts : List Token) : Option Json :=
  match value? (2 * ts.length + 1) ts with
  | some (v, []) => some v
  | _ => none

def parse? (text : String) : Option Json := (tokens? text.toList).bind ofTokens?

end CodeReach.Json
