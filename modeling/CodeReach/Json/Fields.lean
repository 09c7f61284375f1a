import CodeReach.Json.Basic

namespace CodeReach.Json

/-- The members of an object with their keys as texts, if each key is one. -/
def keyed? : List (List Char × Json) → Option (List (String × Json))
  | [] => some []
  | (key, v) :: rest =>
    match Literal.unescape key, keyed? rest with
    | some k, some members => some ((String.ofList k, v) :: members)
    | _, _ => none

/-- The value of a field that occurs exactly once. -/
def field? (members : List (String × Json)) (name : String) : Option Json :=
  match members.filter (·.1 == name) with
  | [(_, v)] => some v
  | _ => none

def fieldsOfMembers? (names : List String) (members : List (String × Json)) : Option (List Json) :=
  names.mapM (field? members)

def fieldsOfItems? (names : List String) (items : List Json) : Option (List Json) :=
  if items.length = names.length then some items else none

/-- The values of the named fields in the order of the names: an object has each of them exactly
once and any members beside them, an array has just the fields in their order. -/
def fields? (names : List String) : Json → Option (List Json)
  | object members => (keyed? members).bind (fieldsOfMembers? names)
  | array items => fieldsOfItems? names items
  | _ => none

end CodeReach.Json
