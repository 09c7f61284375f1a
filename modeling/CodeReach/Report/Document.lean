import CodeReach.Json.Fields
import CodeReach.Json.Printer
import CodeReach.Json.Reader
import CodeReach.Mnemonic
import CodeReach.Reach

namespace CodeReach

namespace Part

def toJson (p : Part) : Json :=
  .ofMembers [("name", .ofString p.name), ("size", .ofNat p.size.toNat)]

def ofJson? (v : Json) : Option Part :=
  match v.fields? ["name", "size"] with
  | some [name, size] => do some ⟨← name.text?, ← size.word?⟩
  | _ => none

end Part

def partsToJson (parts : List Part) : Json := .array (parts.map Part.toJson)

def partsOfJson? (v : Json) : Option (List Part) := v.items?.bind (·.mapM Part.ofJson?)

namespace Symbol

def toJson (s : Symbol) : Json :=
  .ofMembers [("name", .ofString s.name), ("address", .ofNat s.address.toNat),
    ("size", .ofNat s.size.toNat)]

def ofJson? (v : Json) : Option Symbol :=
  match v.fields? ["name", "address", "size"] with
  | some [name, address, size] => do some ⟨← name.text?, ← address.word?, ← size.word?⟩
  | _ => none

end Symbol

namespace Reach

def toJson (r : Reach) : Json :=
  .ofMembers [("root", .ofString r.root), ("own_size", .ofNat r.own.toNat),
    ("total_size", .ofNat r.total.toNat), ("breakdown", partsToJson r.parts)]

def ofJson? (v : Json) : Option Reach :=
  match v.fields? ["root", "own_size", "total_size", "breakdown"] with
  | some [root, own, total, parts] => do
    some ⟨← root.text?, ← own.word?, ← total.word?, ← partsOfJson? parts⟩
  | _ => none

end Reach

namespace Preset

def toJson (p : Preset) : Json := .ofString p.name

/-- A preset is its name, or an object with the name as its one key and no value. -/
def ofJson? : Json → Option Preset
  | .object [(key, .null)] => (Json.string key).text?.bind ofName?
  | v => v.text?.bind ofName?

end Preset

namespace Report

/-- A root that was measured, or one that is unknown. -/
inductive Entry where
  | ok (root : String) (own total functions : UInt64) (parts : List Part)
  | unknown (root error : String)
deriving DecidableEq

structure Document where
  roots : List Entry
deriving DecidableEq

namespace Entry

def toJson : Entry → Json
  | ok root own total functions parts =>
    .ofMembers [("status", .ofString "ok"), ("root", .ofString root),
      ("own_size", .ofNat own.toNat), ("total_size", .ofNat total.toNat),
      ("functions", .ofNat functions.toNat), ("breakdown", partsToJson parts)]
  | unknown root error =>
    .ofMembers [("status", .ofString "unknown"), ("root", .ofString root),
      ("error", .ofString error)]

def okNames : List String := ["root", "own_size", "total_size", "functions", "breakdown"]

def unknownNames : List String := ["root", "error"]

/-- An entry from its status and the way to look up fields by their names. -/
def ofStatus? (status : String) (fields : List String → Option (List Json)) : Option Entry :=
  if status = "ok" then
    match fields okNames with
    | some [root, own, total, functions, parts] => do
      some (ok (← root.text?) (← own.word?) (← total.word?) (← functions.word?)
        (← partsOfJson? parts))
    | _ => none
  else if status = "unknown" then
    match fields unknownNames with
    | some [root, error] => do some (unknown (← root.text?) (← error.text?))
    | _ => none
  else none

/-- How deep an entry may be nested; the document adds two levels around it. -/
def depthLimit : Nat := 125

/-- The status stands anywhere in an object and first in an array. All that an entry holds has to
have a meaning, the members that no field names included. -/
def ofJson? (v : Json) : Option Entry :=
  if v.hasMeaning && decide (v.depth ≤ depthLimit) then
    match v with
    | .object members => do
      let members ← Json.keyed? members
      let status ← (← Json.field? members "status").text?
      ofStatus? status fun names => Json.fieldsOfMembers? names members
    | .array (status :: items) => do
      ofStatus? (← status.text?) fun names => Json.fieldsOfItems? names items
    | _ => none
  else none

def ofOutcome (o : Outcome) : Entry :=
  match o.result with
  | .ok r => ok r.root r.own r.total (UInt64.ofNat r.count) r.sortedParts
  | .error f => unknown o.root f.message

end Entry

namespace Document

def ofOutcomes (outcomes : List Outcome) : Document := ⟨outcomes.map Entry.ofOutcome⟩

def toJson (d : Document) : Json := .ofMembers [("roots", .array (d.roots.map Entry.toJson))]

def ofJson? (v : Json) : Option Document :=
  match v.fields? ["roots"] with
  | some [roots] => do some ⟨← (← roots.items?).mapM Entry.ofJson?⟩
  | _ => none

end Document

end Report

end CodeReach
