import CodeReach.Files

namespace CodeReach

/-- What lies below a directory, each by the names on the way to it. A directory on the way to
something need not be listed; `reason` is the text of the error that reading one gives. -/
structure Directory where
  entries : List (List String × FileNode)
  reason : String

namespace Directory

/-- The pieces of a path between its slashes. -/
def splitNames : List Char → List (List Char)
  | [] => [[]]
  | '/' :: cs => [] :: splitNames cs
  | c :: cs =>
    match splitNames cs with
    | name :: names => (c :: name) :: names
    | [] => [[c]]

def names (path : String) : List String := (splitNames path.toList).map String.ofList

def ofPaths (nodes : List (String × FileNode)) (reason : String) : Directory :=
  { entries := nodes.map fun (path, node) => (names path, node), reason }

/-- What lies at the end of some names; with none of them, the directory itself. -/
def node? (d : Directory) (way : List String) : Option FileNode :=
  match d.entries.lookup way with
  | some node => some node
  | none =>
    if way.isEmpty || d.entries.any (fun e => way.isPrefixOf e.1) then some (.directory d.reason)
    else none

/-- Follows names from a directory below this one. An empty name and a dot stay, two dots go back
up, and nothing above this directory is known. -/
def follow (d : Directory) (way : List String) : List String → Option FileNode
  | [] => d.node? way
  | name :: names =>
    if name = "" ∨ name = "." then d.follow way names
    else if name = ".." then
      if way.isEmpty then none else d.follow way.dropLast names
    else
      match d.node? (way ++ [name]) with
      | some (.directory _) => d.follow (way ++ [name]) names
      | some node => if names.isEmpty then some node else none
      | none => none

/-- What a path leads to; one that is empty or starts at the root of all leads nowhere. -/
def files (d : Directory) : Files := fun path =>
  if path.isEmpty || path.startsWith "/" then none else d.follow [] (names path)

end Directory

end CodeReach
