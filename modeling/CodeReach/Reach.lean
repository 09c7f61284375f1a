import CodeReach.CallGraph
import CodeReach.Fault
import CodeReach.Symbol

namespace CodeReach

/-- A sum of sizes stops at the largest 64-bit number. -/
def addSizes (a b : UInt64) : UInt64 :=
  if a.toNat + b.toNat < UInt64.size then a + b else UInt64.ofNat (UInt64.size - 1)

theorem toNat_addSizes (a b : UInt64) :
    (addSizes a b).toNat = min (UInt64.size - 1) (a.toNat + b.toNat) := by
  unfold addSizes
  split
  · next h =>
    rw [UInt64.toNat_add, Nat.mod_eq_of_lt h]
    omega
  · next h =>
    have : (UInt64.ofNat (UInt64.size - 1)).toNat = UInt64.size - 1 := by decide
    omega

structure Part where
  name : String
  size : UInt64
deriving DecidableEq

/-- A root and everything it can come to call, each function once, in the order in which a
breadth-first search finds them, with their sizes and the sum of these. -/
structure Reach where
  root : String
  own : UInt64
  total : UInt64
  parts : List Part
deriving DecidableEq

namespace Reach

def count (r : Reach) : Nat := r.parts.length

/-- What the root costs beyond itself. -/
def beyondOwn (r : Reach) : UInt64 := UInt64.ofNat (r.total.toNat - r.own.toNat)

/-- The largest parts first; parts of one size stay in the order in which they were found. -/
def sortedParts (r : Reach) : List Part := r.parts.mergeSort fun a b => b.size ≤ a.size

end Reach

/-- A search under way: who is to be looked at, who has been, the parts found, in reverse, and the
sum of their sizes. -/
structure Search where
  queue : List String
  visited : NameSet
  found : List Part
  total : UInt64

namespace Search

def start (root : String) : Search := ⟨[root], .empty, [], 0⟩

/-- Takes up a function that has not been visited: its callees not yet visited join the queue in the
order of their names. -/
def visit (t : SymbolTable) (g : CallGraph) (s : Search) (name : String) (rest : List String) :
    Search :=
  let visited := s.visited.insert name
  { queue := rest ++ (g.callees name).toList.filter fun c => !visited.contains c
    visited := visited
    found := ⟨name, t.bytesOf name⟩ :: s.found
    total := addSizes s.total (t.bytesOf name) }

/-- Looks at the function that has waited longest. -/
def step (t : SymbolTable) (g : CallGraph) (s : Search) : Search :=
  match s.queue with
  | [] => s
  | name :: rest =>
    if s.visited.contains name then { s with queue := rest } else s.visit t g name rest

def run (t : SymbolTable) (g : CallGraph) : Nat → Search → Search
  | 0, s => s
  | n + 1, s => run t g n (s.step t g)

/-- A function joins the queue at most once for each call of it, so after one step more than there
are calls the queue is empty. -/
def finish (t : SymbolTable) (g : CallGraph) (root : String) : Search :=
  run t g (1 + g.callTotal) (start root)

end Search

/-- A root is known if the map lists it or the listing shows it. -/
def isKnown (t : SymbolTable) (g : CallGraph) (root : String) : Bool :=
  t.contains root || g.observes root

def reach (t : SymbolTable) (g : CallGraph) (root : String) : Except Fault Reach :=
  if isKnown t g root then
    let s := Search.finish t g root
    .ok ⟨root, t.bytesOf root, s.total, s.found.reverse⟩
  else .error (.unknownFunction root)

/-- A requested root and what came of it. -/
structure Outcome where
  root : String
  result : Except Fault Reach

def reachAll (t : SymbolTable) (g : CallGraph) (roots : List String) : List Outcome :=
  roots.map fun root => ⟨root, reach t g root⟩

end CodeReach
