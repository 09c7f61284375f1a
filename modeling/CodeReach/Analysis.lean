import CodeReach.Files
import CodeReach.LinkMap
import CodeReach.Listing
import CodeReach.Reach

namespace CodeReach

/-- The symbols of a map and the calls of a listing, loaded once for any number of roots. -/
structure Analysis where
  symbols : SymbolTable
  graph : CallGraph

namespace Analysis

def ofTexts (s : MnemonicSet) (map listing : String) : Analysis :=
  ⟨LinkMap.symbolTable map, Listing.callGraph s listing⟩

/-- The map is read before the listing, so its fault is the one reported. -/
def read (files : Files) (s : MnemonicSet) (mapPath listingPath : String) :
    Except Fault Analysis :=
  match files.readInput mapPath with
  | .error f => .error f
  | .ok map =>
    match files.readInput listingPath with
    | .error f => .error f
    | .ok listing => .ok (ofTexts s map listing)

def outcomes (a : Analysis) (roots : List String) : List Outcome := reachAll a.symbols a.graph roots

end Analysis

end CodeReach
