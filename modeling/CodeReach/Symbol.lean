import CodeReach.Names.Map

namespace CodeReach

/-- A function with its place and size. -/
structure Symbol where
  name : String
  address : UInt64
  size : UInt64
deriving DecidableEq

structure Placement where
  address : UInt64
  size : UInt64
deriving DecidableEq

/-- Of several symbols with one name a table keeps the last. -/
structure SymbolTable where
  placements : NameMap Placement
deriving DecidableEq

namespace SymbolTable

def empty : SymbolTable := ⟨.empty⟩

def insert (t : SymbolTable) (s : Symbol) : SymbolTable :=
  ⟨t.placements.insert s.name ⟨s.address, s.size⟩⟩

def ofList (symbols : List Symbol) : SymbolTable := symbols.foldl insert empty

def get? (t : SymbolTable) (name : String) : Option Symbol :=
  (t.placements.find? name).map fun p => ⟨name, p.address, p.size⟩

def contains (t : SymbolTable) (name : String) : Bool := t.placements.contains name

/-- A function that the map does not list counts as empty. -/
def bytesOf (t : SymbolTable) (name : String) : UInt64 :=
  ((t.placements.find? name).map Placement.size).getD 0

def size (t : SymbolTable) : Nat := t.placements.size

/-- The symbols in the order of their names. -/
def toList (t : SymbolTable) : List Symbol :=
  t.placements.entries.map fun (name, p) => ⟨name, p.address, p.size⟩

theorem get?_insert (t : SymbolTable) (s : Symbol) (name : String) :
    (t.insert s).get? name = if name = s.name then some s else t.get? name := by
  simp only [get?, insert, NameMap.find?_insert]
  split
  · next h => simp [h]
  · rfl

theorem get?_ofList_concat (symbols : List Symbol) (s : Symbol) (name : String) :
    (ofList (symbols ++ [s])).get? name =
      if name = s.name then some s else (ofList symbols).get? name := by
  rw [ofList, List.foldl_append]
  exact get?_insert _ s name

/-- A table is what it finds under each name. -/
theorem ext_get? {t u : SymbolTable} (h : ∀ name, t.get? name = u.get? name) : t = u := by
  obtain ⟨ps⟩ := t
  obtain ⟨qs⟩ := u
  congr 1
  refine NameMap.ext fun name => ?_
  have hname := h name
  simp only [get?] at hname
  cases hp : ps.find? name <;> cases hq : qs.find? name <;> simp [hp, hq] at hname
  · rfl
  · next p q =>
    obtain ⟨ha, hs⟩ := hname
    cases p
    cases q
    simp_all

end SymbolTable

end CodeReach
