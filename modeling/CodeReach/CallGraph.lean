import CodeReach.Names.Map

namespace CodeReach

/-- Who calls whom: for each caller the set of its callees, and the functions observed, to which
both ends of every call belong. -/
structure CallGraph where
  calls : NameMap NameSet
  observed : NameSet
deriving DecidableEq

namespace CallGraph

def empty : CallGraph := ⟨.empty, .empty⟩

def observe (g : CallGraph) (name : String) : CallGraph :=
  { g with observed := g.observed.insert name }

def addCall (g : CallGraph) (caller callee : String) : CallGraph where
  calls := g.calls.update caller fun known => (known.getD .empty).insert callee
  observed := (g.observed.insert caller).insert callee

def callees? (g : CallGraph) (name : String) : Option NameSet := g.calls.find? name

def callees (g : CallGraph) (name : String) : NameSet := (g.callees? name).getD .empty

def isCaller (g : CallGraph) (name : String) : Bool := g.calls.contains name

def observes (g : CallGraph) (name : String) : Bool := g.observed.contains name

def callerTotal (g : CallGraph) : Nat := g.calls.size

def callTotal (g : CallGraph) : Nat := g.calls.entries.foldr (fun e n => e.2.size + n) 0

def functionTotal (g : CallGraph) : Nat := g.observed.size

@[simp] theorem mem_callees_observe {g : CallGraph} {f x y : String} :
    y ∈ (g.observe f).callees x ↔ y ∈ g.callees x := Iff.rfl

theorem mem_callees_addCall {g : CallGraph} {u v x y : String} :
    y ∈ (g.addCall u v).callees x ↔ (x = u ∧ y = v) ∨ y ∈ g.callees x := by
  simp only [callees, callees?, addCall, NameMap.find?_update]
  split
  · next h => simp [h]
  · next h => simp [h]

@[simp] theorem isCaller_observe {g : CallGraph} {f x : String} :
    (g.observe f).isCaller x = g.isCaller x := rfl

theorem isCaller_addCall {g : CallGraph} {u v x : String} :
    (g.addCall u v).isCaller x = true ↔ x = u ∨ g.isCaller x = true := by
  simp only [isCaller, addCall, NameMap.contains, NameMap.find?_update]
  split
  · next h => simp [h]
  · next h => simp [h]

theorem mem_observed_observe {g : CallGraph} {f x : String} :
    x ∈ (g.observe f).observed ↔ x = f ∨ x ∈ g.observed := NameSet.mem_insert

theorem mem_observed_addCall {g : CallGraph} {u v x : String} :
    x ∈ (g.addCall u v).observed ↔ x = v ∨ x = u ∨ x ∈ g.observed := by
  simp [addCall]

theorem callees?_eq (g : CallGraph) (x : String) :
    g.callees? x = if g.isCaller x then some (g.callees x) else none := by
  cases hfind : g.calls.find? x with
  | none => simp [isCaller, NameMap.contains, callees?, hfind]
  | some cs => simp [isCaller, NameMap.contains, callees, callees?, hfind]

/-- A graph is who calls, whom they call, and who has been observed. -/
theorem ext_answers {g h : CallGraph} (hcallers : ∀ x, g.isCaller x = h.isCaller x)
    (hcalls : ∀ x y, y ∈ g.callees x ↔ y ∈ h.callees x)
    (hobserved : ∀ x, x ∈ g.observed ↔ x ∈ h.observed) : g = h := by
  have hmap : g.calls = h.calls := by
    refine NameMap.ext fun x => ?_
    have hset : g.callees x = h.callees x := NameSet.ext (hcalls x)
    have hfind : g.callees? x = h.callees? x := by
      rw [callees?_eq, callees?_eq, hcallers x, hset]
    exact hfind
  have hnames : g.observed = h.observed := NameSet.ext hobserved
  obtain ⟨calls, observed⟩ := g
  obtain ⟨calls', observed'⟩ := h
  subst hmap
  subst hnames
  rfl

end CallGraph

end CodeReach
