import CodeReach.Proofs.ReachMeasured

namespace CodeReach

/-- Seen from `root`, two programs are the same: whatever the root reaches in the first has one size
and one set of callees in both. -/
def SameFrom (root : String) (t t' : SymbolTable) (g g' : CallGraph) : Prop :=
  ∀ f, g.Reaches root f → t.bytesOf f = t'.bytesOf f ∧ g.callees f = g'.callees f

namespace Search

variable {t t' : SymbolTable} {g g' : CallGraph} {root : String} {s : Search}

theorem visit_congr {name : String} (hsize : t.bytesOf name = t'.bytesOf name)
    (hcallees : g.callees name = g'.callees name) (rest : List String) :
    s.visit t g name rest = s.visit t' g' name rest := by
  simp only [visit, hsize, hcallees]

/-- A search looks only at functions that its root reaches. -/
theorem step_congr (hsame : SameFrom root t t' g g') (hs : Spread g root s) :
    s.step t g = s.step t' g' := by
  unfold step
  cases hq : s.queue with
  | nil => rfl
  | cons name rest =>
    have hreach : g.Reaches root name := hs.queued name (by simp [hq])
    obtain ⟨hsize, hcallees⟩ := hsame name hreach
    simp only [visit_congr hsize hcallees rest]

theorem run_congr (hsame : SameFrom root t t' g g') (hs : Spread g root s) (n : Nat) :
    run t g n s = run t' g' n s := by
  induction n generalizing s with
  | zero => rfl
  | succ n ih =>
    have hnext : Spread g root (s.step t g) := hs.step t
    rw [run, run, ih hnext, step_congr hsame hs]

theorem run_add (t : SymbolTable) (g : CallGraph) (m n : Nat) (s : Search) :
    run t g (m + n) s = run t g n (run t g m s) := by
  induction m generalizing s with
  | zero => rw [Nat.zero_add, run]
  | succ m ih => rw [Nat.succ_add, run, run, ih]

/-- A search that has ended stays as it is, however long it is left to run. -/
theorem run_finish (t : SymbolTable) (g : CallGraph) (root : String) (n : Nat) :
    run t g (1 + g.callTotal + n) (start root) = finish t g root := by
  rw [run_add]
  exact run_of_queue_eq_nil (finish_queue t g root) n

/-- The two searches end alike, although each is given as many steps as its own graph asks for. -/
theorem finish_congr (hsame : SameFrom root t t' g g') : finish t g root = finish t' g' root := by
  calc finish t g root
      = run t g (1 + g.callTotal + (1 + g'.callTotal)) (start root) :=
        (run_finish t g root (1 + g'.callTotal)).symm
    _ = run t' g' (1 + g.callTotal + (1 + g'.callTotal)) (start root) :=
        run_congr hsame (spread_start g root) _
    _ = run t' g' (1 + g'.callTotal + (1 + g.callTotal)) (start root) := by
        rw [Nat.add_comm (1 + g.callTotal)]
    _ = finish t' g' root := run_finish t' g' root (1 + g.callTotal)

end Search

/-- Where a root is known to two programs that are the same seen from it, it has the same reach in
both, parts in the same order. -/
theorem reach_congr {t t' : SymbolTable} {g g' : CallGraph} {root : String}
    (hsame : SameFrom root t t' g g') (hk : isKnown t g root = true)
    (hk' : isKnown t' g' root = true) : reach t g root = reach t' g' root := by
  have hown : t.bytesOf root = t'.bytesOf root := (hsame root .refl).1
  simp only [reach, hk, hk', if_true, Search.finish_congr hsame, hown]

/-- Reaches are local. Two programs know a root, and whatever the root reaches in the first has the
same size and the same callees in both. Then the root has one and the same reach in both, whatever
else they say. -/
theorem reach_is_local {t t' : SymbolTable} {g g' : CallGraph} {root : String}
    (hk : t.contains root = true ∨ g.observes root = true)
    (hk' : t'.contains root = true ∨ g'.observes root = true)
    (hsame : ∀ f, Relation.ReflTransGen (fun a b => b ∈ g.callees a) root f →
      t.bytesOf f = t'.bytesOf f ∧ ∀ c, c ∈ g.callees f ↔ c ∈ g'.callees f) :
    ∃ r, reach t g root = .ok r ∧ reach t' g' root = .ok r := by
  have hknown : isKnown t g root = true := by
    rw [isKnown, Bool.or_eq_true]
    exact hk
  have hknown' : isKnown t' g' root = true := by
    rw [isKnown, Bool.or_eq_true]
    exact hk'
  have hfrom : SameFrom root t t' g g' := by
    intro f hf
    obtain ⟨hsize, hcallees⟩ := hsame f hf
    exact ⟨hsize, NameSet.ext hcallees⟩
  obtain ⟨r, hr, -⟩ := reach_of_known hknown
  refine ⟨r, hr, ?_⟩
  rw [← reach_congr hfrom hknown hknown', hr]

/-- `A` and `B` call each other and `B` calls `W`. The second program lies at other addresses, was
read in another order and has `Z`, which calls `A` and is called by nobody. From `A` both show the
same three functions. -/
theorem same_reach_beside_other_code :
    (SymbolTable.ofList [⟨"A", 0, 10⟩, ⟨"B", 16, 20⟩]).contains "A" = true ∧
    ((((CallGraph.empty.addCall "Z" "A").addCall "B" "W").addCall "B" "A").addCall "A" "B").observes
      "A" = true ∧
    ∃ r, r = ⟨"A", 10, 30, [⟨"A", 10⟩, ⟨"B", 20⟩, ⟨"W", 0⟩]⟩ ∧
      reach (.ofList [⟨"A", 0, 10⟩, ⟨"B", 16, 20⟩])
        (((CallGraph.empty.addCall "A" "B").addCall "B" "A").addCall "B" "W") "A" = .ok r ∧
      reach (.ofList [⟨"Z", 0, 99⟩, ⟨"B", 500, 20⟩, ⟨"A", 600, 10⟩])
        ((((CallGraph.empty.addCall "Z" "A").addCall "B" "W").addCall "B" "A").addCall "A" "B")
        "A" = .ok r := by
  let t : SymbolTable := .ofList [⟨"A", 0, 10⟩, ⟨"B", 16, 20⟩]
  let t' : SymbolTable := .ofList [⟨"Z", 0, 99⟩, ⟨"B", 500, 20⟩, ⟨"A", 600, 10⟩]
  let g := ((CallGraph.empty.addCall "A" "B").addCall "B" "A").addCall "B" "W"
  let g' := (((CallGraph.empty.addCall "Z" "A").addCall "B" "W").addCall "B" "A").addCall "A" "B"
  have hlisted : t.contains "A" = true := by decide
  have hobserved : g'.observes "A" = true := by decide
  -- The root reaches only these three: what they call is among them.
  have hclosed : ∀ a ∈ ["A", "B", "W"], ∀ b ∈ (g.callees a).toList, b ∈ ["A", "B", "W"] := by decide
  have hagree : ∀ a ∈ ["A", "B", "W"],
      t.bytesOf a = t'.bytesOf a ∧ g.callees a = g'.callees a := by decide
  obtain ⟨r, hr, hr'⟩ := reach_is_local (.inl hlisted) (.inr hobserved) fun f hf => by
    have hmem : f ∈ ["A", "B", "W"] := by
      induction hf with
      | refl => decide
      | tail _ hb ih => exact hclosed _ ih _ hb
    obtain ⟨hsize, hcallees⟩ := hagree f hmem
    exact ⟨hsize, fun c => by rw [hcallees]⟩
  have hreach : reach t g "A" = .ok ⟨"A", 10, 30, [⟨"A", 10⟩, ⟨"B", 20⟩, ⟨"W", 0⟩]⟩ := rfl
  exact ⟨hlisted, hobserved, r, Except.ok.inj (hr.symm.trans hreach), hr, hr'⟩

end CodeReach
