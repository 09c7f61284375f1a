import CodeReach.Proofs.Mentions
import CodeReach.Proofs.ReachMeasured

namespace CodeReach

namespace Measured

variable {t : SymbolTable} {g : CallGraph} {root f : String} {r r' : Reach}

/-- Who is reached reaches no more than who reaches it. -/
theorem names_subset (h : Measured t g root r) (h' : Measured t g f r') (hf : g.Reaches root f) :
    ∀ x ∈ r'.parts.map Part.name, x ∈ r.parts.map Part.name := by
  intro x hx
  have hfx : g.Reaches f x := (h'.listed x).mp hx
  exact (h.listed x).mpr (hf.trans hfx)

theorem total_le (h : Measured t g root r) (h' : Measured t g f r') (hf : g.Reaches root f) :
    r'.total ≤ r.total :=
  h'.total_le_of_names h (h.names_subset h' hf)

theorem parts_perm (h : Measured t g root r) (h' : Measured t g f r') (hf : g.Reaches root f)
    (hroot : g.Reaches f root) : r'.parts.Perm r.parts := by
  apply (List.perm_ext_iff_of_nodup h'.nodup_parts h.nodup_parts).mpr
  intro p
  rw [h.mem_parts_iff, h'.mem_parts_iff]
  constructor
  · intro hp
    exact ⟨hf.trans hp.1, hp.2⟩
  · intro hp
    exact ⟨hroot.trans hp.1, hp.2⟩

end Measured

/-- In a graph that knows only what was mentioned, whoever a known root reaches is known too. -/
theorem isKnown_of_reaches {t : SymbolTable} {g : CallGraph} {ms : List Mention}
    {root f : String} (hg : g.Knows ms) (hroot : isKnown t g root = true)
    (hf : g.Reaches root f) : isKnown t g f = true := by
  rcases Relation.ReflTransGen.cases_tail hf with heq | ⟨caller, -, hcall⟩
  · rw [heq]
    exact hroot
  · have hobserved : f ∈ g.observed := hg.callee_observed hcall
    simp [isKnown, CallGraph.observes, hobserved]

/-- Let a graph be built from mentions of functions and calls. Every part of the reach of a root is
a root itself: it reaches no more functions and no more bytes than the root, and its own size is
that of the part. If it reaches the root in turn, the two have the same parts, up to order, and the
same total. -/
theorem reached_roots_agree (t : SymbolTable) (ms : List Mention) {root : String} {r : Reach}
    (h : reach t (.ofMentions ms) root = .ok r) :
    ∀ p ∈ r.parts, ∃ r', reach t (.ofMentions ms) p.name = .ok r' ∧
      (∀ f ∈ r'.parts.map Part.name, f ∈ r.parts.map Part.name) ∧
      r'.total ≤ r.total ∧
      r'.own = p.size ∧
      (root ∈ r'.parts.map Part.name → r'.parts.Perm r.parts ∧ r'.total = r.total) := by
  intro p hp
  obtain ⟨hknown, hm⟩ := measured_of_reach h
  obtain ⟨hreach, hsize⟩ := hm.mem_parts_iff.mp hp
  have hknown' := isKnown_of_reaches (CallGraph.knows_ofMentions ms) hknown hreach
  obtain ⟨r', hr', hm'⟩ := reach_of_known hknown'
  refine ⟨r', hr', hm.names_subset hm' hreach, hm.total_le hm' hreach, ?_, ?_⟩
  · rw [hm'.owned, hsize]
  · intro hback
    have hroot : CallGraph.Reaches (.ofMentions ms) p.name root := (hm'.listed root).mp hback
    exact ⟨hm.parts_perm hm' hreach hroot,
      UInt64.le_antisymm (hm.total_le hm' hreach) (hm'.total_le hm hroot)⟩

/-- `A` and `B` call each other, so `B` has the parts of `A` in another order. -/
theorem mutual_callers_agree :
    reach (.ofList [⟨"A", 0, 10⟩, ⟨"B", 16, 20⟩])
        (.ofMentions [.call "A" "B", .function "idle", .call "B" "W", .call "B" "A"]) "A" =
      .ok ⟨"A", 10, 30, [⟨"A", 10⟩, ⟨"B", 20⟩, ⟨"W", 0⟩]⟩ ∧
    reach (.ofList [⟨"A", 0, 10⟩, ⟨"B", 16, 20⟩])
        (.ofMentions [.call "A" "B", .function "idle", .call "B" "W", .call "B" "A"]) "B" =
      .ok ⟨"B", 20, 30, [⟨"B", 20⟩, ⟨"A", 10⟩, ⟨"W", 0⟩]⟩ ∧
    [(⟨"B", 20⟩ : Part), ⟨"A", 10⟩, ⟨"W", 0⟩].Perm [⟨"A", 10⟩, ⟨"B", 20⟩, ⟨"W", 0⟩] := by
  have hroot : reach (.ofList [⟨"A", 0, 10⟩, ⟨"B", 16, 20⟩])
      (.ofMentions [.call "A" "B", .function "idle", .call "B" "W", .call "B" "A"]) "A" =
      .ok ⟨"A", 10, 30, [⟨"A", 10⟩, ⟨"B", 20⟩, ⟨"W", 0⟩]⟩ := rfl
  refine ⟨hroot, rfl, ?_⟩
  obtain ⟨r', hr', -, -, -, hback⟩ := reached_roots_agree _ _ hroot ⟨"B", 20⟩ (by decide)
  have hsame : (Except.ok r' : Except Fault Reach) =
      .ok ⟨"B", 20, 30, [⟨"B", 20⟩, ⟨"A", 10⟩, ⟨"W", 0⟩]⟩ := hr'.symm
  cases hsame
  exact (hback (by decide)).1

end CodeReach
