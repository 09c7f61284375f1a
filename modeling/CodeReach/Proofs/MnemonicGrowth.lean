import CodeReach.Analysis
import CodeReach.Proofs.CallTargets
import CodeReach.Proofs.ListingEdges
import CodeReach.Proofs.ReachMeasured

namespace CodeReach

theorem CallGraph.Reaches.mono {g g' : CallGraph} (hsub : ∀ f c, c ∈ g.callees f → c ∈ g'.callees f)
    {a b : String} (h : g.Reaches a b) : g'.Reaches a b :=
  Relation.ReflTransGen.mono hsub a b h

theorem isKnown_mono {t : SymbolTable} {g g' : CallGraph} {root : String}
    (hobs : ∀ f, g.observes f = true → g'.observes f = true) (h : isKnown t g root = true) :
    isKnown t g' root = true := by
  simp only [isKnown, Bool.or_eq_true] at h ⊢
  rcases h with h | h
  · exact .inl h
  · exact .inr (hobs root h)

/-- A graph with more calls and more functions measures every root that the smaller one measures,
and finds no less. -/
theorem reach_mono {t : SymbolTable} {g g' : CallGraph} {root : String} {r : Reach}
    (hsub : ∀ f c, c ∈ g.callees f → c ∈ g'.callees f)
    (hobs : ∀ f, g.observes f = true → g'.observes f = true) (h : reach t g root = .ok r) :
    ∃ r', reach t g' root = .ok r' ∧ r'.own = r.own ∧
      (∀ f ∈ r.parts.map Part.name, f ∈ r'.parts.map Part.name) ∧ r.total ≤ r'.total := by
  obtain ⟨hknown, hm⟩ := measured_of_reach h
  obtain ⟨r', hr', hm'⟩ := reach_of_known (isKnown_mono hobs hknown)
  have hnames : ∀ f ∈ r.parts.map Part.name, f ∈ r'.parts.map Part.name := by
    intro f hf
    exact (hm'.listed f).mpr (((hm.listed f).mp hf).mono hsub)
  exact ⟨r', hr', by rw [hm.owned, hm'.owned], hnames, hm.total_le_of_names hm' hnames⟩

namespace Listing

open Text

variable {s s' : MnemonicSet}

theorem callsAt_mono {text : String} {j : Nat} {c : String} (hsub : ∀ m ∈ s.names, m ∈ s'.names)
    (h : CallsAt s (lines text.toList) j c) : CallsAt s' (lines text.toList) j c := by
  obtain ⟨line, hline, hcall⟩ := markedAt_iff.mp h
  have hfeed : '\n' ∉ line := not_mem_of_mem_lines (List.mem_of_getElem? hline)
  exact markedAt_iff.mpr ⟨line, hline, MnemonicSet.callee?_mono hsub hfeed hcall⟩

theorem shows_mono {text : String} {f c : String} (hsub : ∀ m ∈ s.names, m ∈ s'.names)
    (h : Shows s (lines text.toList) f c) : Shows s' (lines text.toList) f c := by
  obtain ⟨i, j, hblock, hcall⟩ := h
  exact ⟨i, j, hblock, callsAt_mono hsub hcall⟩

theorem callees_mono {text : String} (hsub : ∀ m ∈ s.names, m ∈ s'.names) (f c : String)
    (h : c ∈ (callGraph s text).callees f) : c ∈ (callGraph s' text).callees f :=
  mem_callees_callGraph.mpr (shows_mono hsub (mem_callees_callGraph.mp h))

theorem observes_mono {text : String} (hsub : ∀ m ∈ s.names, m ∈ s'.names) (f : String)
    (h : (callGraph s text).observes f = true) : (callGraph s' text).observes f = true := by
  rw [CallGraph.observes, NameSet.contains_iff, mem_observed_callGraph] at h ⊢
  rcases h with h | ⟨g, h⟩
  · exact .inl h
  · exact .inr ⟨g, shows_mono hsub h⟩

end Listing

/-- Enlarging the set of mnemonics keeps every call and every observed function of a listing, and
every root that could be measured still can be: its own size is the same, it still reaches whatever
it reached, and its total has not shrunk. -/
theorem more_mnemonics_lose_nothing {s s' : MnemonicSet} (h : ∀ m ∈ s.names, m ∈ s'.names)
    (map listing : String) :
    (∀ f c, c ∈ (Listing.callGraph s listing).callees f →
      c ∈ (Listing.callGraph s' listing).callees f) ∧
    (∀ f, (Listing.callGraph s listing).observes f = true →
      (Listing.callGraph s' listing).observes f = true) ∧
    (∀ root r, reach (LinkMap.symbolTable map) (Listing.callGraph s listing) root = .ok r →
      ∃ r', reach (LinkMap.symbolTable map) (Listing.callGraph s' listing) root = .ok r' ∧
        r'.own = r.own ∧ (∀ f ∈ r.parts.map Part.name, f ∈ r'.parts.map Part.name) ∧
        r.total ≤ r'.total) := by
  refine ⟨Listing.callees_mono h, Listing.observes_mono h, ?_⟩
  intro root r hr
  exact reach_mono (Listing.callees_mono h) (Listing.observes_mono h) hr

/-- With plain branches counted as calls, `main` reaches `run` beyond what it reached by links. -/
theorem tail_calls_add_to_links :
    (∀ m ∈ (MnemonicSet.ofPreset .linked).names, m ∈ (MnemonicSet.ofPreset .tailCalls).names) ∧
    ∃ r', reach
        (LinkMap.symbolTable " .text.main\n 0x10 0x40 a.o\n .text.run\n 0x60 0x8 a.o\n")
        (Listing.callGraph (.ofPreset .tailCalls)
          "00000010 <main>:\n 12: bl 40 <init>\n 14: b.w 60 <run>\n") "main" = .ok r' ∧
      r'.own = 0x40 ∧ (∀ f ∈ ["main", "init"], f ∈ r'.parts.map Part.name) ∧ 0x40 ≤ r'.total := by
  have hsub : ∀ m ∈ (MnemonicSet.ofPreset .linked).names,
      m ∈ (MnemonicSet.ofPreset .tailCalls).names := by decide
  refine ⟨hsub, ?_⟩
  exact (more_mnemonics_lose_nothing hsub _ _).2.2 "main"
    ⟨"main", 0x40, 0x40, [⟨"main", 0x40⟩, ⟨"init", 0⟩]⟩ rfl

end CodeReach
