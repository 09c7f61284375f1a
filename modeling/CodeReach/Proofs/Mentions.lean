import CodeReach.Reach
import Mathlib

namespace CodeReach

/-- What can be said about a program: a function is there, or one function calls another. -/
inductive Mention where
  | function (name : String)
  | call (caller callee : String)
deriving DecidableEq

def Mention.names : Mention → List String
  | function name => [name]
  | call caller callee => [caller, callee]

def Mention.pair? : Mention → Option (String × String)
  | function _ => none
  | call caller callee => some (caller, callee)

namespace CallGraph

def note (g : CallGraph) : Mention → CallGraph
  | .function name => g.observe name
  | .call caller callee => g.addCall caller callee

def noteAll (g : CallGraph) (ms : List Mention) : CallGraph := ms.foldl note g

def ofMentions (ms : List Mention) : CallGraph := empty.noteAll ms

/-- The graph knows what `ms` mentions and nothing else. -/
structure Knows (ms : List Mention) (g : CallGraph) : Prop where
  calls : ∀ f c, c ∈ g.callees f ↔ .call f c ∈ ms
  callers : ∀ f, g.isCaller f = true ↔ ∃ c, .call f c ∈ ms
  observed : ∀ f, f ∈ g.observed ↔ ∃ m ∈ ms, f ∈ m.names

variable {g h : CallGraph} {ms ns : List Mention} {f c : String}

theorem knows_empty : Knows [] empty := by
  refine ⟨fun f c => ?_, fun f => ?_, fun f => ?_⟩
  · simp [callees, callees?, empty]
  · simp [isCaller, NameMap.contains, empty]
  · simp [empty]

theorem Knows.observe (hg : Knows ms g) (name : String) :
    Knows (ms ++ [.function name]) (g.observe name) := by
  refine ⟨fun f c => ?_, fun f => ?_, fun f => ?_⟩
  · rw [mem_callees_observe, hg.calls]
    simp
  · rw [isCaller_observe, hg.callers]
    simp
  · rw [mem_observed_observe, hg.observed, or_comm]
    simp [or_and_right, exists_or, Mention.names]

theorem Knows.addCall (hg : Knows ms g) (caller callee : String) :
    Knows (ms ++ [.call caller callee]) (g.addCall caller callee) := by
  refine ⟨fun f c => ?_, fun f => ?_, fun f => ?_⟩
  · rw [mem_callees_addCall, hg.calls, or_comm]
    simp
  · rw [isCaller_addCall, hg.callers, or_comm]
    simp [exists_or]
  · rw [mem_observed_addCall, hg.observed, ← or_assoc, or_comm, or_comm (a := f = callee)]
    simp [or_and_right, exists_or, Mention.names]

theorem Knows.note (hg : Knows ms g) (m : Mention) : Knows (ms ++ [m]) (g.note m) := by
  cases m with
  | function name => exact hg.observe name
  | call caller callee => exact hg.addCall caller callee

theorem Knows.noteAll (hg : Knows ms g) (ns : List Mention) : Knows (ms ++ ns) (g.noteAll ns) := by
  induction ns generalizing ms g with
  | nil => simpa [CallGraph.noteAll] using hg
  | cons n ns ih =>
    have hnext := ih (hg.note n)
    rw [List.append_assoc, List.singleton_append] at hnext
    exact hnext

theorem knows_ofMentions (ms : List Mention) : Knows ms (ofMentions ms) :=
  knows_empty.noteAll ms

/-- Neither the order of the mentions nor how often each was made can be told from the graph. -/
theorem Knows.eq_of_same_mentions (hg : Knows ms g) (hh : Knows ns h)
    (hsame : ∀ m, m ∈ ms ↔ m ∈ ns) : g = h := by
  refine ext_answers (fun x => ?_) (fun x y => ?_) (fun x => ?_)
  · rw [Bool.eq_iff_iff, hg.callers, hh.callers]
    simp only [hsame]
  · rw [hg.calls, hh.calls, hsame]
  · rw [hg.observed, hh.observed]
    simp only [hsame]

theorem ofMentions_congr (hsame : ∀ m, m ∈ ms ↔ m ∈ ns) : ofMentions ms = ofMentions ns :=
  (knows_ofMentions ms).eq_of_same_mentions (knows_ofMentions ns) hsame

theorem Knows.isCaller_iff (hg : Knows ms g) : g.isCaller f = true ↔ ∃ c, c ∈ g.callees f := by
  simp only [hg.callers, hg.calls]

/-- Whoever is called has been observed. -/
theorem Knows.callee_observed (hg : Knows ms g) (hc : c ∈ g.callees f) : c ∈ g.observed := by
  have hm : Mention.call f c ∈ ms := (hg.calls f c).mp hc
  exact (hg.observed c).mpr ⟨.call f c, hm, by simp [Mention.names]⟩

/-- Whoever calls has been observed. -/
theorem Knows.caller_observed (hg : Knows ms g) (hc : c ∈ g.callees f) : f ∈ g.observed := by
  have hm : Mention.call f c ∈ ms := (hg.calls f c).mp hc
  exact (hg.observed f).mpr ⟨.call f c, hm, by simp [Mention.names]⟩

/-- A caller is not kept without a callee. -/
theorem Knows.exists_callee (hg : Knows ms g) {cs : NameSet} (h : g.callees? f = some cs) :
    ∃ c, c ∈ cs := by
  have hcaller : g.isCaller f = true := by
    unfold callees? at h
    simp [isCaller, NameMap.contains, h]
  have hcallees : g.callees f = cs := by simp [callees, h]
  rw [← hcallees]
  exact hg.isCaller_iff.mp hcaller

/-- The calls of a graph as pairs of caller and callee. -/
def pairs (g : CallGraph) : List (String × String) :=
  g.calls.entries.flatMap fun e => e.2.toList.map fun c => (e.1, c)

def edges (g : CallGraph) : Finset (String × String) := g.pairs.toFinset

def callers (g : CallGraph) : Finset String := g.calls.keys.toFinset

def functions (g : CallGraph) : Finset String := g.observed.toList.toFinset

theorem mem_pairs : (f, c) ∈ g.pairs ↔ c ∈ g.callees f := by
  have hentry : (f, c) ∈ g.pairs ↔ ∃ cs, (f, cs) ∈ g.calls.entries ∧ c ∈ cs := by
    simp [pairs]
  rw [hentry]
  constructor
  · intro h
    obtain ⟨cs, hcs, hc⟩ := h
    have hfind : g.callees? f = some cs := NameMap.find?_eq_some_iff.mpr hcs
    simpa [callees, hfind] using hc
  · intro hc
    cases hfind : g.callees? f with
    | none => simp [callees, hfind] at hc
    | some cs =>
      refine ⟨cs, NameMap.find?_eq_some_iff.mp hfind, ?_⟩
      simpa [callees, hfind] using hc

/-- Pairs of one entry differ in the callee, pairs of two entries in the caller. -/
theorem nodup_pairs (g : CallGraph) : g.pairs.Nodup := by
  rw [pairs, List.nodup_flatMap]
  constructor
  · intro e _
    refine (NameSet.nodup_of_increasing e.2.increasing).map ?_
    intro a b hab
    exact (Prod.mk.inj hab).2
  · refine g.calls.increasing.imp ?_
    intro e e' hlt p hp hp'
    obtain ⟨c, -, rfl⟩ := List.mem_map.mp hp
    obtain ⟨c', -, heq⟩ := List.mem_map.mp hp'
    have hname : e'.1 = e.1 := (Prod.mk.inj heq).1
    exact String.lt_irrefl _ (hname ▸ hlt)

theorem length_pairs (g : CallGraph) : g.pairs.length = g.callTotal := by
  unfold pairs callTotal
  induction g.calls.entries with
  | nil => rfl
  | cons e es ih => simp [NameSet.size, ih]

theorem mem_edges : (f, c) ∈ g.edges ↔ c ∈ g.callees f := by
  rw [edges, List.mem_toFinset, mem_pairs]

theorem mem_callers : f ∈ g.callers ↔ g.isCaller f = true := by
  rw [callers, List.mem_toFinset, isCaller, NameMap.contains_iff_mem_keys]

theorem mem_functions : f ∈ g.functions ↔ g.observes f = true := by
  rw [functions, List.mem_toFinset, observes, NameSet.contains_iff, NameSet.mem_toList]

theorem card_callers (g : CallGraph) : g.callers.card = g.callerTotal := by
  rw [callers, List.toFinset_card_of_nodup g.calls.nodup_keys]
  simp [NameMap.keys, callerTotal, NameMap.size]

theorem card_functions (g : CallGraph) : g.functions.card = g.functionTotal :=
  List.toFinset_card_of_nodup (NameSet.nodup_of_increasing g.observed.increasing)

theorem card_edges (g : CallGraph) : g.edges.card = g.callTotal := by
  rw [edges, List.toFinset_card_of_nodup g.nodup_pairs, length_pairs]

/-- The distinct calls that are mentioned. -/
def mentionedCalls (ms : List Mention) : Finset (String × String) :=
  (ms.filterMap Mention.pair?).toFinset

/-- The distinct names that are mentioned. -/
def mentionedNames (ms : List Mention) : Finset String := (ms.flatMap Mention.names).toFinset

theorem mem_mentionedCalls : (f, c) ∈ mentionedCalls ms ↔ .call f c ∈ ms := by
  rw [mentionedCalls, List.mem_toFinset, List.mem_filterMap]
  constructor
  · rintro ⟨m, hm, hpair⟩
    cases m with
    | function name => cases hpair
    | call caller callee =>
      cases hpair
      exact hm
  · intro h
    exact ⟨_, h, rfl⟩

theorem Knows.edges_eq (hg : Knows ms g) : g.edges = mentionedCalls ms := by
  ext ⟨f, c⟩
  rw [mem_edges, hg.calls, mem_mentionedCalls]

theorem Knows.callers_eq (hg : Knows ms g) : g.callers = (mentionedCalls ms).image Prod.fst := by
  ext f
  rw [mem_callers, hg.callers]
  simp [mem_mentionedCalls]

theorem Knows.functions_eq (hg : Knows ms g) : g.functions = mentionedNames ms := by
  ext f
  rw [mem_functions, observes, NameSet.contains_iff, hg.observed]
  simp [mentionedNames]

/-- A graph built from mentions of functions and calls holds what was mentioned and nothing else.
Both ends of a call are observed, every caller has a callee, and the totals count the distinct
calls, callers and names. Mentions made in another order, or more or less often, give the same
graph, and so the same reach of every root. -/
theorem graph_holds_what_is_mentioned (ms : List Mention) :
    (∀ f c, c ∈ (ofMentions ms).callees f →
      (ofMentions ms).observes f = true ∧ (ofMentions ms).observes c = true) ∧
    (∀ f cs, (ofMentions ms).callees? f = some cs → ∃ c, c ∈ cs) ∧
    (∀ f, (ofMentions ms).isCaller f = true ↔ ∃ c, .call f c ∈ ms) ∧
    (∀ f c, c ∈ (ofMentions ms).callees f ↔ .call f c ∈ ms) ∧
    (∀ f, (ofMentions ms).observes f = true ↔ ∃ m ∈ ms, f ∈ m.names) ∧
    (ofMentions ms).callTotal = (mentionedCalls ms).card ∧
    (ofMentions ms).callerTotal = ((mentionedCalls ms).image Prod.fst).card ∧
    (ofMentions ms).functionTotal = (mentionedNames ms).card ∧
    ∀ ns : List Mention, (∀ m, m ∈ ms ↔ m ∈ ns) →
      ofMentions ms = ofMentions ns ∧
      ∀ t root, reach t (ofMentions ms) root = reach t (ofMentions ns) root := by
  have hg : Knows ms (ofMentions ms) := knows_ofMentions ms
  refine ⟨fun f c hc => ?_, fun f cs h => hg.exists_callee h, hg.callers, hg.calls, fun f => ?_,
    ?_, ?_, ?_, fun ns hsame => ?_⟩
  · exact ⟨NameSet.contains_iff.mpr (hg.caller_observed hc),
      NameSet.contains_iff.mpr (hg.callee_observed hc)⟩
  · rw [observes, NameSet.contains_iff, hg.observed]
  · rw [← card_edges, hg.edges_eq]
  · rw [← card_callers, hg.callers_eq]
  · rw [← card_functions, hg.functions_eq]
  · have hgraph : ofMentions ms = ofMentions ns := ofMentions_congr hsame
    exact ⟨hgraph, fun t root => by rw [hgraph]⟩

/-- A call of oneself, a call mentioned twice and a function mentioned between calls of it: three
calls by two callers among three names, and the same graph without the repetitions. -/
theorem repeated_mentions_give_one_graph :
    (ofMentions [.call "a" "a", .function "b", .call "a" "b", .call "b" "c", .call "a" "b"]).callTotal
      = 3 ∧
    (ofMentions [.call "a" "a", .function "b", .call "a" "b", .call "b" "c", .call "a" "b"]) =
      ofMentions [.function "b", .call "b" "c", .call "a" "b", .call "a" "a"] ∧
    ∀ t, reach t
        (ofMentions [.call "a" "a", .function "b", .call "a" "b", .call "b" "c", .call "a" "b"]) "a" =
      reach t (ofMentions [.function "b", .call "b" "c", .call "a" "b", .call "a" "a"]) "a" := by
  have hsame : ∀ x y z w m : Mention, m ∈ [x, y, z, w, z] ↔ m ∈ [y, w, z, x] := by
    intro x y z w m
    simp only [List.mem_cons, List.not_mem_nil, or_false]
    tauto
  obtain ⟨-, -, -, -, -, htotal, -, -, hother⟩ := graph_holds_what_is_mentioned
    [.call "a" "a", .function "b", .call "a" "b", .call "b" "c", .call "a" "b"]
  obtain ⟨hgraph, hreach⟩ := hother _ (hsame _ _ _ _)
  exact ⟨htotal.trans (by decide +kernel), hgraph, fun t => hreach t "a"⟩

end CallGraph

end CodeReach
