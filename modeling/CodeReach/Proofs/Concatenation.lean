import CodeReach.Proofs.ListingGraph
import CodeReach.Proofs.MapRecords
import CodeReach.Proofs.WrittenMap

namespace CodeReach

open Text

namespace NameMap

variable {β : Type}

/-- What both maps hold; a name that is in both has its two values combined. -/
def merge (combine : β → β → β) (m n : NameMap β) : NameMap β :=
  n.entries.foldl (fun k e => k.update e.1 fun known => (known.map (combine · e.2)).getD e.2) m

theorem find?_merge (combine : β → β → β) (m n : NameMap β) (a : String) :
    (m.merge combine n).find? a = Option.merge combine (m.find? a) (n.find? a) := by
  obtain ⟨es, hes⟩ := n
  change (es.foldl _ m).find? a = Option.merge combine (m.find? a) (lookup a es)
  induction es generalizing m with
  | nil =>
    rw [List.foldl_nil, lookup]
    cases m.find? a <;> rfl
  | cons e es ih =>
    obtain ⟨b, v⟩ := e
    obtain ⟨hb, hrest⟩ := List.pairwise_cons.mp hes
    rw [List.foldl_cons, ih _ hrest, find?_update, lookup]
    by_cases hab : a = b
    · subst hab
      rw [if_pos rfl, if_pos rfl, lookup_eq_none_of_lt hb]
      cases m.find? a <;> rfl
    · rw [if_neg hab, if_neg hab]

end NameMap

namespace NameSet

def union (s t : NameSet) : NameSet := s.insertAll t.toList

@[simp] theorem mem_union {s t : NameSet} {a : String} : a ∈ s.union t ↔ a ∈ s ∨ a ∈ t :=
  mem_insertAll

end NameSet

namespace SymbolTable

/-- What both tables hold; of two symbols with one name that of `u` stays. -/
def overriddenBy (t u : SymbolTable) : SymbolTable :=
  ⟨t.placements.merge (fun _ p => p) u.placements⟩

theorem get?_overriddenBy (t u : SymbolTable) (name : String) :
    (t.overriddenBy u).get? name = (u.get? name).or (t.get? name) := by
  simp only [get?, overriddenBy, NameMap.find?_merge]
  cases t.placements.find? name <;> cases u.placements.find? name <;> rfl

theorem ofList_append (xs ys : List Symbol) :
    ofList (xs ++ ys) = (ofList xs).overriddenBy (ofList ys) := by
  refine ext_get? fun name => ?_
  rw [get?_overriddenBy, get?_ofList, get?_ofList, get?_ofList, List.reverse_append,
    List.find?_append]

end SymbolTable

namespace CallGraph

variable {g h : CallGraph} {ms ns : List Mention} {f c : String}

/-- The calls and the observed functions of both graphs. -/
def union (g h : CallGraph) : CallGraph where
  calls := g.calls.merge NameSet.union h.calls
  observed := g.observed.union h.observed

theorem mem_callees_union : c ∈ (g.union h).callees f ↔ c ∈ g.callees f ∨ c ∈ h.callees f := by
  simp only [callees, callees?, union, NameMap.find?_merge]
  cases g.calls.find? f <;> cases h.calls.find? f <;> simp

theorem isCaller_union :
    (g.union h).isCaller f = true ↔ g.isCaller f = true ∨ h.isCaller f = true := by
  simp only [isCaller, NameMap.contains, union, NameMap.find?_merge]
  cases g.calls.find? f <;> cases h.calls.find? f <;> simp

theorem mem_observed_union : f ∈ (g.union h).observed ↔ f ∈ g.observed ∨ f ∈ h.observed :=
  NameSet.mem_union

theorem Knows.union (hg : Knows ms g) (hh : Knows ns h) : Knows (ms ++ ns) (g.union h) := by
  refine ⟨fun f c => ?_, fun f => ?_, fun f => ?_⟩
  · rw [mem_callees_union, hg.calls, hh.calls, List.mem_append]
  · rw [isCaller_union, hg.callers, hh.callers]
    simp [exists_or]
  · rw [mem_observed_union, hg.observed, hh.observed]
    simp [or_and_right, exists_or]

end CallGraph

namespace Text

/-- Nothing at all, or a text whose last line is ended. -/
def EndsLine (cs : List Char) : Prop := ∀ c ∈ cs.getLast?, c = '\n'

theorem EndsLine.exists_unlines {cs : List Char} (h : EndsLine cs) :
    ∃ ls, cs = unlines ls ∧ ∀ line ∈ ls, '\n' ∉ line := by
  induction cs with
  | nil => exact ⟨[], rfl, by simp⟩
  | cons c cs ih =>
    have hlast : cs.getLast?.getD c = '\n' := h _ List.getLast?_cons
    have htail : EndsLine cs := by
      intro d hd
      rw [Option.mem_def.mp hd] at hlast
      exact hlast
    obtain ⟨ls, rfl, hls⟩ := ih htail
    by_cases hc : c = '\n'
    · subst hc
      refine ⟨[] :: ls, rfl, fun line hline => ?_⟩
      rcases List.mem_cons.mp hline with rfl | hline
      · exact List.not_mem_nil
      · exact hls line hline
    · -- The character belongs to the first line of the rest, and there is one: `c` ends no line.
      cases ls with
      | nil => exact absurd hlast hc
      | cons l ls =>
        refine ⟨(c :: l) :: ls, by simp [unlines], fun line hline => ?_⟩
        rcases List.mem_cons.mp hline with rfl | hline
        · rw [List.mem_cons, not_or]
          exact ⟨Ne.symm hc, hls l List.mem_cons_self⟩
        · exact hls line (List.mem_cons_of_mem _ hline)

/-- No line reaches over the place where a line ends. -/
theorem EndsLine.lines_append {cs : List Char} (h : EndsLine cs) (rest : List Char) :
    lines (cs ++ rest) = lines cs ++ lines rest := by
  obtain ⟨ls, rfl, hls⟩ := h.exists_unlines
  rw [lines_unlines_append hls, lines_unlines hls]

end Text

namespace LinkMap

variable {ls : List (List Char)}

/-- The first line that names a function or gives a size, if there is one, names a function. -/
def NameFirst (lines : List (List Char)) : Prop :=
  ∀ line ∈ lines.find? fun line => (sectionName? line).isSome || (placement? line).isSome,
    (sectionName? line).isSome = true

instance (lines : List (List Char)) : Decidable (NameFirst lines) :=
  inferInstanceAs (Decidable (∀ line ∈ List.find? _ lines, _))

theorem scanFrom_append (awaiting : Option String) (xs ys : List (List Char)) :
    scanFrom [] awaiting (xs ++ ys) =
      scanFrom [] awaiting xs ++ scanFrom [] (awaitingAfter awaiting xs) ys := by
  induction xs generalizing awaiting with
  | nil => rfl
  | cons line xs ih =>
    rw [List.cons_append, scanFrom_cons, scanFrom_cons, ih]
    rfl

/-- A name left over from before is dropped before it could get a size. -/
theorem NameFirst.scanFrom_eq (h : NameFirst ls) (awaiting : Option String) :
    scanFrom [] awaiting ls = scanFrom [] none ls := by
  induction ls with
  | nil => rfl
  | cons line ls ih =>
    rw [scanFrom_cons, scanFrom_cons]
    unfold NameFirst at h
    rw [List.find?_cons] at h
    cases hname : sectionName? line with
    | some name => simp [readLine, hname]
    | none =>
      cases hplace : placement? line with
      | some p => simp [hname, hplace] at h
      | none =>
        have hread : ∀ a, readLine a line = (a, none) := by
          intro a
          simp [readLine, hname, hplace]
        simp only [hname, hplace] at h
        rw [hread, hread, ih h]

theorem symbols_append {a b : String} (ha : EndsLine a.toList)
    (hb : NameFirst (lines b.toList)) : symbols (a ++ b) = symbols a ++ symbols b := by
  unfold symbols scan
  rw [String.toList_append, ha.lines_append, scanFrom_append, hb.scanFrom_eq, List.filterMap_append]

end LinkMap

namespace Listing

variable {s : MnemonicSet} {ls : List (List Char)}

/-- No line above the first block line shows a call; without a block line no line does. -/
def QuietStart (s : MnemonicSet) (lines : List (List Char)) : Prop :=
  ∀ line ∈ lines.takeWhile fun line => (blockName? line).isNone, s.callee? line = none

instance (s : MnemonicSet) (lines : List (List Char)) : Decidable (QuietStart s lines) :=
  inferInstanceAs (Decidable (∀ line ∈ List.takeWhile _ lines, _))

/-- The block that is open after some lines. -/
def blockAfter (current : Option String) (lines : List (List Char)) : Option String :=
  lines.foldl (fun block line => ((blockName? line).map String.ofList).or block) current

theorem mentions_append (s : MnemonicSet) (current : Option String) (xs ys : List (List Char)) :
    mentions s current (xs ++ ys) =
      mentions s current xs ++ mentions s (blockAfter current xs) ys := by
  induction xs generalizing current with
  | nil => rfl
  | cons line xs ih =>
    rw [List.cons_append, blockAfter, List.foldl_cons, ← blockAfter]
    cases hb : blockName? line with
    | some name => simp [mentions, hb, ih]
    | none =>
      cases current with
      | none => simp [mentions, hb, ih]
      | some caller => cases hcall : s.callee? line <;> simp [mentions, hb, hcall, ih]

/-- A block left open before gets no more calls. -/
theorem QuietStart.mentions_eq (h : QuietStart s ls) (current : Option String) :
    mentions s current ls = mentions s none ls := by
  induction ls with
  | nil => rfl
  | cons line ls ih =>
    cases hb : blockName? line with
    | some name => simp [mentions, hb]
    | none =>
      unfold QuietStart at h
      rw [List.takeWhile_cons, hb] at h
      obtain ⟨hcall, hrest⟩ := List.forall_mem_cons.mp h
      have hread : ∀ block, mentions s block (line :: ls) = mentions s block ls := by
        intro block
        cases block <;> simp [mentions, hb, hcall]
      rw [hread, hread, ih hrest]

theorem callGraph_append {a b : String} (ha : EndsLine a.toList)
    (hb : QuietStart s (lines b.toList)) :
    callGraph s (a ++ b) = (callGraph s a).union (callGraph s b) := by
  have hwhole : mentions s none (lines (a ++ b).toList) =
      mentions s none (lines a.toList) ++ mentions s none (lines b.toList) := by
    rw [String.toList_append, ha.lines_append, mentions_append, hb.mentions_eq]
  have hboth := (knows_callGraph s a).union (knows_callGraph s b)
  rw [← hwhole] at hboth
  exact (knows_callGraph s (a ++ b)).eq_of_same_mentions hboth fun _ => Iff.rfl

end Listing

open LinkMap Listing

/-- Of two maps in a row, where the first ends with a line end and the second names a function
before it gives a size, each symbol is found in the second map and else in the first. Of two
listings in a row, where the first ends with a line end and the second shows no call before it opens
a block, the functions and the calls are those of either. -/
theorem concatenation_is_merge :
    (∀ a b : String, EndsLine a.toList → NameFirst (lines b.toList) →
      symbolTable (a ++ b) = (symbolTable a).overriddenBy (symbolTable b) ∧
      ∀ f, (symbolTable (a ++ b)).get? f = ((symbolTable b).get? f).or ((symbolTable a).get? f)) ∧
    (∀ (s : MnemonicSet) (a b : String), EndsLine a.toList → QuietStart s (lines b.toList) →
      callGraph s (a ++ b) = (callGraph s a).union (callGraph s b) ∧
      (∀ f, (callGraph s (a ++ b)).observes f = true ↔
        (callGraph s a).observes f = true ∨ (callGraph s b).observes f = true) ∧
      ∀ f c, c ∈ (callGraph s (a ++ b)).callees f ↔
        c ∈ (callGraph s a).callees f ∨ c ∈ (callGraph s b).callees f) := by
  refine ⟨fun a b ha hb => ?_, fun s a b ha hb => ?_⟩
  · have htable : symbolTable (a ++ b) = (symbolTable a).overriddenBy (symbolTable b) := by
      rw [symbolTable, symbols_append ha hb, SymbolTable.ofList_append]
      rfl
    refine ⟨htable, fun f => ?_⟩
    rw [htable, SymbolTable.get?_overriddenBy]
  · have hgraph := callGraph_append ha hb
    refine ⟨hgraph, fun f => ?_, fun f c => ?_⟩
    · simp only [hgraph, CallGraph.observes, NameSet.contains_iff, CallGraph.mem_observed_union]
    · rw [hgraph, CallGraph.mem_callees_union]

/-- The first map ends while `g` awaits its size, and the second starts with a size that is too
large for it and then places `f` anew. The first listing ends within a block of `a`, and the second
goes on with a branch that is no call and then opens another block of `a`. -/
theorem parts_merged_over_open_ends :
    ∃ a b c d : String,
      a = " .text.f\n 0x10 0x8\n .text.e\n 0x18 0x4\n .text.g\n" ∧
      b = " 0x20 0x10000000000000000\n .text.f\n 0x30 0x9" ∧
      c = "10 <a>:\n 12: bl 20 <b>\n" ∧
      d = " 14: b.n 10 <a>\n30 <a>:\r\n 32: bl 40 <c>" ∧
      NameFirst (lines b.toList) ∧ QuietStart .standard (lines d.toList) ∧
      (symbolTable (a ++ b)).toList = [⟨"e", 0x18, 4⟩, ⟨"f", 0x30, 9⟩] ∧
      (callGraph .standard (c ++ d)).callees "a" = .ofList ["b", "c"] := by
  refine ⟨_, _, _, _, rfl, rfl, rfl, rfl, ?_⟩
  obtain ⟨hmaps, hlistings⟩ := concatenation_is_merge
  have hname : NameFirst (lines " 0x20 0x10000000000000000\n .text.f\n 0x30 0x9".toList) := by
    decide +kernel
  have hquiet : QuietStart .standard
      (lines " 14: b.n 10 <a>\n30 <a>:\r\n 32: bl 40 <c>".toList) := by decide +kernel
  refine ⟨hname, hquiet, ?_, ?_⟩
  · rw [(hmaps _ _ (by simp [EndsLine]) hname).1]
    decide +kernel
  · rw [(hlistings _ _ _ (by simp [EndsLine]) hquiet).1]
    decide +kernel

end CodeReach
