import CodeReach.Proofs.LinePieces
import CodeReach.Proofs.ListingEdges
import CodeReach.Proofs.Mentions

namespace CodeReach.Listing

open Text

/-- What lines mention, read one after another from within the block of `current`. -/
def mentions (s : MnemonicSet) (current : Option String) : List (List Char) → List Mention
  | [] => []
  | line :: rest =>
    match blockName? line with
    | some name => .function (String.ofList name) :: mentions s (some (String.ofList name)) rest
    | none =>
      match current, s.callee? line with
      | some caller, some callee => .call caller callee :: mentions s current rest
      | _, _ => mentions s current rest

theorem foldl_readLine_graph (s : MnemonicSet) (r : Reader) (ls : List (List Char)) :
    (ls.foldl (Reader.readLine s) r).graph = r.graph.noteAll (mentions s r.current ls) := by
  induction ls generalizing r with
  | nil => rfl
  | cons line ls ih =>
    rw [List.foldl_cons, ih]
    cases hb : blockName? line with
    | some name => simp [Reader.readLine, mentions, hb, CallGraph.noteAll, CallGraph.note]
    | none =>
      cases hcur : r.current with
      | none => simp [Reader.readLine, mentions, hb, hcur]
      | some caller =>
        cases hcall : s.callee? line with
        | none => simp [Reader.readLine, mentions, hb, hcur, hcall]
        | some callee =>
          simp [Reader.readLine, mentions, hb, hcur, hcall, CallGraph.noteAll, CallGraph.note]

theorem callGraph_eq_ofMentions (s : MnemonicSet) (text : String) :
    callGraph s text = CallGraph.ofMentions (mentions s none (lines text.toList)) :=
  foldl_readLine_graph s .start (lines text.toList)

theorem knows_callGraph (s : MnemonicSet) (text : String) :
    (callGraph s text).Knows (mentions s none (lines text.toList)) := by
  rw [callGraph_eq_ofMentions]
  exact CallGraph.knows_ofMentions _

/-- Line `i` is put together as one that opens a block of `f`. -/
def HeaderAt (ls : List (List Char)) (i : Nat) (f : String) : Prop :=
  ∃ p : BlockPieces, ls[i]? = some p.line ∧ String.ofList p.name = f

theorem opensAt_iff_headerAt {ls : List (List Char)} {i : Nat} {f : String} :
    OpensAt ls i f ↔ HeaderAt ls i f := by
  rw [OpensAt, markedAt_iff]
  constructor
  · intro h
    obtain ⟨line, hline, hname⟩ := h
    obtain ⟨name, hblock, rfl⟩ := Option.map_eq_some_iff.mp hname
    obtain ⟨p, rfl, rfl⟩ := blockLine_iff_pieces.mp (blockName?_eq_some_iff.mp hblock)
    exact ⟨p, hline, rfl⟩
  · intro h
    obtain ⟨p, hline, rfl⟩ := h
    have hblock := blockName?_eq_some_iff.mpr (blockLine_iff_pieces.mpr ⟨p, rfl, rfl⟩)
    exact ⟨p.line, hline, by rw [hblock, Option.map_some]⟩

/-- The graph of a listing, read off its lines. It holds a call if and only if a line that opens no
block shows the call and the block line nearest above opens a block of the caller. A function is
observed if a block line opens it or a call goes to it, and it is a caller if it makes a call. The
three totals count the distinct calls, callers and observed functions. -/
theorem call_graph_by_lines (s : MnemonicSet) (text : String) :
    ∃ (edges : Finset (String × String)) (callers functions : Finset String),
      (∀ f c, (f, c) ∈ edges ↔
        ∃ i j, i < j ∧ HeaderAt (lines text.toList) i f ∧
          (∀ k, i < k → k ≤ j → ∀ f', ¬ HeaderAt (lines text.toList) k f') ∧
          CallsAt s (lines text.toList) j c) ∧
      (∀ f, f ∈ callers ↔ ∃ c, (f, c) ∈ edges) ∧
      (∀ f, f ∈ functions ↔ (∃ i, HeaderAt (lines text.toList) i f) ∨ ∃ g, (g, f) ∈ edges) ∧
      (∀ f c, c ∈ (callGraph s text).callees f ↔ (f, c) ∈ edges) ∧
      (∀ f, (callGraph s text).isCaller f = true ↔ f ∈ callers) ∧
      (∀ f, (callGraph s text).observes f = true ↔ f ∈ functions) ∧
      (callGraph s text).callTotal = edges.card ∧
      (callGraph s text).callerTotal = callers.card ∧
      (callGraph s text).functionTotal = functions.card := by
  simp only [← opensAt_iff_headerAt]
  have hedge : ∀ f c, (f, c) ∈ (callGraph s text).edges ↔ Shows s (lines text.toList) f c := by
    intro f c
    rw [CallGraph.mem_edges, mem_callees_callGraph]
  refine ⟨(callGraph s text).edges, (callGraph s text).callers, (callGraph s text).functions,
    fun f c => ?_, fun f => ?_, fun f => ?_, fun f c => CallGraph.mem_edges.symm,
    fun f => CallGraph.mem_callers.symm, fun f => CallGraph.mem_functions.symm,
    (CallGraph.card_edges _).symm, (CallGraph.card_callers _).symm,
    (CallGraph.card_functions _).symm⟩
  · rw [hedge]
    constructor
    · intro h
      obtain ⟨i, j, ⟨hopen, hij, hno⟩, hcall⟩ := h
      exact ⟨i, j, hij, hopen, hno, hcall⟩
    · intro h
      obtain ⟨i, j, hij, hopen, hno, hcall⟩ := h
      exact ⟨i, j, ⟨hopen, hij, hno⟩, hcall⟩
  · rw [CallGraph.mem_callers, (knows_callGraph s text).isCaller_iff]
    simp only [CallGraph.mem_edges]
  · rw [CallGraph.mem_functions, CallGraph.observes, NameSet.contains_iff, mem_observed_callGraph]
    simp only [hedge]

/-- A call above all blocks is nobody's, and the two blocks of `a` make one caller. The line above
its last call has the brackets of a block line but no address. -/
theorem blocks_of_one_caller :
    ∃ text, text = " 2: bl 8 <lost>\n10 <a>:\n 12: bl 20 <b>\n 16: bl 20 <b>\n20 <b>:\n\n" ++
        "30 <a>: again\nfile <x>:\n 32: bl 40 <c>\n" ∧
      ((callGraph .standard text).callees "a" = .ofList ["b", "c"] ∧
        (callGraph .standard text).observed = .ofList ["a", "b", "c"] ∧
        (callGraph .standard text).callTotal = 2 ∧
        (callGraph .standard text).callerTotal = 1 ∧
        (callGraph .standard text).functionTotal = 3) ∧
      ∃ i j, i < j ∧ HeaderAt (lines text.toList) i "a" ∧
        (∀ k, i < k → k ≤ j → ∀ f, ¬ HeaderAt (lines text.toList) k f) ∧
        CallsAt .standard (lines text.toList) j "c" := by
  obtain ⟨edges, -, -, hedges, -, -, hcallees, -⟩ := call_graph_by_lines .standard
    (" 2: bl 8 <lost>\n10 <a>:\n 12: bl 20 <b>\n 16: bl 20 <b>\n20 <b>:\n\n" ++
      "30 <a>: again\nfile <x>:\n 32: bl 40 <c>\n")
  refine ⟨_, rfl, by decide +kernel, ?_⟩
  exact (hedges "a" "c").mp ((hcallees "a" "c").mp (by decide +kernel))

end CodeReach.Listing
