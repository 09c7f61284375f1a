import CodeReach.Listing
import CodeReach.Proofs.Marks

namespace CodeReach.Listing

open Text

/-- Line `i` opens the block of `f`. -/
def OpensAt (lines : List (List Char)) (i : Nat) (f : String) : Prop :=
  MarkedAt (fun line => (blockName? line).map String.ofList) lines i f

/-- Line `j` calls `c`, whoever it is that calls. -/
def CallsAt (s : MnemonicSet) (lines : List (List Char)) (j : Nat) (c : String) : Prop :=
  MarkedAt s.callee? lines j c

/-- Line `j` lies in the block that line `i` opens for `f`. -/
def InBlock (lines : List (List Char)) (i j : Nat) (f : String) : Prop :=
  OpensAt lines i f ∧ i < j ∧ ∀ k, i < k → k ≤ j → ∀ f', ¬ OpensAt lines k f'

/-- Some line of a block of `f` calls `c`. -/
def Shows (s : MnemonicSet) (lines : List (List Char)) (f c : String) : Prop :=
  ∃ i j, InBlock lines i j f ∧ CallsAt s lines j c

/-- The block still open where the lines end is one of `f`. -/
def Open (lines : List (List Char)) (f : String) : Prop :=
  LastMark (fun line => (blockName? line).map String.ofList) lines f

variable {s : MnemonicSet} {ls : List (List Char)} {line : List Char} {f c : String}

theorem shows_of_concat (h : Shows s (ls ++ [line]) f c) :
    Shows s ls f c ∨ (blockName? line = none ∧ s.callee? line = some c ∧ Open ls f) := by
  obtain ⟨i, j, ⟨hi, hij, hno⟩, hj⟩ := h
  have hjlen : j < ls.length + 1 := by simpa using MarkedAt.lt_length hj
  have hopen : OpensAt ls i f := by
    rcases markedAt_concat.mp hi with hi | ⟨hlen, -⟩
    · exact hi
    · omega
  have hkeep : ∀ k, i < k → k ≤ j → ∀ f', ¬ OpensAt ls k f' := by
    intro k hik hkj f' hk
    exact hno k hik hkj f' (markedAt_concat.mpr (.inl hk))
  rcases markedAt_concat.mp hj with hj | ⟨hlen, hc⟩
  · exact .inl ⟨i, j, ⟨hopen, hij, hkeep⟩, hj⟩
  · -- The call is on the line added, so that line opens nothing and the block is still open.
    right
    refine ⟨?_, hc, i, hopen, ?_⟩
    · apply Option.eq_none_iff_forall_ne_some.mpr
      intro name hname
      exact hno j hij (Nat.le_refl j) (String.ofList name)
        (markedAt_concat.mpr (.inr ⟨hlen, by rw [hname]; rfl⟩))
    · intro k hik f' hk
      have hklen : k < ls.length := MarkedAt.lt_length hk
      exact hkeep k hik (by omega) f' hk

theorem Shows.concat (h : Shows s ls f c) (line : List Char) : Shows s (ls ++ [line]) f c := by
  obtain ⟨i, j, ⟨hi, hij, hno⟩, hj⟩ := h
  refine ⟨i, j, ⟨markedAt_concat.mpr (.inl hi), hij, ?_⟩, markedAt_concat.mpr (.inl hj)⟩
  intro k hik hkj f' hk
  rcases markedAt_concat.mp hk with hk | ⟨hlen, -⟩
  · exact hno k hik hkj f' hk
  · have hjlen : j < ls.length := MarkedAt.lt_length hj
    omega

theorem shows_concat_of_open (hb : blockName? line = none) (hc : s.callee? line = some c)
    (ho : Open ls f) : Shows s (ls ++ [line]) f c := by
  obtain ⟨i, hi, hlast⟩ := ho
  refine ⟨i, ls.length, ⟨markedAt_concat.mpr (.inl hi), hi.lt_length, ?_⟩,
    markedAt_concat.mpr (.inr ⟨rfl, hc⟩)⟩
  intro k hik _ f' hk
  rcases markedAt_concat.mp hk with hk | ⟨-, hname⟩
  · exact hlast k hik f' hk
  · simp [hb] at hname

/-- A line added at the end adds its call, if it has one, to the block that is open there. -/
theorem shows_concat :
    Shows s (ls ++ [line]) f c ↔
      Shows s ls f c ∨ (blockName? line = none ∧ s.callee? line = some c ∧ Open ls f) := by
  refine ⟨shows_of_concat, fun h => ?_⟩
  rcases h with h | ⟨hb, hc, ho⟩
  · exact h.concat line
  · exact shows_concat_of_open hb hc ho

/-- A reader that has read `lines` knows the block it is in, the calls that the lines show, and the
functions that they name. -/
structure HasRead (s : MnemonicSet) (lines : List (List Char)) (r : Reader) : Prop where
  current : ∀ f, r.current = some f ↔ Open lines f
  calls : ∀ f c, c ∈ r.graph.callees f ↔ Shows s lines f c
  observed : ∀ f, f ∈ r.graph.observed ↔ (∃ i, OpensAt lines i f) ∨ ∃ g, Shows s lines g f

theorem hasRead_start (s : MnemonicSet) : HasRead s [] .start := by
  have hnone : ∀ f c, ¬ Shows s [] f c := by
    intro f c h
    obtain ⟨i, j, -, hj⟩ := h
    simp [CallsAt, MarkedAt] at hj
  refine ⟨fun f => ?_, fun f c => ?_, fun f => ?_⟩
  · simp [Reader.start, Open, not_lastMark_nil]
  · simp [Reader.start, CallGraph.callees, CallGraph.callees?, CallGraph.empty, hnone]
  · simp [Reader.start, CallGraph.empty, OpensAt, MarkedAt, hnone]

theorem HasRead.block {r : Reader} {name : List Char} (h : HasRead s ls r)
    (hb : blockName? line = some name) : HasRead s (ls ++ [line]) (r.readLine s line) := by
  have hr : r.readLine s line =
      ⟨some (String.ofList name), r.graph.observe (String.ofList name)⟩ := by
    simp [Reader.readLine, hb]
  have hshows : ∀ f c, Shows s (ls ++ [line]) f c ↔ Shows s ls f c := by
    intro f c
    simp [shows_concat, hb]
  rw [hr]
  refine ⟨fun f => ?_, fun f c => ?_, fun f => ?_⟩
  · simp [Open, lastMark_concat, hb]
  · rw [hshows]
    exact h.calls f c
  · have hopens : (∃ i, OpensAt (ls ++ [line]) i f) ↔
        f = String.ofList name ∨ ∃ i, OpensAt ls i f := by
      simp only [OpensAt, markedAt_concat, exists_or, hb, Option.map_some, Option.some.injEq,
        exists_eq_left]
      rw [or_comm, eq_comm]
    simp only [CallGraph.observe, NameSet.mem_insert, h.observed, hopens, hshows, or_assoc]

/-- A line that opens no block and shows no call that was not there tells the reader nothing. -/
theorem HasRead.unchanged {r : Reader} (h : HasRead s ls r) (hb : blockName? line = none)
    (hshows : ∀ f c, Shows s (ls ++ [line]) f c ↔ Shows s ls f c) :
    HasRead s (ls ++ [line]) r := by
  refine ⟨fun f => ?_, fun f c => ?_, fun f => ?_⟩
  · simp [h.current, Open, lastMark_concat, hb]
  · rw [h.calls, hshows]
  · simp [h.observed, hshows, OpensAt, markedAt_concat, hb]

theorem HasRead.call {r : Reader} {caller callee : String} (h : HasRead s ls r)
    (hb : blockName? line = none) (hcur : r.current = some caller)
    (hcall : s.callee? line = some callee) :
    HasRead s (ls ++ [line]) { r with graph := r.graph.addCall caller callee } := by
  have hshows : ∀ f c, Shows s (ls ++ [line]) f c ↔
      (f = caller ∧ c = callee) ∨ Shows s ls f c := by
    intro f c
    rw [shows_concat, ← h.current, hcur, hcall, or_comm]
    simp only [hb, Option.some.injEq, true_and]
    rw [and_comm, eq_comm (a := caller), eq_comm (a := callee)]
  have hopens : ∀ i f, OpensAt (ls ++ [line]) i f ↔ OpensAt ls i f := by
    intro i f
    simp [OpensAt, markedAt_concat, hb]
  refine ⟨fun f => ?_, fun f c => ?_, fun f => ?_⟩
  · simp [h.current, Open, lastMark_concat, hb]
  · rw [hshows, ← h.calls]
    exact CallGraph.mem_callees_addCall
  · -- The caller was observed before: its block line is among the lines.
    obtain ⟨i, hi, -⟩ := (h.current caller).mp hcur
    simp only [CallGraph.addCall, NameSet.mem_insert, h.observed, hopens, hshows, exists_or]
    constructor
    · intro h
      rcases h with rfl | rfl | hf | hf
      · exact .inr (.inl ⟨caller, rfl, rfl⟩)
      · exact .inl ⟨i, hi⟩
      · exact .inl hf
      · exact .inr (.inr hf)
    · intro h
      rcases h with hf | ⟨g, -, rfl⟩ | hf
      · exact .inr (.inr (.inl hf))
      · exact .inl rfl
      · exact .inr (.inr (.inr hf))

theorem HasRead.step {r : Reader} (h : HasRead s ls r) (line : List Char) :
    HasRead s (ls ++ [line]) (r.readLine s line) := by
  cases hb : blockName? line with
  | some name => exact h.block hb
  | none =>
    cases hcur : r.current with
    | none =>
      -- No block is open, so the line belongs to nobody, whatever it calls.
      have hr : r.readLine s line = r := by simp [Reader.readLine, hb, hcur]
      rw [hr]
      exact h.unchanged hb (by simp [shows_concat, ← h.current, hcur])
    | some caller =>
      cases hcall : s.callee? line with
      | none =>
        have hr : r.readLine s line = r := by simp [Reader.readLine, hb, hcur, hcall]
        rw [hr]
        exact h.unchanged hb (by simp [shows_concat, hcall])
      | some callee =>
        have hr : r.readLine s line = { r with graph := r.graph.addCall caller callee } := by
          simp [Reader.readLine, hb, hcur, hcall]
        rw [hr]
        exact h.call hb hcur hcall

theorem hasRead_foldl (s : MnemonicSet) (ls : List (List Char)) :
    HasRead s ls (ls.foldl (Reader.readLine s) .start) := by
  induction ls using List.reverseRecOn with
  | nil => exact hasRead_start s
  | append_singleton ls line ih =>
    rw [List.foldl_append, List.foldl_cons, List.foldl_nil]
    exact ih.step line

/-- The calls in the graph of a listing are exactly those that its lines show. -/
theorem mem_callees_callGraph {text : String} :
    c ∈ (callGraph s text).callees f ↔ Shows s (lines text.toList) f c :=
  (hasRead_foldl s (lines text.toList)).calls f c

theorem mem_observed_callGraph {text : String} :
    f ∈ (callGraph s text).observed ↔
      (∃ i, OpensAt (lines text.toList) i f) ∨ ∃ g, Shows s (lines text.toList) g f :=
  (hasRead_foldl s (lines text.toList)).observed f

end CodeReach.Listing
