import CodeReach.Proofs.CallPlaces
import CodeReach.Proofs.MnemonicSets

namespace CodeReach

open Text

/-- Between `before` and `after`, `run` is a piece without blanks that cannot be made longer. -/
structure RunIn (before run after : List Char) : Prop where
  ne_nil : run ≠ []
  solid : ∀ c ∈ run, isBlank c = false
  left : ∀ c ∈ before.getLast?, isBlank c = true
  right : ∀ c ∈ after.head?, isBlank c = true

/-- `run` is one of the runs of a text. -/
def IsRun (text run : List Char) : Prop :=
  ∃ before after, text = before ++ (run ++ after) ∧ RunIn before run after

variable {text before after run x y m : List Char} {c : Char}

theorem runIn_iff : RunIn before run after ↔ run ≠ [] ∧ run.all (!isBlank ·) = true ∧
    before.getLast?.all isBlank = true ∧ after.head?.all isBlank = true := by
  simp only [List.all_eq_true, Bool.not_eq_true', Option.all_eq_true]
  exact ⟨fun h => ⟨h.ne_nil, h.solid, h.left, h.right⟩, fun h => ⟨h.1, h.2.1, h.2.2.1, h.2.2.2⟩⟩

instance (before run after : List Char) : Decidable (RunIn before run after) :=
  decidable_of_iff' _ runIn_iff

theorem isRun_iff_place : IsRun text run ↔ ∃ i ∈ List.range (text.length + 1),
    run <+: text.drop i ∧ RunIn (text.take i) run (text.drop (i + run.length)) := by
  constructor
  · intro h
    obtain ⟨before, after, rfl, hrun⟩ := h
    refine ⟨before.length, ?_, ?_, ?_⟩
    · rw [List.mem_range, List.length_append]
      omega
    · rw [List.drop_left]
      exact List.prefix_append run after
    · rw [List.take_left, List.drop_length_add_append, List.drop_left]
      exact hrun
  · intro h
    obtain ⟨i, -, ⟨after, hafter⟩, hrun⟩ := h
    refine ⟨text.take i, after, ?_, ?_⟩
    · rw [hafter, List.take_append_drop]
    · rw [← List.drop_drop, ← hafter, List.drop_left] at hrun
      exact hrun

instance (text run : List Char) : Decidable (IsRun text run) :=
  decidable_of_iff' _ isRun_iff_place

theorem exists_range {n : Nat} {ranges : List (Nat × Nat)} (h : inRanges n ranges = true) :
    ∃ r ∈ ranges, r.1 ≤ n ∧ n ≤ r.2 := by
  induction ranges with
  | nil => cases h
  | cons r ranges ih =>
    rw [inRanges] at h
    split at h
    · cases h
    · split at h
      · exact ⟨r, List.mem_cons_self, by omega, by omega⟩
      · obtain ⟨r', hr', hn⟩ := ih h
        exact ⟨r', List.mem_cons_of_mem r hr', hn⟩

/-- No blank is a word character. -/
theorem isWord_eq_false_of_isBlank (h : isBlank c = true) : isWord c = false := by
  have hcodes : ∀ n ∈ blankRanges.flatMap fun r => List.range' r.1 (r.2 + 1 - r.1),
      isWord (Char.ofNat n) = false := by
    decide +kernel
  obtain ⟨r, hr, hlow, hhigh⟩ := exists_range h
  rw [← Char.ofNat_toNat c]
  apply hcodes
  exact List.mem_flatMap.mpr ⟨r, hr, List.mem_range'_1.mpr ⟨hlow, by omega⟩⟩

theorem RunIn.endsWord_before (h : RunIn before run after) : endsWord false before = false := by
  rw [endsWord_false]
  cases hlast : before.getLast? with
  | none => rfl
  | some c => exact isWord_eq_false_of_isBlank (h.left c hlast)

theorem RunIn.startsWord_after (h : RunIn before run after) : startsWord after = false := by
  rw [startsWord_eq]
  cases hhead : after.head? with
  | none => rfl
  | some c => exact isWord_eq_false_of_isBlank (h.right c hhead)

theorem endsWord_append (left : Bool) (xs ys : List Char) :
    endsWord left (xs ++ ys) = endsWord (endsWord left xs) ys := by
  unfold endsWord
  rw [List.getLast?_append]
  cases ys.getLast? <;> rfl

/-- What stands beyond a run has no part in the word boundaries within it. -/
theorem RunIn.standsBetween_iff (h : RunIn before (x ++ (m ++ y)) after) (hm : m ≠ []) :
    StandsBetween false (before ++ x) m (y ++ after) ↔ StandsBetween false x m y := by
  have hend : startsWord (y ++ after) = startsWord y := by
    cases y with
    | nil => exact h.startsWord_after
    | cons c cs => rfl
  unfold StandsBetween
  rw [endsWord_append, h.endsWord_before, startsWord_append hm, startsWord_append hm, hend]

/-- A piece without blanks lies within one run. -/
theorem exists_run_around (before after : List Char) (hne : m ≠ [])
    (hm : ∀ c ∈ m, isBlank c = false) :
    ∃ before' x y after', before = before' ++ x ∧ after = y ++ after' ∧
      RunIn before' (x ++ (m ++ y)) after' := by
  obtain ⟨hafter, hy, hright⟩ := spans_takeWhile (fun c => !isBlank c) after
  obtain ⟨hbefore, hx, hleft⟩ := spans_takeWhile (fun c => !isBlank c) before.reverse
  have hbefore' := congrArg List.reverse hbefore
  rw [List.reverse_reverse, List.reverse_append] at hbefore'
  refine ⟨_, _, _, _, hbefore', hafter, ⟨by simp [hne], ?_, ?_, by simpa using hright⟩⟩
  · intro c hc
    rcases List.mem_append.mp hc with hc | hc
    · simpa using hx c (List.mem_reverse.mp hc)
    · rcases List.mem_append.mp hc with hc | hc
      · exact hm c hc
      · simpa using hy c hc
  · intro c hc
    rw [List.getLast?_reverse] at hc
    simpa using hleft c hc

/-- A run of a text with a blank in it lies on one side of the blank. -/
theorem RunIn.split {front rest : List Char} (h : RunIn before run after) (hc : isBlank c = true)
    (htext : front ++ c :: rest = before ++ (run ++ after)) :
    (∃ after', front = before ++ (run ++ after') ∧ after = after' ++ c :: rest ∧
      RunIn before run after') ∨
    ∃ before', before = front ++ c :: before' ∧ rest = before' ++ (run ++ after) ∧
      RunIn before' run after := by
  rcases List.append_eq_append_iff.mp htext with ⟨tail, hbefore, hrest⟩ | ⟨tail, hfront, hrest⟩
  · cases tail with
    | nil =>
      -- The run would start with the blank.
      obtain ⟨d, ds, rfl⟩ := List.exists_cons_of_ne_nil h.ne_nil
      rw [List.nil_append, List.cons_append, List.cons.injEq] at hrest
      have hsolid := h.solid d List.mem_cons_self
      rw [← hrest.1, hc] at hsolid
      cases hsolid
    | cons d tail =>
      rw [List.cons_append, List.cons.injEq] at hrest
      obtain ⟨rfl, hrest⟩ := hrest
      refine .inr ⟨tail, hbefore, hrest, h.ne_nil, h.solid, fun d hd => ?_, h.right⟩
      apply h.left
      rw [hbefore, List.getLast?_append_cons, List.getLast?_cons, hd]
      rfl
  · rcases List.append_eq_append_iff.mp hrest with ⟨tail', htail, hafter⟩ | ⟨tail', hrun, hafter⟩
    · refine .inl ⟨tail', ?_, hafter, h.ne_nil, h.solid, h.left, fun d hd => ?_⟩
      · rw [hfront, htail]
      · apply h.right
        rw [hafter, List.head?_append, hd]
        rfl
    · cases tail' with
      | nil =>
        rw [List.append_nil] at hrun
        rw [List.nil_append] at hafter
        refine .inl ⟨[], ?_, ?_, h.ne_nil, h.solid, h.left, by simp⟩
        · rw [hfront, List.append_nil, hrun]
        · rw [List.nil_append, hafter]
      | cons d tail' =>
        -- The blank would be a character of the run.
        rw [List.cons_append, List.cons.injEq] at hafter
        have hsolid := h.solid d (by simp [hrun])
        rw [← hafter.1, hc] at hsolid
        cases hsolid

theorem RunIn.widen_right (h : RunIn before run after) (hc : isBlank c = true) (rest : List Char) :
    RunIn before run (after ++ c :: rest) := by
  refine ⟨h.ne_nil, h.solid, h.left, fun d hd => ?_⟩
  cases after with
  | nil =>
    cases hd
    exact hc
  | cons e after => exact h.right d hd

theorem RunIn.widen_left (h : RunIn before run after) (hc : isBlank c = true) (front : List Char) :
    RunIn (front ++ c :: before) run after := by
  refine ⟨h.ne_nil, h.solid, fun d hd => ?_, h.right⟩
  rw [List.getLast?_append_cons, List.getLast?_cons] at hd
  cases hlast : before.getLast? with
  | none =>
    rw [hlast] at hd
    cases hd
    exact hc
  | some e =>
    rw [hlast] at hd
    cases hd
    exact h.left e hlast

theorem takeWhile_line {line : List Char} (h : '\n' ∉ line) :
    line.takeWhile (· != '\n') = line :=
  List.takeWhile_eq_self_iff.mpr fun _ hc => bne_iff_ne.mpr fun e => h (e ▸ hc)

theorem takeWhile_line_append {line : List Char} (h : '\n' ∉ line) (rest : List Char) :
    (line ++ '\n' :: rest).takeWhile (· != '\n') = line := by
  rw [List.takeWhile_append, takeWhile_line h]
  simp

theorem not_mem_after_part (h : c ∉ before ++ ((x ++ (m ++ y)) ++ after)) : c ∉ y ++ after := by
  intro hmem
  exact h (by simp [List.mem_append.mp hmem])

/-- In a run of a text a mnemonic of the set stands between `x` and `y`, which make up the rest of
the run, and a bracketed name comes after it on the same line. -/
def MnemonicSet.StandsInRun (s : MnemonicSet) (text x : List Char) (m : String) (y : List Char) :
    Prop :=
  m ∈ s.names ∧ StandsBetween false x m.toList y ∧
    ∃ before after, text = before ++ ((x ++ (m.toList ++ y)) ++ after) ∧
      RunIn before (x ++ (m.toList ++ y)) after ∧
      ∃ i name, BracketAt ((y ++ after).takeWhile (· != '\n')) i name

namespace MnemonicSet

variable {s : MnemonicSet} {line rest : List Char} {m : String}

theorem solid_of_made (hs : s.Made) (hm : m ∈ s.names) : ∀ c ∈ m.toList, isBlank c = false := by
  intro c hc
  have hmnemonic := isToken_iff.mp (hs.isToken hm)
  exact (hmnemonic.2 c hc).1

/-- On one line, a call is found where a mnemonic stands in a run. -/
theorem exists_calleeIn?_iff (hs : s.Made) (hline : '\n' ∉ line) :
    (∃ target, s.calleeIn? line = some target) ↔ ∃ x m y, s.StandsInRun line x m y := by
  simp only [calleeIn?_eq_some_iff]
  constructor
  · intro h
    obtain ⟨target, before, m, after, hcs, hm, hstands, hname⟩ := h
    have hne := ne_nil_of_made hs hm
    obtain ⟨before', x, y, after', rfl, rfl, hrun⟩ :=
      exists_run_around before after hne (solid_of_made hs hm)
    obtain ⟨i, hbracket, -⟩ := lastName?_eq_some_iff.mp hname
    have htext : line = before' ++ ((x ++ (m.toList ++ y)) ++ after') := by simpa using hcs
    refine ⟨x, m, y, hm, (hrun.standsBetween_iff hne).mp hstands, before', after', htext, hrun,
      i, target.toList, ?_⟩
    rw [takeWhile_line (not_mem_after_part (htext ▸ hline))]
    exact hbracket
  · intro h
    obtain ⟨x, m, y, hm, hstands, before, after, hcs, hrun, i, name, hbracket⟩ := h
    rw [takeWhile_line (not_mem_after_part (hcs ▸ hline))] at hbracket
    obtain ⟨last, hlast⟩ := Option.ne_none_iff_exists'.mp (lastName?_ne_none hbracket)
    refine ⟨String.ofList last, before ++ x, m, y ++ after, by simpa using hcs, hm, ?_, ?_⟩
    · exact (hrun.standsBetween_iff (ne_nil_of_made hs hm)).mpr hstands
    · rw [String.toList_ofList]
      exact hlast

/-- A line feed parts the runs of a text and the brackets that can follow them. -/
theorem standsInRun_append (hline : '\n' ∉ line) :
    s.StandsInRun (line ++ '\n' :: rest) x m y ↔
      s.StandsInRun line x m y ∨ s.StandsInRun rest x m y := by
  have hblank : isBlank '\n' = true := by decide
  constructor
  · intro h
    obtain ⟨hm, hstands, before, after, htext, hrun, hbracket⟩ := h
    rcases hrun.split hblank htext with ⟨after', hfront, rfl, hrun'⟩ | ⟨before', -, hrest, hrun'⟩
    · have hfeed : '\n' ∉ y ++ after' := not_mem_after_part (hfront ▸ hline)
      rw [← List.append_assoc, takeWhile_line_append hfeed] at hbracket
      refine .inl ⟨hm, hstands, before, after', hfront, hrun', ?_⟩
      rw [takeWhile_line hfeed]
      exact hbracket
    · exact .inr ⟨hm, hstands, before', after, hrest, hrun', hbracket⟩
  · intro h
    rcases h with ⟨hm, hstands, before, after, htext, hrun, hbracket⟩ |
      ⟨hm, hstands, before, after, htext, hrun, hbracket⟩
    · have hfeed : '\n' ∉ y ++ after := not_mem_after_part (htext ▸ hline)
      refine ⟨hm, hstands, before, after ++ '\n' :: rest, by simp [htext],
        hrun.widen_right hblank rest, ?_⟩
      rw [← List.append_assoc, takeWhile_line_append hfeed]
      rw [takeWhile_line hfeed] at hbracket
      exact hbracket
    · exact ⟨hm, hstands, line ++ '\n' :: before, after, by simp [htext],
        hrun.widen_left hblank line, hbracket⟩

/-- A text has a call target if and only if a mnemonic stands in one of its runs. -/
theorem exists_callee?_iff (hs : s.Made) (text : List Char) :
    (∃ target, s.callee? text = some target) ↔ ∃ x m y, s.StandsInRun text x m y := by
  -- By induction on the length, since a text is a line and a shorter text after its line feed.
  induction hlength : text.length using Nat.strong_induction_on generalizing text with
  | _ n ih =>
    by_cases hfeed : '\n' ∈ text
    · obtain ⟨line, rest, rfl, hline⟩ := List.eq_append_cons_of_mem hfeed
      have hrest : rest.length < n := by
        rw [← hlength, List.length_append, List.length_cons]
        omega
      have hcallee : s.callee? (line ++ '\n' :: rest) = (s.calleeIn? line).or (s.callee? rest) := by
        rw [callee?, segments_append hline, List.findSome?_cons]
        cases s.calleeIn? line <;> rfl
      have hor : (∃ target, s.callee? (line ++ '\n' :: rest) = some target) ↔
          (∃ target, s.calleeIn? line = some target) ∨ ∃ target, s.callee? rest = some target := by
        rw [hcallee]
        cases s.calleeIn? line <;> simp
      rw [hor, exists_calleeIn?_iff hs hline, ih rest.length hrest rest rfl]
      simp only [standsInRun_append hline, exists_or]
    · rw [callee?_of_not_mem hfeed]
      exact exists_calleeIn?_iff hs hfeed

end MnemonicSet

/-- A text without blanks is its only run. -/
theorem RunIn.eq_of_solid (h : RunIn before run after)
    (hsolid : ∀ c ∈ before ++ (run ++ after), isBlank c = false) : before = [] ∧ after = [] := by
  constructor
  · apply List.getLast?_eq_none_iff.mp
    cases hlast : before.getLast? with
    | none => rfl
    | some c =>
      have hc := hsolid c (List.mem_append_left _ (List.mem_of_getLast? hlast))
      rw [h.left c hlast] at hc
      cases hc
  · apply List.head?_eq_none_iff.mp
    cases hhead : after.head? with
    | none => rfl
    | some c =>
      have hc := hsolid c (by simp [List.mem_of_mem_head? hhead])
      rw [h.right c hhead] at hc
      cases hc

/-- A word character to put before or after `m` if it has none at that end. -/
def joint (word : Bool) : List Char := if word then [] else ['a']

theorem standsBetween_joints {rest : List Char} (hm : m ≠ []) (hrest : startsWord rest = false) :
    StandsBetween false (joint (startsWord m)) m (joint (m.getLast?.any isWord) ++ rest) := by
  have hword : isWord 'a' = true := by decide
  constructor
  · obtain ⟨c, cs, rfl⟩ := List.exists_cons_of_ne_nil hm
    cases hc : isWord c with
    | false => simp [startsWord, hc, joint, endsWord, hword]
    | true => simp [startsWord, hc, joint, endsWord]
  · cases hlast : m.getLast?.any isWord with
    | false => simp [joint, startsWord, hword]
    | true => simp [joint, hrest]

/-- Each mnemonic of a set can stand in a text that has no blanks at all. -/
theorem MnemonicSet.exists_call_without_blanks {s : MnemonicSet} (hs : s.Made) {m : String}
    (hm : m ∈ s.names) :
    ∃ text target, s.callee? text = some target ∧ '<' ∈ text ∧ ∀ c ∈ text, isBlank c = false := by
  have hsolid := solid_of_made hs hm
  have hjoint : ∀ word, ∀ c ∈ joint word, isBlank c = false := by
    intro word c hc
    cases word with
    | false =>
      cases List.mem_singleton.mp hc
      decide
    | true => cases hc
  have hname : ∀ c ∈ ['f'], isNameChar c = true := by simp [isNameChar, isWord]
  let text := joint (startsWord m.toList) ++ (m.toList ++
    (joint (m.toList.getLast?.any isWord) ++ '<' :: (['f'] ++ ['>'])))
  have htext : ∀ c ∈ text, isBlank c = false := by
    intro c hc
    simp only [text, List.mem_append, List.mem_cons, List.not_mem_nil, or_false] at hc
    rcases hc with hc | hc | hc | rfl | rfl | rfl
    · exact hjoint _ c hc
    · exact hsolid c hc
    · exact hjoint _ c hc
    · decide
    · decide
    · decide
  have hfeed : '\n' ∉ text := fun hmem => absurd (htext _ hmem) (by decide)
  refine ⟨text, "f", ?_, by simp [text], htext⟩
  rw [callee?_of_not_mem hfeed]
  refine calleeIn?_eq_some_iff.mpr ⟨_, m, _, rfl, hm, ?_, ?_⟩
  · exact standsBetween_joints (ne_nil_of_made hs hm) rfl
  · exact lastName?_bracket _ (by simp) hname

/-- A call found in a text comes with a run that is a mnemonic of the set if and only if there is
such a run anyway, or else whenever a mnemonic stands in a run before a bracket, it is all of that
run. No set but the empty one finds calls only in texts that have such a run. -/
theorem calls_have_mnemonic_run_iff {s : MnemonicSet} (hs : s.Made) :
    (∀ text, (∀ target, s.callee? text = some target → ∃ m ∈ s.names, IsRun text m.toList) ↔
      (∃ m ∈ s.names, IsRun text m.toList) ∨
        ∀ x m y, s.StandsInRun text x m y → x = [] ∧ y = []) ∧
    ((∀ text target, s.callee? text = some target → ∃ m ∈ s.names, IsRun text m.toList) ↔
      ∀ m, m ∉ s.names) := by
  refine ⟨fun text => ⟨fun h => ?_, fun h target htarget => ?_⟩, fun h m hm => ?_,
    fun h text target htarget => ?_⟩
  · by_cases hrun : ∃ m ∈ s.names, IsRun text m.toList
    · exact .inl hrun
    · refine .inr fun x m y hstands => ?_
      obtain ⟨target, htarget⟩ := (MnemonicSet.exists_callee?_iff hs text).mpr ⟨x, m, y, hstands⟩
      exact absurd (h target htarget) hrun
  · rcases h with hrun | hwhole
    · exact hrun
    · obtain ⟨x, m, y, hstands⟩ := (MnemonicSet.exists_callee?_iff hs text).mp ⟨target, htarget⟩
      obtain ⟨rfl, rfl⟩ := hwhole x m y hstands
      obtain ⟨hm, -, before, after, htext, hrun, -⟩ := hstands
      rw [List.nil_append, List.append_nil] at htext hrun
      exact ⟨m, hm, before, after, htext, hrun⟩
  · obtain ⟨text, target, htarget, hopen, hsolid⟩ :=
      MnemonicSet.exists_call_without_blanks hs hm
    obtain ⟨m', hm', before, after, rfl, hrun⟩ := h text target htarget
    obtain ⟨rfl, rfl⟩ := hrun.eq_of_solid hsolid
    rw [List.nil_append, List.append_nil] at hopen
    -- The whole text would be a mnemonic, and no mnemonic has brackets.
    have hmnemonic := isToken_iff.mp (hs.isToken hm')
    exact (hmnemonic.2 '<' hopen).2.1 rfl
  · obtain ⟨x, m, y, hm, -⟩ := (MnemonicSet.exists_callee?_iff hs text).mp ⟨target, htarget⟩
    exact absurd hm (h m)

/-- A branch with a width suffix that the set has beside the plain branch: the plain one stands in
the run too, but the run as a whole is a mnemonic. The set still has texts that call without one. -/
theorem wide_branch_is_mnemonic_run :
    (∃ m ∈ (MnemonicSet.ofPreset .tailCalls).names, IsRun " 8: b.w 80 <run>".toList m.toList) ∧
    ¬ ∀ text target, (MnemonicSet.ofPreset .tailCalls).callee? text = some target →
      ∃ m ∈ (MnemonicSet.ofPreset .tailCalls).names, IsRun text m.toList := by
  obtain ⟨hline, hset⟩ := calls_have_mnemonic_run_iff (.preset .tailCalls)
  have hrun : IsRun " 8: b.w 80 <run>".toList "b.w".toList := by decide +kernel
  refine ⟨?_, fun h => ?_⟩
  · apply (hline _).mpr (.inl ⟨"b.w", by decide, hrun⟩) "run"
    decide +kernel
  · exact hset.mp h "b" (by decide)

/-- A register that is an operand, a condition that is a suffix and an address that is a single
digit are each taken for a mnemonic, and no run of these lines is one. -/
theorem parts_of_runs_taken_for_mnemonics :
    (MnemonicSet.standard.callee?
        " 401136:\t88 1d dc 2e 00 00\tmov    %bl,0x2edc(%rip)  # 404018 <flag>".toList =
      some "flag" ∧
      ∀ m ∈ MnemonicSet.standard.names, ¬ IsRun
        " 401136:\t88 1d dc 2e 00 00\tmov    %bl,0x2edc(%rip)  # 404018 <flag>".toList
        m.toList) ∧
    ((MnemonicSet.ofPreset .tailCalls).callee? " 44:\t540000a0\tb.eq\t58 <done>".toList =
      some "done" ∧
      ∀ m ∈ (MnemonicSet.ofPreset .tailCalls).names, ¬ IsRun
        " 44:\t540000a0\tb.eq\t58 <done>".toList m.toList) ∧
    ((MnemonicSet.ofPreset .tailCalls).callee? " b:\t75 f3\tjne\t0 <wait>".toList = some "wait" ∧
      ∀ m ∈ (MnemonicSet.ofPreset .tailCalls).names, ¬ IsRun
        " b:\t75 f3\tjne\t0 <wait>".toList m.toList) := by
  refine ⟨⟨?_, ?_⟩, ⟨?_, ?_⟩, ?_, ?_⟩
  all_goals decide +kernel

end CodeReach
