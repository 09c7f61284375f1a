import CodeReach.Proofs.ListingGrammar
import CodeReach.Proofs.MnemonicTokens

namespace CodeReach

open Text

/-- A name in brackets starts at place `i` of a line. -/
def BracketAt (line : List Char) (i : Nat) (name : List Char) : Prop :=
  ∃ front rest, line = front ++ '<' :: (name ++ '>' :: rest) ∧ front.length = i ∧
    name ≠ [] ∧ ∀ c ∈ name, isNameChar c = true

/-- It does, and none starts further to the right. -/
def LastBracket (line : List Char) (i : Nat) (name : List Char) : Prop :=
  BracketAt line i name ∧ ∀ j other, BracketAt line j other → j ≤ i

/-- Of the two neighbours of place `i` exactly one is a word character. -/
def BoundaryAt (line : List Char) (i : Nat) : Prop :=
  (line.take i).getLast?.any isWord ≠ (line.drop i).head?.any isWord

/-- `m` starts at place `j` of a line and has a word boundary at both ends. -/
def StandsAt (line m : List Char) (j : Nat) : Prop :=
  m <+: line.drop j ∧ BoundaryAt line j ∧ BoundaryAt line (j + m.length)

variable {cs line m name other : List Char} {i j : Nat}

theorem bracketAt_append (xs : List Char) :
    BracketAt (xs ++ cs) (xs.length + i) name ↔ BracketAt cs i name := by
  constructor
  · intro h
    obtain ⟨front, rest, hline, hlength, hname⟩ := h
    have hfront : front <+: xs ++ cs := ⟨_, hline.symm⟩
    obtain ⟨front', rfl⟩ : xs <+: front :=
      List.prefix_of_prefix_length_le (List.prefix_append xs cs) hfront (by omega)
    rw [List.append_assoc, List.append_cancel_left_eq] at hline
    rw [List.length_append] at hlength
    exact ⟨front', rest, hline, by omega, hname⟩
  · intro h
    obtain ⟨front, rest, hline, hlength, hname⟩ := h
    refine ⟨xs ++ front, rest, ?_, ?_, hname⟩
    · rw [hline, List.append_assoc]
    · rw [List.length_append, hlength]

theorem bracketAt_succ {c : Char} : BracketAt (c :: cs) (i + 1) name ↔ BracketAt cs i name := by
  rw [Nat.add_comm]
  exact bracketAt_append [c]

theorem bracketAt_zero {c : Char} :
    BracketAt (c :: cs) 0 name ↔ c = '<' ∧ closedName? cs = some name := by
  rw [closedName?_eq_some_iff]
  constructor
  · intro h
    obtain ⟨front, rest, hline, hlength, hname⟩ := h
    rw [List.length_eq_zero_iff.mp hlength, List.nil_append, List.cons.injEq] at hline
    exact ⟨hline.1, rest, hline.2, hname⟩
  · intro h
    obtain ⟨rfl, rest, rfl, hname⟩ := h
    exact ⟨[], rest, rfl, rfl, hname⟩

/-- At one place stands one name. -/
theorem BracketAt.unique (h : BracketAt cs i name) (h' : BracketAt cs i other) : name = other := by
  induction cs generalizing i with
  | nil =>
    obtain ⟨front, rest, hline, -⟩ := h
    simp at hline
  | cons c cs ih =>
    cases i with
    | zero =>
      obtain ⟨-, hname⟩ := bracketAt_zero.mp h
      obtain ⟨-, hother⟩ := bracketAt_zero.mp h'
      exact Option.some.inj (hname.symm.trans hother)
    | succ i => exact ih (bracketAt_succ.mp h) (bracketAt_succ.mp h')

theorem LastBracket.unique (h : LastBracket cs i name) (h' : LastBracket cs j other) :
    name = other := by
  have hij : i = j := Nat.le_antisymm (h'.2 i name h.1) (h.2 j other h'.1)
  subst hij
  exact h.1.unique h'.1

theorem lastName?_ne_none (h : BracketAt cs i name) : lastName? cs ≠ none := by
  induction cs generalizing i with
  | nil =>
    obtain ⟨front, rest, hline, -⟩ := h
    simp at hline
  | cons c cs ih =>
    rw [lastName?]
    cases hrest : lastName? cs with
    | some last => simp
    | none =>
      cases i with
      | zero =>
        obtain ⟨rfl, hname⟩ := bracketAt_zero.mp h
        simp [hname]
      | succ i => exact absurd hrest (ih (bracketAt_succ.mp h))

theorem exists_lastBracket (h : lastName? cs = some name) : ∃ i, LastBracket cs i name := by
  induction cs generalizing name with
  | nil => cases h
  | cons c cs ih =>
    rw [lastName?] at h
    cases hrest : lastName? cs with
    | some last =>
      rw [hrest] at h
      cases h
      obtain ⟨i, hat, hlast⟩ := ih hrest
      refine ⟨i + 1, bracketAt_succ.mpr hat, fun j other hother => ?_⟩
      cases j with
      | zero => omega
      | succ j => exact Nat.succ_le_succ (hlast j other (bracketAt_succ.mp hother))
    | none =>
      -- There is no bracket behind the first character, so the one found starts with it.
      rw [hrest] at h
      dsimp only at h
      split at h
      · next hc =>
        refine ⟨0, bracketAt_zero.mpr ⟨hc, h⟩, fun j other hother => ?_⟩
        cases j with
        | zero => exact Nat.le_refl 0
        | succ j => exact absurd hrest (lastName?_ne_none (bracketAt_succ.mp hother))
      · cases h

theorem lastName?_eq_some_iff : lastName? cs = some name ↔ ∃ i, LastBracket cs i name := by
  constructor
  · exact exists_lastBracket
  · intro h
    obtain ⟨i, hlast⟩ := h
    obtain ⟨last, hsome⟩ := Option.ne_none_iff_exists'.mp (lastName?_ne_none hlast.1)
    obtain ⟨j, hlast'⟩ := exists_lastBracket hsome
    rw [hsome, hlast'.unique hlast]

theorem lastBracket_append (xs : List Char) :
    LastBracket (xs ++ cs) (xs.length + i) name ↔ LastBracket cs i name := by
  constructor
  · intro h
    refine ⟨(bracketAt_append xs).mp h.1, fun j other hother => ?_⟩
    have := h.2 (xs.length + j) other ((bracketAt_append xs).mpr hother)
    omega
  · intro h
    refine ⟨(bracketAt_append xs).mpr h.1, fun j other hother => ?_⟩
    by_cases hj : j < xs.length
    · omega
    · -- A bracket that starts behind `xs` is one of `cs`.
      obtain ⟨k, rfl⟩ := Nat.exists_eq_add_of_le (Nat.le_of_not_lt hj)
      have := h.2 k other ((bracketAt_append xs).mp hother)
      omega

theorem startsWord_eq (cs : List Char) : startsWord cs = cs.head?.any isWord := by
  cases cs <;> rfl

theorem startsWord_append (hm : m ≠ []) (cs : List Char) : startsWord (m ++ cs) = startsWord m := by
  obtain ⟨c, m, rfl⟩ := List.exists_cons_of_ne_nil hm
  rfl

theorem endsWord_false (cs : List Char) : endsWord false cs = cs.getLast?.any isWord := by
  rw [endsWord]
  cases cs.getLast? <;> rfl

theorem standsBetween_iff {before after : List Char} (hm : m ≠ []) :
    StandsBetween false before m after ↔ StandsAt (before ++ (m ++ after)) m before.length := by
  have hlast : (before ++ m).getLast? = m.getLast? := by
    rw [List.getLast?_append, List.getLast?_eq_some_getLast hm]
    rfl
  unfold StandsBetween StandsAt BoundaryAt
  rw [List.take_length_add_append, List.drop_length_add_append, List.take_left, List.drop_left,
    List.take_left, List.drop_left, hlast, endsWord_false, startsWord_eq, startsWord_eq]
  exact ⟨fun h => ⟨List.prefix_append m after, h⟩, And.right⟩

/-- A mnemonic of the set is over before place `i` of a line, with a word boundary at both ends. -/
def MnemonicSet.StandsBefore (s : MnemonicSet) (line : List Char) (i : Nat) : Prop :=
  ∃ m ∈ s.names, ∃ j, StandsAt line m.toList j ∧ j + m.toList.length ≤ i

namespace MnemonicSet

variable {s s₁ s₂ : MnemonicSet} {target : String}

theorem ne_nil_of_made (hs : s.Made) {m : String} (hm : m ∈ s.names) : m.toList ≠ [] := by
  intro hnil
  have htoken := hs.isToken hm
  rw [hnil] at htoken
  cases htoken

theorem calleeIn?_iff_places (hs : s.Made) :
    s.calleeIn? line = some target ↔
      ∃ i, LastBracket line i target.toList ∧ s.StandsBefore line i := by
  rw [calleeIn?_eq_some_iff]
  constructor
  · intro h
    obtain ⟨before, m, after, hline, hm, hstands, hname⟩ := h
    obtain ⟨i, hlast⟩ := lastName?_eq_some_iff.mp hname
    have hlast' : LastBracket line ((before ++ m.toList).length + i) target.toList := by
      rw [hline, ← List.append_assoc]
      exact (lastBracket_append _).mpr hlast
    refine ⟨_, hlast', m, hm, before.length, ?_, ?_⟩
    · rw [hline]
      exact (standsBetween_iff (ne_nil_of_made hs hm)).mp hstands
    · rw [List.length_append]
      exact Nat.le_add_right _ i
  · intro h
    obtain ⟨i, hlast, m, hm, j, hstands, hji⟩ := h
    obtain ⟨after, hafter⟩ := hstands.1
    have hne := ne_nil_of_made hs hm
    -- The mnemonic cuts the line in three: what stands before it, itself, and what comes after it.
    have hline : line = line.take j ++ (m.toList ++ after) := by
      rw [hafter, List.take_append_drop]
    have hj : (line.take j).length = j := by
      have hpos := List.length_pos_of_ne_nil hne
      have hlength := congrArg List.length hafter
      rw [List.length_append, List.length_drop] at hlength
      rw [List.length_take]
      omega
    refine ⟨line.take j, m, after, hline, hm, ?_, ?_⟩
    · rw [standsBetween_iff hne, hj, ← hline]
      exact hstands
    · obtain ⟨k, rfl⟩ := Nat.exists_eq_add_of_le hji
      apply lastName?_eq_some_iff.mpr
      refine ⟨k, (lastBracket_append (line.take j ++ m.toList)).mp ?_⟩
      rw [List.append_assoc, ← hline, List.length_append, hj]
      exact hlast

theorem lastName?_of_calleeIn? (h : s.calleeIn? line = some target) :
    lastName? line = some target.toList := by
  obtain ⟨name, hname, rfl⟩ := Option.map_eq_some_iff.mp h
  rw [String.toList_ofList]
  exact lastName?_of_firstTarget? hname

/-- Two sets that both find a call on a line find the same. -/
theorem calleeIn?_agree {target' : String} (h : s₁.calleeIn? line = some target)
    (h' : s₂.calleeIn? line = some target') : target = target' := by
  have hsame := (lastName?_of_calleeIn? h).symm.trans (lastName?_of_calleeIn? h')
  exact String.toList_inj.mp (Option.some.inj hsame)

theorem calleeIn?_union (hs : ∀ m, m ∈ s.names ↔ m ∈ s₁.names ∨ m ∈ s₂.names) :
    s.calleeIn? line = (s₁.calleeIn? line).or (s₂.calleeIn? line) := by
  cases h₁ : s₁.calleeIn? line with
  | some target => exact calleeIn?_mono (fun m hm => (hs m).mpr (.inl hm)) h₁
  | none =>
    rw [Option.none_or]
    refine Option.ext fun target => ⟨fun h => ?_, calleeIn?_mono fun m hm => (hs m).mpr (.inr hm)⟩
    obtain ⟨before, m, after, hline, hm, hrest⟩ := calleeIn?_eq_some_iff.mp h
    rcases (hs m).mp hm with hm | hm
    · have hfound := calleeIn?_eq_some_iff.mpr ⟨before, m, after, hline, hm, hrest⟩
      rw [h₁] at hfound
      cases hfound
    · exact calleeIn?_eq_some_iff.mpr ⟨before, m, after, hline, hm, hrest⟩

end MnemonicSet

/-- The order in which mnemonics are tried, and how often one is, is immaterial. -/
theorem firstTarget?_congr {ms ms' : List (List Char)} (h : ∀ m, m ∈ ms ↔ m ∈ ms') (left : Bool)
    (cs : List Char) : firstTarget? ms left cs = firstTarget? ms' left cs := by
  refine Option.ext fun name => ⟨?_, ?_⟩
  · exact firstTarget?_mono fun m hm => (h m).mp hm
  · exact firstTarget?_mono fun m hm => (h m).mpr hm

/-- A line calls the bracketed name that starts furthest to the right, if a mnemonic of the set with
a word boundary at both ends is over before it starts, and otherwise it calls nothing. So the order
in which mnemonics are tried is immaterial, and two sets together find what the first one finds or
else what the second one finds; where both find a call, it is the same. -/
theorem callee_told_by_places {s : MnemonicSet} (hs : s.Made) {line : List Char}
    (hline : '\n' ∉ line) :
    (∀ target : String, s.callee? line = some target ↔
      ∃ i, LastBracket line i target.toList ∧ s.StandsBefore line i) ∧
    (s.callee? line = none ↔ ∀ i name, LastBracket line i name → ¬ s.StandsBefore line i) ∧
    (∀ ms, (∀ m, m ∈ ms ↔ m ∈ s.alternatives) →
      (firstTarget? ms false line).map String.ofList = s.callee? line) ∧
    ∀ s₁ s₂ : MnemonicSet, (∀ m, m ∈ s.names ↔ m ∈ s₁.names ∨ m ∈ s₂.names) →
      s.callee? line = (s₁.callee? line).or (s₂.callee? line) ∧
      ∀ target₁ target₂, s₁.callee? line = some target₁ → s₂.callee? line = some target₂ →
        target₁ = target₂ := by
  simp only [MnemonicSet.callee?_of_not_mem hline]
  refine ⟨fun target => MnemonicSet.calleeIn?_iff_places hs, ?_, fun ms hms => ?_,
    fun s₁ s₂ hunion => ⟨MnemonicSet.calleeIn?_union hunion, fun _ _ => MnemonicSet.calleeIn?_agree⟩⟩
  · rw [Option.eq_none_iff_forall_ne_some]
    constructor
    · intro h i name hlast hstands
      apply h (String.ofList name)
      apply (MnemonicSet.calleeIn?_iff_places hs).mpr
      exact ⟨i, by rwa [String.toList_ofList], hstands⟩
    · intro h target htarget
      obtain ⟨i, hlast, hstands⟩ := (MnemonicSet.calleeIn?_iff_places hs).mp htarget
      exact h i _ hlast hstands
  · rw [firstTarget?_congr hms]
    rfl

/-- A line with a mnemonic inside a longer one, a bracket that is not well formed behind a
well-formed one, and a mnemonic that comes too late. The shorter mnemonics may also be tried first,
and the plain branches alone find the call that the links do not. -/
theorem plain_branch_finds_last_bracket :
    (∃ i, LastBracket "\tb.w\t80 <b> ; <init> <x+4> bl <".toList i "init".toList ∧
      (MnemonicSet.ofPreset .tailCalls).StandsBefore "\tb.w\t80 <b> ; <init> <x+4> bl <".toList i) ∧
    (firstTarget? (["b", "bl", "b.w", "blx", "call", "callq"].map String.toList) false
      "\tb.w\t80 <b> ; <init> <x+4> bl <".toList).map String.ofList = some "init" ∧
    (MnemonicSet.ofPreset .linked).callee? "\tb.w\t80 <b> ; <init> <x+4> bl <".toList = none ∧
    MnemonicSet.callee? ⟨.ofList ["b", "b.w"]⟩ "\tb.w\t80 <b> ; <init> <x+4> bl <".toList =
      some "init" := by
  have hline : '\n' ∉ "\tb.w\t80 <b> ; <init> <x+4> bl <".toList := by decide +kernel
  have hcallee : (MnemonicSet.ofPreset .tailCalls).callee?
      "\tb.w\t80 <b> ; <init> <x+4> bl <".toList = some "init" := by
    decide +kernel
  have hlinked : (MnemonicSet.ofPreset .linked).callee?
      "\tb.w\t80 <b> ; <init> <x+4> bl <".toList = none := by
    decide +kernel
  obtain ⟨hplaces, -, horder, hunion⟩ := callee_told_by_places (.preset .tailCalls) hline
  have hboth := (hunion (.ofPreset .linked) ⟨.ofList ["b", "b.w"]⟩ (by
    simp [MnemonicSet.ofPreset, Preset.mnemonics, or_assoc])).1
  rw [hcallee, hlinked, Option.none_or] at hboth
  refine ⟨(hplaces _).mp hcallee, ?_, hlinked, hboth.symm⟩
  rw [← hcallee]
  apply horder
  have halternatives : (MnemonicSet.ofPreset .tailCalls).alternatives =
      ["callq", "call", "b.w", "blx", "bl", "b"].map String.toList := by
    decide +kernel
  intro m
  rw [halternatives]
  exact List.Perm.mem_iff (by decide +kernel)

end CodeReach
