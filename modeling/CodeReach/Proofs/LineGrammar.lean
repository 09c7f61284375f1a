import CodeReach.LinkMap
import Mathlib

namespace CodeReach

open Text

/-- `cs` is a run of `p`, as long as it gets, and what comes after it. -/
def Spans (p : Char → Bool) (cs run rest : List Char) : Prop :=
  cs = run ++ rest ∧ (∀ c ∈ run, p c = true) ∧ ∀ c ∈ rest.head?, p c = false

theorem spans_iff {p : Char → Bool} {cs run rest : List Char} :
    Spans p cs run rest ↔ cs.takeWhile p = run ∧ cs.dropWhile p = rest := by
  constructor
  · intro h
    obtain ⟨hcs, hrun, hrest⟩ := h
    rw [hcs, List.takeWhile_append_of_pos hrun, List.dropWhile_append_of_pos hrun]
    cases rest with
    | nil => simp
    | cons c rest =>
      have hc : p c = false := hrest c rfl
      simp [hc]
  · intro h
    obtain ⟨hrun, hrest⟩ := h
    subst hrun hrest
    refine ⟨List.takeWhile_append_dropWhile.symm, ?_, ?_⟩
    · exact List.all_eq_true.mp List.all_takeWhile
    · intro c hc
      have hnot := List.head?_dropWhile_not p cs
      rw [Option.mem_def.mp hc] at hnot
      simpa using hnot

theorem spans_takeWhile (p : Char → Bool) (cs : List Char) :
    Spans p cs (cs.takeWhile p) (cs.dropWhile p) :=
  spans_iff.mpr ⟨rfl, rfl⟩

theorem skipBlanks_eq {blanks body : List Char} (hblanks : ∀ c ∈ blanks, isBlank c = true)
    (hbody : ∀ c ∈ body.head?, isBlank c = false) : skipBlanks (blanks ++ body) = body :=
  (spans_iff.mp ⟨rfl, hblanks, hbody⟩).2

/-- What a text is before its blanks are skipped. -/
theorem exists_blanks (cs : List Char) :
    ∃ blanks, cs = blanks ++ skipBlanks cs ∧ ∀ c ∈ blanks, isBlank c = true := by
  obtain ⟨hcs, hblanks, -⟩ := spans_takeWhile isBlank cs
  exact ⟨_, hcs, hblanks⟩

theorem isBlank_eq_false_of_isDigit {c : Char} (h : Hex.isDigit c = true) : isBlank c = false := by
  have hrange : (48 ≤ c.toNat ∧ c.toNat ≤ 57) ∨ (97 ≤ c.toNat ∧ c.toNat ≤ 102) ∨
      (65 ≤ c.toNat ∧ c.toNat ≤ 70) := by
    simp only [Hex.isDigit, Bool.or_eq_true, Bool.and_eq_true, decide_eq_true_eq, or_assoc] at h
    exact h
  simp only [isBlank, blankRanges, inRanges]
  grind

theorem isDigit_eq_false_of_isBlank {c : Char} (h : isBlank c = true) : Hex.isDigit c = false := by
  cases hd : Hex.isDigit c with
  | false => rfl
  | true =>
    rw [isBlank_eq_false_of_isDigit hd] at h
    cases h

/-- A numeral stays within a line. -/
theorem lineFeed_not_mem_of_isDigit {digits : List Char}
    (h : ∀ c ∈ digits, Hex.isDigit c = true) : '\n' ∉ digits := by
  intro hmem
  have hblank := isBlank_eq_false_of_isDigit (h _ hmem)
  cases hblank

namespace LinkMap

variable {line name address size digits cs rest : List Char}

theorem dropStart?_eq_some_iff {start : List Char} :
    dropStart? start cs = some rest ↔ cs = start ++ rest := by
  unfold dropStart?
  constructor
  · intro h
    split at h
    · next hp =>
      obtain ⟨tail, htail⟩ := List.isPrefixOf_iff_prefix.mp hp
      rw [← htail, List.drop_left, Option.some.injEq] at h
      rw [← htail, h]
    · cases h
  · intro h
    have hp : start.isPrefixOf cs = true := by simp [h]
    rw [if_pos hp, h, List.drop_left]

/-- Blanks, the section's start, the name of a function, and then a blank or nothing. -/
def SectionLine (line name : List Char) : Prop :=
  ∃ blanks rest, line = blanks ++ (sectionStart ++ (name ++ rest)) ∧
    (∀ c ∈ blanks, isBlank c = true) ∧ name ≠ [] ∧ (∀ c ∈ name, isBlank c = false) ∧
    ∀ c ∈ rest.head?, isBlank c = true

theorem skipBlanks_of_sectionStart {blanks : List Char} (h : ∀ c ∈ blanks, isBlank c = true)
    (body : List Char) :
    skipBlanks (blanks ++ (sectionStart ++ body)) = sectionStart ++ body := by
  apply skipBlanks_eq h
  intro c hc
  cases hc
  decide

theorem sectionName?_eq_some_iff : sectionName? line = some name ↔ SectionLine line name := by
  constructor
  · intro h
    unfold sectionName? at h
    split at h
    · cases h
    · next body hbody =>
      obtain ⟨blanks, hline, hblanks⟩ := exists_blanks line
      obtain ⟨hspan, hrun, hstop⟩ := spans_takeWhile (fun c => !isBlank c) body
      rw [dropStart?_eq_some_iff.mp hbody] at hline
      dsimp only at h
      split at h
      · cases h
      · next hne =>
        cases h
        refine ⟨blanks, _, hspan ▸ hline, hblanks, by simpa using hne, ?_, ?_⟩
        · intro c hc
          simpa using hrun c hc
        · intro c hc
          simpa using hstop c hc
  · intro h
    obtain ⟨blanks, rest, hline, hblanks, hne, hname, hrest⟩ := h
    have hbody : dropStart? sectionStart (skipBlanks line) = some (name ++ rest) := by
      rw [dropStart?_eq_some_iff, hline]
      exact skipBlanks_of_sectionStart hblanks _
    have hspan : (name ++ rest).takeWhile (fun c => !isBlank c) = name :=
      (spans_iff.mp ⟨rfl, by simpa using hname, by simpa using hrest⟩).1
    unfold sectionName?
    rw [hbody]
    simp [hspan, hne]

theorem numeral?_eq_some_iff :
    numeral? cs = some (digits, rest) ↔
      ∃ body, cs = hexStart ++ body ∧ Spans Hex.isDigit body digits rest ∧ digits ≠ [] := by
  unfold numeral?
  constructor
  · intro h
    split at h
    · cases h
    · next body hbody =>
      dsimp only at h
      split at h
      · cases h
      · next hne =>
        cases h
        exact ⟨body, dropStart?_eq_some_iff.mp hbody, spans_takeWhile _ _, by simpa using hne⟩
  · intro h
    obtain ⟨body, hcs, hspan, hne⟩ := h
    obtain ⟨hdigits, hrest⟩ := spans_iff.mp hspan
    rw [dropStart?_eq_some_iff.mpr hcs]
    simp [hdigits, hrest, hne]

/-- Blanks, a numeral for the address, blanks, and a numeral for the size that goes on for as long
as there are digits. -/
def SizeLine (line address size : List Char) : Prop :=
  ∃ blanks gap rest,
    line = blanks ++ (hexStart ++ (address ++ (gap ++ (hexStart ++ (size ++ rest))))) ∧
    (∀ c ∈ blanks, isBlank c = true) ∧
    address ≠ [] ∧ (∀ c ∈ address, Hex.isDigit c = true) ∧
    gap ≠ [] ∧ (∀ c ∈ gap, isBlank c = true) ∧
    size ≠ [] ∧ (∀ c ∈ size, Hex.isDigit c = true) ∧
    ∀ c ∈ rest.head?, Hex.isDigit c = false

theorem skipBlanks_of_hexStart {blanks : List Char} (h : ∀ c ∈ blanks, isBlank c = true)
    (body : List Char) : skipBlanks (blanks ++ (hexStart ++ body)) = hexStart ++ body := by
  apply skipBlanks_eq h
  intro c hc
  cases hc
  decide

theorem placementDigits?_eq_some_iff :
    placementDigits? line = some (address, size) ↔ SizeLine line address size := by
  constructor
  · intro h
    unfold placementDigits? at h
    split at h
    · cases h
    · next digits after hfirst =>
      split at h
      · next hgap =>
        obtain ⟨⟨digits', tail⟩, hsecond, he⟩ := Option.map_eq_some_iff.mp h
        cases he
        obtain ⟨body, hbody, ⟨hspan, haddr, -⟩, hne⟩ := numeral?_eq_some_iff.mp hfirst
        obtain ⟨body', hbody', ⟨hspan', hsize, hstop⟩, hne'⟩ := numeral?_eq_some_iff.mp hsecond
        obtain ⟨blanks, hline, hblanks⟩ := exists_blanks line
        obtain ⟨gap, hafter, hgaps⟩ := exists_blanks after
        refine ⟨blanks, gap, tail, ?_, hblanks, hne, haddr, ?_, hgaps, hne', hsize, hstop⟩
        · rw [← hspan', ← hbody', ← hafter, ← hspan, ← hbody]
          exact hline
        · -- The address is followed by a blank, and what the blanks are followed by is none.
          intro hnil
          rw [hnil, List.nil_append, hbody'] at hafter
          rw [hafter] at hgap
          have hzero : isBlank '0' = true := hgap
          exact absurd hzero (by decide)
      · cases h
  · intro h
    obtain ⟨blanks, gap, rest, hline, hblanks, hne, haddr, hgap, hgaps, hne', hsize, hstop⟩ := h
    obtain ⟨g, gs, rfl⟩ := List.exists_cons_of_ne_nil hgap
    have hg : isBlank g = true := hgaps g List.mem_cons_self
    have hfirst : numeral? (skipBlanks line) =
        some (address, g :: gs ++ (hexStart ++ (size ++ rest))) := by
      rw [numeral?_eq_some_iff, hline, skipBlanks_of_hexStart hblanks]
      refine ⟨_, rfl, ⟨rfl, haddr, ?_⟩, hne⟩
      intro c hc
      cases hc
      exact isDigit_eq_false_of_isBlank hg
    have hsecond : numeral? (skipBlanks (g :: gs ++ (hexStart ++ (size ++ rest)))) =
        some (size, rest) := by
      rw [numeral?_eq_some_iff, skipBlanks_of_hexStart hgaps]
      exact ⟨_, rfl, ⟨rfl, hsize, hstop⟩, hne'⟩
    unfold placementDigits?
    rw [hfirst]
    dsimp only
    rw [hsecond]
    simp [hg]

/-- No line names a function and gives a size, so it does not matter which is looked for first. -/
theorem not_sizeLine_of_sectionLine (h : SectionLine line name) : ¬ SizeLine line address size := by
  intro hs
  obtain ⟨blanks, rest, hline, hblanks, -⟩ := h
  obtain ⟨blanks', gap, rest', hline', hblanks', -⟩ := hs
  have hdot := skipBlanks_of_sectionStart hblanks (name ++ rest)
  have hzero := skipBlanks_of_hexStart hblanks' (address ++ (gap ++ (hexStart ++ (size ++ rest'))))
  rw [← hline] at hdot
  rw [← hline', hdot] at hzero
  cases hzero

theorem sectionName?_of_sizeLine (h : SizeLine line address size) : sectionName? line = none := by
  apply Option.eq_none_iff_forall_ne_some.mpr
  intro name hname
  exact not_sizeLine_of_sectionLine (sectionName?_eq_some_iff.mp hname) h

theorem word?_eq_some_iff {w : UInt64} :
    Hex.word? digits = some w ↔ Hex.value digits < 2 ^ 64 ∧ w.toNat = Hex.value digits := by
  unfold Hex.word?
  constructor
  · intro h
    split at h
    · next hlt =>
      cases h
      exact ⟨hlt, by rw [UInt64.toNat_ofNat', Nat.mod_eq_of_lt hlt]⟩
    · cases h
  · intro h
    obtain ⟨hlt, hw⟩ := h
    have hlt' : Hex.value digits < UInt64.size := hlt
    rw [if_pos hlt', ← hw, UInt64.ofNat_toNat]

/-- A size line whose numerals are both below `2 ^ 64` says where a function is and how large. -/
def Places (line : List Char) (p : Placement) : Prop :=
  ∃ address size, SizeLine line address size ∧
    Hex.value address < 2 ^ 64 ∧ Hex.value size < 2 ^ 64 ∧
    p.address.toNat = Hex.value address ∧ p.size.toNat = Hex.value size

theorem placement?_eq_some_iff {p : Placement} : placement? line = some p ↔ Places line p := by
  unfold placement?
  constructor
  · intro h
    split at h
    · cases h
    · next address size hdigits =>
      split at h
      · next a s ha hs =>
        cases h
        obtain ⟨hlt, haddr⟩ := word?_eq_some_iff.mp ha
        obtain ⟨hlt', hsize⟩ := word?_eq_some_iff.mp hs
        exact ⟨address, size, placementDigits?_eq_some_iff.mp hdigits, hlt, hlt', haddr, hsize⟩
      · cases h
  · intro h
    obtain ⟨address, size, hline, hlt, hlt', haddr, hsize⟩ := h
    rw [placementDigits?_eq_some_iff.mpr hline]
    dsimp only
    rw [word?_eq_some_iff.mpr ⟨hlt, haddr⟩, word?_eq_some_iff.mpr ⟨hlt', hsize⟩]

/-- A size line with a numeral that 64 bits do not hold places nothing. -/
theorem placement?_of_large (h : SizeLine line address size)
    (hlarge : 2 ^ 64 ≤ Hex.value address ∨ 2 ^ 64 ≤ Hex.value size) : placement? line = none := by
  apply Option.eq_none_iff_forall_ne_some.mpr
  intro p hp
  obtain ⟨address', size', hline, hlt, hlt', -⟩ := placement?_eq_some_iff.mp hp
  -- The numerals of a line are the ones that the reader finds, so there is only one pair of them.
  have hsame := (placementDigits?_eq_some_iff.mpr h).symm.trans
    (placementDigits?_eq_some_iff.mpr hline)
  cases hsame
  omega

end LinkMap

end CodeReach
