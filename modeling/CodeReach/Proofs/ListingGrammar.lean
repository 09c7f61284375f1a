import CodeReach.Listing
import CodeReach.Proofs.CallTargets
import CodeReach.Proofs.LineGrammar

namespace CodeReach

open Text

namespace Listing

variable {line name : List Char}

/-- Blanks, an address, one space, the name of a function in brackets, a colon, and anything. -/
def BlockLine (line name : List Char) : Prop :=
  ∃ blanks address rest,
    line = blanks ++ (address ++ ' ' :: '<' :: (name ++ '>' :: ':' :: rest)) ∧
    (∀ c ∈ blanks, isBlank c = true) ∧
    address ≠ [] ∧ (∀ c ∈ address, Hex.isDigit c = true) ∧
    name ≠ [] ∧ ∀ c ∈ name, isNameChar c = true

/-- Where the blanks of a line end, its address is found and what follows it. -/
theorem spans_address {blanks address rest : List Char} (hblanks : ∀ c ∈ blanks, isBlank c = true)
    (hne : address ≠ []) (haddress : ∀ c ∈ address, Hex.isDigit c = true)
    (hrest : ∀ c ∈ rest.head?, Hex.isDigit c = false) :
    Spans Hex.isDigit (skipBlanks (blanks ++ (address ++ rest))) address rest := by
  rw [skipBlanks_eq hblanks]
  · exact ⟨rfl, haddress, hrest⟩
  · obtain ⟨d, ds, rfl⟩ := List.exists_cons_of_ne_nil hne
    intro c hc
    cases hc
    exact isBlank_eq_false_of_isDigit (haddress d List.mem_cons_self)

theorem blockName?_eq_some_iff : blockName? line = some name ↔ BlockLine line name := by
  constructor
  · intro h
    unfold blockName? at h
    dsimp only at h
    split at h
    · cases h
    · next hne =>
      split at h
      · next rest hafter =>
        split at h
        · next c cs after htake hdrop =>
          cases h
          obtain ⟨blanks, hline, hblanks⟩ := exists_blanks line
          obtain ⟨hspan, haddress, -⟩ := spans_takeWhile Hex.isDigit (skipBlanks line)
          obtain ⟨hspan', hname, -⟩ := spans_takeWhile isNameChar rest
          rw [htake] at hspan' hname
          rw [hdrop] at hspan'
          rw [hafter] at hspan
          refine ⟨blanks, _, after, ?_, hblanks, by simpa using hne, haddress, by simp, hname⟩
          rw [← hspan', ← hspan]
          exact hline
        · cases h
      · cases h
  · rintro ⟨blanks, address, rest, rfl, hblanks, hne, haddress, hname, hchars⟩
    have hspace : ∀ c ∈ (' ' :: '<' :: (name ++ '>' :: ':' :: rest)).head?,
        Hex.isDigit c = false := by
      simp [Hex.isDigit]
    obtain ⟨htake, hdrop⟩ := spans_iff.mp (spans_address hblanks hne haddress hspace)
    have hspan : Spans isNameChar (name ++ '>' :: ':' :: rest) name ('>' :: ':' :: rest) :=
      ⟨rfl, hchars, by simp [isNameChar, isWord]⟩
    obtain ⟨htake', hdrop'⟩ := spans_iff.mp hspan
    obtain ⟨c, cs, rfl⟩ := List.exists_cons_of_ne_nil hname
    unfold blockName?
    dsimp only
    rw [htake, hdrop, if_neg (by simpa using hne)]
    split
    · next heq =>
      obtain rfl := (List.cons.inj (List.cons.inj heq).2).2
      rw [htake', hdrop']
      rfl
    · next hno => exact absurd rfl (hno _)

/-- An address with anything but a space after it makes no block line. -/
theorem blockName?_eq_none {blanks address rest : List Char} {c : Char}
    (hblanks : ∀ c ∈ blanks, isBlank c = true) (hne : address ≠ [])
    (haddress : ∀ c ∈ address, Hex.isDigit c = true) (hdigit : Hex.isDigit c = false)
    (hspace : c ≠ ' ') : blockName? (blanks ++ (address ++ c :: rest)) = none := by
  have hrest : ∀ d ∈ (c :: rest).head?, Hex.isDigit d = false := by
    simpa using hdigit
  obtain ⟨-, hdrop⟩ := spans_iff.mp (spans_address hblanks hne haddress hrest)
  unfold blockName?
  dsimp only
  rw [hdrop]
  split
  · rfl
  · split
    · next heq =>
      exact absurd (List.cons.inj heq).1 hspace
    · rfl

end Listing

variable {ms : List (List Char)} {left : Bool} {cs name : List Char}

/-- Whether a text ends with a word character; an empty one goes by what stands before it. -/
def endsWord (left : Bool) (cs : List Char) : Bool := (cs.getLast?.map isWord).getD left

theorem endsWord_cons (left : Bool) (c : Char) (cs : List Char) :
    endsWord left (c :: cs) = endsWord (isWord c) cs := by
  cases cs with
  | nil => rfl
  | cons d cs => simp [endsWord, List.getLast?_cons]

/-- Between `before` and `after`, `m` has a word boundary at both ends; `left` tells whether a word
character stands in front of it all. -/
def StandsBetween (left : Bool) (before m after : List Char) : Prop :=
  endsWord left before ≠ startsWord (m ++ after) ∧ (m.getLast?.any isWord) ≠ startsWord after

theorem standsBetween_cons {c : Char} {before m after : List Char} :
    StandsBetween left (c :: before) m after ↔ StandsBetween (isWord c) before m after := by
  rw [StandsBetween, StandsBetween, endsWord_cons]

theorem standsAtStart_append {m after : List Char} :
    standsAtStart m left (m ++ after) = true ↔ StandsBetween left [] m after := by
  simp [standsAtStart, StandsBetween, endsWord]

/-- A text has a target if and only if one of the mnemonics stands in it and a bracketed name comes
after the mnemonic; then it is the last such name. -/
theorem firstTarget?_eq_some_iff : firstTarget? ms left cs = some name ↔
    ∃ before m after, cs = before ++ (m ++ after) ∧ m ∈ ms ∧ StandsBetween left before m after ∧
      lastName? after = some name := by
  constructor
  · intro h
    induction cs generalizing left with
    | nil => cases h
    | cons c cs ih =>
      rw [firstTarget?] at h
      split at h
      · next n hn =>
        obtain ⟨m, hm, hstands, hlast⟩ := targetAtStart?_exists hn
        obtain ⟨after, hafter⟩ : m <+: c :: cs := by
          simp only [standsAtStart, Bool.and_eq_true] at hstands
          exact List.isPrefixOf_iff_prefix.mp hstands.1.1
        rw [← hafter] at hstands hlast
        rw [List.drop_left] at hlast
        exact ⟨[], m, after, hafter.symm, hm, standsAtStart_append.mp hstands, hlast.trans h⟩
      · obtain ⟨before, m, after, hcs, hm, hstands, hlast⟩ := ih h
        refine ⟨c :: before, m, after, ?_, hm, standsBetween_cons.mpr hstands, hlast⟩
        rw [hcs, List.cons_append]
  · rintro ⟨before, m, after, rfl, hm, hstands, hlast⟩
    induction before generalizing left with
    | nil =>
      have htarget : targetAtStart? ms left (m ++ after) = some name := by
        apply targetAtStart?_of_stands hm (standsAtStart_append.mpr hstands)
        rw [List.drop_left]
        exact hlast
      rw [List.nil_append]
      cases hcs : m ++ after with
      | nil =>
        rw [(List.append_eq_nil_iff.mp hcs).2] at hlast
        cases hlast
      | cons c cs => rw [firstTarget?, ← hcs, htarget]
    | cons c before ih =>
      have hrest := ih (standsBetween_cons.mp hstands)
      rw [List.cons_append, firstTarget?]
      split
      · next n hn =>
        -- Another mnemonic further to the left finds the same name.
        have hfirst := lastName?_of_targetAtStart? hn
        have hsecond := lastName?_cons c (lastName?_of_firstTarget? hrest)
        exact hfirst.symm.trans hsecond
      · exact hrest

theorem lastName?_eq_none (h : '<' ∉ cs) : lastName? cs = none := by
  induction cs with
  | nil => rfl
  | cons c cs ih =>
    rw [List.mem_cons, not_or] at h
    simp [lastName?, ih h.2, Ne.symm h.1]

theorem closedName?_eq_some_iff : closedName? cs = some name ↔
    ∃ rest, cs = name ++ '>' :: rest ∧ name ≠ [] ∧ ∀ c ∈ name, isNameChar c = true := by
  unfold closedName?
  constructor
  · intro h
    split at h
    · next c cs' rest htake hdrop =>
      cases h
      obtain ⟨hspan, hname, -⟩ := spans_takeWhile isNameChar cs
      rw [htake] at hspan hname
      rw [hdrop] at hspan
      exact ⟨rest, hspan, by simp, hname⟩
    · cases h
  · rintro ⟨rest, rfl, hne, hname⟩
    have hspan : Spans isNameChar (name ++ '>' :: rest) name ('>' :: rest) :=
      ⟨rfl, hname, by simp [isNameChar, isWord]⟩
    obtain ⟨htake, hdrop⟩ := spans_iff.mp hspan
    obtain ⟨c, cs, rfl⟩ := List.exists_cons_of_ne_nil hne
    rw [htake, hdrop]
    rfl

/-- A bracketed name at the end of a text is its last. -/
theorem lastName?_bracket (front : List Char) (hne : name ≠ [])
    (hname : ∀ c ∈ name, isNameChar c = true) :
    lastName? (front ++ '<' :: (name ++ ['>'])) = some name := by
  have hclosed : closedName? (name ++ ['>']) = some name :=
    closedName?_eq_some_iff.mpr ⟨[], rfl, hne, hname⟩
  have hopen : '<' ∉ name ++ ['>'] := by
    intro h
    rcases List.mem_append.mp h with h | h
    · have hchar := hname _ h
      cases hchar
    · simp at h
  have hend : lastName? ('<' :: (name ++ ['>'])) = some name := by
    simp [lastName?, lastName?_eq_none hopen, hclosed]
  apply lastName?_of_drop (n := front.length)
  rw [List.drop_left]
  exact hend

theorem MnemonicSet.calleeIn?_eq_some_iff {s : MnemonicSet} {target : String} :
    s.calleeIn? cs = some target ↔
      ∃ before m after, cs = before ++ (m.toList ++ after) ∧ m ∈ s.names ∧
        StandsBetween false before m.toList after ∧ lastName? after = some target.toList := by
  have htarget : s.calleeIn? cs = some target ↔
      firstTarget? s.alternatives false cs = some target.toList := by
    rw [calleeIn?, Option.map_eq_some_iff]
    constructor
    · rintro ⟨name, hname, rfl⟩
      rw [hname, String.toList_ofList]
    · intro h
      exact ⟨_, h, String.ofList_toList⟩
  rw [htarget, firstTarget?_eq_some_iff]
  constructor
  · rintro ⟨before, m, after, hcs, hm, hrest⟩
    obtain ⟨name, hname, rfl⟩ := mem_alternatives.mp hm
    exact ⟨before, name, after, hcs, hname, hrest⟩
  · rintro ⟨before, m, after, hcs, hm, hrest⟩
    exact ⟨before, m.toList, after, hcs, mem_alternatives.mpr ⟨m, hm, rfl⟩, hrest⟩

end CodeReach
