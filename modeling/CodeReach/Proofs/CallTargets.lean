import CodeReach.CallSite

namespace CodeReach

open Text

variable {ms ms' : List (List Char)} {left : Bool} {cs name : List Char}

theorem lastName?_cons (c : Char) (h : lastName? cs = some name) :
    lastName? (c :: cs) = some name := by
  simp [lastName?, h]

theorem lastName?_of_drop {n : Nat} (h : lastName? (cs.drop n) = some name) :
    lastName? cs = some name := by
  induction n generalizing cs with
  | zero => simpa using h
  | succ n ih =>
    cases cs with
    | nil => simpa using h
    | cons c cs => exact lastName?_cons c (ih (by simpa using h))

theorem targetAtStart?_exists (h : targetAtStart? ms left cs = some name) :
    ∃ m ∈ ms, standsAtStart m left cs = true ∧ lastName? (cs.drop m.length) = some name := by
  obtain ⟨m, hm, hname⟩ := List.exists_of_findSome?_eq_some h
  split at hname
  · next hstands => exact ⟨m, hm, hstands, hname⟩
  · cases hname

theorem lastName?_of_targetAtStart? (h : targetAtStart? ms left cs = some name) :
    lastName? cs = some name := by
  obtain ⟨m, -, -, hname⟩ := targetAtStart?_exists h
  exact lastName?_of_drop hname

/-- Another mnemonic may win the place, but the name it finds is the same. -/
theorem targetAtStart?_of_stands {m : List Char} (hm : m ∈ ms)
    (hstands : standsAtStart m left cs = true) (hname : lastName? (cs.drop m.length) = some name) :
    targetAtStart? ms left cs = some name := by
  have hsome : (targetAtStart? ms left cs).isSome = true := by
    rw [targetAtStart?, List.findSome?_isSome_iff]
    exact ⟨m, hm, by simp [hstands, hname]⟩
  obtain ⟨name', hname'⟩ := Option.isSome_iff_exists.mp hsome
  have hsame := (lastName?_of_drop hname).symm.trans (lastName?_of_targetAtStart? hname')
  rw [hname', ← hsame]

theorem targetAtStart?_mono (hsub : ∀ m ∈ ms, m ∈ ms')
    (h : targetAtStart? ms left cs = some name) : targetAtStart? ms' left cs = some name := by
  obtain ⟨m, hm, hstands, hname⟩ := targetAtStart?_exists h
  exact targetAtStart?_of_stands (hsub m hm) hstands hname

theorem lastName?_of_firstTarget? (h : firstTarget? ms left cs = some name) :
    lastName? cs = some name := by
  induction cs generalizing left with
  | nil => cases h
  | cons c cs ih =>
    rw [firstTarget?] at h
    split at h
    · next n hn =>
      rw [← h]
      exact lastName?_of_targetAtStart? hn
    · exact lastName?_cons c (ih h)

/-- With more mnemonics the leftmost place may move to the left; what it finds stays. -/
theorem firstTarget?_mono (hsub : ∀ m ∈ ms, m ∈ ms')
    (h : firstTarget? ms left cs = some name) : firstTarget? ms' left cs = some name := by
  induction cs generalizing left with
  | nil => cases h
  | cons c cs ih =>
    have hlast : lastName? (c :: cs) = some name := lastName?_of_firstTarget? h
    rw [firstTarget?]
    cases hnew : targetAtStart? ms' left (c :: cs) with
    | some name' =>
      have hsame := hlast.symm.trans (lastName?_of_targetAtStart? hnew)
      exact hsame.symm
    | none =>
      rw [firstTarget?] at h
      split at h
      · next n hn =>
        rw [targetAtStart?_mono hsub hn] at hnew
        cases hnew
      · exact ih h

theorem mem_insertByLength {m x : String} {ns : List String} :
    x ∈ insertByLength m ns ↔ x = m ∨ x ∈ ns := by
  induction ns with
  | nil => simp [insertByLength]
  | cons n ns ih =>
    rw [insertByLength]
    split
    · simp
    · simp only [List.mem_cons, ih]
      exact or_left_comm

theorem mem_foldr_insertByLength {x : String} {ns : List String} :
    x ∈ ns.foldr insertByLength [] ↔ x ∈ ns := by
  induction ns with
  | nil => simp
  | cons n ns ih => simp [mem_insertByLength, ih]

namespace MnemonicSet

variable {s s' : MnemonicSet}

theorem mem_alternatives {m : List Char} :
    m ∈ s.alternatives ↔ ∃ name ∈ s.names, name.toList = m := by
  simp [alternatives, mem_foldr_insertByLength]

theorem calleeIn?_mono {cs : List Char} {target : String} (hsub : ∀ m ∈ s.names, m ∈ s'.names)
    (h : s.calleeIn? cs = some target) : s'.calleeIn? cs = some target := by
  have halts : ∀ m ∈ s.alternatives, m ∈ s'.alternatives := by
    intro m hm
    obtain ⟨name, hname, e⟩ := mem_alternatives.mp hm
    exact mem_alternatives.mpr ⟨name, hsub name hname, e⟩
  obtain ⟨name, hname, e⟩ := Option.map_eq_some_iff.mp h
  rw [calleeIn?, firstTarget?_mono halts hname, Option.map_some, e]

theorem callee?_of_not_mem {line : List Char} (h : '\n' ∉ line) :
    s.callee? line = s.calleeIn? line := by
  simp [callee?, segments_of_not_mem h]

/-- On a single line a larger set keeps every call target. -/
theorem callee?_mono {line : List Char} {target : String} (hsub : ∀ m ∈ s.names, m ∈ s'.names)
    (hline : '\n' ∉ line) (h : s.callee? line = some target) : s'.callee? line = some target := by
  rw [callee?_of_not_mem hline] at h ⊢
  exact calleeIn?_mono hsub h

end MnemonicSet

end CodeReach
