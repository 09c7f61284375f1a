import CodeReach.Proofs.LineGrammar
import CodeReach.Proofs.Marks

namespace CodeReach.LinkMap

open Text

/-- Line `i` is the section line of the function `f`. -/
def NamesAt (lines : List (List Char)) (i : Nat) (f : String) : Prop :=
  ∃ line name, lines[i]? = some line ∧ SectionLine line name ∧ f = String.ofList name

/-- Line `j` is a size line that gives `p`. -/
def PlacesAt (lines : List (List Char)) (j : Nat) (p : Placement) : Prop :=
  ∃ line, lines[j]? = some line ∧ Places line p

/-- Line `j` completes the symbol `r`: it gives address and size, and the nearest line above that is
a section line or a size line is a section line with the name. -/
def CompletesAt (lines : List (List Char)) (j : Nat) (r : Symbol) : Prop :=
  PlacesAt lines j ⟨r.address, r.size⟩ ∧
  ∃ i, i < j ∧ NamesAt lines i r.name ∧
    ∀ k, i < k → k < j → (∀ f, ¬ NamesAt lines k f) ∧ ∀ p, ¬ PlacesAt lines k p

/-- What a line says about the name that awaits its placement from then on, if anything. -/
def told (line : List Char) : Option (Option String) :=
  match sectionName? line with
  | some name => some (some (String.ofList name))
  | none => (placement? line).map fun _ => none

/-- The name that awaits its placement after some lines. -/
def awaitingAfter (awaiting : Option String) (lines : List (List Char)) : Option String :=
  lines.foldl (fun a line => (readLine a line).1) awaiting

variable {ls : List (List Char)} {line : List Char} {j : Nat} {f : String} {r : Symbol}

theorem sectionName?_of_placement? {p : Placement} (h : placement? line = some p) :
    sectionName? line = none := by
  obtain ⟨address, size, hsize, -⟩ := placement?_eq_some_iff.mp h
  exact sectionName?_of_sizeLine hsize

theorem readLine_fst (awaiting : Option String) (line : List Char) :
    (readLine awaiting line).1 = (told line).getD awaiting := by
  unfold readLine told
  cases sectionName? line with
  | some name => rfl
  | none => cases awaiting <;> cases placement? line <;> rfl

theorem readLine_snd_eq_some_iff {awaiting : Option String} :
    (readLine awaiting line).2 = some r ↔
      awaiting = some r.name ∧ placement? line = some ⟨r.address, r.size⟩ := by
  constructor
  · intro h
    unfold readLine at h
    split at h
    · cases h
    · split at h
      · next hp =>
        cases h
        exact ⟨rfl, hp⟩
      · cases h
  · intro h
    obtain ⟨ha, hp⟩ := h
    simp [readLine, sectionName?_of_placement? hp, ha, hp]

theorem awaitingAfter_eq_some_iff : awaitingAfter none ls = some f ↔ LastMark told ls (some f) := by
  induction ls using List.reverseRecOn with
  | nil => simp [awaitingAfter, not_lastMark_nil]
  | append_singleton ls line ih =>
    have hstep : awaitingAfter none (ls ++ [line]) = (told line).getD (awaitingAfter none ls) := by
      rw [awaitingAfter, List.foldl_append, List.foldl_cons, List.foldl_nil, readLine_fst]
      rfl
    rw [hstep, lastMark_concat, ← ih]
    cases told line <;> simp

theorem scanFrom_getElem? (awaiting : Option String) (ls : List (List Char)) (j : Nat) :
    (scanFrom [] awaiting ls)[j]? =
      ls[j]?.map fun line => (readLine (awaitingAfter awaiting (ls.take j)) line).2 := by
  induction ls generalizing awaiting j with
  | nil => rfl
  | cons line rest ih =>
    rw [scanFrom_cons]
    cases j with
    | zero => rfl
    | succ j =>
      rw [List.getElem?_cons_succ, ih, List.getElem?_cons_succ]
      rfl

theorem scan_length (ls : List (List Char)) : (scan ls).length = ls.length := by
  have hgen : ∀ awaiting, (scanFrom [] awaiting ls).length = ls.length := by
    induction ls with
    | nil =>
      intro awaiting
      rfl
    | cons line rest ih =>
      intro awaiting
      rw [scanFrom_cons, List.length_cons, ih, List.length_cons]
  exact hgen none

theorem namesAt_iff {i : Nat} : NamesAt ls i f ↔ MarkedAt told ls i (some f) := by
  rw [markedAt_iff]
  constructor
  · intro h
    obtain ⟨line, name, hline, hname, rfl⟩ := h
    exact ⟨line, hline, by simp [told, sectionName?_eq_some_iff.mpr hname]⟩
  · intro h
    obtain ⟨line, hline, htold⟩ := h
    unfold told at htold
    split at htold
    · next name hname =>
      cases htold
      exact ⟨line, name, hline, sectionName?_eq_some_iff.mp hname, rfl⟩
    · obtain ⟨p, -, he⟩ := Option.map_eq_some_iff.mp htold
      cases he

theorem placesAt_iff {p : Placement} : PlacesAt ls j p ↔ MarkedAt placement? ls j p := by
  simp only [markedAt_iff, placement?_eq_some_iff, PlacesAt]

theorem markedAt_told_iff {k : Nat} :
    (∃ said, MarkedAt told ls k said) ↔ (∃ f, NamesAt ls k f) ∨ ∃ p, PlacesAt ls k p := by
  simp only [namesAt_iff, placesAt_iff]
  constructor
  · intro h
    obtain ⟨said, hsaid⟩ := h
    cases said with
    | some f => exact .inl ⟨f, hsaid⟩
    | none =>
      obtain ⟨line, hline, htold⟩ := markedAt_iff.mp hsaid
      unfold told at htold
      split at htold
      · cases htold
      · obtain ⟨p, hp, -⟩ := Option.map_eq_some_iff.mp htold
        exact .inr ⟨p, markedAt_iff.mpr ⟨line, hline, hp⟩⟩
  · intro h
    rcases h with ⟨f, hf⟩ | ⟨p, hp⟩
    · exact ⟨some f, hf⟩
    · obtain ⟨line, hline, hp⟩ := markedAt_iff.mp hp
      exact ⟨none, markedAt_iff.mpr
        ⟨line, hline, by simp [told, sectionName?_of_placement? hp, hp]⟩⟩

/-- The scanner gives a symbol at exactly the lines that complete it. -/
theorem scan_getElem?_eq_some_iff : (scan ls)[j]? = some (some r) ↔ CompletesAt ls j r := by
  have hbetween : ∀ k, (∀ said, ¬ MarkedAt told ls k said) ↔
      (∀ f, ¬ NamesAt ls k f) ∧ ∀ p, ¬ PlacesAt ls k p := by
    intro k
    rw [← not_exists, markedAt_told_iff, not_or, not_exists, not_exists]
  have hawaits : awaitingAfter none (ls.take j) = some r.name ↔
      ∃ i, i < j ∧ NamesAt ls i r.name ∧
        ∀ k, i < k → k < j → (∀ f, ¬ NamesAt ls k f) ∧ ∀ p, ¬ PlacesAt ls k p := by
    simp only [awaitingAfter_eq_some_iff, lastMark_take, hbetween, namesAt_iff]
  rw [scan, scanFrom_getElem?, Option.map_eq_some_iff]
  constructor
  · intro h
    obtain ⟨line, hline, hread⟩ := h
    obtain ⟨ha, hp⟩ := readLine_snd_eq_some_iff.mp hread
    exact ⟨placesAt_iff.mpr (markedAt_iff.mpr ⟨line, hline, hp⟩), hawaits.mp ha⟩
  · intro h
    obtain ⟨hplaces, hnames⟩ := h
    obtain ⟨line, hline, hp⟩ := markedAt_iff.mp (placesAt_iff.mp hplaces)
    exact ⟨line, hline, readLine_snd_eq_some_iff.mpr ⟨hawaits.mpr hnames, hp⟩⟩

/-- The symbol with the name `f`, if this place of a scan gives one. -/
def named (f : String) (found : Option Symbol) : Option Symbol := found.filter fun r => r.name = f

theorem get?_ofList_eq_some_iff {found : List (Option Symbol)} :
    (SymbolTable.ofList (found.filterMap id)).get? f = some r ↔ LastMark (named f) found r := by
  induction found using List.reverseRecOn with
  | nil =>
    simp only [not_lastMark_nil, iff_false]
    intro h
    cases h
  | append_singleton found o ih =>
    rw [lastMark_concat, ← ih, List.filterMap_append]
    cases o with
    | none => simp [named]
    | some x =>
      change (SymbolTable.ofList (found.filterMap id ++ [x])).get? f = some r ↔ _
      rw [SymbolTable.get?_ofList_concat]
      by_cases hx : f = x.name
      · have hmark : named f (some x) = some x := by simp [named, hx]
        rw [if_pos hx, hmark]
        simp
      · have hmark : named f (some x) = none := by simp [named, Ne.symm hx]
        rw [if_neg hx, hmark]
        simp

/-- Of the lines that complete a symbol with the name `f`, the last one completes `r`. -/
def CompletedLast (lines : List (List Char)) (f : String) (r : Symbol) : Prop :=
  ∃ j, CompletesAt lines j r ∧ r.name = f ∧
    ∀ k, j < k → ∀ r', CompletesAt lines k r' → r'.name ≠ f

theorem symbolTable_get?_eq_some_iff {text : String} :
    (symbolTable text).get? f = some r ↔ CompletedLast (lines text.toList) f r := by
  have hplace : ∀ j r, MarkedAt (named f) (scan (lines text.toList)) j r ↔
      CompletesAt (lines text.toList) j r ∧ r.name = f := by
    intro j r
    rw [markedAt_iff, ← scan_getElem?_eq_some_iff]
    simp [named, Option.filter_eq_some_iff]
  rw [symbolTable, symbols, get?_ofList_eq_some_iff]
  simp only [LastMark, CompletedLast, hplace, not_and, and_assoc]

/-- The scanner completes a symbol at exactly those lines that give a size to the section line above
them, the table of a text is the one that keeps the last of them under each name, and a line with a
number that is too large changes nothing. -/
theorem map_symbols_by_lines :
    (∀ lines : List (List Char), (scan lines).length = lines.length ∧
      ∀ j r, (scan lines)[j]? = some (some r) ↔ CompletesAt lines j r) ∧
    (∀ (text : String) (table : SymbolTable), table = symbolTable text ↔
      ∀ f r, table.get? f = some r ↔ CompletedLast (lines text.toList) f r) ∧
    (∀ (awaiting : Option String) (line address size : List Char), SizeLine line address size →
      2 ^ 64 ≤ Hex.value address ∨ 2 ^ 64 ≤ Hex.value size →
      readLine awaiting line = (awaiting, none)) := by
  refine ⟨?_, ?_, ?_⟩
  · intro lines
    exact ⟨scan_length lines, fun j r => scan_getElem?_eq_some_iff⟩
  · intro text table
    constructor
    · intro h f r
      rw [h]
      exact symbolTable_get?_eq_some_iff
    · intro h
      refine SymbolTable.ext_get? fun f => Option.ext fun r => ?_
      rw [h, symbolTable_get?_eq_some_iff]
  · intro awaiting line address size hline hlarge
    simp [readLine, sectionName?_of_sizeLine hline, placement?_of_large hline hlarge]

/-- A size of `2 ^ 64` leaves `main` waiting, and the next size line places it. -/
theorem large_size_leaves_name_waiting :
    SizeLine " 0x10 0x10000000000000000 a.o".toList "10".toList "10000000000000000".toList ∧
    2 ^ 64 ≤ Hex.value "10000000000000000".toList ∧
    readLine (some "main") " 0x10 0x10000000000000000 a.o".toList = (some "main", none) ∧
    CompletesAt
      (lines " .text.main\n 0x10 0x10000000000000000 a.o\n 0x20 0x0F a.o\n".toList) 2
      ⟨"main", 0x20, 15⟩ := by
  have hline : SizeLine " 0x10 0x10000000000000000 a.o".toList "10".toList
      "10000000000000000".toList := placementDigits?_eq_some_iff.mp (by decide)
  have hlarge : 2 ^ 64 ≤ Hex.value "10000000000000000".toList := by decide
  refine ⟨hline, hlarge, map_symbols_by_lines.2.2 _ _ _ _ hline (.inr hlarge), ?_⟩
  exact ((map_symbols_by_lines.1 _).2 2 _).mp (by decide)

end CodeReach.LinkMap
