import CodeReach.Proofs.ListingGrammar
import CodeReach.Proofs.ListingGraph

namespace CodeReach

open Text

variable {line bs front rest name : List Char}

/-- Whatever ends in a character that is no blank ends before the blanks at the end of a line. -/
theorem cut_blanks (hbs : ∀ c ∈ bs, isBlank c = true)
    (hfront : ∃ c ∈ front.getLast?, isBlank c = false) (h : line ++ bs = front ++ rest) :
    ∃ rest', rest = rest' ++ bs ∧ line = front ++ rest' := by
  rcases List.append_eq_append_iff.mp h with ⟨tail, hline, hrest⟩ | ⟨tail, hline, hrest⟩
  · cases tail with
    | nil => exact ⟨[], by simpa using hrest.symm, by simpa using hline.symm⟩
    | cons d tail =>
      -- The last character of `front` would be one of the blanks.
      obtain ⟨c, hc, hsolid⟩ := hfront
      rw [hline, List.getLast?_append_cons] at hc
      have hmem : c ∈ bs := by
        rw [hrest]
        exact List.mem_append_left _ (List.mem_of_getLast? hc)
      rw [hbs c hmem] at hsolid
      cases hsolid
  · exact ⟨tail, hrest, hline⟩

theorem head?_append_iff {p : Char → Prop} (hbs : ∀ c ∈ bs, p c) :
    (∀ c ∈ (rest ++ bs).head?, p c) ↔ ∀ c ∈ rest.head?, p c := by
  cases rest with
  | nil =>
    refine iff_of_true (fun c hc => hbs c ?_) (by simp)
    exact List.mem_of_mem_head? hc
  | cons c rest => simp

namespace LinkMap

theorem sectionName?_append (line : List Char) (hbs : ∀ c ∈ bs, isBlank c = true) :
    sectionName? (line ++ bs) = sectionName? line := by
  refine Option.ext fun name => ?_
  rw [sectionName?_eq_some_iff, sectionName?_eq_some_iff]
  constructor
  · rintro ⟨blanks, rest, hline, hblanks, hne, hname, hrest⟩
    have hcut : line ++ bs = (blanks ++ (sectionStart ++ name)) ++ rest := by simpa using hline
    have hlast : ∃ c ∈ (blanks ++ (sectionStart ++ name)).getLast?, isBlank c = false :=
      ⟨name.getLast hne, by simp [List.getLast?_append, List.getLast?_eq_some_getLast hne],
        hname _ (List.getLast_mem hne)⟩
    obtain ⟨rest', rfl, hline'⟩ := cut_blanks hbs hlast hcut
    exact ⟨blanks, rest', by simpa using hline', hblanks, hne, hname,
      (head?_append_iff hbs).mp hrest⟩
  · rintro ⟨blanks, rest, rfl, hblanks, hne, hname, hrest⟩
    exact ⟨blanks, rest ++ bs, by simp, hblanks, hne, hname, (head?_append_iff hbs).mpr hrest⟩

theorem placementDigits?_append (line : List Char) (hbs : ∀ c ∈ bs, isBlank c = true) :
    placementDigits? (line ++ bs) = placementDigits? line := by
  have hdigit : ∀ c ∈ bs, Hex.isDigit c = false :=
    fun c hc => isDigit_eq_false_of_isBlank (hbs c hc)
  refine Option.ext fun ⟨address, size⟩ => ?_
  rw [placementDigits?_eq_some_iff, placementDigits?_eq_some_iff]
  constructor
  · rintro ⟨blanks, gap, rest, hline, hblanks, hne, haddr, hgap, hgaps, hne', hsize, hrest⟩
    have hcut : line ++ bs =
        (blanks ++ (hexStart ++ (address ++ (gap ++ (hexStart ++ size))))) ++ rest := by
      simpa using hline
    have hlast : ∃ c ∈ (blanks ++ (hexStart ++ (address ++ (gap ++ (hexStart ++ size))))).getLast?,
        isBlank c = false :=
      ⟨size.getLast hne', by simp [List.getLast?_append, List.getLast?_eq_some_getLast hne'],
        isBlank_eq_false_of_isDigit (hsize _ (List.getLast_mem hne'))⟩
    obtain ⟨rest', rfl, hline'⟩ := cut_blanks hbs hlast hcut
    exact ⟨blanks, gap, rest', by simpa using hline', hblanks, hne, haddr, hgap, hgaps, hne', hsize,
      (head?_append_iff hdigit).mp hrest⟩
  · rintro ⟨blanks, gap, rest, rfl, hblanks, hne, haddr, hgap, hgaps, hne', hsize, hrest⟩
    exact ⟨blanks, gap, rest ++ bs, by simp, hblanks, hne, haddr, hgap, hgaps, hne', hsize,
      (head?_append_iff hdigit).mpr hrest⟩

theorem readLine_append (awaiting : Option String) (line : List Char)
    (hbs : ∀ c ∈ bs, isBlank c = true) :
    readLine awaiting (line ++ bs) = readLine awaiting line := by
  simp only [readLine, placement?, sectionName?_append line hbs, placementDigits?_append line hbs]

end LinkMap

theorem Listing.blockName?_append (line : List Char) (hbs : ∀ c ∈ bs, isBlank c = true) :
    blockName? (line ++ bs) = blockName? line := by
  refine Option.ext fun name => ?_
  rw [blockName?_eq_some_iff, blockName?_eq_some_iff]
  constructor
  · rintro ⟨blanks, address, rest, hline, hblanks, hpieces⟩
    have hcut : line ++ bs =
        (blanks ++ (address ++ ' ' :: '<' :: (name ++ ['>', ':']))) ++ rest := by
      simpa using hline
    have hlast : ∃ c ∈ (blanks ++ (address ++ ' ' :: '<' :: (name ++ ['>', ':']))).getLast?,
        isBlank c = false :=
      ⟨':', by simp [List.getLast?_append, List.getLast?_cons], by decide⟩
    obtain ⟨rest', rfl, hline'⟩ := cut_blanks hbs hlast hcut
    exact ⟨blanks, address, rest', by simpa using hline', hblanks, hpieces⟩
  · rintro ⟨blanks, address, rest, rfl, hblanks, hpieces⟩
    exact ⟨blanks, address, rest ++ bs, by simp, hblanks, hpieces⟩

theorem closedName?_append (cs : List Char) (hbs : ∀ c ∈ bs, isBlank c = true) :
    closedName? (cs ++ bs) = closedName? cs := by
  refine Option.ext fun name => ?_
  rw [closedName?_eq_some_iff, closedName?_eq_some_iff]
  constructor
  · rintro ⟨rest, hcs, hname⟩
    have hcut : cs ++ bs = (name ++ ['>']) ++ rest := by simpa using hcs
    have hlast : ∃ c ∈ (name ++ ['>']).getLast?, isBlank c = false := ⟨'>', by simp, by decide⟩
    obtain ⟨rest', -, hcs'⟩ := cut_blanks hbs hlast hcut
    exact ⟨rest', by simpa using hcs', hname⟩
  · rintro ⟨rest, rfl, hname⟩
    exact ⟨rest ++ bs, by simp, hname⟩

theorem lastName?_append (cs : List Char) (hbs : ∀ c ∈ bs, isBlank c = true) :
    lastName? (cs ++ bs) = lastName? cs := by
  induction cs with
  | nil =>
    refine lastName?_eq_none fun hmem => ?_
    have hopen : isBlank '<' = true := hbs _ hmem
    exact absurd hopen (by decide)
  | cons c cs ih => rw [List.cons_append, lastName?, ih, lastName?, closedName?_append cs hbs]

/-- A bracketed name is closed. -/
theorem mem_of_lastName? {cs : List Char} (h : lastName? cs = some name) : '>' ∈ cs := by
  induction cs with
  | nil => cases h
  | cons c cs ih =>
    rw [lastName?] at h
    split at h
    · next n hn => exact List.mem_cons_of_mem c (ih (hn.trans h))
    · split at h
      · obtain ⟨rest, rfl, -⟩ := closedName?_eq_some_iff.mp h
        simp
      · cases h

theorem standsBetween_append {left : Bool} {before m after : List Char} (hne : after ≠ [])
    (bs : List Char) :
    StandsBetween left before m (after ++ bs) ↔ StandsBetween left before m after := by
  obtain ⟨c, cs, rfl⟩ := List.exists_cons_of_ne_nil hne
  cases m <;> simp [StandsBetween, startsWord]

theorem MnemonicSet.calleeIn?_append (s : MnemonicSet) (line : List Char)
    (hbs : ∀ c ∈ bs, isBlank c = true) : s.calleeIn? (line ++ bs) = s.calleeIn? line := by
  refine Option.ext fun target => ?_
  rw [calleeIn?_eq_some_iff, calleeIn?_eq_some_iff]
  constructor
  · rintro ⟨before, m, after, hline, hm, hstands, hlast⟩
    obtain ⟨inner, rest, rfl⟩ := List.append_of_mem (mem_of_lastName? hlast)
    have hcut : line ++ bs = (before ++ (m.toList ++ (inner ++ ['>']))) ++ rest := by
      simpa using hline
    have hclose : ∃ c ∈ (before ++ (m.toList ++ (inner ++ ['>']))).getLast?, isBlank c = false :=
      ⟨'>', by simp [List.getLast?_append], by decide⟩
    obtain ⟨rest', rfl, hline'⟩ := cut_blanks hbs hclose hcut
    have hafter : inner ++ '>' :: (rest' ++ bs) = (inner ++ '>' :: rest') ++ bs := by simp
    rw [hafter] at hstands hlast
    rw [lastName?_append _ hbs] at hlast
    exact ⟨before, m, inner ++ '>' :: rest', by simpa using hline', hm,
      (standsBetween_append (by simp) bs).mp hstands, hlast⟩
  · rintro ⟨before, m, after, rfl, hm, hstands, hlast⟩
    have hne : after ≠ [] := List.ne_nil_of_mem (mem_of_lastName? hlast)
    refine ⟨before, m, after ++ bs, by simp, hm, (standsBetween_append hne bs).mpr hstands, ?_⟩
    rw [lastName?_append _ hbs]
    exact hlast

namespace Text

/-- The second text is the first with blanks put in before some of its line feeds, any number of
them at each. -/
inductive Padded : List Char → List Char → Prop
  | nil : Padded [] []
  | char (c : Char) {cs ds : List Char} (h : Padded cs ds) : Padded (c :: cs) (c :: ds)
  | blanks {bs cs ds : List Char} (hbs : ∀ c ∈ bs, isBlank c = true ∧ c ≠ '\n')
      (h : Padded cs ds) : Padded ('\n' :: cs) (bs ++ '\n' :: ds)

theorem Padded.refl (cs : List Char) : Padded cs cs := by
  induction cs with
  | nil => exact .nil
  | cons c cs ih => exact .char c ih

theorem Padded.atLineFeed {b cs ds : List Char} (line : List Char)
    (hb : ∀ c ∈ b, isBlank c = true ∧ c ≠ '\n') (h : Padded cs ds) :
    Padded (line ++ '\n' :: cs) (line ++ (b ++ '\n' :: ds)) := by
  induction line with
  | nil => exact .blanks hb h
  | cons c line ih => exact .char c ih

/-- Every line feed with a carriage return before it. -/
def withReturns (cs : List Char) : List Char :=
  cs.flatMap fun c => if c = '\n' then ['\r', '\n'] else [c]

theorem isBlank_return : isBlank '\r' = true := by decide

theorem padded_withReturns (cs : List Char) : Padded cs (withReturns cs) := by
  induction cs with
  | nil => exact .nil
  | cons c cs ih =>
    by_cases hc : c = '\n'
    · subst hc
      have hreturn : ∀ c ∈ ['\r'], isBlank c = true ∧ c ≠ '\n' := by simp [isBlank_return]
      exact .blanks hreturn ih
    · have hcons : withReturns (c :: cs) = c :: withReturns cs := by simp [withReturns, hc]
      rw [hcons]
      exact .char c ih

/-- The second line is the first with blanks after it. -/
def PaddedLine (line line' : List Char) : Prop :=
  '\n' ∉ line' ∧ ∃ bs, line' = line ++ bs ∧ ∀ c ∈ bs, isBlank c = true

theorem exists_return (line : List Char) :
    ∃ bs, line = dropReturn line ++ bs ∧ ∀ c ∈ bs, isBlank c = true := by
  unfold dropReturn
  split
  · next h =>
    refine ⟨['\r'], ?_, by simp [isBlank_return]⟩
    exact (List.dropLast_append_getLast? '\r' h).symm
  · exact ⟨[], by simp, by simp⟩

theorem paddedLine_dropReturn {piece bs : List Char} (hpiece : '\n' ∉ piece)
    (hbs : ∀ c ∈ bs, isBlank c = true ∧ c ≠ '\n') :
    PaddedLine (dropReturn piece) (dropReturn (piece ++ bs)) := by
  constructor
  · intro hmem
    rcases List.mem_append.mp (mem_of_mem_dropReturn hmem) with h | h
    · exact hpiece h
    · exact (hbs _ h).2 rfl
  · by_cases hnil : bs = []
    · exact ⟨[], by simp [hnil], by simp⟩
    · obtain ⟨tail, hline, htail⟩ := exists_return piece
      refine ⟨tail ++ dropReturn bs, ?_, ?_⟩
      · rw [dropReturn_append hnil, ← List.append_assoc, ← hline]
      · intro c hc
        rcases List.mem_append.mp hc with h | h
        · exact htail c h
        · exact (hbs c (mem_of_mem_dropReturn h)).1

/-- Blanks before line feeds end up at the ends of lines. `piece` is what stands before the texts in
the line that has been begun. -/
theorem Padded.lines_append {cs ds : List Char} (h : Padded cs ds) (piece : List Char)
    (hpiece : '\n' ∉ piece) :
    List.Forall₂ PaddedLine (lines (piece ++ cs)) (lines (piece ++ ds)) := by
  induction h generalizing piece with
  | nil =>
    refine List.forall₂_same.mpr fun line hline => ?_
    exact ⟨not_mem_of_mem_lines hline, [], by simp, by simp⟩
  | @char c cs ds _ ih =>
    by_cases hc : c = '\n'
    · subst hc
      rw [Text.lines_append hpiece, Text.lines_append hpiece]
      refine .cons ?_ (ih [] List.not_mem_nil)
      exact ⟨fun hm => hpiece (mem_of_mem_dropReturn hm), [], by simp, by simp⟩
    · have hnext := ih (piece ++ [c]) (by simp [hpiece, Ne.symm hc])
      simpa using hnext
  | @blanks bs cs ds hbs _ ih =>
    have hpadded : '\n' ∉ piece ++ bs := by
      intro hm
      rcases List.mem_append.mp hm with hm | hm
      · exact hpiece hm
      · exact (hbs _ hm).2 rfl
    rw [Text.lines_append hpiece, ← List.append_assoc, Text.lines_append hpadded]
    exact .cons (paddedLine_dropReturn hpiece hbs) (ih [] List.not_mem_nil)

theorem Padded.lines {cs ds : List Char} (h : Padded cs ds) :
    List.Forall₂ PaddedLine (lines cs) (lines ds) :=
  h.lines_append [] List.not_mem_nil

end Text

theorem LinkMap.scanFrom_padded {ls ls' : List (List Char)} (h : List.Forall₂ PaddedLine ls ls')
    (awaiting : Option String) : scanFrom [] awaiting ls' = scanFrom [] awaiting ls := by
  induction h generalizing awaiting with
  | nil => rfl
  | cons hline _ ih =>
    obtain ⟨-, bs, rfl, hbs⟩ := hline
    rw [scanFrom_cons, scanFrom_cons, readLine_append awaiting _ hbs, ih]

theorem Listing.mentions_padded {ls ls' : List (List Char)} (s : MnemonicSet)
    (h : List.Forall₂ PaddedLine ls ls') (current : Option String) :
    mentions s current ls' = mentions s current ls := by
  induction h generalizing current with
  | nil => rfl
  | @cons line _ _ _ hline _ ih =>
    obtain ⟨hfeed, bs, rfl, hbs⟩ := hline
    have hcallee : s.callee? (line ++ bs) = s.callee? line := by
      have hfeed' : '\n' ∉ line := fun hm => hfeed (List.mem_append_left _ hm)
      rw [MnemonicSet.callee?_of_not_mem hfeed, MnemonicSet.callee?_of_not_mem hfeed',
        s.calleeIn?_append line hbs]
    simp only [mentions, blockName?_append line hbs, hcallee, ih]

theorem LinkMap.symbolTable_padded {text text' : String} (h : Padded text.toList text'.toList) :
    symbolTable text' = symbolTable text := by
  rw [symbolTable, symbols, scan, scanFrom_padded h.lines none]
  rfl

theorem Listing.callGraph_padded {text text' : String} (s : MnemonicSet)
    (h : Padded text.toList text'.toList) : callGraph s text' = callGraph s text := by
  rw [callGraph_eq_ofMentions, mentions_padded s h.lines none, callGraph_eq_ofMentions]

/-- Blanks put in before line feeds change neither what is read from a map nor what is read from a
listing, whatever the mnemonics are. So a text with carriage returns before all its line feeds,
beside those that are there already, says the same as without them. -/
theorem trailing_blanks_are_immaterial :
    (∀ text text' : String, Padded text.toList text'.toList →
      LinkMap.symbolTable text' = LinkMap.symbolTable text ∧
      ∀ s, Listing.callGraph s text' = Listing.callGraph s text) ∧
    ∀ text : String,
      LinkMap.symbolTable (String.ofList (withReturns text.toList)) = LinkMap.symbolTable text ∧
      ∀ s, Listing.callGraph s (String.ofList (withReturns text.toList)) =
        Listing.callGraph s text := by
  have hpadded : ∀ text text' : String, Padded text.toList text'.toList →
      LinkMap.symbolTable text' = LinkMap.symbolTable text ∧
      ∀ s, Listing.callGraph s text' = Listing.callGraph s text :=
    fun text text' h => ⟨LinkMap.symbolTable_padded h, fun s => Listing.callGraph_padded s h⟩
  refine ⟨hpadded, fun text => hpadded _ _ ?_⟩
  rw [String.toList_ofList]
  exact padded_withReturns text.toList

/-- A carriage return is there already, blanks of three kinds and more carriage returns are put in,
and the last line has no line feed to put any before. -/
theorem padded_inputs_read_the_same :
    Padded " .text.main\r\n 0x10 0x20\n".toList " .text.main\r \r\r\n 0x10 0x20\t\n".toList ∧
    Padded "10 <main>:\n 12: bl 40 <init>\n bl".toList
      "10 <main>:\r\n 12: bl 40 <init>\u2003 \n bl".toList ∧
    (LinkMap.symbolTable " .text.main\r \r\r\n 0x10 0x20\t\n").get? "main" =
      some ⟨"main", 0x10, 0x20⟩ ∧
    ((Listing.callGraph .standard
      "10 <main>:\r\n 12: bl 40 <init>\u2003 \n bl").callees "main").toList = ["init"] := by
  have hmap : Padded " .text.main\r\n 0x10 0x20\n".toList
      " .text.main\r \r\r\n 0x10 0x20\t\n".toList :=
    .atLineFeed " .text.main\r".toList (b := [' ', '\r', '\r']) (by simp [isBlank, blankRanges, inRanges])
      (.atLineFeed " 0x10 0x20".toList (b := ['\t']) (by simp [isBlank, blankRanges, inRanges]) .nil)
  have hlisting : Padded "10 <main>:\n 12: bl 40 <init>\n bl".toList
      "10 <main>:\r\n 12: bl 40 <init>\u2003 \n bl".toList :=
    .atLineFeed "10 <main>:".toList (b := ['\r']) (by simp [isBlank, blankRanges, inRanges])
      (.atLineFeed " 12: bl 40 <init>".toList (b := ['\u2003', ' '])
        (by simp [isBlank, blankRanges, inRanges]) (.refl " bl".toList))
  refine ⟨hmap, hlisting, ?_, ?_⟩
  · rw [(trailing_blanks_are_immaterial.1 _ _ hmap).1]
    decide +kernel
  · rw [(trailing_blanks_are_immaterial.1 _ _ hlisting).2]
    decide +kernel

end CodeReach
