import CodeReach.Proofs.ListingGrammar

namespace CodeReach

open Text

theorem Spans.unique {p : Char → Bool} {cs run rest run' rest' : List Char}
    (h : Spans p cs run rest) (h' : Spans p cs run' rest') : run = run' ∧ rest = rest' := by
  obtain ⟨htake, hdrop⟩ := spans_iff.mp h
  obtain ⟨htake', hdrop'⟩ := spans_iff.mp h'
  exact ⟨htake.symm.trans htake', hdrop.symm.trans hdrop'⟩

namespace LinkMap

/-- The pieces of a line that names a function. -/
@[ext] structure SectionPieces where
  blanks : List Char
  name : List Char
  rest : List Char
  isBlank_of_mem : ∀ c ∈ blanks, isBlank c = true
  name_ne_nil : name ≠ []
  name_solid : ∀ c ∈ name, isBlank c = false
  rest_apart : ∀ c ∈ rest.head?, isBlank c = true

namespace SectionPieces

def line (p : SectionPieces) : List Char := p.blanks ++ (".text.".toList ++ (p.name ++ p.rest))

theorem spans_blanks (p : SectionPieces) :
    Spans isBlank p.line p.blanks (".text.".toList ++ (p.name ++ p.rest)) := by
  refine ⟨rfl, p.isBlank_of_mem, fun c hc => ?_⟩
  cases hc
  decide

theorem spans_name (p : SectionPieces) :
    Spans (fun c => !isBlank c) (p.name ++ p.rest) p.name p.rest :=
  ⟨rfl, by simpa using p.name_solid, by simpa using p.rest_apart⟩

theorem line_injective : Function.Injective line := by
  intro p q h
  obtain ⟨hblanks, hbody⟩ := p.spans_blanks.unique (h ▸ q.spans_blanks)
  have hspans : Spans (fun c => !isBlank c) (p.name ++ p.rest) q.name q.rest := by
    rw [List.append_cancel_left hbody]
    exact q.spans_name
  obtain ⟨hname, hrest⟩ := p.spans_name.unique hspans
  exact SectionPieces.ext hblanks hname hrest

end SectionPieces

theorem sectionLine_iff_pieces {line name : List Char} :
    SectionLine line name ↔ ∃ p : SectionPieces, p.line = line ∧ p.name = name := by
  constructor
  · intro h
    obtain ⟨blanks, rest, hline, hblanks, hne, hname, hrest⟩ := h
    exact ⟨⟨blanks, name, rest, hblanks, hne, hname, hrest⟩, hline.symm, rfl⟩
  · intro h
    obtain ⟨p, rfl, rfl⟩ := h
    exact ⟨p.blanks, p.rest, rfl, p.isBlank_of_mem, p.name_ne_nil, p.name_solid, p.rest_apart⟩

/-- The pieces of a line that gives an address and a size. -/
@[ext] structure SizePieces where
  blanks : List Char
  address : List Char
  gap : List Char
  size : List Char
  rest : List Char
  isBlank_of_mem : ∀ c ∈ blanks, isBlank c = true
  address_ne_nil : address ≠ []
  address_digits : ∀ c ∈ address, Hex.isDigit c = true
  gap_ne_nil : gap ≠ []
  gap_blanks : ∀ c ∈ gap, isBlank c = true
  size_ne_nil : size ≠ []
  size_digits : ∀ c ∈ size, Hex.isDigit c = true
  rest_apart : ∀ c ∈ rest.head?, Hex.isDigit c = false

namespace SizePieces

def line (p : SizePieces) : List Char :=
  p.blanks ++ ("0x".toList ++ (p.address ++ (p.gap ++ ("0x".toList ++ (p.size ++ p.rest)))))

theorem spans_blanks (p : SizePieces) : Spans isBlank p.line p.blanks
    ("0x".toList ++ (p.address ++ (p.gap ++ ("0x".toList ++ (p.size ++ p.rest))))) := by
  refine ⟨rfl, p.isBlank_of_mem, fun c hc => ?_⟩
  cases hc
  decide

/-- The address ends where the gap begins, for no blank is a digit. -/
theorem spans_address (p : SizePieces) (body : List Char) :
    Spans Hex.isDigit (p.address ++ (p.gap ++ body)) p.address (p.gap ++ body) := by
  refine ⟨rfl, p.address_digits, fun c hc => ?_⟩
  rw [List.head?_append_of_ne_nil _ p.gap_ne_nil] at hc
  exact isDigit_eq_false_of_isBlank (p.gap_blanks c (List.mem_of_mem_head? hc))

theorem spans_gap (p : SizePieces) (body : List Char) :
    Spans isBlank (p.gap ++ ("0x".toList ++ body)) p.gap ("0x".toList ++ body) := by
  refine ⟨rfl, p.gap_blanks, fun c hc => ?_⟩
  cases hc
  decide

theorem spans_size (p : SizePieces) : Spans Hex.isDigit (p.size ++ p.rest) p.size p.rest :=
  ⟨rfl, p.size_digits, p.rest_apart⟩

theorem line_injective : Function.Injective line := by
  intro p q h
  obtain ⟨hblanks, hbody⟩ := p.spans_blanks.unique (h ▸ q.spans_blanks)
  have haddress := p.spans_address ("0x".toList ++ (p.size ++ p.rest))
  rw [List.append_cancel_left hbody] at haddress
  obtain ⟨haddr, hafter⟩ := haddress.unique (q.spans_address _)
  have hgaps := p.spans_gap (p.size ++ p.rest)
  rw [hafter] at hgaps
  obtain ⟨hgap, hsizes⟩ := hgaps.unique (q.spans_gap _)
  have hdigits := p.spans_size
  rw [List.append_cancel_left hsizes] at hdigits
  obtain ⟨hsize, hrest⟩ := hdigits.unique q.spans_size
  exact SizePieces.ext hblanks haddr hgap hsize hrest

end SizePieces

theorem sizeLine_iff_pieces {line address size : List Char} :
    SizeLine line address size ↔
      ∃ p : SizePieces, p.line = line ∧ p.address = address ∧ p.size = size := by
  constructor
  · intro h
    obtain ⟨blanks, gap, rest, hline, hblanks, hne, haddr, hgap, hgaps, hne', hsize, hstop⟩ := h
    exact ⟨⟨blanks, address, gap, size, rest, hblanks, hne, haddr, hgap, hgaps, hne', hsize, hstop⟩,
      hline.symm, rfl, rfl⟩
  · intro h
    obtain ⟨p, rfl, rfl, rfl⟩ := h
    exact ⟨p.blanks, p.gap, p.rest, rfl, p.isBlank_of_mem, p.address_ne_nil, p.address_digits,
      p.gap_ne_nil, p.gap_blanks, p.size_ne_nil, p.size_digits, p.rest_apart⟩

theorem SectionPieces.line_ne_line (p : SectionPieces) (q : SizePieces) : p.line ≠ q.line := by
  intro h
  have hp : SectionLine p.line p.name := sectionLine_iff_pieces.mpr ⟨p, rfl, rfl⟩
  have hq : SizeLine p.line q.address q.size := sizeLine_iff_pieces.mpr ⟨q, h.symm, rfl, rfl⟩
  exact not_sizeLine_of_sectionLine hp hq

/-- Reads a line as `readLine` does, but looks for a size first and for a name only where there is
none. -/
def readLineSizeFirst (awaiting : Option String) (line : List Char) :
    Option String × Option Symbol :=
  match placementDigits? line with
  | some (address, size) =>
    match awaiting, Hex.word? address, Hex.word? size with
    | some name, some a, some s => (none, some ⟨name, a, s⟩)
    | _, _, _ => (awaiting, none)
  | none =>
    match sectionName? line with
    | some name => (some (String.ofList name), none)
    | none => (awaiting, none)

theorem readLineSizeFirst_eq (awaiting : Option String) (line : List Char) :
    readLineSizeFirst awaiting line = readLine awaiting line := by
  unfold readLineSizeFirst readLine placement?
  cases hdigits : placementDigits? line with
  | none => cases sectionName? line <;> cases awaiting <;> rfl
  | some digits =>
    obtain ⟨address, size⟩ := digits
    rw [sectionName?_of_sizeLine (placementDigits?_eq_some_iff.mp hdigits)]
    cases awaiting with
    | none => rfl
    | some name =>
      cases ha : Hex.word? address <;> cases hs : Hex.word? size <;> simp [ha, hs]

end LinkMap

namespace Listing

/-- The pieces of a line that opens a block. -/
@[ext] structure BlockPieces where
  blanks : List Char
  address : List Char
  name : List Char
  rest : List Char
  isBlank_of_mem : ∀ c ∈ blanks, isBlank c = true
  address_ne_nil : address ≠ []
  address_digits : ∀ c ∈ address, Hex.isDigit c = true
  name_ne_nil : name ≠ []
  name_chars : ∀ c ∈ name, isNameChar c = true

namespace BlockPieces

def line (p : BlockPieces) : List Char :=
  p.blanks ++ (p.address ++ (" <".toList ++ (p.name ++ (">:".toList ++ p.rest))))

theorem spans_blanks (p : BlockPieces) : Spans isBlank p.line p.blanks
    (p.address ++ (" <".toList ++ (p.name ++ (">:".toList ++ p.rest)))) := by
  refine ⟨rfl, p.isBlank_of_mem, fun c hc => ?_⟩
  rw [List.head?_append_of_ne_nil _ p.address_ne_nil] at hc
  exact isBlank_eq_false_of_isDigit (p.address_digits c (List.mem_of_mem_head? hc))

theorem spans_address (p : BlockPieces) (body : List Char) :
    Spans Hex.isDigit (p.address ++ (" <".toList ++ body)) p.address (" <".toList ++ body) := by
  refine ⟨rfl, p.address_digits, fun c hc => ?_⟩
  cases hc
  decide

theorem spans_name (p : BlockPieces) (body : List Char) :
    Spans isNameChar (p.name ++ (">:".toList ++ body)) p.name (">:".toList ++ body) := by
  refine ⟨rfl, p.name_chars, fun c hc => ?_⟩
  cases hc
  decide

theorem line_injective : Function.Injective line := by
  intro p q h
  obtain ⟨hblanks, hbody⟩ := p.spans_blanks.unique (h ▸ q.spans_blanks)
  have haddress := p.spans_address (p.name ++ (">:".toList ++ p.rest))
  rw [hbody] at haddress
  obtain ⟨haddr, hafter⟩ := haddress.unique (q.spans_address _)
  have hnames := p.spans_name p.rest
  rw [List.append_cancel_left hafter] at hnames
  obtain ⟨hname, hrest⟩ := hnames.unique (q.spans_name _)
  exact BlockPieces.ext hblanks haddr hname (List.append_cancel_left hrest)

end BlockPieces

theorem blockLine_iff_pieces {line name : List Char} :
    BlockLine line name ↔ ∃ p : BlockPieces, p.line = line ∧ p.name = name := by
  constructor
  · intro h
    obtain ⟨blanks, address, rest, hline, hblanks, hne, haddr, hne', hname⟩ := h
    exact ⟨⟨blanks, address, name, rest, hblanks, hne, haddr, hne', hname⟩, hline.symm, rfl⟩
  · intro h
    obtain ⟨p, rfl, rfl⟩ := h
    exact ⟨p.blanks, p.address, p.rest, rfl, p.isBlank_of_mem, p.address_ne_nil, p.address_digits,
      p.name_ne_nil, p.name_chars⟩

end Listing

open LinkMap Listing

/-- The functions that read lines accept exactly the lines that can be put together from the pieces
of their kind, and answer with the pieces; a line is put together in at most one way. No line names
a function and gives a size as well, so a reader that looks for a size before it looks for a name
reads every line as the reader does. -/
theorem lines_read_by_pieces :
    (∀ line name, sectionName? line = some name ↔
      ∃ p : SectionPieces, p.line = line ∧ p.name = name) ∧
    (∀ line address size, placementDigits? line = some (address, size) ↔
      ∃ p : SizePieces, p.line = line ∧ p.address = address ∧ p.size = size) ∧
    (∀ line name, blockName? line = some name ↔
      ∃ p : BlockPieces, p.line = line ∧ p.name = name) ∧
    Function.Injective SectionPieces.line ∧
    Function.Injective SizePieces.line ∧
    Function.Injective BlockPieces.line ∧
    (∀ (p : SectionPieces) (q : SizePieces), p.line ≠ q.line) ∧
    ∀ awaiting line, readLineSizeFirst awaiting line = readLine awaiting line := by
  refine ⟨fun line name => ?_, fun line address size => ?_, fun line name => ?_,
    SectionPieces.line_injective, SizePieces.line_injective, BlockPieces.line_injective,
    SectionPieces.line_ne_line, readLineSizeFirst_eq⟩
  · exact sectionName?_eq_some_iff.trans sectionLine_iff_pieces
  · exact placementDigits?_eq_some_iff.trans sizeLine_iff_pieces
  · exact blockName?_eq_some_iff.trans blockLine_iff_pieces

/-- A section named like a numeral below an empty line, a size that letters run into after a gap
that is no space, and an address made of letters only. -/
theorem odd_lines_taken_apart :
    (∃ p : SectionPieces, p.line = "\n\t.text.0x10\u00850x2".toList ∧ p.name = "0x10".toList) ∧
    (∃ p : SizePieces, p.line = "0xF00d\u30000x0beg".toList ∧
      p.address = "F00d".toList ∧ p.size = "0be".toList) ∧
    (∃ p : BlockPieces, p.line = "\tfade <f.part$0@plt>::".toList ∧
      p.name = "f.part$0@plt".toList) ∧
    readLineSizeFirst (some "f") "0xF00d\u30000x0beg".toList =
      (none, some ⟨"f", 0xf00d, 0xbe⟩) := by
  obtain ⟨hsection, hsize, hblock, -, -, -, -, hread⟩ := lines_read_by_pieces
  refine ⟨(hsection _ _).mp ?_, (hsize _ _ _).mp ?_, (hblock _ _).mp ?_, (hread _ _).trans ?_⟩
  · decide
  · decide
  · decide
  · decide +kernel

end CodeReach
