import CodeReach.Proofs.HexNumerals
import CodeReach.Proofs.LineGrammar

namespace CodeReach

open Text

namespace SymbolTable

theorem get?_ofList (symbols : List Symbol) (name : String) :
    (ofList symbols).get? name = symbols.reverse.find? fun r => r.name = name := by
  induction symbols using List.reverseRecOn with
  | nil => rfl
  | append_singleton symbols r ih =>
    rw [get?_ofList_concat, ih, List.reverse_append, List.reverse_singleton, List.singleton_append,
      List.find?_cons]
    by_cases hname : name = r.name
    · simp [hname]
    · simp [hname, Ne.symm hname]

theorem contains_ofList {symbols : List Symbol} {name : String} :
    (ofList symbols).contains name = true ↔ ∃ r ∈ symbols, r.name = name := by
  have hget : (ofList symbols).contains name = ((ofList symbols).get? name).isSome := by
    simp [contains, NameMap.contains, get?]
  rw [hget, get?_ofList]
  simp

/-- A table has one entry for each name. -/
theorem size_ofList (symbols : List Symbol) :
    (ofList symbols).size = (symbols.map Symbol.name).toFinset.card := by
  have hkeys : (ofList symbols).placements.keys.toFinset =
      (symbols.map Symbol.name).toFinset := by
    ext name
    have hname : name ∈ (ofList symbols).placements.keys ↔ ∃ r ∈ symbols, r.name = name :=
      NameMap.contains_iff_mem_keys.symm.trans contains_ofList
    simp [hname]
  rw [← hkeys, List.toFinset_card_of_nodup (ofList symbols).placements.nodup_keys]
  simp [size, NameMap.size, NameMap.keys]

end SymbolTable

namespace LinkMap

/-- Blanks that stay within a line. -/
def Blanks (cs : List Char) : Prop := ∀ c ∈ cs, isBlank c = true ∧ c ≠ '\n'

/-- A symbol and the way it is written: the blanks before the section and before the address, the
two numerals with the blanks between them, and the object at the end of the line. -/
structure WrittenSymbol where
  symbol : Symbol
  indent : List Char
  margin : List Char
  address : List Char
  gap : List Char
  size : List Char
  object : List Char
  name_ne_nil : symbol.name.toList ≠ []
  name_solid : ∀ c ∈ symbol.name.toList, isBlank c = false
  indent_blanks : Blanks indent
  margin_blanks : Blanks margin
  writes_address : Hex.Writes symbol.address.toNat address
  gap_ne_nil : gap ≠ []
  gap_blanks : Blanks gap
  writes_size : Hex.Writes symbol.size.toNat size
  object_line : '\n' ∉ object

namespace WrittenSymbol

def sectionLine (w : WrittenSymbol) : List Char :=
  w.indent ++ (".text.".toList ++ w.symbol.name.toList)

def sizeLine (w : WrittenSymbol) : List Char :=
  w.margin ++ ("0x".toList ++ (w.address ++ (w.gap ++
    ("0x".toList ++ (w.size ++ ' ' :: w.object)))))

variable (w : WrittenSymbol)

theorem not_mem_sectionLine : '\n' ∉ w.sectionLine := by
  have hname : '\n' ∉ w.symbol.name.toList := by
    intro h
    have hblank := w.name_solid _ h
    cases hblank
  have hindent : '\n' ∉ w.indent := fun h => (w.indent_blanks _ h).2 rfl
  simp [sectionLine, hname, hindent]

theorem not_mem_sizeLine : '\n' ∉ w.sizeLine := by
  have hmargin : '\n' ∉ w.margin := fun h => (w.margin_blanks _ h).2 rfl
  have hgap : '\n' ∉ w.gap := fun h => (w.gap_blanks _ h).2 rfl
  have haddress : '\n' ∉ w.address := lineFeed_not_mem_of_isDigit w.writes_address.isDigit_of_mem
  have hsize : '\n' ∉ w.size := lineFeed_not_mem_of_isDigit w.writes_size.isDigit_of_mem
  simp [sizeLine, hmargin, hgap, haddress, hsize, w.object_line]

theorem sectionLine_read : SectionLine (dropReturn w.sectionLine) w.symbol.name.toList := by
  have hlast : dropReturn w.symbol.name.toList = w.symbol.name.toList := by
    unfold dropReturn
    rw [if_neg]
    intro h
    have hblank := w.name_solid _ (List.mem_of_getLast? h)
    cases hblank
  refine ⟨w.indent, [], ?_, fun c hc => (w.indent_blanks c hc).1, w.name_ne_nil, w.name_solid,
    by simp⟩
  rw [sectionLine, dropReturn_append (by simp), dropReturn_append w.name_ne_nil, hlast,
    List.append_nil]
  rfl

theorem sizeLine_shape : SizeLine (dropReturn w.sizeLine) w.address w.size := by
  -- What follows the size starts with a blank, whether or not the line loses a carriage return.
  obtain ⟨rest, hrest⟩ : ∃ rest, dropReturn (' ' :: w.object) = ' ' :: rest := by
    cases w.object with
    | nil => exact ⟨[], rfl⟩
    | cons c cs =>
      refine ⟨dropReturn (c :: cs), ?_⟩
      rw [← List.singleton_append, dropReturn_append (List.cons_ne_nil c cs), List.singleton_append]
  refine ⟨w.margin, w.gap, ' ' :: rest, ?_, fun c hc => (w.margin_blanks c hc).1,
    w.writes_address.ne_nil, w.writes_address.isDigit_of_mem, w.gap_ne_nil,
    fun c hc => (w.gap_blanks c hc).1, w.writes_size.ne_nil, w.writes_size.isDigit_of_mem, ?_⟩
  · have hline : w.sizeLine = (w.margin ++ (hexStart ++ (w.address ++ (w.gap ++
        (hexStart ++ w.size))))) ++ ' ' :: w.object := by
      simp [sizeLine, hexStart]
    rw [hline, dropReturn_append (by simp), hrest]
    simp
  · intro c hc
    cases hc
    decide

theorem sizeLine_places : Places (dropReturn w.sizeLine) ⟨w.symbol.address, w.symbol.size⟩ := by
  refine ⟨w.address, w.size, w.sizeLine_shape, ?_, ?_, ?_, ?_⟩
  · rw [w.writes_address.value_eq]
    exact UInt64.toNat_lt _
  · rw [w.writes_size.value_eq]
    exact UInt64.toNat_lt _
  · exact w.writes_address.value_eq.symm
  · exact w.writes_size.value_eq.symm

end WrittenSymbol

/-- The text of a map with these symbols. -/
def writtenText (ws : List WrittenSymbol) : String :=
  String.ofList (unlines (ws.flatMap fun w => [w.sectionLine, w.sizeLine]))

theorem lines_writtenText (ws : List WrittenSymbol) :
    lines (writtenText ws).toList =
      ws.flatMap fun w => [dropReturn w.sectionLine, dropReturn w.sizeLine] := by
  rw [writtenText, String.toList_ofList, lines_unlines]
  · simp [List.map_flatMap]
  · intro line hline
    obtain ⟨w, -, hw⟩ := List.mem_flatMap.mp hline
    simp only [List.mem_cons, List.not_mem_nil, or_false] at hw
    rcases hw with rfl | rfl
    · exact w.not_mem_sectionLine
    · exact w.not_mem_sizeLine

/-- Two lines complete one symbol, whatever name was waiting before them. -/
theorem scanFrom_written (w : WrittenSymbol) (awaiting : Option String) (rest : List (List Char)) :
    scanFrom [] awaiting (dropReturn w.sectionLine :: dropReturn w.sizeLine :: rest) =
      none :: some w.symbol :: scanFrom [] none rest := by
  have hname := sectionName?_eq_some_iff.mpr w.sectionLine_read
  have hplace := placement?_eq_some_iff.mpr w.sizeLine_places
  have hnone := sectionName?_of_sizeLine w.sizeLine_shape
  have hfirst : readLine awaiting (dropReturn w.sectionLine) = (some w.symbol.name, none) := by
    simp [readLine, hname]
  have hsecond : readLine (some w.symbol.name) (dropReturn w.sizeLine) = (none, some w.symbol) := by
    simp [readLine, hnone, hplace]
  rw [scanFrom_cons, hfirst, scanFrom_cons, hsecond]

theorem symbols_writtenText (ws : List WrittenSymbol) :
    symbols (writtenText ws) = ws.map WrittenSymbol.symbol := by
  rw [symbols, lines_writtenText, scan]
  induction ws with
  | nil => rfl
  | cons w ws ih =>
    rw [List.flatMap_cons, List.cons_append, List.singleton_append, scanFrom_written, List.map_cons,
      ← ih]
    rfl

/-- A written map is read back as the table of its symbols: under each name stands the last symbol
written with it, and there are as many entries as names. -/
theorem written_map_read_back (ws : List WrittenSymbol) :
    symbolTable (writtenText ws) = SymbolTable.ofList (ws.map WrittenSymbol.symbol) ∧
    (∀ name, (symbolTable (writtenText ws)).get? name =
      (ws.map WrittenSymbol.symbol).reverse.find? fun r => r.name = name) ∧
    (symbolTable (writtenText ws)).size = (ws.map fun w => w.symbol.name).toFinset.card := by
  have htable : symbolTable (writtenText ws) = .ofList (ws.map WrittenSymbol.symbol) := by
    rw [symbolTable, symbols_writtenText]
  refine ⟨htable, fun name => ?_, ?_⟩
  · rw [htable, SymbolTable.get?_ofList]
  · rw [htable, SymbolTable.size_ofList, List.map_map]
    rfl

/-- A name that looks like a section and a number, with the largest size, in mixed case, and the
same name once more: the second symbol stays. -/
theorem odd_name_read_back :
    ∃ w w' : WrittenSymbol,
      writtenText [w, w'] = " .text..text.0x1\n\t0x00aB\t 0xFFFFffffFFFFffff a b.o\r\n" ++
        ".text..text.0x1\n0xc 0x0d \n" ∧
      symbolTable (writtenText [w, w']) = .ofList [⟨".text.0x1", 0xab, 0xffffffffffffffff⟩,
        ⟨".text.0x1", 0xc, 0xd⟩] ∧
      (symbolTable (writtenText [w, w'])).get? ".text.0x1" = some ⟨".text.0x1", 0xc, 0xd⟩ ∧
      (symbolTable (writtenText [w, w'])).size = 1 := by
  let w : WrittenSymbol :=
    { symbol := ⟨".text.0x1", 0xab, 0xffffffffffffffff⟩
      indent := [' '], margin := ['\t'], address := "00aB".toList, gap := "\t ".toList
      size := "FFFFffffFFFFffff".toList, object := "a b.o\r".toList
      name_ne_nil := by simp
      name_solid := by simp [isBlank, blankRanges, inRanges]
      indent_blanks := by simp [Blanks, isBlank, blankRanges, inRanges]
      margin_blanks := by simp [Blanks, isBlank, blankRanges, inRanges]
      writes_address := ⟨2, rfl⟩
      gap_ne_nil := by simp
      gap_blanks := by simp [Blanks, isBlank, blankRanges, inRanges]
      writes_size := ⟨0, rfl⟩
      object_line := by simp }
  let w' : WrittenSymbol :=
    { symbol := ⟨".text.0x1", 0xc, 0xd⟩
      indent := [], margin := [], address := ['c'], gap := [' '], size := "0d".toList, object := []
      name_ne_nil := by simp
      name_solid := by simp [isBlank, blankRanges, inRanges]
      indent_blanks := by simp [Blanks]
      margin_blanks := by simp [Blanks]
      writes_address := ⟨0, rfl⟩
      gap_ne_nil := by simp
      gap_blanks := by simp [Blanks, isBlank, blankRanges, inRanges]
      writes_size := ⟨1, rfl⟩
      object_line := by simp }
  obtain ⟨htable, hlast, hsize⟩ := written_map_read_back [w, w']
  exact ⟨w, w', by decide +kernel, htable, hlast ".text.0x1", hsize⟩

end LinkMap

end CodeReach
