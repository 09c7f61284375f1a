import CodeReach.Proofs.BlockOrder
import CodeReach.Proofs.ListingGrammar
import CodeReach.Proofs.MnemonicTokens

namespace CodeReach.Listing

open Text

def IsName (name : String) : Prop := name.toList ≠ [] ∧ ∀ c ∈ name.toList, isNameChar c = true

theorem isName_iff {name : String} :
    IsName name ↔ name.toList.isEmpty = false ∧ name.toList.all isNameChar = true := by
  simp [IsName]

def IsAddress (digits : List Char) : Prop := digits ≠ [] ∧ ∀ c ∈ digits, Hex.isDigit c = true

theorem IsName.lineFeed_not_mem {name : String} (h : IsName name) : '\n' ∉ name.toList := by
  intro hmem
  have hchar := h.2 _ hmem
  cases hchar

theorem IsAddress.lineFeed_not_mem {digits : List Char} (h : IsAddress digits) : '\n' ∉ digits :=
  lineFeed_not_mem_of_isDigit h.2

/-- A call and the way it is written: where the instruction stands, its bytes, and the address it
goes to. The mnemonic is delimited by word characters. -/
structure WrittenCall where
  mnemonic : String
  callee : String
  place : List Char
  code : List Char
  target : List Char
  callee_name : IsName callee
  place_address : IsAddress place
  code_bytes : ∀ c ∈ code, Hex.isDigit c = true ∨ c = ' '
  target_address : IsAddress target
  mnemonic_starts : startsWord mnemonic.toList = true
  mnemonic_ends : mnemonic.toList.getLast?.any isWord = true

namespace WrittenCall

/-- What stands before the mnemonic. -/
def front (w : WrittenCall) : List Char := ' ' :: (w.place ++ ':' :: '\t' :: (w.code ++ ['\t']))

/-- What stands between the mnemonic and the callee. -/
def operand (w : WrittenCall) : List Char := '\t' :: (w.target ++ [' '])

def line (w : WrittenCall) : List Char :=
  w.front ++ (w.mnemonic.toList ++ (w.operand ++ '<' :: (w.callee.toList ++ ['>'])))

variable {w : WrittenCall} {s : MnemonicSet}

theorem lineFeed_not_mem (hmnemonic : isToken w.mnemonic.toList = true) : '\n' ∉ w.line := by
  have hcode : '\n' ∉ w.code := by
    intro hmem
    rcases w.code_bytes _ hmem with h | h
    · cases h
    · simp at h
  have htoken : '\n' ∉ w.mnemonic.toList := not_mem_of_isToken hmnemonic rfl
  simp [line, front, operand, hcode, htoken, w.place_address.lineFeed_not_mem,
    w.target_address.lineFeed_not_mem, w.callee_name.lineFeed_not_mem]

theorem dropReturn_line (w : WrittenCall) : dropReturn w.line = w.line := by
  simp [dropReturn, line, List.getLast?_cons]

/-- A colon stands where a block line has a space. -/
theorem blockName?_line (w : WrittenCall) : blockName? w.line = none := by
  have hline : w.line = [' '] ++ (w.place ++ ':' :: '\t' :: (w.code ++ '\t' ::
      (w.mnemonic.toList ++ (w.operand ++ '<' :: (w.callee.toList ++ ['>']))))) := by
    simp [line, front]
  have hblank : ∀ c ∈ [' '], isBlank c = true := by
    simp [isBlank, blankRanges, inRanges]
  rw [hline]
  exact blockName?_eq_none hblank w.place_address.1 w.place_address.2 rfl (by simp)

/-- The mnemonic stands between tabs. -/
theorem mnemonic_stands (w : WrittenCall) (rest : List Char) :
    StandsBetween false w.front w.mnemonic.toList (w.operand ++ rest) := by
  have hfront : endsWord false w.front = false := by
    simp [endsWord, front, List.getLast?_cons]
    rfl
  have hstart : startsWord (w.mnemonic.toList ++ (w.operand ++ rest)) = true := by
    have hstarts := w.mnemonic_starts
    cases hm : w.mnemonic.toList with
    | nil =>
      rw [hm] at hstarts
      cases hstarts
    | cons c cs =>
      rw [hm] at hstarts
      exact hstarts
  refine ⟨?_, ?_⟩
  · rw [hfront, hstart]
    simp
  · have hoperand : startsWord (w.operand ++ rest) = false := rfl
    rw [w.mnemonic_ends, hoperand]
    simp

theorem callee?_line (hs : s.Made) (hm : w.mnemonic ∈ s.names) :
    s.callee? w.line = some w.callee := by
  have hline : '\n' ∉ w.line := lineFeed_not_mem (hs.isToken hm)
  have hcallee : s.calleeIn? w.line = some w.callee := by
    refine MnemonicSet.calleeIn?_eq_some_iff.mpr
      ⟨w.front, w.mnemonic, _, rfl, hm, w.mnemonic_stands _, ?_⟩
    exact lastName?_bracket w.operand w.callee_name.1 w.callee_name.2
  simp [MnemonicSet.callee?, segments_of_not_mem hline, hcallee]

end WrittenCall

/-- A block and the address that its first line gives. -/
structure WrittenBlock where
  caller : String
  address : List Char
  calls : List WrittenCall
  caller_name : IsName caller
  address_digits : IsAddress address

namespace WrittenBlock

def header (b : WrittenBlock) : List Char :=
  b.address ++ ' ' :: '<' :: (b.caller.toList ++ ['>', ':'])

def lines (b : WrittenBlock) : List (List Char) :=
  b.header :: (b.calls.map WrittenCall.line ++ [[]])

/-- The caller is there, and it makes its calls. -/
def mentions (b : WrittenBlock) : List Mention :=
  .function b.caller :: b.calls.map fun w => .call b.caller w.callee

theorem blockName?_header (b : WrittenBlock) : blockName? b.header = some b.caller.toList :=
  blockName?_eq_some_iff.mpr ⟨[], b.address, [], rfl, by simp, b.address_digits.1,
    b.address_digits.2, b.caller_name.1, b.caller_name.2⟩

def toBlock (b : WrittenBlock) : Block where
  header := b.header
  name := b.caller.toList
  body := b.calls.map WrittenCall.line ++ [[]]
  opens := b.blockName?_header
  plain := by
    intro line hline
    rcases List.mem_append.mp hline with hline | hline
    · obtain ⟨w, -, rfl⟩ := List.mem_map.mp hline
      exact w.blockName?_line
    · cases List.mem_singleton.mp hline
      rfl

variable {b : WrittenBlock} {s : MnemonicSet}

theorem lineFeed_not_mem (hs : s.Made) (hused : ∀ w ∈ b.calls, w.mnemonic ∈ s.names) :
    ∀ line ∈ b.lines, '\n' ∉ line := by
  intro line hline
  simp only [lines, List.mem_cons, List.mem_append, List.mem_map, List.not_mem_nil,
    or_false] at hline
  rcases hline with rfl | ⟨w, hw, rfl⟩ | rfl
  · simp [header, b.address_digits.lineFeed_not_mem, b.caller_name.lineFeed_not_mem]
  · exact WrittenCall.lineFeed_not_mem (hs.isToken (hused w hw))
  · simp

theorem map_dropReturn_lines (b : WrittenBlock) : b.lines.map dropReturn = b.lines := by
  have hheader : dropReturn b.header = b.header := by
    simp [dropReturn, header, List.getLast?_cons]
  have hcalls : (b.calls.map WrittenCall.line).map dropReturn = b.calls.map WrittenCall.line := by
    simp [Function.comp_def, WrittenCall.dropReturn_line]
  rw [lines, List.map_cons, List.map_append, hheader, hcalls]
  rfl

theorem mentions_toBlock (hs : s.Made) (hused : ∀ w ∈ b.calls, w.mnemonic ∈ s.names) :
    b.toBlock.mentions s = b.mentions := by
  have hempty : s.callee? [] = none := rfl
  have hcalls : (b.calls.map WrittenCall.line).filterMap
      (fun line => (s.callee? line).map (Mention.call b.caller)) =
      b.calls.map fun w => .call b.caller w.callee := by
    rw [List.filterMap_map, ← List.filterMap_eq_map]
    apply List.filterMap_congr
    intro w hw
    simp [WrittenCall.callee?_line hs (hused w hw)]
  simp only [Block.mentions, toBlock, mentions, String.ofList_toList, List.filterMap_append, hcalls]
  simp [hempty]

end WrittenBlock

/-- The text of a listing with these blocks. -/
def writtenText (blocks : List WrittenBlock) : String :=
  String.ofList (unlines (blocks.flatMap WrittenBlock.lines))

variable {s : MnemonicSet} {blocks : List WrittenBlock}

theorem lines_writtenText (hs : s.Made)
    (hused : ∀ b ∈ blocks, ∀ w ∈ b.calls, w.mnemonic ∈ s.names) :
    lines (writtenText blocks).toList = (blocks.map WrittenBlock.toBlock).flatMap Block.lines := by
  rw [writtenText, String.toList_ofList, lines_unlines]
  · rw [List.map_flatMap, List.flatMap_map]
    apply List.flatMap_congr
    intro b _
    exact b.map_dropReturn_lines
  · intro line hline
    obtain ⟨b, hb, hline⟩ := List.mem_flatMap.mp hline
    exact b.lineFeed_not_mem hs (hused b hb) line hline

theorem mentions_writtenText (hs : s.Made)
    (hused : ∀ b ∈ blocks, ∀ w ∈ b.calls, w.mnemonic ∈ s.names) :
    mentions s none (lines (writtenText blocks).toList) = blocks.flatMap WrittenBlock.mentions := by
  rw [lines_writtenText hs hused, mentions_blocks, List.flatMap_map]
  apply List.flatMap_congr
  intro b hb
  exact WrittenBlock.mentions_toBlock hs (hused b hb)

theorem call_mem_mentions {f c : String} :
    Mention.call f c ∈ blocks.flatMap WrittenBlock.mentions ↔
      ∃ b ∈ blocks, b.caller = f ∧ ∃ w ∈ b.calls, w.callee = c := by
  simp only [List.mem_flatMap, WrittenBlock.mentions, List.mem_cons, List.mem_map, reduceCtorEq,
    false_or, Mention.call.injEq]
  constructor
  · rintro ⟨b, hb, w, hw, hcaller, hcallee⟩
    exact ⟨b, hb, hcaller, w, hw, hcallee⟩
  · rintro ⟨b, hb, hcaller, w, hw, hcallee⟩
    exact ⟨b, hb, w, hw, hcaller, hcallee⟩

/-- A written listing is read back with any set of mnemonics that has those of its calls. Its graph
is the empty one with each caller observed and each call added, so it has the written calls and no
others. Each first line of a block opens that block, and each call line opens none and calls what is
written on it. -/
theorem written_listing_read_back (hs : s.Made)
    (hused : ∀ b ∈ blocks, ∀ w ∈ b.calls, w.mnemonic ∈ s.names) :
    callGraph s (writtenText blocks) = .ofMentions (blocks.flatMap WrittenBlock.mentions) ∧
    (∀ f c, c ∈ (callGraph s (writtenText blocks)).callees f ↔
      ∃ b ∈ blocks, b.caller = f ∧ ∃ w ∈ b.calls, w.callee = c) ∧
    ∀ b ∈ blocks, blockName? b.header = some b.caller.toList ∧
      ∀ w ∈ b.calls, blockName? w.line = none ∧ s.callee? w.line = some w.callee := by
  have hgraph : callGraph s (writtenText blocks) =
      .ofMentions (blocks.flatMap WrittenBlock.mentions) := by
    rw [callGraph_eq_ofMentions, mentions_writtenText hs hused]
  refine ⟨hgraph, fun f c => ?_, fun b hb => ⟨b.blockName?_header, fun w hw => ?_⟩⟩
  · rw [hgraph, (CallGraph.knows_ofMentions _).calls, call_mem_mentions]
  · exact ⟨w.blockName?_line, WrittenCall.callee?_line hs (hused b hb w hw)⟩

/-- A function named like a mnemonic calls another such, and a name with marks in it, through
mnemonics that start each other. -/
theorem names_like_mnemonics_read_back :
    ∃ b : WrittenBlock,
      writtenText [b] = "b0 <bl>:\n b2:\tf7 ff\tb.w\tb <b.w>\n b6:\t\tb\tca11 <bé$@1>\n\n" ∧
      (∀ b' ∈ [b], ∀ w ∈ b'.calls, w.mnemonic ∈ (MnemonicSet.ofPreset .tailCalls).names) ∧
      callGraph (.ofPreset .tailCalls) (writtenText [b]) =
        .ofMentions [.function "bl", .call "bl" "b.w", .call "bl" "bé$@1"] := by
  let wide : WrittenCall :=
    { mnemonic := "b.w", callee := "b.w", place := ['b', '2'], code := "f7 ff".toList
      target := ['b']
      callee_name := isName_iff.mpr ⟨rfl, rfl⟩
      place_address := by simp [IsAddress, Hex.isDigit]
      code_bytes := by simp [Hex.isDigit]
      target_address := by simp [IsAddress, Hex.isDigit]
      mnemonic_starts := rfl
      mnemonic_ends := rfl }
  let narrow : WrittenCall :=
    { mnemonic := "b", callee := "bé$@1", place := ['b', '6'], code := []
      target := "ca11".toList
      callee_name := isName_iff.mpr ⟨rfl, rfl⟩
      place_address := by simp [IsAddress, Hex.isDigit]
      code_bytes := by simp
      target_address := by simp [IsAddress, Hex.isDigit]
      mnemonic_starts := rfl
      mnemonic_ends := rfl }
  let b : WrittenBlock :=
    { caller := "bl", address := ['b', '0'], calls := [wide, narrow]
      caller_name := isName_iff.mpr ⟨rfl, rfl⟩
      address_digits := by simp [IsAddress, Hex.isDigit] }
  have hused : ∀ b' ∈ [b], ∀ w ∈ b'.calls,
      w.mnemonic ∈ (MnemonicSet.ofPreset .tailCalls).names := by
    simp [b, wide, narrow, MnemonicSet.ofPreset, Preset.mnemonics]
  exact ⟨b, by decide +kernel, hused, (written_listing_read_back (.preset .tailCalls) hused).1⟩

end CodeReach.Listing
