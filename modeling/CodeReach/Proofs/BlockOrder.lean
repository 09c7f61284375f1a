import CodeReach.Proofs.ListingGraph
import CodeReach.Reach

namespace CodeReach.Listing

open Text

/-- The code of a function in a listing: a line that opens a block, and lines that open none. -/
structure Block where
  header : List Char
  name : List Char
  body : List (List Char)
  opens : blockName? header = some name
  plain : ∀ line ∈ body, blockName? line = none

namespace Block

def lines (b : Block) : List (List Char) := b.header :: b.body

/-- Two blocks have the same block line and below it the same lines, in any order and any number of
times each. -/
def SameCode (b b' : Block) : Prop :=
  b.header = b'.header ∧ ∀ line, line ∈ b.body ↔ line ∈ b'.body

def mentions (s : MnemonicSet) (b : Block) : List Mention :=
  .function (String.ofList b.name) ::
    b.body.filterMap fun line => (s.callee? line).map (.call (String.ofList b.name))

end Block

/-- The blocks in another order, each with its lines in another order or repeated. -/
def Rearranged (blocks blocks' : List Block) : Prop :=
  ∃ order, blocks.Perm order ∧ List.Forall₂ Block.SameCode order blocks'

variable {s : MnemonicSet} {f : String} {m : Mention}

/-- Lines that open no block mention the calls they show, each for itself. -/
theorem mentions_append_of_plain {body rest : List (List Char)}
    (hplain : ∀ line ∈ body, blockName? line = none) :
    mentions s (some f) (body ++ rest) =
      (body.filterMap fun line => (s.callee? line).map (.call f)) ++ mentions s (some f) rest := by
  induction body with
  | nil => rfl
  | cons line body ih =>
    have hb : blockName? line = none := hplain line List.mem_cons_self
    have hrest := ih fun l hl => hplain l (List.mem_cons_of_mem _ hl)
    cases hcall : s.callee? line with
    | none => simp [mentions, hb, hcall, hrest]
    | some callee => simp [mentions, hb, hcall, hrest]

/-- What was read before a block does not tell in what it mentions: its first line opens it. -/
theorem mentions_blocks (s : MnemonicSet) (current : Option String) (blocks : List Block) :
    mentions s current (blocks.flatMap Block.lines) = blocks.flatMap (Block.mentions s) := by
  induction blocks generalizing current with
  | nil => rfl
  | cons b blocks ih =>
    simp only [List.flatMap_cons, Block.lines, Block.mentions, List.cons_append, mentions, b.opens]
    rw [mentions_append_of_plain b.plain, ih]

theorem Block.SameCode.mem_mentions {b b' : Block} (h : b.SameCode b') :
    m ∈ b.mentions s ↔ m ∈ b'.mentions s := by
  obtain ⟨hheader, hbody⟩ := h
  have hname : b.name = b'.name := by
    have hopens := b.opens
    rw [hheader, b'.opens] at hopens
    exact (Option.some.inj hopens).symm
  simp only [Block.mentions, List.mem_cons, List.mem_filterMap, hname, hbody]

theorem Rearranged.mem_mentions {blocks blocks' : List Block} (h : Rearranged blocks blocks') :
    m ∈ blocks.flatMap (Block.mentions s) ↔ m ∈ blocks'.flatMap (Block.mentions s) := by
  obtain ⟨order, hperm, hsame⟩ := h
  rw [(hperm.flatMap_right (Block.mentions s)).mem_iff]
  clear hperm
  induction hsame with
  | nil => exact Iff.rfl
  | cons hb _ ih => simp only [List.flatMap_cons, List.mem_append, hb.mem_mentions, ih]

/-- Listings whose blocks are rearranged have one graph. -/
theorem callGraph_rearranged {text text' : String} {blocks blocks' : List Block}
    (htext : lines text.toList = blocks.flatMap Block.lines)
    (htext' : lines text'.toList = blocks'.flatMap Block.lines) (h : Rearranged blocks blocks') :
    callGraph s text = callGraph s text' := by
  rw [callGraph_eq_ofMentions, callGraph_eq_ofMentions, htext, htext', mentions_blocks,
    mentions_blocks]
  exact CallGraph.ofMentions_congr fun m => h.mem_mentions

/-- Two listings consist of the same blocks, in any order, and each block of the same lines, in any
order and repeated at will. Both show the same functions and the same callees of each caller, and
every root has the same reach or the same fault in both, whatever the sizes are. -/
theorem block_order_is_immaterial (s : MnemonicSet) {text text' : String}
    {blocks blocks' : List Block} (htext : lines text.toList = blocks.flatMap Block.lines)
    (htext' : lines text'.toList = blocks'.flatMap Block.lines) (h : Rearranged blocks blocks') :
    (∀ f, (callGraph s text).observes f = (callGraph s text').observes f) ∧
    (∀ f, (callGraph s text).callees? f = (callGraph s text').callees? f) ∧
    (∀ t root, reach t (callGraph s text) root = reach t (callGraph s text') root) := by
  rw [callGraph_rearranged htext htext' h]
  exact ⟨fun _ => rfl, fun _ => rfl, fun _ _ => rfl⟩

/-- Two blocks of `a` change places, and in one of them the lines are swapped and one is repeated.
All three callees of `a` are still there, and they are found in the order of their names. -/
theorem shuffled_blocks_reach_the_same :
    ∃ (text text' : String) (blocks blocks' : List Block),
      text = "10 <a>:\n 12: bl 20 <b>\n 16: bl 30 <c>\n40 <a>:\n 42: bl 50 <d>\n" ∧
      text' = "40 <a>:\n 42: bl 50 <d>\n" ++
        "10 <a>:\n 16: bl 30 <c>\n 12: bl 20 <b>\n 16: bl 30 <c>" ∧
      lines text.toList = blocks.flatMap Block.lines ∧
      lines text'.toList = blocks'.flatMap Block.lines ∧
      Rearranged blocks blocks' ∧
      (callGraph .standard text').callees? "a" = some (.ofList ["b", "c", "d"]) ∧
      reach (.ofList [⟨"a", 0x10, 8⟩, ⟨"c", 0x30, 4⟩]) (callGraph .standard text') "a" =
        .ok ⟨"a", 8, 12, [⟨"a", 8⟩, ⟨"b", 0⟩, ⟨"c", 4⟩, ⟨"d", 0⟩]⟩ ∧
      ∀ t root, reach t (callGraph .standard text) root = reach t (callGraph .standard text') root := by
  let long : Block := ⟨"10 <a>:".toList, ['a'],
    [" 12: bl 20 <b>".toList, " 16: bl 30 <c>".toList], by decide, by decide⟩
  let short : Block := ⟨"40 <a>:".toList, ['a'], [" 42: bl 50 <d>".toList], by decide, by decide⟩
  let longer : Block := ⟨"10 <a>:".toList, ['a'],
    [" 16: bl 30 <c>".toList, " 12: bl 20 <b>".toList, " 16: bl 30 <c>".toList],
    by decide, by decide⟩
  have hshort : short.SameCode short := ⟨rfl, fun _ => Iff.rfl⟩
  have hswap : ∀ x y line : List Char, line ∈ [x, y] ↔ line ∈ [y, x, y] := by
    intro x y line
    simp only [List.mem_cons, List.not_mem_nil, or_false]
    tauto
  have hlong : long.SameCode longer := ⟨rfl, hswap _ _⟩
  have h : Rearranged [long, short] [short, longer] :=
    ⟨[short, long], .swap short long [], .cons hshort (.cons hlong .nil)⟩
  have htext : lines "10 <a>:\n 12: bl 20 <b>\n 16: bl 30 <c>\n40 <a>:\n 42: bl 50 <d>\n".toList =
      [long, short].flatMap Block.lines := by decide +kernel
  have htext' : lines ("40 <a>:\n 42: bl 50 <d>\n" ++
      "10 <a>:\n 16: bl 30 <c>\n 12: bl 20 <b>\n 16: bl 30 <c>").toList =
      [short, longer].flatMap Block.lines := by decide +kernel
  obtain ⟨-, hcallees, hreach⟩ := block_order_is_immaterial .standard htext htext' h
  refine ⟨_, _, [long, short], [short, longer], rfl, rfl, htext, htext', h, ?_, ?_, hreach⟩
  · rw [← hcallees]
    decide +kernel
  · rw [← hreach]
    decide +kernel

end CodeReach.Listing
