import CodeReach.Proofs.HexNumerals
import CodeReach.Proofs.MnemonicRuns
import CodeReach.Proofs.WrittenListing

namespace CodeReach

open Text Listing

/-- A line with nothing but an instruction: a mnemonic, an address and the function that is there.
-/
def instruction (m address target : List Char) : List Char :=
  '\t' :: (m ++ '\t' :: (address ++ ' ' :: '<' :: (target ++ ['>'])))

/-- The first and the last character are word characters. -/
def WordEnds (m : List Char) : Prop := startsWord m = true ∧ m.getLast?.any isWord = true

variable {m address before after x y : List Char} {target : String} {c : Char}

theorem standsBetween_iff_wordEnds (hm : m ≠ []) (hbefore : endsWord false before = false)
    (hafter : startsWord after = false) : StandsBetween false before m after ↔ WordEnds m := by
  unfold StandsBetween WordEnds
  rw [hbefore, hafter, startsWord_append hm]
  cases startsWord m <;> cases m.getLast?.any isWord <;> simp

theorem isWord_of_isDigit (h : Hex.isDigit c = true) : isWord c = true := by
  have hcodes : ∀ n ∈ List.range' 48 10 ++ (List.range' 97 6 ++ List.range' 65 6),
      isWord (Char.ofNat n) = true := by
    decide +kernel
  rw [← Char.ofNat_toNat c]
  apply hcodes
  simp only [List.mem_append, List.mem_range'_1]
  have := Hex.isDigit_iff.mp h
  omega

theorem wordEnds_of_isWord (hm : m ≠ []) (h : ∀ c ∈ m, isWord c = true) : WordEnds m := by
  constructor
  · obtain ⟨c, cs, rfl⟩ := List.exists_cons_of_ne_nil hm
    exact h c List.mem_cons_self
  · rw [List.getLast?_eq_some_getLast hm]
    exact h _ (List.getLast_mem hm)

theorem Listing.IsName.solid (h : IsName target) : ∀ c ∈ target.toList, isBlank c = false := by
  intro c hc
  have hchar := h.2 c hc
  cases hblank : isBlank c with
  | false => rfl
  | true =>
    simp only [isNameChar, isWord_eq_false_of_isBlank hblank, Bool.false_or, Bool.or_eq_true,
      beq_iff_eq, or_assoc] at hchar
    rcases hchar with rfl | rfl | rfl <;> cases hblank

/-- Within the bracket around a name no other one is opened. -/
theorem Listing.IsName.bracket_not_mem (h : IsName target) : '<' ∉ target.toList ++ ['>'] := by
  intro hmem
  rcases List.mem_append.mp hmem with hmem | hmem
  · have hchar := h.2 _ hmem
    cases hchar
  · simp at hmem

namespace MnemonicSet

variable {s : MnemonicSet} {n : String}

/-- Where a mnemonic stands on such a line, the run is the mnemonic of the line or its address. -/
theorem run_of_instruction (hs : s.Made) (hm : ∀ c ∈ m, isBlank c = false)
    (haddress : IsAddress address) (htarget : IsName target)
    (h : s.StandsInRun (instruction m address target.toList) x n y) :
    x ++ (n.toList ++ y) = m ∨ x ++ (n.toList ++ y) = address := by
  obtain ⟨hn, -, before, after, htext, hrun, i, name, hbracket⟩ := h
  have htab : isBlank '\t' = true := by decide
  have htext₀ : [] ++ '\t' :: (m ++ '\t' :: (address ++ ' ' :: '<' :: (target.toList ++ ['>']))) =
      before ++ ((x ++ (n.toList ++ y)) ++ after) := htext
  -- The three blanks of the line part its runs.
  rcases hrun.split htab htext₀ with ⟨after₁, hnil, -⟩ | ⟨before₁, -, htext₁, hrun₁⟩
  · have hlength := congrArg List.length hnil
    have hpos := List.length_pos_of_ne_nil hrun.ne_nil
    simp only [List.length_nil, List.length_append] at hlength hpos
    omega
  rcases hrun₁.split htab htext₁ with ⟨after₂, hfront, -, hrun₂⟩ | ⟨before₂, -, htext₂, hrun₂⟩
  · left
    obtain ⟨rfl, rfl⟩ := hrun₂.eq_of_solid (hfront ▸ hm)
    rw [hfront, List.nil_append, List.append_nil]
  rcases hrun₂.split (by decide) htext₂ with ⟨after₃, hfront, -, hrun₃⟩ | ⟨before₃, -, htext₃, hrun₃⟩
  · right
    have hsolid : ∀ c ∈ address, isBlank c = false :=
      fun c hc => isBlank_eq_false_of_isDigit (haddress.2 c hc)
    obtain ⟨rfl, rfl⟩ := hrun₃.eq_of_solid (hfront ▸ hsolid)
    rw [hfront, List.nil_append, List.append_nil]
  -- The run is the bracket, so no other bracket comes after the mnemonic.
  exfalso
  have hsolid : ∀ c ∈ '<' :: (target.toList ++ ['>']), isBlank c = false := by
    intro c hc
    simp only [List.mem_cons, List.mem_append, List.not_mem_nil, or_false] at hc
    rcases hc with rfl | hc | rfl
    · decide
    · exact htarget.solid c hc
    · decide
  obtain ⟨rfl, rfl⟩ := hrun₃.eq_of_solid (htext₃ ▸ hsolid)
  have hopen : '<' ∈ y := by
    obtain ⟨front, rest, hline, -⟩ := hbracket
    have hmem : '<' ∈ (y ++ []).takeWhile (· != '\n') := by
      rw [hline]
      simp
    rw [← List.append_nil y]
    exact List.takeWhile_subset _ hmem
  have htail : '<' ∈ (x ++ (n.toList ++ y)).tail := by
    rw [← List.append_assoc]
    cases hfront : x ++ n.toList with
    | nil => exact absurd (List.append_eq_nil_iff.mp hfront).2 (ne_nil_of_made hs hn)
    | cons d ds => simp [hopen]
  rw [List.nil_append, List.append_nil] at htext₃
  rw [← htext₃] at htail
  exact htarget.bracket_not_mem htail

variable (hs : s.Made) (hn : n ∈ s.names) (haddress : IsAddress address) (htarget : IsName target)
include hs hn haddress htarget

theorem wordEnds_of_callee? {found : String} (honly : ∀ n' ∈ s.names, n' = n)
    (h : s.callee? (instruction n.toList address target.toList) = some found) :
    WordEnds n.toList := by
  have hne := ne_nil_of_made hs hn
  obtain ⟨x, n', y, hstands⟩ := (exists_callee?_iff hs _).mp ⟨found, h⟩
  obtain rfl := honly n' hstands.1
  rcases run_of_instruction hs (solid_of_made hs hn) haddress htarget hstands with hrun | hrun
  · have hlength := congrArg List.length hrun
    simp only [List.length_append] at hlength
    obtain rfl := List.length_eq_zero_iff.mp (show x.length = 0 by omega)
    obtain rfl := List.length_eq_zero_iff.mp (show y.length = 0 by omega)
    exact (standsBetween_iff_wordEnds hne rfl rfl).mp hstands.2.1
  · -- A mnemonic that is part of an address has digits only.
    refine wordEnds_of_isWord hne fun c hc => isWord_of_isDigit (haddress.2 c ?_)
    rw [← hrun]
    simp [hc]

theorem callee?_of_wordEnds (h : WordEnds n.toList) :
    s.callee? (instruction n.toList address target.toList) = some target := by
  have hsolid := solid_of_made hs hn
  have hfeed : '\n' ∉ instruction n.toList address target.toList := by
    have hmnemonic : '\n' ∉ n.toList := fun hmem => absurd (hsolid _ hmem) (by decide)
    simp [instruction, hmnemonic, haddress.lineFeed_not_mem, htarget.lineFeed_not_mem]
  rw [callee?_of_not_mem hfeed]
  refine calleeIn?_eq_some_iff.mpr ⟨['\t'], n, _, rfl, hn, ?_, ?_⟩
  · exact (standsBetween_iff_wordEnds (ne_nil_of_made hs hn) rfl rfl).mpr h
  · have hname := lastName?_bracket ('\t' :: (address ++ [' '])) htarget.1 htarget.2
    simpa using hname

end MnemonicSet

variable {text word : String} {s : MnemonicSet}

theorem givesMnemonic_iff_trimmed (htrims : Trims text.toList word.toList) :
    GivesMnemonic text ↔ IsMnemonic word := by
  constructor
  · intro h
    obtain ⟨word', htrims', hword⟩ := h
    have hsame : word'.toList = word.toList := by
      rw [← trim_eq_iff.mpr htrims', trim_eq_iff.mpr htrims]
    rwa [String.toList_inj.mp hsame] at hword
  · intro h
    exact ⟨word, htrims, h⟩

theorem ofTexts_single_error (htrims : Trims text.toList word.toList) {fault : Fault} :
    MnemonicSet.ofTexts [text] = .error fault ↔ ¬ IsMnemonic word ∧ fault = .badMnemonic text := by
  rw [MnemonicSet.ofTexts_eq_error_iff, tokens_eq_error_iff, ← givesMnemonic_iff_trimmed htrims,
    givesMnemonic_iff, not_not]
  constructor
  · intro h
    obtain ⟨bad, ⟨before, after, htexts, -, hbad⟩, rfl⟩ := h
    obtain ⟨rfl, rfl, rfl⟩ : before = [] ∧ text = bad ∧ after = [] := by
      cases before with
      | nil => simpa [eq_comm] using htexts
      | cons b before => simp at htexts
    exact ⟨hbad, rfl⟩
  · intro h
    exact ⟨text, ⟨[], [], rfl, by simp, h.1⟩, h.2⟩

/-- One accepted text makes a set of one mnemonic, the trimmed text. -/
theorem mem_names_of_single (htrims : Trims text.toList word.toList)
    (h : MnemonicSet.ofTexts [text] = .ok s) (n : String) : n ∈ s.names ↔ n = word := by
  rw [(MnemonicSet.ofTexts_eq_ok_iff.mp h).2 n]
  simp only [List.mem_singleton, exists_eq_left]
  constructor
  · intro hn
    rw [← String.toList_inj, ← trim_eq_iff.mpr hn, trim_eq_iff.mpr htrims]
  · rintro rfl
    exact htrims

theorem exists_set_of_single (htrims : Trims text.toList word.toList) (h : IsMnemonic word) :
    ∃ s, MnemonicSet.ofTexts [text] = .ok s := by
  apply AllTokens.ofTexts_eq_ok
  intro t ht
  rw [List.mem_singleton.mp ht, ← givesMnemonic_iff, givesMnemonic_iff_trimmed htrims]
  exact h

/-- A mnemonic is refused if and only if, once trimmed, it is empty or has blanks or brackets in it.
One that is accepted is found in all its instructions if it starts and ends in word characters.
Otherwise it is found in none of them: wherever it stands in a text, it is part of a longer run. -/
theorem accepted_mnemonic_found_iff (htrims : Trims text.toList word.toList) :
    (∀ fault, MnemonicSet.ofTexts [text] = .error fault ↔
      ¬ IsMnemonic word ∧ fault = .badMnemonic text) ∧
    ((∀ s, MnemonicSet.ofTexts [text] = .ok s → ∀ address target, IsAddress address → IsName target →
        s.callee? (instruction word.toList address target.toList) = some target) ↔
      ¬ IsMnemonic word ∨ WordEnds word.toList) ∧
    ∀ s, MnemonicSet.ofTexts [text] = .ok s → ¬ WordEnds word.toList →
      (∀ address target, IsAddress address → IsName target →
        s.callee? (instruction word.toList address target.toList) = none) ∧
      ∀ line x y, s.StandsInRun line x word y → x ≠ [] ∨ y ≠ [] := by
  refine ⟨fun fault => ofTexts_single_error htrims, ⟨fun h => ?_, fun h s hset => ?_⟩,
    fun s hset hends => ⟨fun address target haddress htarget => ?_, fun line x y hstands => ?_⟩⟩
  · by_cases hword : IsMnemonic word
    · right
      obtain ⟨s, hset⟩ := exists_set_of_single htrims hword
      have hnames := mem_names_of_single htrims hset
      have haddress : IsAddress ['0'] := by simp [IsAddress, Hex.isDigit]
      have htarget : IsName "f" := isName_iff.mpr ⟨rfl, rfl⟩
      exact MnemonicSet.wordEnds_of_callee? (.texts hset) ((hnames word).mpr rfl) haddress htarget
        (fun n hn => (hnames n).mp hn) (h s hset _ _ haddress htarget)
    · exact .inl hword
  · intro address target haddress htarget
    have hnames := mem_names_of_single htrims hset
    rcases h with hword | hends
    · have herror := (ofTexts_single_error htrims).mpr ⟨hword, rfl⟩
      rw [hset] at herror
      cases herror
    · exact MnemonicSet.callee?_of_wordEnds (.texts hset) ((hnames word).mpr rfl) haddress htarget
        hends
  · have hnames := mem_names_of_single htrims hset
    apply Option.eq_none_iff_forall_ne_some.mpr
    intro found hfound
    exact hends (MnemonicSet.wordEnds_of_callee? (.texts hset) ((hnames word).mpr rfl) haddress
      htarget (fun n hn => (hnames n).mp hn) hfound)
  · by_contra hwhole
    obtain ⟨rfl, rfl⟩ : x = [] ∧ y = [] := by simpa [not_or] using hwhole
    have hne := MnemonicSet.ne_nil_of_made (.texts hset) hstands.1
    exact hends ((standsBetween_iff_wordEnds hne rfl rfl).mp hstands.2.1)

/-- A mnemonic with marks inside it, given with blanks around it, is found. -/
theorem marks_within_mnemonic_are_found :
    Trims " b.w\t".toList "b.w".toList ∧
    MnemonicSet.ofTexts [" b.w\t"] = .ok ⟨.ofList ["b.w"]⟩ ∧
    MnemonicSet.callee? ⟨.ofList ["b.w"]⟩ "\tb.w\t8000 <x>".toList = some "x" := by
  have htrims : Trims " b.w\t".toList "b.w".toList := trim_eq_iff.mp (by decide +kernel)
  have hset : MnemonicSet.ofTexts [" b.w\t"] = .ok ⟨.ofList ["b.w"]⟩ := by decide +kernel
  have haddress : IsAddress "8000".toList := by simp [IsAddress, Hex.isDigit]
  have hfound := (accepted_mnemonic_found_iff htrims).2.1.mpr (.inr ⟨rfl, rfl⟩) _ hset "8000".toList
    "x" haddress (isName_iff.mpr ⟨rfl, rfl⟩)
  exact ⟨htrims, hset, hfound⟩

/-- A branch with a hint at its end is accepted as a mnemonic, and its instruction calls nobody. -/
theorem mark_at_end_is_never_found :
    MnemonicSet.ofTexts ["bnel+"] = .ok ⟨.ofList ["bnel+"]⟩ ∧
    instruction "bnel+".toList "10000394".toList "init".toList =
      "\tbnel+\t10000394 <init>".toList ∧
    MnemonicSet.callee? ⟨.ofList ["bnel+"]⟩ "\tbnel+\t10000394 <init>".toList = none := by
  refine ⟨?_, ?_, ?_⟩
  all_goals decide +kernel

end CodeReach
