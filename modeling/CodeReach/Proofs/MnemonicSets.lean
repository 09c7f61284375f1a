import CodeReach.Proofs.LineGrammar
import CodeReach.Proofs.MnemonicTokens
import CodeReach.Settings

namespace CodeReach

open Text

namespace Text

variable {cs core : List Char}

/-- `core` is `cs` without the blanks at its ends. -/
def Trims (cs core : List Char) : Prop :=
  ∃ before after, cs = before ++ (core ++ after) ∧
    (∀ c ∈ before, isBlank c = true) ∧ (∀ c ∈ after, isBlank c = true) ∧
    (∀ c ∈ core.head?, isBlank c = false) ∧ ∀ c ∈ core.getLast?, isBlank c = false

theorem skipBlanks_eq_nil (h : ∀ c ∈ cs, isBlank c = true) : skipBlanks cs = [] := by
  have hskip : skipBlanks (cs ++ []) = [] := skipBlanks_eq h (by simp)
  simpa using hskip

theorem head?_skipBlanks (cs : List Char) : ∀ c ∈ (skipBlanks cs).head?, isBlank c = false :=
  (spans_takeWhile isBlank cs).2.2

theorem trims_trim (cs : List Char) : Trims cs (trim cs) := by
  obtain ⟨before, hcs, hbefore⟩ := exists_blanks cs
  obtain ⟨after, hrest, hafter⟩ := exists_blanks (skipBlanks cs).reverse
  have hbody : skipBlanks cs = trim cs ++ after.reverse := by
    have hreverse := congrArg List.reverse hrest
    rwa [List.reverse_reverse, List.reverse_append] at hreverse
  refine ⟨before, after.reverse, hbody ▸ hcs, hbefore, by simpa using hafter, ?_, ?_⟩
  · intro c hc
    apply head?_skipBlanks cs
    rw [hbody, List.head?_append, Option.mem_def.mp hc]
    rfl
  · rw [trim, List.getLast?_reverse]
    exact head?_skipBlanks _

theorem trim_eq_iff : trim cs = core ↔ Trims cs core := by
  constructor
  · rintro rfl
    exact trims_trim cs
  · rintro ⟨before, after, rfl, hbefore, hafter, hhead, hlast⟩
    unfold trim
    cases core with
    | nil =>
      have hall : ∀ c ∈ before ++ ([] ++ after), isBlank c = true := by
        intro c hc
        rcases List.mem_append.mp hc with h | h
        · exact hbefore c h
        · exact hafter c h
      rw [skipBlanks_eq_nil hall]
      rfl
    | cons c core =>
      have hend : ∀ d ∈ (c :: core).reverse.head?, isBlank d = false := by
        rw [List.head?_reverse]
        exact hlast
      rw [skipBlanks_eq hbefore (by simpa using hhead), List.reverse_append,
        skipBlanks_eq (by simpa using hafter) hend, List.reverse_reverse]

end Text

/-- A word that can be a mnemonic: it is not empty and has neither blanks nor angle brackets. -/
def IsMnemonic (m : String) : Prop :=
  m ≠ "" ∧ ∀ c ∈ m.toList, isBlank c = false ∧ c ≠ '<' ∧ c ≠ '>'

/-- What a text gives, once the blanks around it are dropped, is a mnemonic. -/
def GivesMnemonic (text : String) : Prop := ∃ m, Trims text.toList m.toList ∧ IsMnemonic m

/-- The first text of a list that gives no mnemonic. -/
def FirstRefused (texts : List String) (text : String) : Prop :=
  ∃ before after, texts = before ++ text :: after ∧ (∀ t ∈ before, GivesMnemonic t) ∧
    ¬ GivesMnemonic text

variable {texts : List String} {text m : String} {fault : Fault} {s s' : MnemonicSet}

theorem isToken_iff : isToken m.toList = true ↔ IsMnemonic m := by
  simp [isToken, IsMnemonic, and_assoc]

theorem token?_eq_some_iff : token? text = some m ↔ Trims text.toList m.toList ∧ IsMnemonic m := by
  have htrim : String.ofList (trim text.toList) = m ↔ Trims text.toList m.toList := by
    rw [← trim_eq_iff, ← String.toList_inj, String.toList_ofList]
  unfold token?
  rw [← htrim, ← isToken_iff]
  split
  · next h =>
    rw [Option.some.injEq]
    refine ⟨?_, And.left⟩
    rintro rfl
    rw [String.toList_ofList]
    exact ⟨rfl, h⟩
  · next h =>
    refine iff_of_false (by simp) ?_
    rintro ⟨rfl, htoken⟩
    rw [String.toList_ofList] at htoken
    exact h htoken

theorem givesMnemonic_iff : GivesMnemonic text ↔ token? text ≠ none := by
  rw [Option.ne_none_iff_exists']
  simp only [token?_eq_some_iff]
  rfl

theorem firstRefused_iff : FirstRefused texts text ↔ FirstBad texts text := by
  simp only [FirstRefused, FirstBad, givesMnemonic_iff, not_not]

theorem tokens_append (xs ys : List String) :
    tokens (xs ++ ys) = (tokens xs).bind fun ts => (tokens ys).map (ts ++ ·) := by
  induction xs with
  | nil =>
    rw [List.nil_append, tokens]
    cases tokens ys <;> rfl
  | cons x xs ih =>
    rw [List.cons_append, tokens, tokens, ih]
    cases token? x with
    | none => rfl
    | some t => cases tokens xs <;> cases tokens ys <;> rfl

namespace MnemonicSet

theorem extend_eq_error_iff : s.extend texts = .error fault ↔ tokens texts = .error fault := by
  unfold extend
  cases tokens texts <;> simp [Except.map]

theorem ofTexts_eq_error_iff : ofTexts texts = .error fault ↔ tokens texts = .error fault := by
  unfold ofTexts
  cases tokens texts <;> simp [Except.map]

theorem ofTexts_eq_ok_iff : ofTexts texts = .ok s ↔
    (∀ text ∈ texts, GivesMnemonic text) ∧
      ∀ m, m ∈ s.names ↔ ∃ text ∈ texts, Trims text.toList m.toList := by
  -- Among texts that all give mnemonics, what a text is trimmed to is the mnemonic it gives.
  have hnames : AllTokens texts → ∀ m, (∃ text ∈ texts, token? text = some m) ↔
      ∃ text ∈ texts, Trims text.toList m.toList := by
    intro hall m
    constructor
    · rintro ⟨text, htext, htoken⟩
      exact ⟨text, htext, (token?_eq_some_iff.mp htoken).1⟩
    · rintro ⟨text, htext, htrims⟩
      obtain ⟨m', htrims', hm'⟩ := givesMnemonic_iff.mpr (hall text htext)
      have hsame : m' = m := by
        rw [← String.toList_inj, ← trim_eq_iff.mpr htrims', trim_eq_iff.mpr htrims]
      exact ⟨text, htext, token?_eq_some_iff.mpr ⟨htrims, hsame ▸ hm'⟩⟩
  simp only [givesMnemonic_iff]
  constructor
  · intro h
    have hall : AllTokens texts := by
      rcases allTokens_or_firstBad texts with hall | ⟨text, hbad⟩
      · exact hall
      · rw [ofTexts, hbad.tokens_eq_error] at h
        cases h
    exact ⟨hall, fun m => (mem_of_ofTexts h).trans (hnames hall m)⟩
  · rintro ⟨hall, hmem⟩
    obtain ⟨c, hc⟩ := AllTokens.ofTexts_eq_ok hall
    have hsame : c = s := ext_names fun m => by
      rw [mem_of_ofTexts hc, hnames hall, hmem]
    exact hsame ▸ hc

theorem extend_eq_ok_iff : s.extend texts = .ok s' ↔
    ∃ c, ofTexts texts = .ok c ∧ ∀ m, m ∈ s'.names ↔ m ∈ s.names ∨ m ∈ c.names := by
  cases htokens : tokens texts with
  | error fault => simp [extend, ofTexts, htokens, Except.map]
  | ok ts =>
    have hextend : s.extend texts = .ok ⟨s.names.insertAll ts⟩ := by
      rw [extend, htokens]
      rfl
    have hofTexts : ofTexts texts = .ok ⟨.ofList ts⟩ := by
      rw [ofTexts, htokens]
      rfl
    rw [hextend, hofTexts]
    simp only [Except.ok.injEq, exists_eq_left', NameSet.mem_ofList, ← NameSet.mem_insertAll]
    constructor
    · rintro rfl m
      exact Iff.rfl
    · intro h
      exact ext_names fun m => (h m).symm

/-- Adding two lists one after the other is adding them at once, faults included. -/
theorem extend_extend (s : MnemonicSet) (xs ys : List String) :
    (s.extend xs).bind (·.extend ys) = s.extend (xs ++ ys) := by
  unfold extend
  rw [tokens_append]
  cases tokens xs with
  | error fault => rfl
  | ok ts =>
    cases tokens ys with
    | error fault => rfl
    | ok us =>
      have hnames : (s.names.insertAll ts).insertAll us = s.names.insertAll (ts ++ us) :=
        List.foldl_append.symm
      simp [Except.bind, Except.map, hnames]

end MnemonicSet

namespace Settings

variable {settings : Settings}

/-- Settings are read only if their own mnemonics are in order. -/
theorem mnemonics_of_read {files : Files} (h : read files = .ok settings) :
    ∃ set, settings.mnemonics = .ok set := by
  unfold read at h
  split at h
  · unfold ofText at h
    split at h
    · cases h
    · unfold check at h
      split at h
      · next set hset =>
        cases h
        exact ⟨set, hset⟩
      · cases h
  · cases h
    exact ⟨_, rfl⟩
  · cases h

theorem choose_eq_error_iff {set : MnemonicSet} (hset : settings.mnemonics = .ok set)
    (given : List String) (tailCalls : Bool) :
    settings.chooseMnemonics given tailCalls = .error fault ↔ tokens given = .error fault := by
  cases given with
  | nil => cases tailCalls <;> simp [chooseMnemonics, tokens, hset]
  | cons text given => exact MnemonicSet.ofTexts_eq_error_iff

end Settings

/-- However a mnemonic set is made, its names are words without blanks and brackets. A list of texts
makes a set if and only if every text gives such a word when it is trimmed; the names of the set are
then these words, and otherwise the fault is the first text that gives none, as it was given. More
texts added to a set give the union of it and the set of the texts, with the same fault, and it is
the same to add two lists one by one or at once. With settings that have been read, only a mnemonic
given to the command can be refused. -/
theorem mnemonic_sets_hold_words :
    (∀ s : MnemonicSet, s.Made → ∀ m ∈ s.names, IsMnemonic m) ∧
    (∀ (texts : List String) (s : MnemonicSet), MnemonicSet.ofTexts texts = .ok s ↔
      (∀ text ∈ texts, GivesMnemonic text) ∧
        ∀ m, m ∈ s.names ↔ ∃ text ∈ texts, Trims text.toList m.toList) ∧
    (∀ (texts : List String) (fault : Fault), MnemonicSet.ofTexts texts = .error fault ↔
      ∃ text, FirstRefused texts text ∧ fault = .badMnemonic text) ∧
    (∀ (s s' : MnemonicSet) (texts : List String), s.extend texts = .ok s' ↔
      ∃ c, MnemonicSet.ofTexts texts = .ok c ∧
        ∀ m, m ∈ s'.names ↔ m ∈ s.names ∨ m ∈ c.names) ∧
    (∀ (s : MnemonicSet) (texts : List String) (fault : Fault),
      s.extend texts = .error fault ↔ MnemonicSet.ofTexts texts = .error fault) ∧
    (∀ (s : MnemonicSet) (xs ys : List String),
      (s.extend xs).bind (·.extend ys) = s.extend (xs ++ ys)) ∧
    (∀ (files : Files) (settings : Settings), Settings.read files = .ok settings →
      ∀ (given : List String) (tailCalls : Bool) (fault : Fault),
        settings.chooseMnemonics given tailCalls = .error fault ↔
          ∃ text, FirstRefused given text ∧ fault = .badMnemonic text) := by
  have hfirst : ∀ (texts : List String) (fault : Fault), tokens texts = .error fault ↔
      ∃ text, FirstRefused texts text ∧ fault = .badMnemonic text := by
    intro texts fault
    rw [tokens_eq_error_iff]
    simp only [firstRefused_iff]
  refine ⟨fun s hs m hm => isToken_iff.mp (hs.isToken hm),
    fun texts s => MnemonicSet.ofTexts_eq_ok_iff, fun texts fault => ?_,
    fun s s' texts => MnemonicSet.extend_eq_ok_iff, fun s texts fault => ?_,
    MnemonicSet.extend_extend, fun files settings hread given tailCalls fault => ?_⟩
  · rw [MnemonicSet.ofTexts_eq_error_iff, hfirst]
  · rw [MnemonicSet.extend_eq_error_iff, MnemonicSet.ofTexts_eq_error_iff]
  · obtain ⟨set, hset⟩ := Settings.mnemonics_of_read hread
    rw [Settings.choose_eq_error_iff hset, hfirst]

/-- Blanks around a mnemonic are dropped and those within it are not: of three texts the second is
refused, whether the set is made of them or they are given beside settings that name `jal`. -/
theorem blank_within_is_refused :
    (∃ s, (MnemonicSet.ofPreset .linked).extend ["\u2003jal\t", "bl"] = .ok s ∧ "jal" ∈ s.names ∧
      ∀ m ∈ s.names, IsMnemonic m) ∧
    FirstRefused ["bl ", " b l", "<"] " b l" ∧
    MnemonicSet.ofTexts ["bl ", " b l", "<"] = .error (.badMnemonic " b l") ∧
    ∃ (files : Files) (settings : Settings), Settings.read files = .ok settings ∧
      settings.calls = some ⟨.linked, ["jal"]⟩ ∧
      settings.chooseMnemonics ["bl ", " b l", "<"] true = .error (.badMnemonic " b l") := by
  obtain ⟨hmade, -, herror, -, -, -, hchoose⟩ := mnemonic_sets_hold_words
  have hfirst : FirstRefused ["bl ", " b l", "<"] " b l" :=
    firstRefused_iff.mpr ⟨["bl "], ["<"], rfl, by decide +kernel, by decide +kernel⟩
  have hextend : (MnemonicSet.ofPreset .linked).extend ["\u2003jal\t", "bl"] =
      .ok ⟨.ofList ["bl", "blx", "call", "callq", "jal"]⟩ := by
    decide +kernel
  let files : Files := fun _ => some (.file "calls = ['linked', ['jal']]".toUTF8)
  have hread : Settings.read files = .ok ⟨some ⟨.linked, ["jal"]⟩, none⟩ := by
    decide +kernel
  refine ⟨⟨_, hextend, by decide +kernel, hmade _ (.extended (.preset .linked) hextend)⟩, hfirst,
    (herror _ _).mpr ⟨_, hfirst, rfl⟩, files, _, hread, rfl,
    (hchoose files _ hread _ _ _).mpr ⟨_, hfirst, rfl⟩⟩

end CodeReach
