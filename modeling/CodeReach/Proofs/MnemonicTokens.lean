import CodeReach.Mnemonic

namespace CodeReach

variable {texts ts : List String} {text m : String} {fault : Fault} {s : MnemonicSet}

/-- The first text of a list that gives no token. -/
def FirstBad (texts : List String) (text : String) : Prop :=
  ∃ before after, texts = before ++ text :: after ∧ (∀ t ∈ before, token? t ≠ none) ∧
    token? text = none

theorem firstBad_cons {t : String} : FirstBad (t :: texts) text ↔
    (t = text ∧ token? t = none) ∨ (token? t ≠ none ∧ FirstBad texts text) := by
  constructor
  · rintro ⟨before, after, htexts, hbefore, hbad⟩
    cases before with
    | nil =>
      obtain ⟨rfl, -⟩ := List.cons.inj htexts
      exact .inl ⟨rfl, hbad⟩
    | cons b before =>
      obtain ⟨rfl, rfl⟩ := List.cons.inj htexts
      rw [List.forall_mem_cons] at hbefore
      exact .inr ⟨hbefore.1, before, after, rfl, hbefore.2, hbad⟩
  · rintro (⟨rfl, hbad⟩ | ⟨hgood, before, after, rfl, hbefore, hbad⟩)
    · exact ⟨[], texts, rfl, by simp, hbad⟩
    · refine ⟨t :: before, after, rfl, ?_, hbad⟩
      rw [List.forall_mem_cons]
      exact ⟨hgood, hbefore⟩

theorem tokens_eq_error_iff :
    tokens texts = .error fault ↔ ∃ text, FirstBad texts text ∧ fault = .badMnemonic text := by
  induction texts with
  | nil => simp [tokens, FirstBad]
  | cons t texts ih =>
    cases ht : token? t with
    | none =>
      simp only [tokens, ht, firstBad_cons]
      simp [eq_comm]
    | some token =>
      have hmap : tokens (t :: texts) = .error fault ↔ tokens texts = .error fault := by
        simp only [tokens, ht]
        cases tokens texts <;> simp [Except.map]
      rw [hmap, ih]
      simp [firstBad_cons, ht]

theorem FirstBad.tokens_eq_error (h : FirstBad texts text) :
    tokens texts = .error (.badMnemonic text) :=
  tokens_eq_error_iff.mpr ⟨text, h, rfl⟩

theorem tokens_eq_ok_iff : tokens texts = .ok ts ↔ texts.map token? = ts.map some := by
  induction texts generalizing ts with
  | nil => cases ts <;> simp [tokens]
  | cons t texts ih =>
    cases ht : token? t with
    | none => cases ts <;> simp [tokens, ht]
    | some token =>
      simp only [tokens, ht]
      cases ts with
      | nil => cases tokens texts <;> simp [Except.map]
      | cons u ts =>
        rw [List.map_cons, List.map_cons, ht, List.cons.injEq, ← ih]
        cases tokens texts <;> simp [Except.map]

theorem mem_of_tokens_eq_ok (h : tokens texts = .ok ts) :
    m ∈ ts ↔ ∃ text ∈ texts, token? text = some m := by
  have hmem : m ∈ ts ↔ some m ∈ ts.map some := by simp
  rw [hmem, ← tokens_eq_ok_iff.mp h, List.mem_map]

def AllTokens (texts : List String) : Prop := ∀ text ∈ texts, token? text ≠ none

theorem AllTokens.tokens_eq_ok (h : AllTokens texts) : ∃ ts, tokens texts = .ok ts := by
  cases htokens : tokens texts with
  | ok ts => exact ⟨ts, rfl⟩
  | error fault =>
    obtain ⟨text, ⟨before, after, rfl, -, hbad⟩, -⟩ := tokens_eq_error_iff.mp htokens
    exact absurd hbad (h text (by simp))

/-- All texts give tokens, or there is a first that gives none. -/
theorem allTokens_or_firstBad (texts : List String) :
    AllTokens texts ∨ ∃ text, FirstBad texts text := by
  cases h : tokens texts with
  | error fault =>
    obtain ⟨text, hbad, -⟩ := tokens_eq_error_iff.mp h
    exact .inr ⟨text, hbad⟩
  | ok ts =>
    refine .inl fun text htext hnone => ?_
    have hmem : none ∈ ts.map some := by
      rw [← tokens_eq_ok_iff.mp h, ← hnone]
      exact List.mem_map_of_mem htext
    simp at hmem

theorem isToken_of_token? (h : token? text = some m) : isToken m.toList = true := by
  unfold token? at h
  split at h
  · next htoken =>
    cases h
    rw [String.toList_ofList]
    exact htoken
  · cases h

theorem AllTokens.ofTexts_eq_ok (h : AllTokens texts) : ∃ s, MnemonicSet.ofTexts texts = .ok s := by
  obtain ⟨ts, hts⟩ := h.tokens_eq_ok
  rw [MnemonicSet.ofTexts, hts]
  exact ⟨_, rfl⟩

theorem AllTokens.extend_eq_ok (h : AllTokens texts) (s : MnemonicSet) :
    ∃ s', s.extend texts = .ok s' := by
  obtain ⟨ts, hts⟩ := h.tokens_eq_ok
  rw [MnemonicSet.extend, hts]
  exact ⟨_, rfl⟩

theorem MnemonicSet.ext_names {s' : MnemonicSet} (h : ∀ m, m ∈ s.names ↔ m ∈ s'.names) :
    s = s' := by
  obtain ⟨names⟩ := s
  obtain ⟨names'⟩ := s'
  congr
  exact NameSet.ext h

/-- The sets that can be made: a preset, a list of one's own, and any of these with more names. -/
inductive MnemonicSet.Made : MnemonicSet → Prop
  | preset (p : Preset) : Made (.ofPreset p)
  | texts {texts : List String} {s : MnemonicSet} (h : ofTexts texts = .ok s) : Made s
  | extended {texts : List String} {s s' : MnemonicSet} (hs : Made s)
      (h : s.extend texts = .ok s') : Made s'

theorem MnemonicSet.mem_of_ofTexts (h : ofTexts texts = .ok s) :
    m ∈ s.names ↔ ∃ text ∈ texts, token? text = some m := by
  unfold ofTexts at h
  cases htokens : tokens texts with
  | error fault =>
    rw [htokens] at h
    cases h
  | ok ts =>
    rw [htokens] at h
    cases h
    rw [NameSet.mem_ofList, mem_of_tokens_eq_ok htokens]

theorem MnemonicSet.mem_of_extend {s' : MnemonicSet} (h : s.extend texts = .ok s') :
    m ∈ s'.names ↔ m ∈ s.names ∨ ∃ text ∈ texts, token? text = some m := by
  unfold extend at h
  cases htokens : tokens texts with
  | error fault =>
    rw [htokens] at h
    cases h
  | ok ts =>
    rw [htokens] at h
    cases h
    rw [NameSet.mem_insertAll, mem_of_tokens_eq_ok htokens, or_comm]

theorem MnemonicSet.Made.isToken (hs : s.Made) (hm : m ∈ s.names) :
    isToken m.toList = true := by
  induction hs with
  | preset p =>
    have hnames : ∀ name ∈ p.mnemonics, CodeReach.isToken name.toList = true := by
      cases p <;> simp [Preset.mnemonics, CodeReach.isToken, Text.isBlank, Text.blankRanges,
        Text.inRanges]
    exact hnames m (NameSet.mem_ofList.mp hm)
  | texts h =>
    obtain ⟨text, -, htoken⟩ := (mem_of_ofTexts h).mp hm
    exact isToken_of_token? htoken
  | extended hs h ih =>
    rcases (mem_of_extend h).mp hm with hm | ⟨text, -, htoken⟩
    · exact ih hm
    · exact isToken_of_token? htoken

theorem not_mem_of_isToken {cs : List Char} {c : Char} (h : isToken cs = true)
    (hc : Text.isBlank c = true) : c ∉ cs := by
  intro hmem
  simp only [isToken, Bool.and_eq_true, List.all_eq_true] at h
  have hsolid := h.2 c hmem
  simp [hc] at hsolid

end CodeReach
