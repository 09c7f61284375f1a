import CodeReach.Failure
import CodeReach.Report.Console
import Mathlib

namespace CodeReach

open Text

namespace Text

/-- What may stand between the bracket and the letter of a colour sequence. -/
def isParameter (c : Char) : Bool := c.isDigit || c == ';'

/-- The length of the colour sequence at the start of a text, if there is one: an escape character,
a bracket, parameters and an `m`. -/
def sequenceLength : List Char → Nat
  | '\x1b' :: '[' :: cs =>
    if (cs.dropWhile isParameter).head? = some 'm' then (cs.takeWhile isParameter).length + 3 else 0
  | _ => 0

/-- A text without its colour sequences; of the one that has been begun, `skip` characters are left.
-/
def stripFrom : Nat → List Char → List Char
  | _, [] => []
  | skip + 1, _ :: cs => stripFrom skip cs
  | 0, c :: cs =>
    if sequenceLength (c :: cs) = 0 then c :: stripFrom 0 cs
    else stripFrom (sequenceLength (c :: cs) - 1) cs

def stripColors (s : String) : String := String.ofList (stripFrom 0 s.toList)

/-- There is no escape character in a text. -/
def NoEscape (s : String) : Prop := '\x1b' ∉ s.toList

instance (s : String) : Decidable (NoEscape s) := inferInstanceAs (Decidable ('\x1b' ∉ s.toList))

variable {xs rest : List Char} {a b code : String}

theorem stripFrom_skip (xs rest : List Char) :
    stripFrom xs.length (xs ++ rest) = stripFrom 0 rest := by
  induction xs with
  | nil => rfl
  | cons x xs ih => exact ih

theorem stripFrom_text (h : '\x1b' ∉ xs) (rest : List Char) :
    stripFrom 0 (xs ++ rest) = xs ++ stripFrom 0 rest := by
  induction xs with
  | nil => rfl
  | cons x xs ih =>
    rw [List.mem_cons, not_or] at h
    have hlength : sequenceLength (x :: (xs ++ rest)) = 0 := by
      unfold sequenceLength
      split
      · next heq => exact absurd (List.cons.inj heq).1.symm h.1
      · rfl
    rw [List.cons_append, stripFrom, if_pos hlength, ih h.2, List.cons_append]

theorem sequenceLength_escape (h : ∀ c ∈ code.toList, isParameter c = true) (rest : List Char) :
    sequenceLength ((escape code).toList ++ rest) = (escape code).toList.length := by
  have hseq : (escape code).toList ++ rest = '\x1b' :: '[' :: (code.toList ++ 'm' :: rest) := by
    simp [escape]
  have htake : (code.toList ++ 'm' :: rest).takeWhile isParameter = code.toList := by
    rw [List.takeWhile_append_of_pos h]
    simp [isParameter]
  have hdrop : (code.toList ++ 'm' :: rest).dropWhile isParameter = 'm' :: rest := by
    rw [List.dropWhile_append_of_pos h]
    simp [isParameter]
  rw [hseq, sequenceLength, htake, hdrop]
  simp [escape]

theorem stripFrom_escape (h : ∀ c ∈ code.toList, isParameter c = true) (rest : List Char) :
    stripFrom 0 ((escape code).toList ++ rest) = stripFrom 0 rest := by
  have hlength := sequenceLength_escape h rest
  cases hseq : (escape code).toList with
  | nil => simp [escape] at hseq
  | cons c cs =>
    rw [hseq, List.cons_append, List.length_cons] at hlength
    rw [List.cons_append, stripFrom, hlength, if_neg (by omega), Nat.add_sub_cancel]
    exact stripFrom_skip cs rest

theorem stripFrom_chosen {α : Type} {code : α → String} (o : Option α)
    (h : ∀ a, ∀ c ∈ (code a).toList, isParameter c = true) (rest : List Char) :
    stripFrom 0 (((o.map fun a => escape (code a)).getD "").toList ++ rest) = stripFrom 0 rest := by
  cases o with
  | none => rfl
  | some a => exact stripFrom_escape (h a) rest

theorem stripFrom_opening (s : Style) (rest : List Char) :
    stripFrom 0 (s.opening.toList ++ rest) = stripFrom 0 rest := by
  have hcolor : ∀ color : Color, ∀ c ∈ color.code.toList, isParameter c = true := by
    intro color
    cases color <;> simp [Color.code, isParameter]
  have hweight : ∀ weight : Weight, ∀ c ∈ weight.code.toList, isParameter c = true := by
    intro weight
    cases weight <;> simp [Weight.code, isParameter]
  rw [Style.opening, String.toList_append, List.append_assoc, stripFrom_chosen s.color hcolor,
    stripFrom_chosen s.weight hweight]

theorem stripFrom_closing (s : Style) (rest : List Char) :
    stripFrom 0 (s.closing.toList ++ rest) = stripFrom 0 rest := by
  unfold Style.closing
  split
  · rfl
  · exact stripFrom_escape (by simp [isParameter]) rest

theorem stripFrom_span {s : Span} (h : NoEscape s.text) (rest : List Char) :
    stripFrom 0 ((s.render true).toList ++ rest) =
      (s.render false).toList ++ stripFrom 0 rest := by
  have hrender : (s.render true).toList ++ rest =
      s.style.opening.toList ++ (s.text.toList ++ (s.style.closing.toList ++ rest)) := by
    simp [Span.render]
  rw [hrender, stripFrom_opening, stripFrom_text h, stripFrom_closing]
  rfl

/-- No span of a styled text has an escape character of its own. -/
def StyledText.Clean (t : StyledText) : Prop := ∀ s ∈ t, NoEscape s.text

/-- Taking the sequences out of a clean text leaves what is written without colours. -/
theorem StyledText.Clean.strip_render {t : StyledText} (h : t.Clean) :
    stripColors (t.render true) = t.render false := by
  have hspans : stripFrom 0 ((t.map (Span.render true)).flatMap String.toList) =
      (t.map (Span.render false)).flatMap String.toList := by
    induction t with
    | nil => rfl
    | cons s t ih =>
      simp only [List.map_cons, List.flatMap_cons]
      rw [stripFrom_span (h s List.mem_cons_self), ih fun s' hs' => h s' (List.mem_cons_of_mem s hs')]
  rw [← String.toList_inj, stripColors, String.toList_ofList, StyledText.render, StyledText.render,
    String.toList_join, String.toList_join]
  exact hspans

/-- A span with a style brings sequences into the coloured text. -/
theorem StyledText.not_noEscape_render {t : StyledText} {s : Span} (hs : s ∈ t)
    (hstyle : s.style ≠ .plain) : ¬ NoEscape (t.render true) := by
  rw [NoEscape, not_not, StyledText.render, String.toList_join]
  refine List.mem_flatMap.mpr ⟨s.render true, List.mem_map_of_mem hs, ?_⟩
  simp [Span.render, Style.closing, hstyle, escape]

@[simp] theorem noEscape_append : NoEscape (a ++ b) ↔ NoEscape a ∧ NoEscape b := by
  simp [NoEscape]

@[simp] theorem noEscape_repr (n : Nat) : NoEscape n.repr := by
  rw [NoEscape, Nat.toList_repr]
  exact not_mem_toDigits (by decide) n

theorem mem_of_mem_groupDigits {c : Char} {ds : List Char} (h : c ∈ groupDigits ds) :
    c = ',' ∨ c ∈ ds := by
  induction ds with
  | nil => cases h
  | cons d ds ih =>
    cases ds with
    | nil => exact .inr h
    | cons e ds =>
      rw [groupDigits] at h
      split at h <;> grind

theorem mem_grouped {c : Char} {n : Nat} (h : c ∈ (grouped n).toList) :
    c = ',' ∨ c.isDigit = true := by
  rw [grouped, String.toList_ofList] at h
  rcases mem_of_mem_groupDigits h with h | h
  · exact .inl h
  · exact .inr (Nat.isDigit_of_mem_toDigits (by decide) (by decide) h)

@[simp] theorem noEscape_grouped (n : Nat) : NoEscape (grouped n) := by
  intro hmem
  exact absurd (mem_grouped hmem) (by decide)

@[simp] theorem noEscape_byteSize (n : Nat) : NoEscape (byteSize n) := by
  unfold byteSize twoPlaces
  split_ifs <;> simp +decide

@[simp] theorem noEscape_blanks (n : Nat) : NoEscape (blanks n) := by
  simp [NoEscape, blanks]

@[simp] theorem noEscape_padLeft {width : Nat} : NoEscape (padLeft width a) ↔ NoEscape a := by
  simp [padLeft]

@[simp] theorem noEscape_padRight {width : Nat} : NoEscape (padRight width a) ↔ NoEscape a := by
  simp [padRight]

theorem NoEscape.cut (h : NoEscape a) (width : Nat) : NoEscape (cut width a) := by
  unfold Text.cut
  split
  · exact h
  · refine noEscape_append.mpr ⟨fun hmem => h ?_, by decide⟩
    rw [String.toList_ofList] at hmem
    exact List.mem_of_mem_take hmem

@[simp] theorem text_plain (s : String) : (plain s).text = s := rfl

@[simp] theorem text_bold (s : String) : (bold s).text = s := rfl

@[simp] theorem text_dim (s : String) : (dim s).text = s := rfl

@[simp] theorem text_colored (c : Color) (s : String) : (colored c s).text = s := rfl

@[simp] theorem text_coloredBold (c : Color) (s : String) : (coloredBold c s).text = s := rfl

namespace StyledText

variable {t u : StyledText}

@[simp] theorem clean_nil : Clean [] := by simp [Clean]

@[simp] theorem clean_cons {s : Span} : Clean (s :: t) ↔ NoEscape s.text ∧ Clean t := by
  simp [Clean]

@[simp] theorem clean_append : Clean (t ++ u) ↔ Clean t ∧ Clean u := by
  simp [Clean, or_imp, forall_and]

theorem clean_flatMap {α : Type} {f : α → StyledText} {as : List α} (h : ∀ a ∈ as, Clean (f a)) :
    Clean (as.flatMap f) := by
  intro s hs
  obtain ⟨a, ha, hs⟩ := List.mem_flatMap.mp hs
  exact h a ha s hs

end StyledText

end Text

/-- Neither the names nor the message of an outcome have an escape character in them. -/
structure Outcome.NoEscapes (o : Outcome) : Prop where
  root : NoEscape o.root
  parts : ∀ r, o.result = .ok r → ∀ p ∈ r.parts, NoEscape p.name
  message : ∀ f, o.result = .error f → NoEscape f.message

namespace Report

variable {g : Glyphs} {limit : Option Nat}

theorem clean_row {p : Part} (h : NoEscape p.name) : (row p).Clean := by
  have hcut := h.cut nameWidth
  unfold row
  dsimp only
  split <;> simp +decide [hcut]

theorem clean_remainder (rest : List Part) : (remainder rest).Clean := by
  unfold remainder
  split <;> simp +decide

theorem clean_sizes (r : Reach) : (sizes r).Clean := by
  simp +decide [sizes]

theorem clean_breakdown {parts : List Part} (h : ∀ p ∈ parts, NoEscape p.name) :
    (breakdown limit parts).Clean := by
  refine StyledText.clean_append.mpr ⟨StyledText.clean_flatMap fun p hp => ?_, clean_remainder _⟩
  exact clean_row (h p (List.mem_of_mem_take hp))

theorem clean_reached {r : Reach} (hg : NoEscape g.package) (h : ∀ p ∈ r.parts, NoEscape p.name) :
    (reached g limit r).Clean := by
  have hparts : ∀ p ∈ r.sortedParts, NoEscape p.name :=
    fun p hp => h p (List.mem_mergeSort.mp hp)
  simp +decide [reached, clean_sizes, clean_breakdown hparts, hg]

theorem clean_outcome {o : Outcome} (hlens : NoEscape g.lens) (hpackage : NoEscape g.package)
    (hcross : NoEscape g.cross) (h : o.NoEscapes) : (outcome g limit o).Clean := by
  have hroot := h.root
  unfold outcome
  cases hresult : o.result with
  | ok r =>
    have hreached : (reached g limit r).Clean := clean_reached hpackage (h.parts r hresult)
    simp +decide [hlens, hroot, hreached]
  | error f =>
    have hmessage := h.message f hresult
    simp +decide [refused, hlens, hroot, hcross, hmessage]

theorem clean_rule : rule.Clean := by
  have hline : NoEscape (String.ofList (List.replicate 60 '─')) := by
    intro hmem
    rw [String.toList_ofList] at hmem
    exact absurd (List.eq_of_mem_replicate hmem) (by decide)
  exact StyledText.clean_cons.mpr ⟨hline, StyledText.clean_cons.mpr ⟨by decide, StyledText.clean_nil⟩⟩

/-- A report is clean if the names and messages in it are. -/
theorem clean_console (hg : g = .pictures ∨ g = .ascii) {outcomes : List Outcome}
    (h : ∀ o ∈ outcomes, o.NoEscapes) : (console g limit outcomes).Clean := by
  have houtcome : ∀ o ∈ outcomes, (outcome g limit o).Clean := by
    intro o ho
    rcases hg with rfl | rfl
    · exact clean_outcome (by decide) (by decide) (by decide) (h o ho)
    · exact clean_outcome (by decide) (by decide) (by decide) (h o ho)
  clear h
  induction outcomes with
  | nil => exact StyledText.clean_nil
  | cons o rest ih =>
    rw [List.forall_mem_cons] at houtcome
    cases rest with
    | nil => exact houtcome.1
    | cons o' rest =>
      have hconsole : console g limit (o :: o' :: rest) =
          outcome g limit o ++ rule ++ console g limit (o' :: rest) := rfl
      rw [hconsole, StyledText.clean_append, StyledText.clean_append]
      exact ⟨⟨houtcome.1, clean_rule⟩, ih houtcome.2⟩

end Report

/-- What is advised repeats nothing that is not in the message. -/
theorem Fault.noEscape_advice {f : Fault} (h : NoEscape f.message) : NoEscape f.advice := by
  cases f with
  | unreadableInput path reason =>
    have hpath : NoEscape path := (noEscape_append.mp h).2
    have hstart : NoEscape ("Check that " ++ path) := noEscape_append.mpr ⟨by decide, hpath⟩
    exact noEscape_append.mpr ⟨noEscape_append.mpr ⟨hstart, by decide⟩, by decide +kernel⟩
  | unknownFunction name =>
    have hname : NoEscape name := (noEscape_append.mp (noEscape_append.mp h).1).2
    exact noEscape_append.mpr ⟨noEscape_append.mpr ⟨by decide, hname⟩, by decide +kernel⟩
  | unresolvedNames names =>
    have hfixed : NoEscape (unresolvedNames []).advice := by decide +kernel
    exact hfixed
  | badMnemonic text =>
    have hfixed : NoEscape (badMnemonic "").advice := by decide +kernel
    exact hfixed
  | io context reason =>
    have hcontext : NoEscape context := (noEscape_append.mp h).2
    exact noEscape_append.mpr ⟨noEscape_append.mpr ⟨by decide +kernel, hcontext⟩, by decide⟩

namespace Failure

variable {f : Failure}

theorem clean_causeLines {texts : List String} (h : ∀ text ∈ texts, NoEscape text) (depth : Nat) :
    (causeLines depth texts).Clean := by
  have hindent : ∀ depth, NoEscape (String.join (List.replicate depth "  ")) := by
    intro depth
    simp [NoEscape, String.toList_join, List.mem_flatMap, List.mem_replicate]
  induction texts generalizing depth with
  | nil => exact StyledText.clean_nil
  | cons text texts ih =>
    rw [List.forall_mem_cons] at h
    simp +decide [causeLines, hindent, h.1, ih h.2]

theorem clean_explain (h : ∀ text ∈ f.chain, NoEscape text) : f.explain.Clean := by
  have hmessage : NoEscape f.message := by
    unfold message
    cases hchain : f.chain with
    | nil => decide
    | cons text texts => exact h text (by simp [hchain])
  have hcauses : (causeLines 1 f.chain.tail).Clean :=
    clean_causeLines (fun text htext => h text (List.mem_of_mem_tail htext)) 1
  have hhelp : (help f.cause.fault?).Clean := by
    cases hcause : f.cause with
    | message text => exact StyledText.clean_nil
    | fault fault =>
      have hadvice : NoEscape fault.advice := by
        apply Fault.noEscape_advice
        apply h
        simp [chain, hcause, Cause.texts]
      simp +decide [help, Cause.fault?, hadvice]
  simp +decide [explain, hmessage, hcauses, hhelp]

end Failure

/-- Where no name and no message has an escape character, a report in colour becomes the plain
report once the colour sequences are taken out, and so does an explanation of a failure, whatever
contexts it has. There are such sequences in every explanation, and in every report with an outcome.
-/
theorem colors_add_only_sequences :
    (∀ g : Glyphs, g = .pictures ∨ g = .ascii →
      ∀ (limit : Option Nat) (outcomes : List Outcome), (∀ o ∈ outcomes, o.NoEscapes) →
        stripColors ((Report.console g limit outcomes).render true) =
          (Report.console g limit outcomes).render false ∧
        (outcomes ≠ [] → ¬ NoEscape ((Report.console g limit outcomes).render true))) ∧
    ∀ f : Failure, (∀ text ∈ f.chain, NoEscape text) →
      stripColors (f.explain.render true) = f.explain.render false ∧
      ¬ NoEscape (f.explain.render true) := by
  constructor
  · intro g hg limit outcomes h
    refine ⟨(Report.clean_console hg h).strip_render, fun hne => ?_⟩
    obtain ⟨o, rest, rfl⟩ := List.exists_cons_of_ne_nil hne
    have hspan : bold "Function:" ∈ Report.console g limit (o :: rest) := by
      cases rest <;> simp [Report.console, Report.outcome]
    exact StyledText.not_noEscape_render hspan (by decide)
  · intro f h
    refine ⟨(Failure.clean_explain h).strip_render, ?_⟩
    have hspan : coloredBold .red "error:" ∈ f.explain := List.mem_cons_self
    exact StyledText.not_noEscape_render hspan (by decide)

/-- A name is cut, sizes of two styles are lined up, a row is summed up and a root is unknown; and a
failure has a context and a reason. -/
theorem colored_rows_strip_to_plain :
    stripColors ((Report.console .ascii (some 2) [
        ⟨"main", .ok ⟨"main", 12, 1036,
          [⟨"a_function_with_a_name_of_42_characters_00", 1024⟩, ⟨"main", 12⟩, ⟨"init", 0⟩]⟩⟩,
        ⟨"run", .error (.unknownFunction "run")⟩]).render true) =
      ">> Function: main\n   Own size:           12 bytes\n" ++
      "   Total size:      1,036 bytes (1.01 KB, 3 functions)\n\n" ++
      "   * Breakdown (including dependencies):\n" ++
      "      a_function_with_a_name_of_42_characte...    1,024 bytes\n" ++
      "      main                                           12 bytes\n" ++
      "      ... 1 more functions (0 bytes)\n\n" ++
      "────────────────────────────────────────────────────────────\n" ++
      ">> Function: run\n   [FAIL] Function 'run' not found in map or disassembly\n" ∧
    (Failure.explain ⟨["loading"], .fault (.io "app.map" "denied")⟩).render true =
      "\x1b[31m\x1b[1merror:\x1b[0m loading\n" ++
      "  \x1b[33mcaused by:\x1b[0m I/O error: app.map\n    \x1b[33mcaused by:\x1b[0m denied\n" ++
      "\n\x1b[36m\x1b[1mhelp:\x1b[0m Check file permissions and that app.map is accessible\n" ∧
    stripColors ((Failure.explain ⟨["loading"], .fault (.io "app.map" "denied")⟩).render true) =
      "error: loading\n  caused by: I/O error: app.map\n    caused by: denied\n" ++
      "\nhelp: Check file permissions and that app.map is accessible\n" := by
  obtain ⟨hreport, hfailure⟩ := colors_add_only_sequences
  refine ⟨?_, by decide +kernel, ?_⟩
  · rw [(hreport .ascii (.inr rfl) (some 2) _ ?_).1]
    · have hsorted : Reach.sortedParts ⟨"main", 12, 1036,
          [⟨"a_function_with_a_name_of_42_characters_00", 1024⟩, ⟨"main", 12⟩, ⟨"init", 0⟩]⟩ =
          [⟨"a_function_with_a_name_of_42_characters_00", 1024⟩, ⟨"main", 12⟩, ⟨"init", 0⟩] :=
        List.mergeSort_of_pairwise (by decide)
      simp only [Report.console, Report.outcome, Report.reached, hsorted]
      decide +kernel
    · intro o ho
      rcases List.mem_pair.mp ho with rfl | rfl
      · refine ⟨by decide, fun r hr => ?_, nofun⟩
        cases hr
        decide +kernel
      · refine ⟨by decide, nofun, fun f hf => ?_⟩
        cases hf
        decide +kernel
  · rw [(hfailure _ (by decide +kernel)).1]
    decide +kernel

end CodeReach
