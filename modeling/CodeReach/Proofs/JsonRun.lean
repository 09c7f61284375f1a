import CodeReach.Program
import CodeReach.Proofs.JsonRecords
import CodeReach.Proofs.LossyText
import CodeReach.Proofs.MnemonicTokens

namespace CodeReach

open Text Command

variable {w : Wording} {files : Files} {text reason : String} {g : Glyphs} {r : Request}

namespace Settings

variable {s : Settings}

/-- The preset that settings start from. -/
def preset (s : Settings) : Preset := (s.calls.map CallSettings.preset).getD .standard

/-- The texts that settings add to their preset. -/
def extra (s : Settings) : List String := (s.calls.map CallSettings.extra).getD []

theorem mnemonics_eq (s : Settings) :
    s.mnemonics = (MnemonicSet.ofPreset s.preset).extend s.extra := by
  unfold mnemonics preset extra
  cases s.calls with
  | none => rfl
  | some calls => rfl

/-- What the settings file says, whether or not its mnemonics are any good. -/
inductive Says (files : Files) : Settings → Prop
  | nothing (h : files path = none) : Says files .standard
  | entries {bytes : ByteArray} {text : String} {s : Settings}
      (hfile : files path = some (.file bytes)) (htext : String.fromUTF8? bytes = some text)
      (hs : (Toml.parse? text).bind ofEntries? = some s) : Says files s

/-- There is something at the path, but it gives no text. -/
inductive Unreadable (files : Files) : String → Prop
  | refused {reason : String} (h : files path = some (.unreadable reason)) : Unreadable files reason
  | directory {reason : String} (h : files path = some (.directory reason)) :
      Unreadable files reason
  | notText {bytes : ByteArray} (hfile : files path = some (.file bytes))
      (htext : String.fromUTF8? bytes = none) :
      Unreadable files "stream did not contain valid UTF-8"

/-- There is a text, but no settings can be taken from it. -/
def Malformed (files : Files) : Prop :=
  ∃ bytes text, files path = some (.file bytes) ∧ String.fromUTF8? bytes = some text ∧
    (Toml.parse? text).bind ofEntries? = none

theorem file_cases (files : Files) :
    (∃ s, Says files s) ∨ (∃ reason, Unreadable files reason) ∨ Malformed files := by
  cases hnode : files path with
  | none => exact .inl ⟨_, .nothing hnode⟩
  | some node =>
    cases node with
    | unreadable reason => exact .inr (.inl ⟨reason, .refused hnode⟩)
    | directory reason => exact .inr (.inl ⟨reason, .directory hnode⟩)
    | file bytes =>
      cases htext : String.fromUTF8? bytes with
      | none => exact .inr (.inl ⟨_, .notText hnode htext⟩)
      | some text =>
        cases hs : (Toml.parse? text).bind ofEntries? with
        | none => exact .inr (.inr ⟨bytes, text, hnode, htext, hs⟩)
        | some s => exact .inl ⟨s, .entries hnode htext hs⟩

theorem Says.read_eq (h : Says files s) : read files = s.check := by
  cases h with
  | nothing h =>
    simp only [read, Files.readText, Files.readBytes, h]
    rfl
  | entries hfile htext hs => simp [read, Files.readText, Files.readBytes, hfile, htext, ofText, hs]

theorem Unreadable.read_eq (h : Unreadable files reason) :
    read files = .error (.unreadable reason) := by
  cases h with
  | refused h => simp [read, Files.readText, Files.readBytes, h]
  | directory h => simp [read, Files.readText, Files.readBytes, h]
  | notText hfile htext => simp [read, Files.readText, Files.readBytes, hfile, htext]

theorem Malformed.read_eq (h : Malformed files) : read files = .error .malformed := by
  obtain ⟨bytes, text, hfile, htext, hs⟩ := h
  simp [read, Files.readText, Files.readBytes, hfile, htext, ofText, hs]

theorem mnemonics_of_allTokens (h : AllTokens s.extra) :
    ∃ set, s.mnemonics = .ok set ∧
      ∀ m, m ∈ set.names ↔ m ∈ s.preset.mnemonics ∨ ∃ text ∈ s.extra, token? text = some m := by
  obtain ⟨set, hset⟩ := h.extend_eq_ok (.ofPreset s.preset)
  refine ⟨set, s.mnemonics_eq.trans hset, fun m => ?_⟩
  rw [MnemonicSet.mem_of_extend hset, MnemonicSet.ofPreset, NameSet.mem_ofList]

theorem check_of_allTokens (h : AllTokens s.extra) : s.check = .ok s := by
  obtain ⟨set, hset, -⟩ := mnemonics_of_allTokens h
  rw [check, hset]

theorem Says.read_of_allTokens (hs : Says files s) (hextra : AllTokens s.extra) :
    read files = .ok s :=
  hs.read_eq.trans (check_of_allTokens hextra)

theorem check_of_firstBad (h : FirstBad s.extra text) :
    s.check = .error (.badCalls (.badMnemonic text)) := by
  rw [check, mnemonics_eq, MnemonicSet.extend, h.tokens_eq_error]
  rfl

/-- What counts as a call: the mnemonics given one by one, or else the tail calls where these are
asked for, or else those of the settings. -/
def Counts (s : Settings) (r : Request) (m : String) : Prop :=
  if r.mnemonics ≠ [] then ∃ text ∈ r.mnemonics, token? text = some m
  else if r.tailCalls then m ∈ Preset.tailCalls.mnemonics
  else m ∈ s.preset.mnemonics ∨ ∃ text ∈ s.extra, token? text = some m

theorem choose_of_allTokens (hextra : AllTokens s.extra) (hgiven : AllTokens r.mnemonics) :
    ∃ set, s.chooseMnemonics r.mnemonics r.tailCalls = .ok set ∧
      ∀ m, m ∈ set.names ↔ s.Counts r m := by
  unfold chooseMnemonics Counts
  by_cases hnone : r.mnemonics = []
  · cases htail : r.tailCalls with
    | true =>
      refine ⟨.ofPreset .tailCalls, by simp [hnone], fun m => ?_⟩
      simp [hnone, MnemonicSet.ofPreset]
    | false =>
      obtain ⟨set, hset, hmem⟩ := mnemonics_of_allTokens hextra
      refine ⟨set, by simp [hnone, hset], fun m => ?_⟩
      simp [hnone, hmem]
  · obtain ⟨set, hset⟩ := hgiven.ofTexts_eq_ok
    refine ⟨set, by simp [hnone, hset], fun m => ?_⟩
    rw [MnemonicSet.mem_of_ofTexts hset]
    simp [hnone]

theorem choose_of_firstBad (h : FirstBad r.mnemonics text) :
    s.chooseMnemonics r.mnemonics r.tailCalls = .error (.badMnemonic text) := by
  have hbad := h.tokens_eq_error
  have hsome : r.mnemonics ≠ [] := by
    obtain ⟨before, after, htexts, -⟩ := h
    simp [htexts]
  rw [chooseMnemonics, if_pos (by simpa using hsome), MnemonicSet.ofTexts, hbad]
  rfl

end Settings

namespace Files

/-- An input that cannot be read, and the reason given. -/
inductive Lost (files : Files) (path : String) : String → Prop
  | absent (h : files path = none) : Lost files path "not a file"
  | directory {reason : String} (h : files path = some (.directory reason)) :
      Lost files path "not a file"
  | refused {reason : String} (h : files path = some (.unreadable reason)) : Lost files path reason

theorem Lost.readInput_eq {path : String} (h : Lost files path reason) :
    files.readInput path = .error (.unreadableInput path reason) := by
  cases h with
  | absent h => simp [readInput, isFile, h]
  | directory h => simp [readInput, isFile, h]
  | refused h => simp [readInput, isFile, readBytes, h, ReadError.reason]

theorem found_or_lost (files : Files) (path : String) :
    (∃ bytes, files path = some (.file bytes)) ∨ ∃ reason, Lost files path reason := by
  cases hnode : files path with
  | none => exact .inr ⟨_, .absent hnode⟩
  | some node =>
    cases node with
    | file bytes => exact .inl ⟨bytes, rfl⟩
    | unreadable reason => exact .inr ⟨reason, .refused hnode⟩
    | directory reason => exact .inr ⟨_, .directory hnode⟩

end Files

namespace Program

/-- What stops a run before it measures anything, with its exit status. Each kind of failure is
there only if all that is looked at before it is in order. What is said of a settings file that
holds no settings is up to the wording. -/
inductive Stops (w : Wording) (files : Files) (r : Request) : Failure → UInt8 → Prop
  | settingsUnreadable {reason : String} (h : Settings.Unreadable files reason) :
      Stops w files r ((Failure.ofMessage reason).inContext "Failed to read .fn-footprint.toml") 1
  | settingsMalformed (h : Settings.Malformed files) :
      Stops w files r
        ((Failure.ofMessage (w.malformed files)).inContext "Failed to parse .fn-footprint.toml") 1
  | settingsMnemonic {s : Settings} {text : String} (hs : Settings.Says files s)
      (hbad : FirstBad s.extra text) :
      Stops w files r
        ((Failure.ofFault (.badMnemonic text)).inContext "Invalid [calls] configuration") 64
  | givenMnemonic {s : Settings} {text : String} (hs : Settings.Says files s)
      (hextra : AllTokens s.extra) (hbad : FirstBad r.mnemonics text) :
      Stops w files r (.ofFault (.badMnemonic text)) 64
  | map {s : Settings} {reason : String} (hs : Settings.Says files s) (hextra : AllTokens s.extra)
      (hgiven : AllTokens r.mnemonics) (hmap : files.Lost r.mapFile reason) :
      Stops w files r (.ofFault (.unreadableInput r.mapFile reason)) 66
  | listing {s : Settings} {bytes : ByteArray} {reason : String} (hs : Settings.Says files s)
      (hextra : AllTokens s.extra) (hgiven : AllTokens r.mnemonics)
      (hmap : files r.mapFile = some (.file bytes)) (hlisting : files.Lost r.listingFile reason) :
      Stops w files r (.ofFault (.unreadableInput r.listingFile reason)) 66

/-- What a run measures by if nothing stops it: the map, and the calls of the listing with the
mnemonics that count. -/
inductive Loads (files : Files) (r : Request) : Analysis → Prop
  | intro {s : Settings} {set : MnemonicSet} {mapBytes listingBytes : ByteArray}
      (hs : Settings.Says files s) (hextra : AllTokens s.extra) (hgiven : AllTokens r.mnemonics)
      (hmap : files r.mapFile = some (.file mapBytes))
      (hlisting : files r.listingFile = some (.file listingBytes))
      (hset : ∀ m, m ∈ set.names ↔ s.Counts r m) :
      Loads files r (.ofTexts set (Utf8.decode mapBytes) (Utf8.decode listingBytes))

theorem stops_or_loads (w : Wording) (files : Files) (r : Request) :
    (∃ f code, Stops w files r f code) ∨ ∃ a, Loads files r a := by
  rcases Settings.file_cases files with ⟨s, hs⟩ | ⟨reason, h⟩ | h
  · rcases allTokens_or_firstBad s.extra with hextra | ⟨text, hbad⟩
    · rcases allTokens_or_firstBad r.mnemonics with hgiven | ⟨text, hbad⟩
      · rcases files.found_or_lost r.mapFile with ⟨mapBytes, hmap⟩ | ⟨reason, hmap⟩
        · rcases files.found_or_lost r.listingFile with ⟨listingBytes, hlisting⟩ | ⟨reason, hlost⟩
          · obtain ⟨set, -, hset⟩ := Settings.choose_of_allTokens hextra hgiven
            exact .inr ⟨_, .intro hs hextra hgiven hmap hlisting hset⟩
          · exact .inl ⟨_, _, .listing hs hextra hgiven hmap hlost⟩
        · exact .inl ⟨_, _, .map hs hextra hgiven hmap⟩
      · exact .inl ⟨_, _, .givenMnemonic hs hextra hbad⟩
    · exact .inl ⟨_, _, .settingsMnemonic hs hbad⟩
  · exact .inl ⟨_, _, .settingsUnreadable h⟩
  · exact .inl ⟨_, _, .settingsMalformed h⟩

theorem Stops.status_eq {f : Failure} {code : UInt8} (h : Stops w files r f code) :
    f.status = code := by
  cases h <;> rfl

theorem Stops.analyze_eq {f : Failure} {code : UInt8} (h : Stops w files r f code)
    (hjson : r.json = true) : analyze w g files r = .failed [] f := by
  cases h with
  | settingsUnreadable h => simp only [analyze, h.read_eq, SettingsError.failure]
  | settingsMalformed h => simp only [analyze, h.read_eq, SettingsError.failure]
  | settingsMnemonic hs hbad =>
    simp only [analyze, hs.read_eq, Settings.check_of_firstBad hbad, SettingsError.failure]
  | givenMnemonic hs hextra hbad =>
    simp only [analyze, hs.read_of_allTokens hextra, Settings.choose_of_firstBad hbad]
  | map hs hextra hgiven hmap =>
    obtain ⟨set, hset, -⟩ := Settings.choose_of_allTokens hextra hgiven
    simp only [analyze, hs.read_of_allTokens hextra, hset, hjson, if_true, Analysis.read,
      hmap.readInput_eq]
  | listing hs hextra hgiven hmap hlisting =>
    obtain ⟨set, hset, -⟩ := Settings.choose_of_allTokens hextra hgiven
    simp only [analyze, hs.read_of_allTokens hextra, hset, hjson, if_true, Analysis.read,
      Files.readInput_of_file hmap, hlisting.readInput_eq]

theorem Loads.analyze_eq {a : Analysis} (h : Loads files r a) (hjson : r.json = true) :
    ∃ limit, analyze w g files r = measure g r limit [] a := by
  cases h with
  | intro hs hextra hgiven hmap hlisting hcounts =>
    rename_i s set mapBytes listingBytes
    obtain ⟨chosen, hchosen, hmem⟩ := Settings.choose_of_allTokens hextra hgiven
    have hsame : chosen = set := MnemonicSet.ext_names fun m => (hmem m).trans (hcounts m).symm
    refine ⟨r.limit <|> s.limit, ?_⟩
    simp only [analyze, hs.read_of_allTokens hextra, hchosen, hsame, hjson, if_true, Analysis.read,
      Files.readInput_of_file hmap, Files.readInput_of_file hlisting]

end Program

namespace Report

def Entry.isOk : Entry → Bool
  | ok .. => true
  | unknown .. => false

/-- The entry that a root gets: what it reaches if the map lists it or the listing shows it, and
otherwise that it is unknown. -/
inductive Answers (a : Analysis) (root : String) : Entry → Prop
  | ok {m : Reach} (hknown : a.symbols.contains root = true ∨ a.graph.observes root = true)
      (hreach : reach a.symbols a.graph root = .ok m) :
      Answers a root (.ok root m.own m.total (UInt64.ofNat m.count) m.sortedParts)
  | unknown (hsymbols : a.symbols.contains root = false) (hgraph : a.graph.observes root = false) :
      Answers a root (.unknown root (Fault.unknownFunction root).message)

variable {a : Analysis} {root : String}

/-- A root has one entry, the one that its outcome gives. -/
theorem answers_iff {entry : Entry} :
    Answers a root entry ↔ entry = .ofOutcome ⟨root, reach a.symbols a.graph root⟩ := by
  cases hknown : isKnown a.symbols a.graph root with
  | true =>
    have hreach : reach a.symbols a.graph root = .ok ⟨root, a.symbols.bytesOf root,
        (Search.finish a.symbols a.graph root).total,
        (Search.finish a.symbols a.graph root).found.reverse⟩ := by
      simp [reach, hknown]
    rw [hreach]
    constructor
    · intro h
      cases h with
      | ok _ h =>
        cases hreach.symm.trans h
        rfl
      | unknown hsymbols hgraph => simp [isKnown, hsymbols, hgraph] at hknown
    · rintro rfl
      exact .ok (by simpa [isKnown] using hknown) hreach
  | false =>
    have hreach : reach a.symbols a.graph root = .error (.unknownFunction root) := by
      simp [reach, hknown]
    rw [hreach]
    constructor
    · intro h
      cases h with
      | ok _ h => cases hreach.symm.trans h
      | unknown _ _ => rfl
    · rintro rfl
      simp only [isKnown, Bool.or_eq_false_iff] at hknown
      exact .unknown hknown.1 hknown.2

theorem Answers.isOk_eq {entry : Entry} (h : Answers a root entry) :
    entry.isOk = isKnown a.symbols a.graph root := by
  cases h with
  | ok hknown _ =>
    have h : isKnown a.symbols a.graph root = true := by simpa [isKnown] using hknown
    rw [h]
    rfl
  | unknown hsymbols hgraph => simp [Entry.isOk, isKnown, hsymbols, hgraph]

theorem forall₂_answers_iff {roots : List String} {entries : List Entry} :
    List.Forall₂ (Answers a) roots entries ↔
      entries = roots.map fun root => .ofOutcome ⟨root, reach a.symbols a.graph root⟩ := by
  constructor
  · intro h
    induction h with
    | nil => rfl
    | cons hhead _ ih => rw [answers_iff.mp hhead, ih, List.map_cons]
  · rintro rfl
    exact List.forall₂_map_right_iff.mpr (List.forall₂_same.mpr fun root _ => answers_iff.mpr rfl)

theorem forall₂_answers (a : Analysis) (roots : List String) :
    List.Forall₂ (Answers a) roots (Document.ofOutcomes (a.outcomes roots)).roots := by
  rw [forall₂_answers_iff, Document.ofOutcomes, Analysis.outcomes, reachAll, List.map_map]
  rfl

/-- All entries are of measured roots if and only if all roots are known. -/
theorem all_isOk_iff {roots : List String} {entries : List Entry}
    (h : List.Forall₂ (Answers a) roots entries) :
    (∀ entry ∈ entries, entry.isOk = true) ↔
      ∀ root ∈ roots, isKnown a.symbols a.graph root = true := by
  induction h with
  | nil => simp
  | cons hhead _ ih => simp [hhead.isOk_eq, ih]

end Report

namespace Program

theorem unresolved_outcomes (a : Analysis) (roots : List String) :
    unresolved (a.outcomes roots) = roots.filter fun root => !isKnown a.symbols a.graph root := by
  have hok : ∀ root, (reach a.symbols a.graph root).isOk = isKnown a.symbols a.graph root := by
    intro root
    unfold reach
    split
    · next h => exact h.symm
    · next h => exact (Bool.eq_false_iff.mpr h).symm
  unfold unresolved Analysis.outcomes reachAll
  rw [List.filter_map, List.map_map]
  simp [Function.comp_def, hok]

theorem render_plain (colors : Bool) (s : String) : StyledText.render colors [plain s] = s := by
  cases colors <;> simp [StyledText.render, Span.render, plain, Style.plain, Style.opening,
    Style.closing, String.join]

/-- The output of a JSON run that measures is its document; it fails if and only if a root is
unknown, and then with all that are, in the order of the request. -/
theorem measure_json (hjson : r.json = true) (limit : Option Nat) (a : Analysis) :
    measure g r limit [] a =
      ⟨[plain ((Report.Document.ofOutcomes (a.outcomes r.roots)).toJson.toPretty ++ "\n")],
        if ∀ root ∈ r.roots, isKnown a.symbols a.graph root = true then none
        else some (.ofFault (.unresolvedNames
          (r.roots.filter fun root => !isKnown a.symbols a.graph root)))⟩ := by
  have hnil : (r.roots.filter fun root => !isKnown a.symbols a.graph root) = [] ↔
      ∀ root ∈ r.roots, isKnown a.symbols a.graph root = true := by
    simp
  simp only [measure, body, hjson, if_true, unresolved_outcomes, List.append_nil, List.nil_append]
  split
  · next h => rw [if_pos (hnil.mp h)]
  · next h => rw [if_neg fun hall => h (hnil.mpr hall), Run.failed]

/-- A run that reports in JSON, whatever the files and the request. If something stops it, nothing
is printed but the explanation of the first thing in the order of looking, and the status is that of
the failure. If nothing does, the output is one JSON text and a line feed; the text is read back as
a document with an entry for each root in the order of the request. The status is 0 if and only if
all entries are of measured roots; otherwise it is 65, and the failure names the unknown roots, each
as often as it was asked for. -/
theorem json_run_stops_or_reports (w : Wording) (d : Display) (files : Files) (r : Request)
    (hjson : r.json = true) :
    (∀ args i, Invocation.parse args = .ok i → i.action = some (.analyze r) →
      run d files args w = (analyze w d.glyphs files r).transcript d.colors) ∧
    ((∃ f code, Stops w files r f code) ∨ ∃ a, Loads files r a) ∧
    (∀ f code, Stops w files r f code →
      (analyze w d.glyphs files r).transcript d.colors =
        ⟨"", f.explain.render d.colors ++ "\n", code⟩) ∧
    ∀ a, Loads files r a → ∃ doc : Report.Document,
      List.Forall₂ (Report.Answers a) r.roots doc.roots ∧
      ((analyze w d.glyphs files r).transcript d.colors).out = doc.toJson.toPretty ++ "\n" ∧
      (Json.parse? doc.toJson.toPretty).bind Report.Document.ofJson? = some doc ∧
      (((analyze w d.glyphs files r).transcript d.colors).code = 0 ↔
        ∀ entry ∈ doc.roots, entry.isOk = true) ∧
      (((analyze w d.glyphs files r).transcript d.colors).code = 0 →
        (analyze w d.glyphs files r).failure = none) ∧
      (((analyze w d.glyphs files r).transcript d.colors).code ≠ 0 →
        ((analyze w d.glyphs files r).transcript d.colors).code = 65 ∧
        (analyze w d.glyphs files r).failure = some (.ofFault (.unresolvedNames
          (r.roots.filter fun root => !(a.symbols.contains root || a.graph.observes root))))) := by
  refine ⟨fun args i hparse haction => ?_, stops_or_loads w files r, fun f code h => ?_,
    fun a h => ?_⟩
  · simp only [run, hparse, haction]
  · rw [h.analyze_eq hjson, Run.failed, Run.transcript, Option.map_some, Option.map_some,
      h.status_eq]
    rfl
  · obtain ⟨limit, hanalyze⟩ := h.analyze_eq (w := w) (g := d.glyphs) hjson
    have hanswers := Report.forall₂_answers a r.roots
    let doc := Report.Document.ofOutcomes (a.outcomes r.roots)
    refine ⟨doc, hanswers, ?_⟩
    rw [hanalyze, measure_json hjson, Report.all_isOk_iff hanswers]
    refine ⟨render_plain d.colors _, (doc.plain_toJson.bind_parse? doc.ofJson?_toJson).2, ?_⟩
    by_cases hall : ∀ root ∈ r.roots, isKnown a.symbols a.graph root = true
    · rw [if_pos hall]
      exact ⟨iff_of_true rfl hall, fun _ => rfl, fun hcode => absurd rfl hcode⟩
    · have hcode : (65 : UInt8) ≠ 0 := by simp
      rw [if_neg hall]
      exact ⟨iff_of_false hcode hall, fun h => absurd h hcode, fun _ => ⟨rfl, rfl⟩⟩

/-- A bad mnemonic is reported before the map is missed, and an unknown root that is asked for twice
is named twice, with the known one between them measured. -/
theorem bad_mnemonic_first_and_unknown_root_twice :
    (run ⟨false, .ascii⟩ (fun _ => none)
      ["analyze", "m", "l", "main", "--json", "-m", "bl", "--mnemonic=b <l"]).out = "" ∧
    (run ⟨false, .ascii⟩ (fun _ => none)
      ["analyze", "m", "l", "main", "--json", "-m", "bl", "--mnemonic=b <l"]).code = 64 ∧
    ∃ (files : Files) (r : Request),
      files "m" = some (.file ".text.main\n 0x0 0x20 m.o\n.text.init\n 0x20 0x30 m.o\n".toUTF8) ∧
      files "l" = some (.file "0 <main>:\n 4: bl 20 <init>\n".toUTF8) ∧
      Invocation.parse ["analyze", "m", "l", "gone", "main", "gone", "--json"] =
        .ok ⟨false, some (.analyze r)⟩ ∧
      (run ⟨false, .ascii⟩ files
        ["analyze", "m", "l", "gone", "main", "gone", "--json"]).out =
          "\x7b\n  \"roots\": [\n    " ++
          "\x7b\n      \"status\": \"unknown\",\n      \"root\": \"gone\",\n      " ++
          "\"error\": \"Function 'gone' not found in map or disassembly\"\n    \x7d,\n    " ++
          "\x7b\n      \"status\": \"ok\",\n      \"root\": \"main\",\n      " ++
          "\"own_size\": 32,\n      \"total_size\": 80,\n      \"functions\": 2,\n      " ++
          "\"breakdown\": [\n        " ++
          "\x7b\n          \"name\": \"init\",\n          \"size\": 48\n        \x7d,\n        " ++
          "\x7b\n          \"name\": \"main\",\n          \"size\": 32\n        \x7d\n      " ++
          "]\n    \x7d,\n    " ++
          "\x7b\n      \"status\": \"unknown\",\n      \"root\": \"gone\",\n      " ++
          "\"error\": \"Function 'gone' not found in map or disassembly\"\n    \x7d\n  " ++
          "]\n\x7d\n" ∧
      (run ⟨false, .ascii⟩ files
        ["analyze", "m", "l", "gone", "main", "gone", "--json"]).code = 65 ∧
      (analyze briefWording .ascii files r).failure =
        some (.ofFault (.unresolvedNames ["gone", "gone"])) := by
  let stopped : Request := ⟨"m", "l", ["main"], false, ["bl", "b <l"], none, true⟩
  let measured : Request := ⟨"m", "l", ["gone", "main", "gone"], false, [], none, true⟩
  let map := ".text.main\n 0x0 0x20 m.o\n.text.init\n 0x20 0x30 m.o\n"
  let listing := "0 <main>:\n 4: bl 20 <init>\n"
  let files : Files := fun path =>
    if path = "m" then some (.file map.toUTF8)
    else if path = "l" then some (.file listing.toUTF8) else none
  let a : Analysis := .ofTexts .standard (Utf8.decode map.toUTF8) (Utf8.decode listing.toUTF8)
  obtain ⟨hrun, -, hstops, -⟩ :=
    json_run_stops_or_reports briefWording ⟨false, .ascii⟩ (fun _ => none) stopped rfl
  obtain ⟨hrun', -, -, hloads⟩ :=
    json_run_stops_or_reports briefWording ⟨false, .ascii⟩ files measured rfl
  have hstop : Stops briefWording (fun _ => none) stopped (.ofFault (.badMnemonic "b <l")) 64 := by
    refine .givenMnemonic (.nothing rfl) (by simp [AllTokens, Settings.extra, Settings.standard]) ?_
    exact ⟨["bl"], [], rfl, by decide +kernel, by decide +kernel⟩
  have hload : Loads files measured a := by
    refine .intro (.nothing rfl) (by simp [AllTokens, Settings.extra, Settings.standard])
      (by simp [AllTokens, measured]) rfl rfl fun m => ?_
    simp [Settings.Counts, measured, MnemonicSet.standard, MnemonicSet.ofPreset, Settings.preset,
      Settings.extra, Settings.standard]
  obtain ⟨doc, hanswers, hout, -, hcode, -, hfailed⟩ := hloads _ hload
  have hunknown : ¬ ∀ entry ∈ doc.roots, entry.isOk = true := by
    rw [Report.all_isOk_iff hanswers]
    decide +kernel
  obtain ⟨hstatus, hfailure⟩ := hfailed fun h => hunknown (hcode.mp h)
  have hgone : reach a.symbols a.graph "gone" = .error (.unknownFunction "gone") := by
    decide +kernel
  have hmain : reach a.symbols a.graph "main" =
      .ok ⟨"main", 32, 80, [⟨"main", 32⟩, ⟨"init", 48⟩]⟩ := by
    decide +kernel
  have hsorted : Reach.sortedParts ⟨"main", 32, 80, [⟨"main", 32⟩, ⟨"init", 48⟩]⟩ =
      [⟨"init", 48⟩, ⟨"main", 32⟩] := by
    simp [Reach.sortedParts, List.mergeSort]
  have hdoc : doc = ⟨[.unknown "gone" (Fault.unknownFunction "gone").message,
      .ok "main" 32 80 2 [⟨"init", 48⟩, ⟨"main", 32⟩],
      .unknown "gone" (Fault.unknownFunction "gone").message]⟩ := by
    have hroots := Report.forall₂_answers_iff.mp hanswers
    simp only [measured, List.map_cons, List.map_nil, hgone, hmain, Report.Entry.ofOutcome,
      hsorted] at hroots
    exact congrArg Report.Document.mk hroots
  rw [hrun _ _ rfl rfl, hstops _ _ hstop]
  refine ⟨rfl, rfl, files, measured, rfl, rfl, rfl, ?_, ?_, hfailure.trans (by decide +kernel)⟩
  · -- The kernel compares lists of characters far faster than strings.
    rw [hrun' _ _ rfl rfl, hout, hdoc, ← String.toList_inj]
    simp only [Json.toPretty, String.toList_append, String.toList_ofList, String.reduceToList]
    decide +kernel
  · rw [hrun' _ _ rfl rfl]
    exact hstatus

end Program

end CodeReach
