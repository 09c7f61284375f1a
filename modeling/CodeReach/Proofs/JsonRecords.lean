import CodeReach.Proofs.JsonText
import CodeReach.Report.Document

namespace CodeReach

namespace Json

variable {v : Json} {ms fs : List (String × Json)} {name : String} {n : Nat}

theorem text?_ofString (s : String) : (ofString s).text? = some s := by
  simp [ofString, text?, Literal.unescape_escape]

theorem word?_ofNat (w : UInt64) : (ofNat w.toNat).word? = some w := Literal.word?_toDigits w

theorem plain_ofString (s : String) : Plain (ofString s) := .string s.toList

theorem plain_ofNat (w : UInt64) : Plain (ofNat w.toNat) := .number w

theorem ofMembers_eq (ms : List (String × Json)) :
    ofMembers ms = object (ms.map fun m => (Literal.escape m.1.toList, m.2)) := rfl

theorem plain_ofMembers (h : ∀ m ∈ ms, Plain m.2) : Plain (ofMembers ms) := by
  refine .object ?_ ?_
  · intro m hm
    obtain ⟨m', -, rfl⟩ := List.mem_map.mp hm
    exact ⟨m'.1.toList, rfl⟩
  · intro m hm
    obtain ⟨m', hm', rfl⟩ := List.mem_map.mp hm
    exact h m' hm'

theorem keyed?_map_escape (ms : List (String × Json)) :
    keyed? (ms.map fun m => (Literal.escape m.1.toList, m.2)) = some ms := by
  induction ms with
  | nil => rfl
  | cons m ms ih => simp [keyed?, Literal.unescape_escape, ih]

/-- A key that is there only once is there with its value. -/
theorem field?_of_mem (hkeys : (ms.map Prod.fst).Nodup) (h : (name, v) ∈ ms) :
    field? ms name = some v := by
  have hfilter : ms.filter (·.1 == name) = [(name, v)] := by
    induction ms with
    | nil => cases h
    | cons m ms ih =>
      obtain ⟨hm, hms⟩ := List.nodup_cons.mp hkeys
      rcases List.mem_cons.mp h with rfl | h
      · have hnone : ms.filter (·.1 == name) = [] := by
          rw [List.filter_eq_nil_iff]
          intro m' hm' heq
          exact hm (List.mem_map.mpr ⟨m', hm', beq_iff_eq.mp heq⟩)
        simp [hnone]
      · have hne : m.1 ≠ name := fun heq => hm (List.mem_map.mpr ⟨(name, v), h, heq.symm⟩)
        simp [hne, ih hms h]
  rw [field?, hfilter]

/-- Fields are found in the order in which they are asked for. -/
theorem fieldsOfMembers?_eq (hkeys : (ms.map Prod.fst).Nodup) (h : ∀ f ∈ fs, f ∈ ms) :
    fieldsOfMembers? (fs.map Prod.fst) ms = some (fs.map Prod.snd) := by
  unfold fieldsOfMembers?
  induction fs with
  | nil => rfl
  | cons f fs ih =>
    rw [List.forall_mem_cons] at h
    simp [field?_of_mem hkeys h.1, ih h.2]

theorem fields?_ofMembers (hkeys : (ms.map Prod.fst).Nodup) :
    (ofMembers ms).fields? (ms.map Prod.fst) = some (ms.map Prod.snd) := by
  rw [ofMembers_eq, fields?, keyed?_map_escape, Option.bind_some]
  exact fieldsOfMembers?_eq hkeys fun f hf => hf

theorem mapM_map {α : Type} {encode : α → Json} {decode : Json → Option α}
    (h : ∀ a, decode (encode a) = some a) (as : List α) : (as.map encode).mapM decode = some as := by
  induction as with
  | nil => rfl
  | cons a as ih => simp [h, ih]

theorem itemsHaveMeaning_iff {items : List Json} :
    itemsHaveMeaning items = true ↔ ∀ v ∈ items, v.hasMeaning = true := by
  induction items with
  | nil => simp [itemsHaveMeaning]
  | cons v items ih => simp [itemsHaveMeaning, ih]

theorem membersHaveMeaning_iff {members : List (List Char × Json)} :
    membersHaveMeaning members = true ↔
      ∀ m ∈ members, (Literal.unescape m.1).isSome = true ∧ m.2.hasMeaning = true := by
  induction members with
  | nil => simp [membersHaveMeaning]
  | cons m members ih => simp [membersHaveMeaning, ih]

theorem Plain.hasMeaning (h : Plain v) : v.hasMeaning = true := by
  induction h with
  | null => rfl
  | bool b => rfl
  | number w => exact Literal.inDoubleRange_toDigits w
  | string cs => simp [Json.hasMeaning, Literal.unescape_escape]
  | array _ ih => exact itemsHaveMeaning_iff.mpr ih
  | object hkeys _ ih =>
    apply membersHaveMeaning_iff.mpr
    intro m hm
    obtain ⟨cs, hcs⟩ := hkeys m hm
    exact ⟨by rw [hcs, Literal.unescape_escape]; rfl, ih m hm⟩

theorem depth_array_le {items : List Json} (h : ∀ v ∈ items, v.depth ≤ n) :
    (array items).depth ≤ n + 1 := by
  have hitems : depthOfItems items ≤ n := by
    induction items with
    | nil => exact Nat.zero_le n
    | cons v items ih =>
      rw [List.forall_mem_cons] at h
      exact Nat.max_le.mpr ⟨h.1, ih h.2⟩
  rw [depth]
  omega

theorem depth_ofMembers_le (h : ∀ m ∈ ms, m.2.depth ≤ n) : (ofMembers ms).depth ≤ n + 1 := by
  have hmembers : depthOfMembers (ms.map fun m => (Literal.escape m.1.toList, m.2)) ≤ n := by
    induction ms with
    | nil => exact Nat.zero_le n
    | cons m ms ih =>
      rw [List.forall_mem_cons] at h
      exact Nat.max_le.mpr ⟨h.1, ih h.2⟩
  rw [ofMembers_eq, depth]
  omega

theorem depth_ofString (s : String) : (ofString s).depth = 0 := rfl

theorem depth_ofNat (n : Nat) : (ofNat n).depth = 0 := rfl

end Json

namespace Part

theorem plain_toJson (p : Part) : p.toJson.Plain := by
  apply Json.plain_ofMembers
  simp [Json.plain_ofString, Json.plain_ofNat]

theorem ofJson?_toJson (p : Part) : ofJson? p.toJson = some p := by
  have hfields : p.toJson.fields? ["name", "size"] =
      some [.ofString p.name, .ofNat p.size.toNat] :=
    Json.fields?_ofMembers (by simp)
  simp [ofJson?, hfields, Json.text?_ofString, Json.word?_ofNat]

end Part

theorem plain_partsToJson (parts : List Part) : (partsToJson parts).Plain := by
  apply Json.Plain.array
  intro v hv
  obtain ⟨p, -, rfl⟩ := List.mem_map.mp hv
  exact p.plain_toJson

theorem partsOfJson?_partsToJson (parts : List Part) :
    partsOfJson? (partsToJson parts) = some parts :=
  Json.mapM_map Part.ofJson?_toJson parts

theorem depth_partsToJson_le (parts : List Part) : (partsToJson parts).depth ≤ 2 := by
  apply Json.depth_array_le
  intro v hv
  obtain ⟨p, -, rfl⟩ := List.mem_map.mp hv
  apply Json.depth_ofMembers_le
  simp [Json.depth_ofString, Json.depth_ofNat]

namespace Symbol

theorem plain_toJson (s : Symbol) : s.toJson.Plain := by
  apply Json.plain_ofMembers
  simp [Json.plain_ofString, Json.plain_ofNat]

theorem ofJson?_toJson (s : Symbol) : ofJson? s.toJson = some s := by
  have hfields : s.toJson.fields? ["name", "address", "size"] =
      some [.ofString s.name, .ofNat s.address.toNat, .ofNat s.size.toNat] :=
    Json.fields?_ofMembers (by simp)
  simp [ofJson?, hfields, Json.text?_ofString, Json.word?_ofNat]

end Symbol

namespace Reach

theorem plain_toJson (r : Reach) : r.toJson.Plain := by
  apply Json.plain_ofMembers
  simp [Json.plain_ofString, Json.plain_ofNat, plain_partsToJson]

theorem ofJson?_toJson (r : Reach) : ofJson? r.toJson = some r := by
  have hfields : r.toJson.fields? ["root", "own_size", "total_size", "breakdown"] =
      some [.ofString r.root, .ofNat r.own.toNat, .ofNat r.total.toNat, partsToJson r.parts] :=
    Json.fields?_ofMembers (by simp)
  simp [ofJson?, hfields, Json.text?_ofString, Json.word?_ofNat, partsOfJson?_partsToJson]

end Reach

namespace Report

namespace Entry

def status : Entry → String
  | ok .. => "ok"
  | unknown .. => "unknown"

/-- What is written of an entry after its status. -/
def fields : Entry → List (String × Json)
  | ok root own total functions parts =>
    [("root", .ofString root), ("own_size", .ofNat own.toNat), ("total_size", .ofNat total.toNat),
      ("functions", .ofNat functions.toNat), ("breakdown", partsToJson parts)]
  | unknown root error => [("root", .ofString root), ("error", .ofString error)]

def members (e : Entry) : List (String × Json) := ("status", .ofString e.status) :: e.fields

variable (e : Entry)

theorem toJson_eq : e.toJson = .ofMembers e.members := by
  cases e <;> rfl

theorem nodup_members : (e.members.map Prod.fst).Nodup := by
  cases e <;> simp [members, fields]

theorem plain_toJson : e.toJson.Plain := by
  rw [toJson_eq]
  apply Json.plain_ofMembers
  cases e <;> simp [members, fields, Json.plain_ofString, Json.plain_ofNat, plain_partsToJson]

theorem depth_toJson_le : e.toJson.depth ≤ 3 := by
  rw [toJson_eq]
  apply Json.depth_ofMembers_le
  cases e <;> simp [members, fields, Json.depth_ofString, Json.depth_ofNat, depth_partsToJson_le]

theorem ofStatus?_members :
    ofStatus? e.status (fun names => Json.fieldsOfMembers? names e.members) = some e := by
  have hfields : Json.fieldsOfMembers? (e.fields.map Prod.fst) e.members =
      some (e.fields.map Prod.snd) :=
    Json.fieldsOfMembers?_eq e.nodup_members fun f hf => List.mem_cons_of_mem _ hf
  cases e with
  | ok root own total functions parts =>
    have hok : Json.fieldsOfMembers? okNames (members (.ok root own total functions parts)) =
        some [.ofString root, .ofNat own.toNat, .ofNat total.toNat, .ofNat functions.toNat,
          partsToJson parts] := hfields
    simp [ofStatus?, status, hok, Json.text?_ofString, Json.word?_ofNat, partsOfJson?_partsToJson]
  | unknown root error =>
    have hunknown : Json.fieldsOfMembers? unknownNames (members (.unknown root error)) =
        some [.ofString root, .ofString error] := hfields
    simp [ofStatus?, status, hunknown, Json.text?_ofString]

theorem ofJson?_toJson : ofJson? e.toJson = some e := by
  have hdepth : e.toJson.depth ≤ depthLimit := le_trans e.depth_toJson_le (by decide)
  have hstatus : Json.field? e.members "status" = some (.ofString e.status) :=
    Json.field?_of_mem e.nodup_members List.mem_cons_self
  unfold ofJson?
  rw [e.plain_toJson.hasMeaning, decide_eq_true hdepth, toJson_eq, Json.ofMembers_eq]
  simp [Json.keyed?_map_escape, hstatus, Json.text?_ofString, ofStatus?_members]

end Entry

namespace Document

theorem plain_toJson (d : Document) : d.toJson.Plain := by
  have hroots : (Json.array (d.roots.map Entry.toJson)).Plain := by
    apply Json.Plain.array
    intro v hv
    obtain ⟨e, -, rfl⟩ := List.mem_map.mp hv
    exact e.plain_toJson
  apply Json.plain_ofMembers
  simpa using hroots

theorem ofJson?_toJson (d : Document) : ofJson? d.toJson = some d := by
  have hfields : d.toJson.fields? ["roots"] = some [.array (d.roots.map Entry.toJson)] :=
    Json.fields?_ofMembers (by simp)
  simp [ofJson?, hfields, Json.items?, Json.mapM_map Entry.ofJson?_toJson]

end Document

end Report

theorem Json.Plain.bind_parse? {α : Type} {v : Json} {decode : Json → Option α} {a : α}
    (h : v.Plain) (hdecode : decode v = some a) :
    (Json.parse? v.toCompact).bind decode = some a ∧
      (Json.parse? v.toPretty).bind decode = some a := by
  rw [h.parse?_eq.1, h.parse?_eq.2, Option.bind_some]
  exact ⟨hdecode, hdecode⟩

/-- Documents, reaches, symbols and parts are read back from both of their written forms, whatever
the characters of their texts and whatever their numbers. -/
theorem written_records_read_back :
    (∀ d : Report.Document,
      (Json.parse? d.toJson.toCompact).bind Report.Document.ofJson? = some d ∧
      (Json.parse? d.toJson.toPretty).bind Report.Document.ofJson? = some d) ∧
    (∀ r : Reach,
      (Json.parse? r.toJson.toCompact).bind Reach.ofJson? = some r ∧
      (Json.parse? r.toJson.toPretty).bind Reach.ofJson? = some r) ∧
    (∀ s : Symbol,
      (Json.parse? s.toJson.toCompact).bind Symbol.ofJson? = some s ∧
      (Json.parse? s.toJson.toPretty).bind Symbol.ofJson? = some s) ∧
    ∀ p : Part,
      (Json.parse? p.toJson.toCompact).bind Part.ofJson? = some p ∧
      (Json.parse? p.toJson.toPretty).bind Part.ofJson? = some p :=
  ⟨fun d => d.plain_toJson.bind_parse? d.ofJson?_toJson,
    fun r => r.plain_toJson.bind_parse? r.ofJson?_toJson,
    fun s => s.plain_toJson.bind_parse? s.ofJson?_toJson,
    fun p => p.plain_toJson.bind_parse? p.ofJson?_toJson⟩

example : (Report.Document.mk [.unknown "a\"\x01" "\\\n"]).toJson.toCompact =
    "\x7b\"roots\":[\x7b\"status\":\"unknown\",\"root\":\"a\\\"\\u0001\"," ++
      "\"error\":\"\\\\\\n\"\x7d]\x7d" := by
  decide +kernel

end CodeReach
