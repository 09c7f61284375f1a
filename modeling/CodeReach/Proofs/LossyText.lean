import CodeReach.Files
import CodeReach.Proofs.Utf8Characters
import CodeReach.Text.Lines

namespace CodeReach.Text.Utf8

open String (utf8EncodeChar)

variable {piece bytes rest : List UInt8} {text : List Char} {b : Begun} {c : Char} {byte : UInt8}

/-- How the form of some character starts, or all of it. -/
def Begins (piece : List UInt8) : Prop := ∃ c, piece <+: utf8EncodeChar c

/-- No character can be read where `piece` and then `rest` stand, and `piece` is the longest start
of a form there, or a single byte where not even that starts one. -/
structure Broken (piece rest : List UInt8) : Prop where
  noChar : ∀ c, ¬ utf8EncodeChar c <+: piece ++ rest
  nonempty : piece ≠ []
  start : Begins piece ∨ piece.length = 1
  longest : ∀ more, more <+: piece ++ rest → piece.length < more.length → ¬ Begins more

/-- The text that bytes stand for: their characters, and one replacement character for each broken
piece. -/
inductive Reads : List UInt8 → List Char → Prop where
  | nil : Reads [] []
  | char {rest : List UInt8} {text : List Char} (c : Char) (hrest : Reads rest text) :
    Reads (utf8EncodeChar c ++ rest) (c :: text)
  | broken {piece rest : List UInt8} {text : List Char} (hpiece : Broken piece rest)
    (hrest : Reads rest text) : Reads (piece ++ rest) (replacement :: text)

theorem Broken.eq_of_append_eq {piece' rest' : List UInt8} (h : Broken piece rest)
    (h' : Broken piece' rest') (he : piece ++ rest = piece' ++ rest') : piece = piece' := by
  have hp : piece <+: piece ++ rest := List.prefix_append _ _
  have hp' : piece' <+: piece ++ rest := he ▸ List.prefix_append _ _
  rcases Nat.lt_trichotomy piece.length piece'.length with hlt | heq | hlt
  · have hpos := List.length_pos_iff.mpr h.nonempty
    rcases h'.start with hs | hs
    · exact absurd hs (h.longest _ hp' hlt)
    · omega
  · exact (List.prefix_of_prefix_length_le hp hp' heq.le).eq_of_length heq
  · have hpos := List.length_pos_iff.mpr h'.nonempty
    rcases h.start with hs | hs
    · exact absurd hs (h'.longest _ (he ▸ hp) hlt)
    · omega

theorem Reads.of_char (h : Reads (utf8EncodeChar c ++ rest) text) :
    ∃ text', text = c :: text' ∧ Reads rest text' := by
  generalize hbytes : utf8EncodeChar c ++ rest = bytes at h
  cases h with
  | nil => exact absurd (List.append_eq_nil_iff.mp hbytes).1 (encode_ne_nil c)
  | char d hrest =>
    have hcd : c = d := eq_of_encode_append_eq hbytes
    subst hcd
    rw [List.append_cancel_left hbytes]
    exact ⟨_, rfl, hrest⟩
  | broken hpiece hrest => exact absurd ⟨_, hbytes⟩ (hpiece.noChar c)

theorem Reads.of_broken (hpiece : Broken piece rest) (h : Reads (piece ++ rest) text) :
    ∃ text', text = replacement :: text' ∧ Reads rest text' := by
  generalize hbytes : piece ++ rest = bytes at h
  cases h with
  | nil => exact absurd (List.append_eq_nil_iff.mp hbytes).1 hpiece.nonempty
  | char d hrest => exact absurd ⟨_, hbytes.symm⟩ (hpiece.noChar d)
  | broken hpiece' hrest =>
    have hp := hpiece.eq_of_append_eq hpiece' hbytes
    subst hp
    rw [List.append_cancel_left hbytes]
    exact ⟨_, rfl, hrest⟩

/-- Bytes stand for one text only. -/
theorem Reads.unique {text' : List Char} (h : Reads bytes text) (h' : Reads bytes text') :
    text = text' := by
  induction h generalizing text' with
  | nil =>
    generalize hbytes : ([] : List UInt8) = bytes at h'
    cases h' with
    | nil => rfl
    | char d _ => exact absurd (List.append_eq_nil_iff.mp hbytes.symm).1 (encode_ne_nil d)
    | broken hpiece _ => exact absurd (List.append_eq_nil_iff.mp hbytes.symm).1 hpiece.nonempty
  | char c _ ih =>
    obtain ⟨text'', rfl, hrest⟩ := h'.of_char
    rw [ih hrest]
  | broken hpiece _ ih =>
    obtain ⟨text'', rfl, hrest⟩ := h'.of_broken hpiece
    rw [ih hrest]

/-- After the bytes of `piece` the decoder is within the character `b`. -/
structure Pending (piece : List UInt8) (b : Begun) : Prop where
  nonempty : piece ≠ []
  low : 0x80 ≤ b.low
  le : b.low ≤ b.high
  high : b.high ≤ 0xbf
  goesOn : ∀ rest, char? (piece ++ rest) = b.complete? rest

theorem pending_lead (h : lead byte = .begun b) : Pending [byte] b := by
  obtain ⟨hlow, hle, hhigh⟩ := bounds_of_lead h
  refine ⟨by simp, hlow, hle, hhigh, fun rest => ?_⟩
  rw [List.singleton_append, char?, h]

namespace Pending

variable (hp : Pending piece b)
include hp

theorem next {later : Nat} (hlater : b.later = later + 1)
    (hin : b.low ≤ byte.toNat ∧ byte.toNat ≤ b.high) :
    Pending (piece ++ [byte]) ⟨b.bits * 64 + (byte.toNat - 0x80), later, 0x80, 0xbf⟩ := by
  refine ⟨by simp, by simp, by simp, by simp, fun rest => ?_⟩
  rw [List.append_assoc, hp.goesOn, List.singleton_append, Begun.complete?, if_pos hin]
  simp [hlater]

theorem last (hlater : b.later = 0) (hin : b.low ≤ byte.toNat ∧ byte.toNat ≤ b.high) :
    piece ++ [byte] = utf8EncodeChar (Char.ofNat (b.bits * 64 + (byte.toNat - 0x80))) := by
  rw [← char?_eq_some_iff, hp.goesOn, Begun.complete?, if_pos hin]
  simp [hlater]

theorem begins : Begins piece := by
  obtain ⟨rest, c, h⟩ := Begun.exists_complete hp.low hp.le hp.high
  rw [← hp.goesOn, char?_eq_some_iff] at h
  exact ⟨c, rest, h⟩

theorem not_encode_start (c : Char) : ¬ utf8EncodeChar c <+: piece := by
  intro h
  obtain ⟨d, hd⟩ := hp.begins
  have hc : c = d := eq_of_encode_start (h.trans hd)
  subst hc
  -- Then the piece is the whole form, but a begun character lacks at least one byte.
  have hwhole : piece = utf8EncodeChar c := hd.eq_of_length_le h.length_le
  have hnone := hp.goesOn []
  rw [List.append_nil, hwhole, char?_encode] at hnone
  cases hnone

theorem not_begins (hout : ¬ (b.low ≤ byte.toNat ∧ byte.toNat ≤ b.high)) :
    ¬ Begins (piece ++ byte :: rest) := by
  rintro ⟨c, tail, h⟩
  rw [← char?_eq_some_iff, List.append_assoc, hp.goesOn, List.cons_append, Begun.complete?,
    if_neg hout] at h
  cases h

/-- A begun character that the next byte or the end of the bytes breaks off is a broken piece. -/
theorem broken (hrest : ∀ byte ∈ rest.head?, ¬ (b.low ≤ byte.toNat ∧ byte.toNat ≤ b.high)) :
    Broken piece rest := by
  have hlonger : ∀ more, more <+: piece ++ rest → piece.length < more.length → ¬ Begins more := by
    intro more hmore hlen hbegins
    obtain ⟨tail, rfl⟩ : piece <+: more :=
      List.prefix_of_prefix_length_le (List.prefix_append piece rest) hmore hlen.le
    cases tail with
    | nil => simp at hlen
    | cons byte tail =>
      obtain ⟨after, rfl⟩ : byte :: tail <+: rest := (List.prefix_append_right_inj piece).mp hmore
      exact hp.not_begins (hrest byte rfl) hbegins
  refine ⟨fun c hc => ?_, hp.nonempty, .inl hp.begins, hlonger⟩
  rcases Nat.lt_or_ge piece.length (utf8EncodeChar c).length with hlen | hlen
  · exact hlonger _ hc hlen ⟨c, List.prefix_refl _⟩
  · exact hp.not_encode_start c (List.prefix_of_prefix_length_le hc (List.prefix_append _ _) hlen)

end Pending

theorem broken_stray (h : lead byte = .stray) : Broken [byte] rest := by
  have hnone : ∀ more, more <+: [byte] ++ rest → 1 ≤ more.length → ¬ Begins more := by
    intro more hmore hlen hbegins
    obtain ⟨tail, rfl⟩ : [byte] <+: more :=
      List.prefix_of_prefix_length_le (List.prefix_append _ _) hmore hlen
    obtain ⟨c, after, hc⟩ := hbegins
    rw [← char?_eq_some_iff, List.append_assoc, List.singleton_append, char?, h] at hc
    cases hc
  refine ⟨fun c hc => ?_, by simp, .inr rfl, fun more hmore hlen => hnone more hmore hlen.le⟩
  exact hnone _ hc (List.length_pos_iff.mpr (encode_ne_nil c)) ⟨c, List.prefix_refl _⟩

/-- The decoder with the character `begun` after `piece` reads the bytes that come as they have to
be read together with the piece. -/
def ReadsOn (begun : Option Begun) (piece bytes : List UInt8) : Prop :=
  ∀ text, ∃ added, Reads (piece ++ bytes) added ∧
    (bytes.foldl Decoder.step ⟨begun, text⟩).finish = text.reverse ++ added

theorem readsOn_enter (hstart : ReadsOn none [] rest)
    (hgoesOn : ∀ piece b, Pending piece b → ReadsOn (some b) piece rest) (text : List Char) :
    ∃ added, Reads (byte :: rest) added ∧
      (rest.foldl Decoder.step (Decoder.enter text byte)).finish = text.reverse ++ added := by
  unfold Decoder.enter
  cases hl : lead byte with
  | whole c =>
    have hbyte : [byte] = utf8EncodeChar c := by
      rw [← char?_eq_some_iff, char?, hl]
      rfl
    obtain ⟨added, hreads, hfinish⟩ := hstart (c :: text)
    refine ⟨c :: added, ?_, by simp [hfinish]⟩
    rw [← List.singleton_append, hbyte]
    exact .char c hreads
  | begun b => exact hgoesOn [byte] b (pending_lead hl) text
  | stray =>
    obtain ⟨added, hreads, hfinish⟩ := hstart (replacement :: text)
    exact ⟨replacement :: added, .broken (broken_stray hl) hreads, by simp [hfinish]⟩

theorem readsOn_next (hp : Pending piece b) (hstart : ReadsOn none [] rest)
    (hgoesOn : ∀ piece b, Pending piece b → ReadsOn (some b) piece rest) :
    ReadsOn (some b) piece (byte :: rest) := by
  intro text
  rw [List.foldl_cons, Decoder.step]
  dsimp only
  split
  · next hin =>
    split
    · next hlater =>
      obtain ⟨added, hreads, hfinish⟩ :=
        hstart (Char.ofNat (b.bits * 64 + (byte.toNat - 0x80)) :: text)
      refine ⟨_ :: added, ?_, by simpa using hfinish⟩
      rw [← List.singleton_append, ← List.append_assoc, hp.last hlater hin]
      exact .char _ hreads
    · next later hlater =>
      obtain ⟨added, hreads, hfinish⟩ := hgoesOn _ _ (hp.next hlater hin) text
      exact ⟨added, by simpa using hreads, hfinish⟩
  · next hout =>
    -- The byte breaks the character off and is read as if nothing had been begun.
    obtain ⟨added, hreads, hfinish⟩ := readsOn_enter hstart hgoesOn (replacement :: text)
    refine ⟨replacement :: added, .broken (hp.broken ?_) hreads, by simpa using hfinish⟩
    intro byte' hbyte'
    cases hbyte'
    exact hout

/-- Whatever has been begun, the decoder reads on as it has to. -/
theorem readsOn_bytes (bytes : List UInt8) :
    ReadsOn none [] bytes ∧ ∀ piece b, Pending piece b → ReadsOn (some b) piece bytes := by
  induction bytes with
  | nil =>
    constructor
    · intro text
      exact ⟨[], .nil, by simp [Decoder.finish]⟩
    · intro piece b hp text
      exact ⟨[replacement], .broken (hp.broken (by simp)) .nil, by simp [Decoder.finish]⟩
  | cons byte rest ih =>
    obtain ⟨hstart, hgoesOn⟩ := ih
    refine ⟨readsOn_enter hstart hgoesOn, ?_⟩
    intro piece b hp
    exact readsOn_next hp hstart hgoesOn

theorem lossy_eq_iff : lossy bytes = text ↔ Reads bytes text := by
  obtain ⟨added, hreads, hfinish⟩ := (readsOn_bytes bytes).1 []
  have hadded : lossy bytes = added := hfinish
  constructor
  · intro h
    rw [← h, hadded]
    exact hreads
  · intro h
    rw [hadded]
    exact hreads.unique h

theorem finish_foldl_step (text : List Char) (bytes : List UInt8) :
    (bytes.foldl Decoder.step ⟨none, text⟩).finish = text.reverse ++ lossy bytes := by
  obtain ⟨added, hreads, hfinish⟩ := (readsOn_bytes bytes).1 text
  have hlossy : lossy bytes = added := lossy_eq_iff.mpr hreads
  rw [hfinish, hlossy]

/-- No begun character goes on with an ASCII byte. -/
def Decoder.AboveAscii (d : Decoder) : Prop := ∀ b ∈ d.begun, 0x80 ≤ b.low

theorem aboveAscii_enter (text : List Char) (byte : UInt8) :
    (Decoder.enter text byte).AboveAscii := by
  intro b hb
  unfold Decoder.enter at hb
  cases hl : lead byte with
  | whole c => simp [hl] at hb
  | begun b' =>
    simp only [hl, Option.mem_some] at hb
    subst hb
    exact (bounds_of_lead hl).1
  | stray => simp [hl] at hb

theorem aboveAscii_step (d : Decoder) (byte : UInt8) : (d.step byte).AboveAscii := by
  unfold Decoder.step
  split
  · exact aboveAscii_enter _ _
  · split
    · dsimp only
      split
      · simp [Decoder.AboveAscii]
      · simp [Decoder.AboveAscii]
    · exact aboveAscii_enter _ _

theorem aboveAscii_foldl (bytes : List UInt8) :
    (bytes.foldl Decoder.step .start).AboveAscii := by
  induction bytes using List.reverseRecOn with
  | nil => simp [Decoder.AboveAscii, Decoder.start]
  | append_singleton bytes byte _ =>
    rw [List.foldl_append]
    exact aboveAscii_step _ byte

/-- A line feed ends whatever was begun, and the decoder starts afresh. -/
theorem step_lineFeed {d : Decoder} (h : d.AboveAscii) :
    d.step 0x0a = ⟨none, '\n' :: d.finish.reverse⟩ := by
  have hlead : lead 0x0a = .whole '\n' := rfl
  obtain ⟨begun, text⟩ := d
  cases begun with
  | none => simp [Decoder.step, Decoder.enter, hlead, Decoder.finish]
  | some b =>
    have hlow : 0x80 ≤ b.low := h b rfl
    have hout : ¬ b.low ≤ 10 := by omega
    simp [Decoder.step, Decoder.enter, hlead, Decoder.finish, hout]

theorem lossy_append_lineFeed (a b : List UInt8) :
    lossy (a ++ 0x0a :: b) = lossy a ++ '\n' :: lossy b := by
  unfold lossy
  rw [List.foldl_append, List.foldl_cons, step_lineFeed (aboveAscii_foldl a), finish_foldl_step]
  simp [lossy]

theorem lossy_encode (cs : List Char) : lossy (cs.flatMap utf8EncodeChar) = cs := by
  rw [lossy_eq_iff]
  induction cs with
  | nil => exact .nil
  | cons c cs ih => exact .char c ih

theorem toList_of_fromUTF8? {bytes : ByteArray} {text : String}
    (h : String.fromUTF8? bytes = some text) :
    bytes.data.toList = text.toList.flatMap utf8EncodeChar := by
  unfold String.fromUTF8? at h
  split at h
  · have htext : text.toByteArray = bytes := by
      rw [← Option.some.inj h]
      rfl
    rw [← htext, ← String.utf8Encode_toList]
    simp [List.utf8Encode]
  · cases h

/-- The exact way and the lossy way never differ. -/
theorem decode_eq_lossy (bytes : ByteArray) :
    decode bytes = String.ofList (lossy bytes.data.toList) := by
  unfold decode
  cases h : String.fromUTF8? bytes with
  | none => rfl
  | some text => simp [toList_of_fromUTF8? h, lossy_encode]

theorem decode_append_lineFeed (a b : ByteArray) :
    decode (a ++ [0x0a].toByteArray ++ b) = decode a ++ "\n" ++ decode b := by
  have hbytes : (a ++ [0x0a].toByteArray ++ b).data.toList =
      a.data.toList ++ 0x0a :: b.data.toList := by
    simp
  rw [decode_eq_lossy, hbytes, lossy_append_lineFeed, decode_eq_lossy, decode_eq_lossy]
  apply String.toList_inj.mp
  simp

theorem not_mem_of_reads (h : Reads bytes text) (hbytes : 0x0a ∉ bytes) : '\n' ∉ text := by
  induction h with
  | nil => simp
  | char c _ ih =>
    rw [List.mem_append, not_or] at hbytes
    have hc : c ≠ '\n' := by
      rintro rfl
      exact hbytes.1 (by decide)
    simp [hc.symm, ih hbytes.2]
  | broken _ _ ih =>
    rw [List.mem_append, not_or] at hbytes
    have hr : '\n' ≠ replacement := by decide
    simp [hr, ih hbytes.2]

/-- Lines of bytes with a line feed between each two. -/
def joinLines (lines : List (List UInt8)) : ByteArray := ([0x0a].intercalate lines).toByteArray

theorem segments_lossy {lines : List (List UInt8)} (hne : lines ≠ [])
    (h : ∀ line ∈ lines, 0x0a ∉ line) :
    segments (lossy ([0x0a].intercalate lines)) = lines.map lossy := by
  induction lines with
  | nil => exact absurd rfl hne
  | cons line lines ih =>
    have hline : '\n' ∉ lossy line :=
      not_mem_of_reads (lossy_eq_iff.mp rfl) (h line List.mem_cons_self)
    cases lines with
    | nil => simpa using segments_of_not_mem hline
    | cons next lines =>
      have hrest := ih (by simp) fun l hl => h l (List.mem_cons_of_mem _ hl)
      rw [List.intercalate_cons_cons, List.append_assoc, List.singleton_append,
        lossy_append_lineFeed, segments_append hline, hrest]
      rfl

/-- Each line of bytes has its own line of text. -/
theorem segments_decode {lines : List (List UInt8)} (hne : lines ≠ [])
    (h : ∀ line ∈ lines, 0x0a ∉ line) :
    segments (decode (joinLines lines)).toList =
      lines.map fun line => (decode line.toByteArray).toList := by
  have hlines : (decode (joinLines lines)).toList = lossy ([0x0a].intercalate lines) := by
    simp [decode_eq_lossy, joinLines]
  rw [hlines, segments_lossy hne h]
  simp [decode_eq_lossy]

end CodeReach.Text.Utf8

namespace CodeReach.Files

open Text Text.Utf8

theorem readInput_of_file {files : Files} {path : String} {bytes : ByteArray}
    (h : files path = some (.file bytes)) : files.readInput path = .ok (decode bytes) := by
  simp [readInput, isFile, readBytes, h]

/-- The text of an input file is cut at its line feeds just as the bytes are, so other bytes within
one line give another text of that line and of no other. Where the bytes are UTF-8 the exact and the
lossy way give the same text, and the lossy way puts one replacement character for each longest
start of a character that cannot go on. -/
theorem input_text_by_lines :
    (∀ (files : Files) (path : String) (bytes : ByteArray), files path = some (.file bytes) →
      files.readInput path = .ok (decode bytes)) ∧
    (∀ a b : ByteArray, decode (a ++ [0x0a].toByteArray ++ b) = decode a ++ "\n" ++ decode b) ∧
    (∀ (lines : List (List UInt8)) (i : Nat) (line : List UInt8), lines ≠ [] →
      (∀ l ∈ lines, 0x0a ∉ l) → 0x0a ∉ line →
      segments (decode (joinLines (lines.set i line))).toList =
        (segments (decode (joinLines lines)).toList).set i (decode line.toByteArray).toList) ∧
    (∀ (bytes : ByteArray) (text : String), String.fromUTF8? bytes = some text →
      text = String.ofList (lossy bytes.data.toList)) ∧
    (∀ (bytes : List UInt8) (text : List Char), text = lossy bytes ↔ Reads bytes text) := by
  refine ⟨fun _ _ _ => readInput_of_file, decode_append_lineFeed, ?_, ?_, ?_⟩
  · intro lines i line hne h hline
    have hset : ∀ l ∈ lines.set i line, 0x0a ∉ l := by
      intro l hl
      rcases List.mem_or_eq_of_mem_set hl with hl | rfl
      · exact h l hl
      · exact hline
    rw [segments_decode (by simpa using hne) hset, segments_decode hne h, List.map_set]
  · intro bytes text h
    rw [toList_of_fromUTF8? h, lossy_encode, String.ofList_toList]
  · intro bytes text
    rw [eq_comm, lossy_eq_iff]

/-- Two of three bytes of a character stand before a line feed: they are lost alone. -/
theorem cut_character_stays_in_its_line :
    readInput (fun _ => some (.file [0xe2, 0x82, 0x0a, 0xc3, 0xa9].toByteArray)) "app.map" =
      .ok "�\né" ∧
    String.fromUTF8? [0xc3, 0xa9].toByteArray = some "é" ∧
    "é" = String.ofList (lossy [0xc3, 0xa9]) ∧
    segments (decode (joinLines ([[0xe2, 0x82], [0xc3, 0xa9]].set 0 [0x41]))).toList =
      [['�'], ['é']].set 0 ['A'] := by
  have hvalid : String.fromUTF8? [0xc3, 0xa9].toByteArray = some "é" := by decide +kernel
  have htext : decode [0xe2, 0x82, 0x0a, 0xc3, 0xa9].toByteArray = "�\né" := by
    decide +kernel
  refine ⟨?_, hvalid, input_text_by_lines.2.2.2.1 _ _ hvalid, ?_⟩
  · rw [← htext]
    exact input_text_by_lines.1 _ _ _ rfl
  · rw [input_text_by_lines.2.2.1 _ _ _ (by simp) (by simp) (by simp)]
    decide +kernel

end CodeReach.Files
