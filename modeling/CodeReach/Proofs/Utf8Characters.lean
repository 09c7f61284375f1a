import CodeReach.Text.Utf8
import Mathlib

namespace CodeReach.Text.Utf8

open String (utf8EncodeChar)

/-- The character that a begun one becomes if just these bytes follow. -/
def Begun.complete? (b : Begun) : List UInt8 → Option Char
  | [] => none
  | byte :: rest =>
    if b.low ≤ byte.toNat ∧ byte.toNat ≤ b.high then
      let bits := b.bits * 64 + (byte.toNat - 0x80)
      match b.later with
      | 0 => if rest = [] then some (Char.ofNat bits) else none
      | later + 1 => Begun.complete? ⟨bits, later, 0x80, 0xbf⟩ rest
    else none

/-- The character that just these bytes are. -/
def char? : List UInt8 → Option Char
  | [] => none
  | byte :: rest =>
    match lead byte with
    | .whole c => if rest = [] then some c else none
    | .begun b => b.complete? rest
    | .stray => none

/-- The last `k` bytes of a code point's form, six bits in each. -/
def conts : Nat → Nat → List Nat
  | 0, _ => []
  | k + 1, v => (0x80 + v / 64 ^ k % 64) :: conts k v

/-- The UTF-8 form of a code point: the leading bits in the first byte, then six bits a byte. -/
def form (v : Nat) : List Nat :=
  if v < 0x80 then [v]
  else if v < 0x800 then (0xc0 + v / 64) :: conts 1 v
  else if v < 0x10000 then (0xe0 + v / 4096) :: conts 2 v
  else (0xf0 + v / 262144) :: conts 3 v

theorem toNat_valid (c : Char) :
    c.toNat < 0xd800 ∨ (0xdfff < c.toNat ∧ c.toNat < 0x110000) := c.valid

theorem toNat_ofNat {v : Nat} (h : v < 0xd800 ∨ (0xdfff < v ∧ v < 0x110000)) :
    (Char.ofNat v).toNat = v := by
  have hv : v.isValidChar := h
  simp [Char.ofNat, hv, Char.toNat, Char.ofNatAux]

theorem map_toNat_encode (c : Char) : (utf8EncodeChar c).map UInt8.toNat = form c.toNat := by
  have hvalid := toNat_valid c
  have hval : c.val.toNat = c.toNat := rfl
  unfold utf8EncodeChar form
  rw [hval]
  generalize c.toNat = v at hvalid ⊢
  have hone : v ≤ 127 ↔ v < 0x80 := by omega
  have htwo : v ≤ 2047 ↔ v < 0x800 := by omega
  have hthree : v ≤ 65535 ↔ v < 0x10000 := by omega
  simp only [hone, htwo, hthree]
  split
  · simp only [List.map_cons, List.map_nil, UInt8.toNat_ofNat', List.cons.injEq, and_true]
    omega
  · split
    · simp only [List.map_cons, List.map_nil, UInt8.toNat_ofNat', conts, List.cons.injEq, and_true,
        pow_zero, Nat.div_one]
      omega
    · split
      · simp only [List.map_cons, List.map_nil, UInt8.toNat_ofNat', conts, List.cons.injEq,
          and_true, pow_zero, Nat.div_one, pow_one]
        omega
      · simp only [List.map_cons, List.map_nil, UInt8.toNat_ofNat', conts, List.cons.injEq,
          and_true, pow_zero, Nat.div_one, pow_one, Nat.reducePow]
        omega

/-- A begun character takes just the bytes that some code point within its bounds ends with. -/
theorem Begun.complete?_eq_some_iff {b : Begun} {bytes : List UInt8} {c : Char}
    (hlow : 0x80 ≤ b.low) (hhigh : b.high ≤ 0xbf) :
    b.complete? bytes = some c ↔
      ∃ v, v / 64 ^ (b.later + 1) = b.bits ∧ b.low ≤ 0x80 + v / 64 ^ b.later % 64 ∧
        0x80 + v / 64 ^ b.later % 64 ≤ b.high ∧
        bytes.map UInt8.toNat = conts (b.later + 1) v ∧ c = Char.ofNat v := by
  induction bytes generalizing b with
  | nil => simp [Begun.complete?, conts]
  | cons byte rest ih =>
    obtain ⟨bits, later, low, high⟩ := b
    simp only [Begun.complete?, List.map_cons, conts, List.cons.injEq] at hlow hhigh ⊢
    split
    · next hin =>
      cases later with
      | zero =>
        simp only [pow_zero, pow_one, Nat.div_one, conts, List.map_eq_nil_iff, Nat.zero_add]
        constructor
        · intro h
          split at h
          · next hrest =>
            exact ⟨bits * 64 + (byte.toNat - 0x80), by omega, by omega, by omega,
              ⟨by omega, hrest⟩, (Option.some.inj h).symm⟩
          · cases h
        · rintro ⟨v, hbits, -, -, ⟨hbyte, hrest⟩, rfl⟩
          have hv : bits * 64 + (byte.toNat - 0x80) = v := by omega
          rw [if_pos hrest, hv]
      | succ later =>
        -- This byte gives the six bits right below the bits so far, and the rest of them follow.
        have hdiv : ∀ v, v / 64 ^ (later + 1 + 1) = v / 64 ^ (later + 1) / 64 := by
          intro v
          rw [pow_succ _ (later + 1), Nat.div_div_eq_div_mul]
        dsimp only
        rw [ih (by simp) (by simp)]
        dsimp only
        constructor
        · rintro ⟨v, hbits, -, -, hrest, rfl⟩
          have hv := hdiv v
          refine ⟨v, ?_, ?_, ?_, ⟨?_, hrest⟩, rfl⟩ <;> omega
        · rintro ⟨v, hbits, hl, hh, ⟨hbyte, hrest⟩, rfl⟩
          have hv := hdiv v
          refine ⟨v, ?_, ?_, ?_, hrest, rfl⟩ <;> omega
    · next hout =>
      constructor
      · intro h
        cases h
      · rintro ⟨v, -, hl, hh, ⟨hbyte, -⟩, -⟩
        omega

variable {byte : UInt8} {bytes : List UInt8} {c : Char}

theorem lead_of_ascii (h : byte.toNat < 0x80) : lead byte = .whole (Char.ofNat byte.toNat) := by
  simp [lead, h]

theorem lead_of_two (h : 0xc2 ≤ byte.toNat) (h' : byte.toNat < 0xe0) :
    lead byte = .begun ⟨byte.toNat - 0xc0, 0, 0x80, 0xbf⟩ := by
  unfold lead
  rw [if_neg (by omega), if_neg (by omega), if_pos h']

theorem lead_of_three (h : 0xe0 ≤ byte.toNat) (h' : byte.toNat < 0xf0) :
    lead byte = .begun ⟨byte.toNat - 0xe0, 1, if byte.toNat = 0xe0 then 0xa0 else 0x80,
      if byte.toNat = 0xed then 0x9f else 0xbf⟩ := by
  unfold lead
  rw [if_neg (by omega), if_neg (by omega), if_neg (by omega), if_pos h']

theorem lead_of_four (h : 0xf0 ≤ byte.toNat) (h' : byte.toNat < 0xf5) :
    lead byte = .begun ⟨byte.toNat - 0xf0, 2, if byte.toNat = 0xf0 then 0x90 else 0x80,
      if byte.toNat = 0xf4 then 0x8f else 0xbf⟩ := by
  unfold lead
  rw [if_neg (by omega), if_neg (by omega), if_neg (by omega), if_neg (by omega), if_pos h']

theorem lead_of_stray (h : 0x80 ≤ byte.toNat ∧ byte.toNat < 0xc2 ∨ 0xf5 ≤ byte.toNat) :
    lead byte = .stray := by
  unfold lead
  grind

/-- The bytes by what they start: a character of one, two, three or four bytes, or none. -/
theorem byte_ranges (byte : UInt8) :
    byte.toNat < 0x80 ∨ (0xc2 ≤ byte.toNat ∧ byte.toNat < 0xe0) ∨
    (0xe0 ≤ byte.toNat ∧ byte.toNat < 0xf0) ∨ (0xf0 ≤ byte.toNat ∧ byte.toNat < 0xf5) ∨
    (0x80 ≤ byte.toNat ∧ byte.toNat < 0xc2 ∨ 0xf5 ≤ byte.toNat) := by
  omega

theorem bounds_of_lead {b : Begun} (h : lead byte = .begun b) :
    0x80 ≤ b.low ∧ b.low ≤ b.high ∧ b.high ≤ 0xbf := by
  rcases byte_ranges byte with hr | hr | hr | hr | hr
  · rw [lead_of_ascii hr] at h
    cases h
  · rw [lead_of_two hr.1 hr.2] at h
    simp [← Lead.begun.inj h]
  · rw [lead_of_three hr.1 hr.2] at h
    rw [← Lead.begun.inj h]
    dsimp only
    split <;> split <;> omega
  · rw [lead_of_four hr.1 hr.2] at h
    rw [← Lead.begun.inj h]
    dsimp only
    split <;> split <;> omega
  · rw [lead_of_stray hr] at h
    cases h

theorem form_of_char? (h : char? bytes = some c) : bytes.map UInt8.toNat = form c.toNat := by
  cases bytes with
  | nil => cases h
  | cons byte rest =>
    rw [char?] at h
    rcases byte_ranges byte with hr | hr | hr | hr | hr
    · rw [lead_of_ascii hr] at h
      dsimp only at h
      split at h
      · next hrest =>
        rw [← Option.some.inj h, toNat_ofNat (by omega), form, if_pos hr, hrest]
        rfl
      · cases h
    · rw [lead_of_two hr.1 hr.2] at h
      obtain ⟨v, hv, -, -, hrest, rfl⟩ := (Begun.complete?_eq_some_iff (by simp) (by simp)).mp h
      dsimp only at hv hrest
      rw [toNat_ofNat (by omega), form, if_neg (by omega), if_pos (by omega), List.map_cons, hrest]
      congr 1
      omega
    · have hb := bounds_of_lead (lead_of_three hr.1 hr.2)
      rw [lead_of_three hr.1 hr.2] at h
      obtain ⟨v, hv, hlow, hhigh, hrest, rfl⟩ := (Begun.complete?_eq_some_iff hb.1 hb.2.2).mp h
      dsimp only at hv hlow hhigh hrest
      have hv' : v / 4096 = byte.toNat - 0xe0 := hv
      -- The narrowed bounds keep out what two bytes can hold, and the surrogates.
      rw [toNat_ofNat (by grind), form, if_neg (by grind), if_neg (by grind), if_pos (by omega),
        List.map_cons, hrest]
      congr 1
      omega
    · have hb := bounds_of_lead (lead_of_four hr.1 hr.2)
      rw [lead_of_four hr.1 hr.2] at h
      obtain ⟨v, hv, hlow, hhigh, hrest, rfl⟩ := (Begun.complete?_eq_some_iff hb.1 hb.2.2).mp h
      dsimp only at hv hlow hhigh hrest
      have hv' : v / 262144 = byte.toNat - 0xf0 := hv
      have hlow' : (if byte.toNat = 0xf0 then 0x90 else 0x80) ≤ 0x80 + v / 4096 % 64 := hlow
      have hhigh' : 0x80 + v / 4096 % 64 ≤ (if byte.toNat = 0xf4 then 0x8f else 0xbf) := hhigh
      -- Here they keep out what three bytes can hold, and what lies beyond the last code point.
      rw [toNat_ofNat (by grind), form, if_neg (by grind), if_neg (by grind), if_neg (by grind),
        List.map_cons, hrest]
      congr 1
      omega
    · rw [lead_of_stray hr] at h
      cases h

theorem char?_of_form (h : bytes.map UInt8.toNat = form c.toNat) : char? bytes = some c := by
  have hvalid := toNat_valid c
  have hc : Char.ofNat c.toNat = c := Char.ofNat_toNat c
  generalize c.toNat = v at h hvalid hc
  unfold form at h
  split at h
  · obtain ⟨byte, rest, rfl, hbyte, hrest⟩ := List.map_eq_cons_iff.mp h
    rw [char?, lead_of_ascii (by omega), hbyte, hc]
    simpa using hrest
  · split at h
    · obtain ⟨byte, rest, rfl, hbyte, hrest⟩ := List.map_eq_cons_iff.mp h
      rw [char?, lead_of_two (by omega) (by omega)]
      refine (Begun.complete?_eq_some_iff (by simp) (by simp)).mpr ⟨v, ?_, ?_, ?_, hrest, hc.symm⟩
      all_goals dsimp only; omega
    · split at h
      · obtain ⟨byte, rest, rfl, hbyte, hrest⟩ := List.map_eq_cons_iff.mp h
        have hl : lead byte = _ := lead_of_three (by omega) (by omega)
        rw [char?, hl]
        refine (Begun.complete?_eq_some_iff (bounds_of_lead hl).1 (bounds_of_lead hl).2.2).mpr
          ⟨v, ?_, ?_, ?_, hrest, hc.symm⟩
        all_goals dsimp only; grind
      · obtain ⟨byte, rest, rfl, hbyte, hrest⟩ := List.map_eq_cons_iff.mp h
        have hl : lead byte = _ := lead_of_four (by omega) (by omega)
        rw [char?, hl]
        refine (Begun.complete?_eq_some_iff (bounds_of_lead hl).1 (bounds_of_lead hl).2.2).mpr
          ⟨v, ?_, ?_, ?_, hrest, hc.symm⟩
        all_goals dsimp only; grind

/-- Bytes are read as a character if and only if they are its UTF-8 form. -/
theorem char?_eq_some_iff : char? bytes = some c ↔ bytes = utf8EncodeChar c := by
  have hinj : Function.Injective (List.map UInt8.toNat) :=
    List.map_injective_iff.mpr fun _ _ => UInt8.toNat_inj.mp
  constructor
  · intro h
    exact hinj ((form_of_char? h).trans (map_toNat_encode c).symm)
  · intro h
    exact char?_of_form (h ▸ map_toNat_encode c)

theorem char?_encode (c : Char) : char? (utf8EncodeChar c) = some c := char?_eq_some_iff.mpr rfl

theorem encode_ne_nil (c : Char) : utf8EncodeChar c ≠ [] := by
  intro h
  have hc := char?_encode c
  rw [h] at hc
  cases hc

variable {b : Begun} {rest : List UInt8}

theorem Begun.complete?_append (h : b.complete? bytes = some c) (hrest : rest ≠ []) :
    b.complete? (bytes ++ rest) = none := by
  induction bytes generalizing b with
  | nil => cases h
  | cons byte bytes ih =>
    rw [List.cons_append]
    unfold Begun.complete? at h ⊢
    split at h
    · next hin =>
      rw [if_pos hin]
      dsimp only at h ⊢
      split at h
      · simp [hrest]
      · exact ih h
    · cases h

theorem char?_append (h : char? bytes = some c) (hrest : rest ≠ []) :
    char? (bytes ++ rest) = none := by
  cases bytes with
  | nil => cases h
  | cons byte bytes =>
    rw [char?] at h
    rw [List.cons_append, char?]
    cases hl : lead byte with
    | whole d => simp [hrest]
    | begun b =>
      rw [hl] at h
      exact Begun.complete?_append h hrest
    | stray => rfl

/-- No form of a character is the start of another one. -/
theorem eq_of_encode_start {d : Char} (h : utf8EncodeChar c <+: utf8EncodeChar d) : c = d := by
  obtain ⟨rest, hrest⟩ := h
  have hd : char? (utf8EncodeChar c ++ rest) = some d := hrest ▸ char?_encode d
  cases rest with
  | nil =>
    rw [List.append_nil, char?_encode] at hd
    exact Option.some.inj hd
  | cons byte rest =>
    rw [char?_append (char?_encode c) (by simp)] at hd
    cases hd

theorem eq_of_encode_append_eq {d : Char} {rest' : List UInt8}
    (h : utf8EncodeChar c ++ rest = utf8EncodeChar d ++ rest') : c = d := by
  have hd : utf8EncodeChar d <+: utf8EncodeChar c ++ rest := h ▸ List.prefix_append _ _
  rcases List.prefix_or_prefix_of_prefix (List.prefix_append _ rest) hd with hcd | hdc
  · exact eq_of_encode_start hcd
  · exact (eq_of_encode_start hdc).symm

/-- Whatever has been begun can be ended. -/
theorem Begun.exists_complete (hlow : 0x80 ≤ b.low) (hle : b.low ≤ b.high) (hhigh : b.high ≤ 0xbf) :
    ∃ bytes c, b.complete? bytes = some c := by
  obtain ⟨bits, later, low, high⟩ := b
  induction later generalizing bits low high with
  | zero =>
    have hbyte : (UInt8.ofNat low).toNat = low := by
      rw [UInt8.toNat_ofNat', Nat.mod_eq_of_lt (by dsimp only at *; omega)]
    refine ⟨[UInt8.ofNat low], Char.ofNat (bits * 64 + ((UInt8.ofNat low).toNat - 0x80)), ?_⟩
    rw [Begun.complete?, if_pos ⟨hbyte.ge, hbyte.le.trans hle⟩]
    rfl
  | succ later ih =>
    have hbyte : (UInt8.ofNat low).toNat = low := by
      rw [UInt8.toNat_ofNat', Nat.mod_eq_of_lt (by dsimp only at *; omega)]
    obtain ⟨bytes, c, h⟩ := ih (bits * 64 + ((UInt8.ofNat low).toNat - 0x80)) 0x80 0xbf
      (by simp) (by simp) (by simp)
    refine ⟨UInt8.ofNat low :: bytes, c, ?_⟩
    rw [Begun.complete?, if_pos ⟨hbyte.ge, hbyte.le.trans hle⟩]
    exact h

end CodeReach.Text.Utf8
