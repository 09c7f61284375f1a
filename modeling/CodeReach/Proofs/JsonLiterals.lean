import CodeReach.Json.Token
import CodeReach.Proofs.HexNumerals
import CodeReach.Proofs.LineGrammar

namespace CodeReach

open Text

namespace Text.Decimal

variable {n : Nat} {c : Char} {digits : List Char}

theorem isDigit_of_mem_toDigits (h : c ∈ Nat.toDigits 10 n) : isDigit c = true :=
  Nat.isDigit_of_mem_toDigits (by decide) (by decide) h

theorem value_toDigits (n : Nat) : value (Nat.toDigits 10 n) = n := by
  have hfold : value (Nat.toDigits 10 n) = Nat.ofDigitChars 10 (Nat.toDigits 10 n) 0 := by
    rw [Nat.ofDigitChars_eq_foldl, value]
    simp only [Nat.mul_comm, digitValue]
  rw [hfold, Nat.ofDigitChars_ten_toDigits]

/-- Only zero is written with a zero in front. -/
theorem head?_toDigits (hn : 0 < n) : ∀ c ∈ (Nat.toDigits 10 n).head?, c ≠ '0' := by
  induction n using Nat.strongRecOn with
  | ind n ih =>
    rw [Nat.toDigits_eq_if (by decide)]
    split
    · interval_cases n <;> simp [Nat.digitChar]
    · have hhead := ih (n / 10) (by omega) (by omega)
      rw [List.head?_append_of_ne_nil _ Nat.toDigits_ne_nil]
      exact hhead

/-- More digits make no number smaller. -/
theorem le_foldl_digits (digits : List Char) (n : Nat) :
    n ≤ digits.foldl (fun n c => n * 10 + digitValue c) n := by
  induction digits generalizing n with
  | nil => exact le_rfl
  | cons c digits ih =>
    have hstep : n ≤ n * 10 + digitValue c := by omega
    exact le_trans hstep (ih _)

theorem pack_eq (h : digits.foldl (fun n c => n * 10 + digitValue c) n < UInt64.size) :
    Scientific.pack n digits = (digits.foldl (fun n c => n * 10 + digitValue c) n, []) := by
  induction digits generalizing n with
  | nil => rfl
  | cons c digits ih =>
    have hfits : n * 10 + digitValue c < UInt64.size := lt_of_le_of_lt (le_foldl_digits digits _) h
    rw [Scientific.pack, if_pos hfits]
    exact ih h

/-- A number of 64 bits is packed with all its digits. -/
theorem pack_zero (h : value digits < UInt64.size) :
    Scientific.pack 0 digits = (value digits, []) :=
  pack_eq h

theorem scientific_of_digits (h : ∀ c ∈ digits, isDigit c = true) :
    scientific digits = ⟨digits, [], 0⟩ := by
  have hspan : Spans isDigit digits digits [] := ⟨by simp, h, by simp⟩
  obtain ⟨htake, hdrop⟩ := spans_iff.mp hspan
  unfold scientific
  rw [htake, hdrop]
  rfl

/-- Rounding to 53 bits moves a number by less than itself. -/
theorem to53Bits_le (n : Nat) : to53Bits n ≤ 2 * n := by
  unfold to53Bits
  split
  · omega
  · next hn =>
    have hn0 : n ≠ 0 := by
      rintro rfl
      exact hn (by decide)
    have hunit : 2 ^ (n.log2 - 52) ≤ n :=
      le_trans (Nat.pow_le_pow_right (by decide) (Nat.sub_le _ _)) (Nat.log2_self_le hn0)
    have hround : roundHalfEven n (2 ^ (n.log2 - 52)) ≤ n / 2 ^ (n.log2 - 52) + 1 := by
      unfold roundHalfEven
      split_ifs <;> omega
    calc roundHalfEven n (2 ^ (n.log2 - 52)) * 2 ^ (n.log2 - 52)
        ≤ (n / 2 ^ (n.log2 - 52) + 1) * 2 ^ (n.log2 - 52) := Nat.mul_le_mul_right _ hround
      _ = n / 2 ^ (n.log2 - 52) * 2 ^ (n.log2 - 52) + 2 ^ (n.log2 - 52) := by ring
      _ ≤ n + n := Nat.add_le_add (Nat.div_mul_le_self _ _) hunit
      _ = 2 * n := by ring

end Text.Decimal

namespace Json

namespace Literal

variable {c l : Char}

theorem ofLetter?_of_letterOf? (h : letterOf? c = some l) : l ≠ 'u' ∧ ofLetter? l = some c := by
  unfold letterOf? at h
  split_ifs at h
  all_goals
    cases h
    subst c
    decide

theorem ne_of_letterOf?_eq_none (h : letterOf? c = none) : c ≠ '"' ∧ c ≠ '\\' := by
  constructor
  · rintro rfl
    cases h
  · rintro rfl
    cases h

/-- The three ways to write a character: by a letter, by its number, and by itself. -/
inductive Escapes (c : Char) : List Char → Prop
  | letter {l : Char} (hl : l ≠ 'u') (h : ofLetter? l = some c) : Escapes c ['\\', l]
  | number {x y : Char} (hx : Hex.isDigit x = true) (hy : Hex.isDigit y = true)
      (h : Hex.value ['0', '0', x, y] = c.toNat) (hc : c.toNat < 0x20) :
      Escapes c ['\\', 'u', '0', '0', x, y]
  | itself (hquote : c ≠ '"') (hback : c ≠ '\\') (h : 0x20 ≤ c.toNat) : Escapes c [c]

theorem escapes_escapeChar (c : Char) : Escapes c (escapeChar c) := by
  unfold escapeChar
  split
  · next l hl =>
    obtain ⟨hne, hof⟩ := ofLetter?_of_letterOf? hl
    exact .letter hne hof
  · next hnone =>
    obtain ⟨hquote, hback⟩ := ne_of_letterOf?_eq_none hnone
    split
    · next hc =>
      obtain ⟨hx, hvx⟩ := Hex.digitChar_spec (n := c.toNat / 16) (by omega)
      obtain ⟨hy, hvy⟩ := Hex.digitChar_spec (n := c.toNat % 16) (by omega)
      refine .number hx hy ?_ hc
      have hzero : Hex.digitValue '0' = 0 := by decide
      simp only [Hex.value, List.foldl_cons, List.foldl_nil, hvx, hvy, hzero]
      omega
    · next hc => exact .itself hquote hback (by omega)

theorem Escapes.unescape_append {es : List Char} (h : Escapes c es) (rest : List Char) :
    unescape (es ++ rest) = (unescape rest).map (c :: ·) := by
  cases h with
  | letter hl hof =>
    rw [List.cons_append, List.cons_append, List.nil_append, unescape]
    · simp [hof]
    · intro a b c d cs heq _
      exact hl heq
  | number hx hy hvalue hc =>
    have hlow : isLowUnit c.toNat = false := by
      simp [isLowUnit]
      omega
    have hhigh : isHighUnit c.toNat = false := by
      simp [isHighUnit]
      omega
    simp only [List.cons_append, List.nil_append]
    rw [unescape.eq_def]
    simp [hvalue, hlow, hhigh]
  | itself hquote hback hc =>
    rw [List.cons_append, List.nil_append, unescape]
    · intro a b c d cs heq _
      exact hback heq
    · intro letter cs heq _
      exact hback heq

/-- What a text is escaped to gives the text back. -/
theorem unescape_escape (cs : List Char) : unescape (escape cs) = some cs := by
  induction cs with
  | nil => rfl
  | cons c cs ih => rw [escape, (escapes_escapeChar c).unescape_append, ih, Option.map_some]

theorem Escapes.stringRest_append {es : List Char} (h : Escapes c es) (rest : List Char) :
    Token.stringRest (es ++ rest) =
      (Token.stringRest rest).map fun (s, rest) => (es ++ s, rest) := by
  cases h with
  | letter hl hof =>
    rw [List.cons_append, List.cons_append, List.nil_append, Token.stringRest]
    · simp [hof]
    · intro a b c d cs heq _
      exact hl heq
  | number hx hy hvalue hc =>
    have hzero : Hex.isDigit '0' = true := by decide
    simp only [List.cons_append, List.nil_append]
    rw [Token.stringRest]
    simp [hx, hy, hzero]
  | itself hquote hback hc =>
    rw [List.cons_append, List.nil_append, Token.stringRest]
    · simp [hback]
      omega
    · exact hquote
    · intro a b c d cs heq _
      exact hback heq
    · intro letter cs heq _
      exact hback heq

/-- The closing quote is the first one that is not escaped. -/
theorem stringRest_escape (cs rest : List Char) :
    Token.stringRest (escape cs ++ '"' :: rest) = some (escape cs, rest) := by
  induction cs with
  | nil => rfl
  | cons c cs ih =>
    rw [escape, List.append_assoc, (escapes_escapeChar c).stringRest_append, ih, Option.map_some]

theorem word?_toDigits (w : UInt64) : word? (Nat.toDigits 10 w.toNat) = some w := by
  have hdigits : (Nat.toDigits 10 w.toNat).all Decimal.isDigit = true :=
    List.all_eq_true.mpr fun c hc => Decimal.isDigit_of_mem_toDigits hc
  have hlt : w.toNat < UInt64.size := w.toNat_lt_size
  rw [word?, Decimal.value_toDigits, hdigits]
  simp [hlt]

/-- A number of 64 bits is far from the limit of doubles. -/
theorem inDoubleRange_toDigits (w : UInt64) :
    inDoubleRange (Nat.toDigits 10 w.toNat) = true := by
  have hlt : w.toNat < 2 ^ 64 := w.toNat_lt
  have hdigits : ∀ c ∈ Nat.toDigits 10 w.toNat, Decimal.isDigit c = true :=
    fun c hc => Decimal.isDigit_of_mem_toDigits hc
  have hpack : Decimal.Scientific.pack 0 (Nat.toDigits 10 w.toNat) = (w.toNat, []) := by
    have hvalue := Decimal.value_toDigits w.toNat
    rw [Decimal.pack_zero (by rw [hvalue]; exact hlt), hvalue]
  have hbits : to53Bits w.toNat * to53Bits 1 < doubleLimit := by
    have hone : to53Bits 1 = 1 := by decide
    have hlimit : 2 * 2 ^ 64 ≤ doubleLimit := by decide +kernel
    have hround := Decimal.to53Bits_le w.toNat
    rw [hone, Nat.mul_one]
    omega
  have hrange : (Decimal.scientific (Nat.toDigits 10 w.toNat)).packedInDoubleRange = true := by
    rw [Decimal.scientific_of_digits hdigits]
    simp [Decimal.Scientific.packedInDoubleRange, Decimal.Scientific.packed, hpack,
      Decimal.Scientific.pack, hbits]
  unfold inDoubleRange
  split
  · next cs hcs =>
    have hminus : Decimal.isDigit '-' = true := hdigits '-' (by simp [hcs])
    cases hminus
  · exact hrange

end Literal

namespace Token

variable {n : Nat} {rest : List Char}

/-- What follows a number does not go on with it. -/
def EndsNumber (rest : List Char) : Prop :=
  ∀ c ∈ rest.head?, Decimal.isDigit c = false ∧ c ≠ '.' ∧ c ≠ 'e' ∧ c ≠ 'E'

theorem digits?_toDigits (hrest : EndsNumber rest) :
    digits? (Nat.toDigits 10 n ++ rest) = some (Nat.toDigits 10 n, rest) := by
  have hspan : Spans Decimal.isDigit (Nat.toDigits 10 n ++ rest) (Nat.toDigits 10 n) rest :=
    ⟨rfl, fun c hc => Decimal.isDigit_of_mem_toDigits hc, fun c hc => (hrest c hc).1⟩
  obtain ⟨htake, hdrop⟩ := spans_iff.mp hspan
  rw [digits?, htake, hdrop]
  simp [Nat.toDigits_ne_nil]

theorem mem_head?_of_toDigits_append {c : Char} {tail : List Char}
    (h : Nat.toDigits 10 n ++ rest = c :: tail) : c ∈ (Nat.toDigits 10 n).head? := by
  have hhead := congrArg List.head? h
  rwa [List.head?_append_of_ne_nil _ Nat.toDigits_ne_nil] at hhead

theorem whole?_toDigits (hrest : EndsNumber rest) :
    whole? (Nat.toDigits 10 n ++ rest) = some (Nat.toDigits 10 n, rest) := by
  rcases Nat.eq_zero_or_pos n with rfl | hn
  · cases rest with
    | nil => rfl
    | cons c rest => simp [whole?, (hrest c rfl).1]
  · unfold whole?
    split
    · next tail htail =>
      exact absurd rfl (Decimal.head?_toDigits hn '0' (mem_head?_of_toDigits_append htail))
    · exact digits?_toDigits hrest

theorem fraction?_of_endsNumber (hrest : EndsNumber rest) : fraction? rest = some ([], rest) := by
  unfold fraction?
  split
  · next tail => exact absurd rfl (hrest '.' rfl).2.1
  · rfl

theorem exponent?_of_endsNumber (hrest : EndsNumber rest) : exponent? rest = some ([], rest) := by
  cases rest with
  | nil => rfl
  | cons c rest =>
    obtain ⟨-, -, hlower, hupper⟩ := hrest c rfl
    simp [exponent?, hlower, hupper]

theorem number?_toDigits (hrest : EndsNumber rest) :
    number? (Nat.toDigits 10 n ++ rest) = some (Nat.toDigits 10 n, rest) := by
  have hunsigned : unsigned? (Nat.toDigits 10 n ++ rest) = some (Nat.toDigits 10 n, rest) := by
    simp [unsigned?, whole?_toDigits hrest, fraction?_of_endsNumber hrest,
      exponent?_of_endsNumber hrest]
  unfold number?
  split
  · next tail htail =>
    have hminus : Decimal.isDigit '-' = true :=
      Decimal.isDigit_of_mem_toDigits (List.mem_of_mem_head? (mem_head?_of_toDigits_append htail))
    cases hminus
  · exact hunsigned

/-- Nothing but a number starts with a digit. -/
theorem first?_of_digit {c : Char} {cs : List Char} (hc : Decimal.isDigit c = true) :
    first? (c :: cs) = (number? (c :: cs)).map fun (n, rest) => (number n, rest) := by
  unfold first?
  split
  case h_11 => rfl
  all_goals
    next heq =>
    obtain ⟨rfl, -⟩ := List.cons.inj heq
    cases hc

theorem first?_toDigits (hrest : EndsNumber rest) :
    first? (Nat.toDigits 10 n ++ rest) = some (number (Nat.toDigits 10 n), rest) := by
  obtain ⟨c, cs, hdigits⟩ := List.exists_cons_of_ne_nil (Nat.toDigits_ne_nil (b := 10) (n := n))
  have hc : Decimal.isDigit c = true :=
    Decimal.isDigit_of_mem_toDigits (n := n) (by simp [hdigits])
  have hnumber := number?_toDigits (n := n) hrest
  rw [hdigits, List.cons_append] at hnumber ⊢
  rw [first?_of_digit hc, hnumber, Option.map_some]

theorem first?_escape (cs rest : List Char) :
    first? ('"' :: (Literal.escape cs ++ '"' :: rest)) = some (string (Literal.escape cs), rest) := by
  simp [first?, Literal.stringRest_escape]

end Token

end Json

end CodeReach
