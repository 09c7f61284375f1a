import CodeReach.Proofs.JsonLiterals
import CodeReach.Text.ByteSize

namespace CodeReach.Text

variable {n m d k unit : Nat}

/-- Rounding moves a quotient by at most one half. -/
theorem roundHalfEven_near (n : Nat) (hd : 0 < d) :
    2 * (roundHalfEven n d * d) ≤ 2 * n + d ∧ 2 * n ≤ 2 * (roundHalfEven n d * d) + d := by
  have hdiv : n / d * d + n % d = n := Nat.div_add_mod' n d
  have hmod : n % d < d := Nat.mod_lt n hd
  have hup : (n / d + 1) * d = n / d * d + d := Nat.succ_mul (n / d) d
  unfold roundHalfEven
  split_ifs <;> constructor <;> omega

theorem roundHalfEven_mul (k : Nat) (hd : 0 < d) : roundHalfEven (k * d) d = k := by
  unfold roundHalfEven
  rw [Nat.mul_mod_left, Nat.mul_div_cancel k hd, if_pos hd]

theorem roundHalfEven_mono (hd : 0 < d) (h : n ≤ m) : roundHalfEven n d ≤ roundHalfEven m d := by
  by_contra hlt
  have hstep : (roundHalfEven m d + 1) * d ≤ roundHalfEven n d * d :=
    Nat.mul_le_mul_right d (by omega)
  rw [Nat.succ_mul] at hstep
  obtain ⟨hn, -⟩ := roundHalfEven_near n hd
  obtain ⟨-, hm⟩ := roundHalfEven_near m hd
  -- One whole step down is possible only between halves, and then the two quotients are one.
  have heq : n = m := by omega
  exact hlt (heq ▸ le_rfl)

theorem le_roundHalfEven (hd : 0 < d) (h : k * d ≤ n) : k ≤ roundHalfEven n d := by
  have hle := roundHalfEven_mono hd h
  rwa [roundHalfEven_mul k hd] at hle

theorem roundHalfEven_le (hd : 0 < d) (h : n ≤ k * d) : roundHalfEven n d ≤ k := by
  have hle := roundHalfEven_mono hd h
  rwa [roundHalfEven_mul k hd] at hle

theorem to53Bits_of_lt (h : n < 2 ^ 53) : to53Bits n = n := if_pos h

theorem to53Bits_of_le (h : 2 ^ 53 ≤ n) :
    to53Bits n = roundHalfEven n (2 ^ (n.log2 - 52)) * 2 ^ (n.log2 - 52) :=
  if_neg (not_lt.mpr h)

/-- Rounding stays within the powers of two that a number lies between. -/
theorem to53Bits_between (hn : n ≠ 0) :
    2 ^ n.log2 ≤ to53Bits n ∧ to53Bits n ≤ 2 ^ (n.log2 + 1) := by
  have hlow : 2 ^ n.log2 ≤ n := Nat.log2_self_le hn
  have hhigh : n ≤ 2 ^ (n.log2 + 1) := le_of_lt Nat.lt_log2_self
  rcases Nat.lt_or_ge n (2 ^ 53) with h | h
  · rw [to53Bits_of_lt h]
    exact ⟨hlow, hhigh⟩
  · -- In steps of the last bit the lower power is `2 ^ 52` and the upper one `2 ^ 53`.
    have hlog : 53 ≤ n.log2 := (Nat.le_log2 hn).mpr h
    have hstep : 0 < 2 ^ (n.log2 - 52) := Nat.two_pow_pos _
    have hlower : 2 ^ n.log2 = 2 ^ 52 * 2 ^ (n.log2 - 52) := by
      rw [← pow_add, Nat.add_sub_of_le (by omega)]
    have hupper : 2 ^ (n.log2 + 1) = 2 ^ 53 * 2 ^ (n.log2 - 52) := by
      rw [pow_succ, hlower, Nat.mul_right_comm, ← pow_succ]
    rw [hlower] at hlow
    rw [hupper] at hhigh
    rw [to53Bits_of_le h, hlower, hupper]
    exact ⟨Nat.mul_le_mul_right _ (le_roundHalfEven hstep hlow),
      Nat.mul_le_mul_right _ (roundHalfEven_le hstep hhigh)⟩

/-- Numbers in one range between powers of two are rounded to the same steps, and from one range to
the next there is a power of two in between. -/
theorem to53Bits_mono (h : n ≤ m) : to53Bits n ≤ to53Bits m := by
  rcases Nat.eq_zero_or_pos n with rfl | hn
  · exact Nat.zero_le _
  have hlog : n.log2 ≤ m.log2 :=
    (Nat.le_log2 (by omega)).mpr (le_trans (Nat.log2_self_le (by omega)) h)
  rcases Nat.eq_or_lt_of_le hlog with heq | hlt
  · rcases Nat.lt_or_ge m (2 ^ 53) with hm | hm
    · rw [to53Bits_of_lt hm, to53Bits_of_lt (lt_of_le_of_lt h hm)]
      exact h
    · have hn53 : 2 ^ 53 ≤ n := by
        rw [← Nat.le_log2 (by omega), heq]
        exact (Nat.le_log2 (by omega)).mpr hm
      rw [to53Bits_of_le hm, to53Bits_of_le hn53, heq]
      exact Nat.mul_le_mul_right _ (roundHalfEven_mono (Nat.two_pow_pos _) h)
  · calc to53Bits n ≤ 2 ^ (n.log2 + 1) := (to53Bits_between (by omega)).2
      _ ≤ 2 ^ m.log2 := Nat.pow_le_pow_right (by decide) hlt
      _ ≤ to53Bits m := (to53Bits_between (by omega)).1

/-- The unit that a size is written with. -/
def unitOf (n : Nat) : Nat :=
  if megabyte ≤ n then megabyte else if kilobyte ≤ n then kilobyte else 1

theorem unitOf_pos (n : Nat) : 0 < unitOf n := by
  unfold unitOf
  split_ifs <;> decide

theorem hundredthsOf_mono (hunit : 0 < unit) (h : n ≤ m) :
    hundredthsOf unit n ≤ hundredthsOf unit m :=
  roundHalfEven_mono hunit (Nat.mul_le_mul_right 100 (to53Bits_mono h))

/-- What the text of a size says, in hundredths of a byte. -/
def centibytes (n : Nat) : Nat := hundredthsOf (unitOf n) n * unitOf n

/-- A size of at most `k` units is not written as more. -/
theorem centibytes_le (hfits : k * unitOf n < 2 ^ 53) (h : n ≤ k * unitOf n) :
    centibytes n ≤ 100 * (k * unitOf n) := by
  have hhundredths : hundredthsOf (unitOf n) n ≤ 100 * k := by
    refine roundHalfEven_le (unitOf_pos n) ?_
    rw [to53Bits_of_lt (lt_of_le_of_lt h hfits), Nat.mul_assoc, Nat.mul_comm n]
    exact Nat.mul_le_mul_left 100 h
  rw [← Nat.mul_assoc]
  exact Nat.mul_le_mul_right _ hhundredths

/-- A size of at least one unit is not written as less. -/
theorem le_centibytes (hfits : unitOf n < 2 ^ 53) (h : unitOf n ≤ n) :
    100 * unitOf n ≤ centibytes n := by
  have hbits : unitOf n ≤ to53Bits n := by
    have hle := to53Bits_mono h
    rwa [to53Bits_of_lt hfits] at hle
  have hhundredths : 100 ≤ hundredthsOf (unitOf n) n := by
    refine le_roundHalfEven (unitOf_pos n) ?_
    rw [Nat.mul_comm]
    exact Nat.mul_le_mul_right 100 hbits
  exact Nat.mul_le_mul_right _ hhundredths

theorem unitOf_of_lt (h : n < kilobyte) : unitOf n = 1 := by
  have hmega : ¬ megabyte ≤ n := by
    unfold megabyte
    omega
  rw [unitOf, if_neg hmega, if_neg (not_le.mpr h)]

theorem unitOf_of_le_of_lt (h : kilobyte ≤ n) (h' : n < megabyte) : unitOf n = kilobyte := by
  rw [unitOf, if_neg (not_le.mpr h'), if_pos h]

theorem unitOf_of_le (h : megabyte ≤ n) : unitOf n = megabyte := if_pos h

/-- Where the unit changes, the larger one is a number of the smaller ones and a size in between. -/
theorem exists_units_between (h : n ≤ m) (hne : unitOf n ≠ unitOf m) :
    ∃ k, unitOf m = k * unitOf n ∧ n ≤ unitOf m ∧ unitOf m ≤ m ∧ unitOf m < 2 ^ 53 := by
  rcases Nat.lt_or_ge m kilobyte with hm | hm
  · rw [unitOf_of_lt hm, unitOf_of_lt (lt_of_le_of_lt h hm)] at hne
    exact absurd rfl hne
  rcases Nat.lt_or_ge m megabyte with hm' | hm'
  · rw [unitOf_of_le_of_lt hm hm'] at hne ⊢
    rcases Nat.lt_or_ge n kilobyte with hn | hn
    · exact ⟨kilobyte, by rw [unitOf_of_lt hn, Nat.mul_one], le_of_lt hn, hm, by decide⟩
    · exact absurd (unitOf_of_le_of_lt hn (lt_of_le_of_lt h hm')) hne
  · rw [unitOf_of_le hm'] at hne ⊢
    rcases Nat.lt_or_ge n megabyte with hn' | hn'
    · rcases Nat.lt_or_ge n kilobyte with hn | hn
      · exact ⟨megabyte, by rw [unitOf_of_lt hn, Nat.mul_one], le_of_lt hn', hm', by decide⟩
      · exact ⟨1024, by rw [unitOf_of_le_of_lt hn hn', megabyte], le_of_lt hn', hm', by decide⟩
    · exact absurd (unitOf_of_le hn') hne

/-- What is written grows with the size. -/
theorem centibytes_mono (h : n ≤ m) : centibytes n ≤ centibytes m := by
  rcases eq_or_ne (unitOf n) (unitOf m) with heq | hne
  · rw [centibytes, centibytes, heq]
    exact Nat.mul_le_mul_right _ (hundredthsOf_mono (unitOf_pos m) h)
  · obtain ⟨k, hk, hn, hm, hfits⟩ := exists_units_between h hne
    calc centibytes n ≤ 100 * (k * unitOf n) := centibytes_le (hk ▸ hfits) (hk ▸ hn)
      _ = 100 * unitOf m := by rw [hk]
      _ ≤ centibytes m := le_centibytes hfits hm

/-- What is written is off by at most half a hundredth of a unit, if the size is a double itself. -/
theorem centibytes_near (h : n < 2 ^ 53) :
    2 * centibytes n ≤ 2 * (n * 100) + unitOf n ∧ 2 * (n * 100) ≤ 2 * centibytes n + unitOf n := by
  have hnear := roundHalfEven_near (n * 100) (unitOf_pos n)
  rw [centibytes, hundredthsOf, to53Bits_of_lt h]
  exact hnear

/-- The number of a decimal numeral, by its digits before the point and those behind it. -/
def decimal (whole fraction : List Char) : ℚ :=
  Decimal.value (whole ++ fraction) / 10 ^ fraction.length

def unitBytes? (unit : List Char) : Option Nat :=
  if unit = "B".toList then some 1
  else if unit = "KB".toList then some 1024
  else if unit = "MB".toList then some (2 ^ 20)
  else none

/-- One space and a unit after a number. -/
def readUnit? (number : ℚ) : List Char → Option (ℚ × Nat)
  | ' ' :: unit => (unitBytes? unit).map fun bytes => (number, bytes)
  | _ => none

/-- Reads a size: digits, perhaps a point with digits behind it, a space, and a unit. Gives the
number and the unit. -/
def readSize? (cs : List Char) : Option (ℚ × Nat) :=
  if (cs.takeWhile Decimal.isDigit).isEmpty then none
  else
    match cs.dropWhile Decimal.isDigit with
    | '.' :: rest =>
      if (rest.takeWhile Decimal.isDigit).isEmpty then none
      else readUnit? (decimal (cs.takeWhile Decimal.isDigit) (rest.takeWhile Decimal.isDigit))
        (rest.dropWhile Decimal.isDigit)
    | rest => readUnit? (decimal (cs.takeWhile Decimal.isDigit) []) rest

/-- The bytes that the text of a size stands for. -/
def bytesRead? (text : String) : Option ℚ := (readSize? text.toList).map fun r => r.1 * r.2

theorem readSize?_whole {whole unit : List Char} {bytes : Nat} (hne : whole ≠ [])
    (hwhole : ∀ c ∈ whole, Decimal.isDigit c = true) (hunit : unitBytes? unit = some bytes) :
    readSize? (whole ++ ' ' :: unit) = some (decimal whole [], bytes) := by
  have hspans : Spans Decimal.isDigit (whole ++ ' ' :: unit) whole (' ' :: unit) :=
    ⟨rfl, hwhole, by simp [Decimal.isDigit]⟩
  obtain ⟨htake, hdrop⟩ := spans_iff.mp hspans
  unfold readSize?
  rw [htake, hdrop, if_neg (by simpa using hne)]
  simp [readUnit?, hunit]

theorem readSize?_pointed {whole fraction unit : List Char} {bytes : Nat} (hne : whole ≠ [])
    (hwhole : ∀ c ∈ whole, Decimal.isDigit c = true) (hne' : fraction ≠ [])
    (hfraction : ∀ c ∈ fraction, Decimal.isDigit c = true) (hunit : unitBytes? unit = some bytes) :
    readSize? (whole ++ '.' :: (fraction ++ ' ' :: unit)) =
      some (decimal whole fraction, bytes) := by
  have hspans : Spans Decimal.isDigit (whole ++ '.' :: (fraction ++ ' ' :: unit)) whole
      ('.' :: (fraction ++ ' ' :: unit)) := ⟨rfl, hwhole, by simp [Decimal.isDigit]⟩
  have hspans' : Spans Decimal.isDigit (fraction ++ ' ' :: unit) fraction (' ' :: unit) :=
    ⟨rfl, hfraction, by simp [Decimal.isDigit]⟩
  obtain ⟨htake, hdrop⟩ := spans_iff.mp hspans
  obtain ⟨htake', hdrop'⟩ := spans_iff.mp hspans'
  unfold readSize?
  rw [htake, hdrop, if_neg (by simpa using hne)]
  simp [htake', hdrop', hne', readUnit?, hunit]

theorem value_append_digit (digits : List Char) (h : d < 10) :
    Decimal.value (digits ++ Nat.toDigits 10 d) = Decimal.value digits * 10 + d := by
  rw [Nat.toDigits_of_lt_base h, Decimal.value, List.foldl_append]
  have hdigit : Decimal.digitValue d.digitChar = d := by interval_cases d <;> rfl
  simp [Decimal.value, hdigit]

theorem readSize?_twoPlaces (h : Nat) {unit : List Char} {bytes : Nat}
    (hunit : unitBytes? unit = some bytes) :
    readSize? ((twoPlaces h).toList ++ ' ' :: unit) = some ((h : ℚ) / 100, bytes) := by
  have htext : (twoPlaces h).toList ++ ' ' :: unit = Nat.toDigits 10 (h / 100) ++
      '.' :: ((Nat.toDigits 10 (h % 100 / 10) ++ Nat.toDigits 10 (h % 10)) ++ ' ' :: unit) := by
    simp [twoPlaces]
  have htens : h % 100 / 10 < 10 := by omega
  have hones : h % 10 < 10 := by omega
  have hvalue : Decimal.value (Nat.toDigits 10 (h / 100) ++
      (Nat.toDigits 10 (h % 100 / 10) ++ Nat.toDigits 10 (h % 10))) = h := by
    rw [← List.append_assoc, value_append_digit _ hones, value_append_digit _ htens,
      Decimal.value_toDigits]
    omega
  have hdecimal : decimal (Nat.toDigits 10 (h / 100))
      (Nat.toDigits 10 (h % 100 / 10) ++ Nat.toDigits 10 (h % 10)) = (h : ℚ) / 100 := by
    rw [decimal, hvalue, Nat.toDigits_of_lt_base htens, Nat.toDigits_of_lt_base hones]
    norm_num
  rw [htext, readSize?_pointed Nat.toDigits_ne_nil (fun c hc => Decimal.isDigit_of_mem_toDigits hc)
    (by simp) (fun c hc => ?_) hunit, hdecimal]
  rcases List.mem_append.mp hc with hc | hc
  · exact Decimal.isDigit_of_mem_toDigits hc
  · exact Decimal.isDigit_of_mem_toDigits hc

/-- A whole number of bytes has no rounding in it. -/
theorem hundredthsOf_one (h : n < 2 ^ 53) : hundredthsOf 1 n = n * 100 := by
  have hround := roundHalfEven_mul (n * 100) Nat.one_pos
  rw [Nat.mul_one] at hround
  rw [hundredthsOf, to53Bits_of_lt h, hround]

/-- The text of a size is read back as what it was made from. -/
theorem readSize?_byteSize (n : Nat) :
    readSize? (byteSize n).toList = some ((hundredthsOf (unitOf n) n : ℚ) / 100, unitOf n) := by
  rcases Nat.lt_or_ge n megabyte with hm | hm
  · rcases Nat.lt_or_ge n kilobyte with hk | hk
    · have hfits : n < 2 ^ 53 := lt_trans hm (by decide)
      have htext : (byteSize n).toList = Nat.toDigits 10 n ++ ' ' :: "B".toList := by
        simp [byteSize, not_le.mpr hm, not_le.mpr hk]
      have hnumber : decimal (Nat.toDigits 10 n) [] = ((n * 100 : ℕ) : ℚ) / 100 := by
        rw [decimal, List.append_nil, Decimal.value_toDigits]
        simp
      have hunit : unitBytes? "B".toList = some 1 := by decide
      rw [htext, readSize?_whole Nat.toDigits_ne_nil
        (fun c hc => Decimal.isDigit_of_mem_toDigits hc) hunit, hnumber, unitOf_of_lt hk,
        hundredthsOf_one hfits]
    · have htext : (byteSize n).toList =
          (twoPlaces (hundredthsOf kilobyte n)).toList ++ ' ' :: "KB".toList := by
        simp [byteSize, not_le.mpr hm, hk]
      rw [htext, unitOf_of_le_of_lt hk hm]
      exact readSize?_twoPlaces _ (by decide)
  · have htext : (byteSize n).toList =
        (twoPlaces (hundredthsOf megabyte n)).toList ++ ' ' :: "MB".toList := by
      simp [byteSize, hm]
    rw [htext, unitOf_of_le hm]
    exact readSize?_twoPlaces _ (by decide)

theorem bytesRead?_byteSize (n : Nat) :
    bytesRead? (byteSize n) = some ((centibytes n : ℚ) / 100) := by
  rw [bytesRead?, readSize?_byteSize, Option.map_some, centibytes, Nat.cast_mul, div_mul_eq_mul_div]

/-- Of two sizes the larger one is not written as less, whatever the units are and however the two
are rounded. A size below `2 ^ 53` is written as a number of its unit that is off by at most the two
hundredth part of the unit. -/
theorem sizes_written_in_order :
    (∀ n m : Nat, n ≤ m → ∃ v w, bytesRead? (byteSize n) = some v ∧
      bytesRead? (byteSize m) = some w ∧ v ≤ w) ∧
    ∀ n : Nat, n < 2 ^ 53 → ∃ number, readSize? (byteSize n).toList = some (number, unitOf n) ∧
      |number * unitOf n - n| ≤ (unitOf n : ℚ) / 200 := by
  refine ⟨fun n m h => ?_, fun n h => ?_⟩
  · have hmono : (centibytes n : ℚ) ≤ centibytes m := Nat.cast_le.mpr (centibytes_mono h)
    exact ⟨_, _, bytesRead?_byteSize n, bytesRead?_byteSize m, by linarith⟩
  · refine ⟨_, readSize?_byteSize n, ?_⟩
    obtain ⟨hover, hunder⟩ := centibytes_near h
    have hover' : (2 * centibytes n : ℚ) ≤ 2 * (n * 100) + unitOf n := by exact_mod_cast hover
    have hunder' : (2 * (n * 100) : ℚ) ≤ 2 * centibytes n + unitOf n := by exact_mod_cast hunder
    have hbytes : (hundredthsOf (unitOf n) n : ℚ) / 100 * unitOf n = centibytes n / 100 := by
      rw [centibytes, Nat.cast_mul, div_mul_eq_mul_div]
    rw [hbytes, abs_le]
    constructor <;> linarith

/-- One byte less than a megabyte is rounded up to as many kilobytes as a megabyte has, and the
largest size of 64 bits to a power of two. -/
theorem sizes_at_the_seams :
    byteSize 1048575 = "1024.00 KB" ∧ byteSize 1048576 = "1.00 MB" ∧
    byteSize 18446744073709551615 = "17592186044416.00 MB" ∧
    (∃ v w, bytesRead? "1024.00 KB" = some v ∧ bytesRead? "1.00 MB" = some w ∧ v ≤ w) ∧
    (∃ v w, bytesRead? "1.00 MB" = some v ∧ bytesRead? "17592186044416.00 MB" = some w ∧ v ≤ w) ∧
    ∃ number, readSize? "1024.00 KB".toList = some (number, 1024) ∧
      |number * 1024 - 1048575| ≤ (1024 : ℚ) / 200 := by
  have hbelow : byteSize 1048575 = "1024.00 KB" := by decide +kernel
  have habove : byteSize 1048576 = "1.00 MB" := by decide +kernel
  have hlargest : byteSize 18446744073709551615 = "17592186044416.00 MB" := by decide +kernel
  obtain ⟨horder, hnear⟩ := sizes_written_in_order
  refine ⟨hbelow, habove, hlargest, ?_, ?_, ?_⟩
  · rw [← hbelow, ← habove]
    exact horder 1048575 1048576 (by decide)
  · rw [← habove, ← hlargest]
    exact horder 1048576 18446744073709551615 (by decide)
  · rw [← hbelow]
    exact_mod_cast hnear 1048575 (by decide)

end CodeReach.Text
