import CodeReach.Text.Hex
import Mathlib

namespace CodeReach.Text.Hex

variable {c : Char} {n : Nat} {digits : List Char}

theorem isDigit_iff : isDigit c = true ↔ (48 ≤ c.toNat ∧ c.toNat ≤ 57) ∨
    (97 ≤ c.toNat ∧ c.toNat ≤ 102) ∨ (65 ≤ c.toNat ∧ c.toNat ≤ 70) := by
  simp only [isDigit, Bool.or_eq_true, Bool.and_eq_true, decide_eq_true_eq, or_assoc]
  exact Iff.rfl

theorem digitValue_eq (c : Char) :
    digitValue c = if c.toNat ≤ 57 then c.toNat - 48
      else if c.toNat ≤ 70 then c.toNat - 65 + 10 else c.toNat - 97 + 10 := rfl

theorem toNat_toLower (c : Char) :
    c.toLower.toNat = if 65 ≤ c.toNat ∧ c.toNat ≤ 90 then c.toNat + 32 else c.toNat := by
  unfold Char.toLower
  split
  · next h =>
    have hupper : 65 ≤ c.toNat ∧ c.toNat ≤ 90 := h
    have hsum : (c.val + 32).toNat = (c.toNat + 32) % 2 ^ 32 := UInt32.toNat_add _ _
    rw [if_pos hupper]
    refine hsum.trans ?_
    omega
  · next h =>
    have hother : ¬ (65 ≤ c.toNat ∧ c.toNat ≤ 90) := h
    rw [if_neg hother]

/-- The case of a digit does not matter. -/
theorem isDigit_of_toLower (h : isDigit c.toLower = true) :
    isDigit c = true ∧ digitValue c = digitValue c.toLower := by
  rw [isDigit_iff, toNat_toLower] at h
  rw [isDigit_iff, digitValue_eq, digitValue_eq, toNat_toLower]
  grind

theorem digitChar_spec (h : n < 16) :
    isDigit (Nat.digitChar n) = true ∧ digitValue (Nat.digitChar n) = n := by
  interval_cases n <;> decide

theorem value_append (xs ys : List Char) :
    value (xs ++ ys) = ys.foldl (fun n c => n * 16 + digitValue c) (value xs) :=
  List.foldl_append

theorem value_concat (xs : List Char) (c : Char) :
    value (xs ++ [c]) = value xs * 16 + digitValue c :=
  value_append xs [c]

theorem value_replicate_zero (k : Nat) : value (List.replicate k '0') = 0 := by
  induction k with
  | zero => rfl
  | succ k ih =>
    rw [List.replicate_succ', value_concat, ih]
    rfl

theorem value_map_toLower (h : ∀ c ∈ digits, isDigit c.toLower = true) :
    value (digits.map Char.toLower) = value digits := by
  induction digits using List.reverseRecOn with
  | nil => rfl
  | append_singleton xs c ih =>
    have hxs := ih fun d hd => h d (by simp [hd])
    have hc := (isDigit_of_toLower (h c (by simp))).2
    rw [List.map_append, List.map_singleton, value_concat, value_concat, hxs, hc]

/-- The plain numeral of a number consists of digits and has its value. -/
theorem toDigits_spec (n : Nat) :
    (∀ c ∈ Nat.toDigits 16 n, isDigit c = true) ∧ value (Nat.toDigits 16 n) = n := by
  induction n using Nat.strongRecOn with
  | ind n ih =>
    rw [Nat.toDigits_eq_if (by decide)]
    split
    · next hn =>
      obtain ⟨hdigit, hvalue⟩ := digitChar_spec hn
      refine ⟨by simpa using hdigit, ?_⟩
      simpa [value] using hvalue
    · obtain ⟨hdigits, hvalue⟩ := ih (n / 16) (by omega)
      obtain ⟨hdigit, hlast⟩ := digitChar_spec (Nat.mod_lt n (by decide : 16 > 0))
      constructor
      · intro c hc
        rcases List.mem_append.mp hc with hc | hc
        · exact hdigits c hc
        · rw [List.mem_singleton.mp hc]
          exact hdigit
      · rw [value_concat, hvalue, hlast]
        omega

/-- A way to write a number: its digits in either case, with any number of zeros in front. -/
def Writes (n : Nat) (digits : List Char) : Prop :=
  ∃ zeros, digits.map Char.toLower = List.replicate zeros '0' ++ Nat.toDigits 16 n

namespace Writes

variable (h : Writes n digits)
include h

theorem isDigit_toLower : ∀ c ∈ digits, isDigit c.toLower = true := by
  obtain ⟨zeros, hdigits⟩ := h
  intro c hc
  have hmem : c.toLower ∈ List.replicate zeros '0' ++ Nat.toDigits 16 n :=
    hdigits ▸ List.mem_map_of_mem hc
  rcases List.mem_append.mp hmem with hzero | hdigit
  · rw [List.eq_of_mem_replicate hzero]
    decide
  · exact (toDigits_spec n).1 _ hdigit

theorem isDigit_of_mem : ∀ c ∈ digits, isDigit c = true := by
  intro c hc
  exact (isDigit_of_toLower (h.isDigit_toLower c hc)).1

theorem ne_nil : digits ≠ [] := by
  obtain ⟨zeros, hdigits⟩ := h
  rintro rfl
  have hnil := List.append_eq_nil_iff.mp hdigits.symm
  exact Nat.toDigits_ne_nil hnil.2

theorem value_eq : value digits = n := by
  rw [← value_map_toLower h.isDigit_toLower]
  obtain ⟨zeros, hdigits⟩ := h
  rw [hdigits, value_append, value_replicate_zero]
  exact (toDigits_spec n).2

end Writes

end CodeReach.Text.Hex
