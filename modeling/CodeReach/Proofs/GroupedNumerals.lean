import CodeReach.Text.Grouped
import Mathlib

namespace CodeReach.Text

def withoutCommas (text : String) : String := String.ofList (text.toList.filter (· != ','))

/-- What stands before, between and behind the commas of a text. -/
def commaGroups (text : String) : List (List Char) := text.toList.splitOn ','

/-- Nothing but digits: one to three of them in the first group, exactly three in every other. -/
def InThrees : List (List Char) → Prop
  | [] => False
  | first :: rest =>
    (∀ group ∈ first :: rest, group.all Char.isDigit = true) ∧
      1 ≤ first.length ∧ first.length ≤ 3 ∧ ∀ group ∈ rest, group.length = 3

instance : DecidablePred InThrees
  | [] => inferInstanceAs (Decidable False)
  | _ :: _ => inferInstanceAs (Decidable (_ ∧ _))

/-- To leave out a separator is to join what it separates. -/
theorem flatten_splitOn (sep : Char) (cs : List Char) :
    (cs.splitOn sep).flatten = cs.filter (· != sep) := by
  induction cs with
  | nil => rfl
  | cons c cs ih =>
    rw [List.splitOn_cons_eq_if_modifyHead]
    by_cases hc : c = sep
    · simp [hc, ih]
    · obtain ⟨first, rest, hsplit⟩ := List.exists_cons_of_ne_nil (List.splitOn_ne_nil sep cs)
      rw [hsplit, List.flatten_cons] at ih
      simp [hc, hsplit, ih]

/-- The groups of a row of digits, by their lengths. The induction is from the left, where each
digit joins the first group or, if that has three digits already, comes to stand in a new one. -/
theorem splitOn_groupDigits {ds : List Char} (hne : ds ≠ []) (h : ',' ∉ ds) :
    ∃ first rest, (groupDigits ds).splitOn ',' = first :: rest ∧
      first.length = (ds.length - 1) % 3 + 1 ∧ ∀ group ∈ rest, group.length = 3 := by
  induction ds with
  | nil => exact absurd rfl hne
  | cons d ds ih =>
    have hd : d ≠ ',' := fun e => h (by simp [e])
    have hds : ',' ∉ ds := fun m => h (by simp [m])
    cases ds with
    | nil => exact ⟨[d], [], by simp [groupDigits, List.splitOn_cons_eq_if_modifyHead, hd]⟩
    | cons e ds =>
      obtain ⟨first, rest, hsplit, hfirst, hrest⟩ := ih (by simp) hds
      rw [List.length_cons] at hfirst
      rw [groupDigits]
      split
      · next hthree =>
        rw [List.length_cons] at hthree
        refine ⟨[d], first :: rest, ?_, ?_, ?_⟩
        · simp [List.splitOn_cons_eq_if_modifyHead, hd, hsplit]
        · simp only [List.length_cons, List.length_nil]
          omega
        · rintro group (_ | ⟨_, hgroup⟩)
          · omega
          · exact hrest group hgroup
      · next hthree =>
        rw [List.length_cons] at hthree
        refine ⟨d :: first, rest, ?_, ?_, hrest⟩
        · simp [List.splitOn_cons_eq_if_modifyHead, hd, hsplit]
        · simp only [List.length_cons]
          omega

theorem withoutCommas_grouped (n : Nat) : withoutCommas (grouped n) = toString n := by
  have hdigits : ',' ∉ Nat.toDigits 10 n := not_mem_toDigits (by decide) n
  rw [withoutCommas, grouped, String.toList_ofList, filter_groupDigits hdigits]
  rfl

theorem flatten_commaGroups (text : String) :
    (commaGroups text).flatten = (withoutCommas text).toList := by
  rw [commaGroups, flatten_splitOn, withoutCommas, String.toList_ofList]

theorem inThrees_grouped (n : Nat) : InThrees (commaGroups (grouped n)) := by
  have hflat : (commaGroups (grouped n)).flatten = Nat.toDigits 10 n := by
    rw [flatten_commaGroups, withoutCommas_grouped]
    simp
  obtain ⟨first, rest, hsplit, hfirst, hrest⟩ :=
    splitOn_groupDigits Nat.toDigits_ne_nil (not_mem_toDigits (by decide) n)
  have hgroups : commaGroups (grouped n) = first :: rest := by
    rw [commaGroups, grouped, String.toList_ofList, hsplit]
  rw [hgroups] at hflat ⊢
  refine ⟨fun group hgroup => ?_, by omega, by omega, hrest⟩
  rw [List.all_eq_true]
  intro c hc
  have hmem : c ∈ Nat.toDigits 10 n := by
    rw [← hflat]
    exact List.mem_flatten.mpr ⟨group, hgroup, hc⟩
  exact Nat.isDigit_of_mem_toDigits (by decide) (by decide) hmem

/-- The number of digits tells how many groups there are, and how long each of them is. -/
theorem InThrees.lengths {groups : List (List Char)} (h : InThrees groups) :
    groups.map List.length = ((groups.flatten.length - 1) % 3 + 1) ::
      List.replicate ((groups.flatten.length - 1) / 3) 3 := by
  cases groups with
  | nil => exact h.elim
  | cons first rest =>
    obtain ⟨-, hpos, hle, hrest⟩ := h
    have hmap : rest.map List.length = List.replicate rest.length 3 :=
      List.map_eq_replicate_iff.mpr hrest
    have htotal : (first :: rest).flatten.length = first.length + rest.length * 3 := by
      simp [List.length_flatten, hmap]
    have hfirst : (first.length + rest.length * 3 - 1) % 3 + 1 = first.length := by omega
    have hcount : (first.length + rest.length * 3 - 1) / 3 = rest.length := by omega
    rw [htotal, hfirst, hcount, List.map_cons, hmap]

theorem InThrees.unique {groups groups' : List (List Char)} (h : InThrees groups)
    (h' : InThrees groups') (hflat : groups.flatten = groups'.flatten) : groups = groups' := by
  refine List.eq_iff_flatten_eq.mpr ⟨hflat, ?_⟩
  rw [h.lengths, h'.lengths, hflat]

theorem eq_of_commaGroups_eq {text text' : String} (h : commaGroups text = commaGroups text') :
    text = text' := by
  have hjoin := congrArg ([','].intercalate ·) h
  simp only [commaGroups, List.intercalate_splitOn] at hjoin
  exact String.toList_inj.mp hjoin

theorem toNat?_withoutCommas_grouped (n : Nat) : (withoutCommas (grouped n)).toNat? = some n := by
  rw [withoutCommas_grouped]
  exact Nat.toNat?_repr n

/-- A number written with commas is its plain numeral once the commas are deleted, and its groups
have three digits each but the first, which has one to three; no other text has these two
properties. Read without its commas the text gives the number back, so no two numbers are written
alike. -/
theorem grouped_numerals_read_back :
    (∀ n : Nat, withoutCommas (grouped n) = toString n ∧ InThrees (commaGroups (grouped n)) ∧
      (withoutCommas (grouped n)).toNat? = some n) ∧
    (∀ (n : Nat) (text : String), withoutCommas text = toString n → InThrees (commaGroups text) →
      text = grouped n) ∧
    Function.Injective grouped := by
  refine ⟨fun n => ?_, fun n text htext hgroups => ?_, fun m n h => ?_⟩
  · exact ⟨withoutCommas_grouped n, inThrees_grouped n, toNat?_withoutCommas_grouped n⟩
  · refine eq_of_commaGroups_eq (hgroups.unique (inThrees_grouped n) ?_)
    rw [flatten_commaGroups, flatten_commaGroups, htext, withoutCommas_grouped]
  · have hread := toNat?_withoutCommas_grouped m
    rw [h, toNat?_withoutCommas_grouped n] at hread
    exact (Option.some.inj hread).symm

/-- The largest number of 64 bits: two digits before the first comma and six groups of three. -/
theorem largest_number_in_seven_groups :
    withoutCommas "18,446,744,073,709,551,615" = toString 18446744073709551615 ∧
    InThrees (commaGroups "18,446,744,073,709,551,615") ∧
    grouped 18446744073709551615 = "18,446,744,073,709,551,615" ∧
    (withoutCommas (grouped 18446744073709551615)).toNat? = some 18446744073709551615 := by
  obtain ⟨hgrouped, honly, -⟩ := grouped_numerals_read_back
  have htext : withoutCommas "18,446,744,073,709,551,615" = toString 18446744073709551615 := by
    decide +kernel
  have hgroups : InThrees (commaGroups "18,446,744,073,709,551,615") := by decide +kernel
  have hsame := honly 18446744073709551615 "18,446,744,073,709,551,615" htext hgroups
  exact ⟨htext, hgroups, hsame.symm, (hgrouped 18446744073709551615).2.2⟩

end CodeReach.Text
