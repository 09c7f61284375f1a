namespace CodeReach.Text

/-- Puts a comma after each digit that a multiple of three digits follows. -/
def groupDigits : List Char → List Char
  | [] => []
  | [d] => [d]
  | d :: e :: ds =>
    if (e :: ds).length % 3 = 0 then d :: ',' :: groupDigits (e :: ds)
    else d :: groupDigits (e :: ds)

def grouped (n : Nat) : String := String.ofList (groupDigits (Nat.toDigits 10 n))

/-- Only digits stand in a numeral. -/
theorem not_mem_toDigits {c : Char} (h : c.isDigit = false) (n : Nat) :
    c ∉ Nat.toDigits 10 n := by
  intro hmem
  have hdigit : c.isDigit = true := Nat.isDigit_of_mem_toDigits (by decide) (by decide) hmem
  rw [h] at hdigit
  cases hdigit

theorem filter_groupDigits {ds : List Char} (h : ',' ∉ ds) :
    (groupDigits ds).filter (· != ',') = ds := by
  induction ds with
  | nil => rfl
  | cons d ds ih =>
    have hd : d ≠ ',' := fun e => h (by simp [e])
    have hds : ',' ∉ ds := fun m => h (by simp [m])
    cases ds with
    | nil => simp [groupDigits, hd]
    | cons e ds =>
      rw [groupDigits]
      split <;> simpa [hd] using ih hds

end CodeReach.Text
