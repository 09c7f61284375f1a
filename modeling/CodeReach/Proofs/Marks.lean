import Mathlib.Data.List.Induction

namespace CodeReach

variable {α β : Type} {mark : α → Option β} {xs : List α} {x : α} {i : Nat} {b : β}

/-- Place `i` of the list says `b`. -/
def MarkedAt (mark : α → Option β) (xs : List α) (i : Nat) (b : β) : Prop :=
  xs[i]?.bind mark = some b

/-- The last marked place of the list says `b`. -/
def LastMark (mark : α → Option β) (xs : List α) (b : β) : Prop :=
  ∃ i, MarkedAt mark xs i b ∧ ∀ k, i < k → ∀ b', ¬ MarkedAt mark xs k b'

theorem markedAt_iff : MarkedAt mark xs i b ↔ ∃ x, xs[i]? = some x ∧ mark x = some b :=
  Option.bind_eq_some_iff

theorem MarkedAt.lt_length (h : MarkedAt mark xs i b) : i < xs.length := by
  obtain ⟨x, hx, -⟩ := markedAt_iff.mp h
  exact (List.getElem?_eq_some_iff.mp hx).1

theorem getElem?_concat_eq_some_iff {y : α} :
    (xs ++ [x])[i]? = some y ↔ xs[i]? = some y ∨ (i = xs.length ∧ y = x) := by
  rcases Nat.lt_trichotomy i xs.length with hi | rfl | hi
  · have hne : i ≠ xs.length := Nat.ne_of_lt hi
    simp [List.getElem?_append_left hi, hne]
  · simp [eq_comm]
  · have hne : i ≠ xs.length := Nat.ne_of_gt hi
    have hlen : (xs ++ [x]).length ≤ i := by
      rw [List.length_append]
      exact hi
    simp [List.getElem?_eq_none hlen, List.getElem?_eq_none (Nat.le_of_lt hi), hne]

theorem markedAt_concat :
    MarkedAt mark (xs ++ [x]) i b ↔ MarkedAt mark xs i b ∨ (i = xs.length ∧ mark x = some b) := by
  simp [markedAt_iff, getElem?_concat_eq_some_iff, or_and_right, exists_or, and_assoc]

theorem markedAt_take {n : Nat} : MarkedAt mark (xs.take n) i b ↔ i < n ∧ MarkedAt mark xs i b := by
  unfold MarkedAt
  rw [List.getElem?_take]
  split
  · next h => simp [h]
  · next h => simp [h]

/-- A place made to say nothing is the only one that changes. -/
theorem markedAt_set {k : Nat} (hx : mark x = none) :
    MarkedAt mark (xs.set i x) k b ↔ k ≠ i ∧ MarkedAt mark xs k b := by
  by_cases hk : k = i
  · subst hk
    constructor
    · intro h
      obtain ⟨y, hy, hb⟩ := markedAt_iff.mp h
      rw [List.getElem?_set_self (by simpa using h.lt_length)] at hy
      cases hy
      rw [hx] at hb
      cases hb
    · intro h
      exact absurd rfl h.1
  · simp [MarkedAt, List.getElem?_set_ne (Ne.symm hk), hk]

theorem not_lastMark_nil : ¬ LastMark mark [] b := by
  intro h
  obtain ⟨i, hi, -⟩ := h
  simp [MarkedAt] at hi

/-- A place added at the end decides if it is marked, and else changes nothing. -/
theorem lastMark_concat :
    LastMark mark (xs ++ [x]) b ↔ mark x = some b ∨ (mark x = none ∧ LastMark mark xs b) := by
  constructor
  · intro h
    obtain ⟨i, hi, hlast⟩ := h
    rcases markedAt_concat.mp hi with hi | ⟨-, hx⟩
    · right
      refine ⟨?_, i, hi, fun k hk b' hb' => hlast k hk b' (markedAt_concat.mpr (.inl hb'))⟩
      apply Option.eq_none_iff_forall_ne_some.mpr
      intro b' hb'
      exact hlast xs.length hi.lt_length b' (markedAt_concat.mpr (.inr ⟨rfl, hb'⟩))
    · exact .inl hx
  · intro h
    rcases h with hx | ⟨hx, i, hi, hlast⟩
    · refine ⟨xs.length, markedAt_concat.mpr (.inr ⟨rfl, hx⟩), fun k hk b' hb' => ?_⟩
      have hlt := hb'.lt_length
      simp only [List.length_append, List.length_singleton] at hlt
      omega
    · refine ⟨i, markedAt_concat.mpr (.inl hi), fun k hk b' hb' => ?_⟩
      rcases markedAt_concat.mp hb' with hb' | ⟨-, hb'⟩
      · exact hlast k hk b' hb'
      · rw [hx] at hb'
        cases hb'

/-- What the last marked place before place `n` says. -/
theorem lastMark_take {n : Nat} :
    LastMark mark (xs.take n) b ↔
      ∃ i, i < n ∧ MarkedAt mark xs i b ∧ ∀ k, i < k → k < n → ∀ b', ¬ MarkedAt mark xs k b' := by
  simp only [LastMark, markedAt_take, and_assoc, not_and]
  constructor
  · intro h
    obtain ⟨i, hin, hi, hlast⟩ := h
    exact ⟨i, hin, hi, fun k hik hkn b' => hlast k hik b' hkn⟩
  · intro h
    obtain ⟨i, hin, hi, hlast⟩ := h
    exact ⟨i, hin, hi, fun k hik b' hkn => hlast k hik hkn b'⟩

end CodeReach
