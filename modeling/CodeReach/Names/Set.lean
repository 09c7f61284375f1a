namespace CodeReach

/-- A set of names is a strictly increasing list, so it lists its members in code point order and
two sets with the same members are equal. -/
structure NameSet where
  toList : List String
  increasing : toList.Pairwise (· < ·)
deriving DecidableEq

namespace NameSet

/-- Puts a name at its place; a name that is there already stays once. -/
def insertInto (a : String) : List String → List String
  | [] => [a]
  | b :: bs => if a < b then a :: b :: bs else if a = b then b :: bs else b :: insertInto a bs

theorem mem_insertInto {a x : String} {bs : List String} :
    x ∈ insertInto a bs ↔ x = a ∨ x ∈ bs := by
  induction bs with
  | nil => simp [insertInto]
  | cons b bs ih =>
    rw [insertInto]
    split
    · simp
    · split
      · next h => simp [h]
      · simp only [List.mem_cons, ih]
        constructor
        · rintro (h | h | h) <;> simp [h]
        · rintro (h | h | h) <;> simp [h]

theorem lt_of_not_lt_of_ne {a b : String} (h : ¬ a < b) (hn : a ≠ b) : b < a := by
  have hb : b ≤ a := String.not_lt.mp h
  refine Decidable.byContradiction fun hc => hn ?_
  exact String.le_antisymm (String.not_lt.mp hc) hb

theorem pairwise_insertInto {a : String} {bs : List String} (h : bs.Pairwise (· < ·)) :
    (insertInto a bs).Pairwise (· < ·) := by
  induction bs with
  | nil => simp [insertInto]
  | cons b bs ih =>
    obtain ⟨hb, hbs⟩ := List.pairwise_cons.mp h
    rw [insertInto]
    split
    · next hab =>
      refine List.pairwise_cons.mpr ⟨fun x hx => ?_, h⟩
      rcases List.mem_cons.mp hx with rfl | hx
      · exact hab
      · exact String.lt_trans hab (hb x hx)
    · next hab =>
      split
      · exact h
      · next hne =>
        refine List.pairwise_cons.mpr ⟨fun x hx => ?_, ih hbs⟩
        rcases mem_insertInto.mp hx with rfl | hx
        · exact lt_of_not_lt_of_ne hab hne
        · exact hb x hx

/-- Two strictly increasing lists with the same members are the same list. -/
theorem list_ext {xs ys : List String} (hx : xs.Pairwise (· < ·)) (hy : ys.Pairwise (· < ·))
    (h : ∀ a, a ∈ xs ↔ a ∈ ys) : xs = ys := by
  induction xs generalizing ys with
  | nil =>
    cases ys with
    | nil => rfl
    | cons y ys => simpa using h y
  | cons x xs ih =>
    cases ys with
    | nil => simpa using h x
    | cons y ys =>
      obtain ⟨hxs, hx'⟩ := List.pairwise_cons.mp hx
      obtain ⟨hys, hy'⟩ := List.pairwise_cons.mp hy
      have hxy : x = y := by
        rcases List.mem_cons.mp ((h x).mp (by simp)) with e | hxm
        · exact e
        · rcases List.mem_cons.mp ((h y).mpr (by simp)) with e | hym
          · exact e.symm
          · exact absurd (String.lt_trans (hys x hxm) (hxs y hym)) (String.lt_irrefl _)
      subst hxy
      congr 1
      refine ih hx' hy' fun a => ?_
      have := h a
      simp only [List.mem_cons] at this
      constructor
      · intro ha
        rcases this.mp (.inr ha) with rfl | ha'
        · exact absurd (hxs a ha) (String.lt_irrefl _)
        · exact ha'
      · intro ha
        rcases this.mpr (.inr ha) with rfl | ha'
        · exact absurd (hys a ha) (String.lt_irrefl _)
        · exact ha'

theorem nodup_of_increasing {xs : List String} (h : xs.Pairwise (· < ·)) : xs.Nodup := by
  refine h.imp ?_
  intro a b hlt he
  exact String.lt_irrefl b (he ▸ hlt)

def empty : NameSet := ⟨[], .nil⟩

def insert (s : NameSet) (a : String) : NameSet :=
  ⟨insertInto a s.toList, pairwise_insertInto s.increasing⟩

def insertAll (s : NameSet) (names : List String) : NameSet := names.foldl insert s

def ofList (names : List String) : NameSet := empty.insertAll names

def size (s : NameSet) : Nat := s.toList.length

instance : Membership String NameSet := ⟨fun s a => a ∈ s.toList⟩

instance (a : String) (s : NameSet) : Decidable (a ∈ s) := inferInstanceAs (Decidable (a ∈ s.toList))

def contains (s : NameSet) (a : String) : Bool := decide (a ∈ s)

@[simp] theorem mem_toList {s : NameSet} {a : String} : a ∈ s.toList ↔ a ∈ s := Iff.rfl

@[simp] theorem contains_iff {s : NameSet} {a : String} : s.contains a = true ↔ a ∈ s := by
  simp [contains]

@[simp] theorem not_mem_empty (a : String) : ¬ a ∈ empty := by
  simp [← mem_toList, empty]

@[simp] theorem mem_insert {s : NameSet} {a x : String} : x ∈ s.insert a ↔ x = a ∨ x ∈ s :=
  mem_insertInto

@[simp] theorem mem_insertAll {s : NameSet} {names : List String} {x : String} :
    x ∈ s.insertAll names ↔ x ∈ s ∨ x ∈ names := by
  induction names generalizing s with
  | nil => simp [insertAll]
  | cons a names ih =>
    have : s.insertAll (a :: names) = (s.insert a).insertAll names := rfl
    rw [this, ih]
    simp only [mem_insert, List.mem_cons]
    constructor
    · rintro ((h | h) | h) <;> simp [h]
    · rintro (h | h | h) <;> simp [h]

@[simp] theorem mem_ofList {names : List String} {x : String} : x ∈ ofList names ↔ x ∈ names := by
  simp [ofList]

@[ext] theorem ext {s t : NameSet} (h : ∀ a, a ∈ s ↔ a ∈ t) : s = t := by
  obtain ⟨xs, hx⟩ := s
  obtain ⟨ys, hy⟩ := t
  congr 1
  exact list_ext hx hy h

end NameSet

end CodeReach
