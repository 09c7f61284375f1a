import CodeReach.Names.Set

namespace CodeReach

/-- An association list whose keys are strictly increasing. -/
structure NameMap (β : Type) where
  entries : List (String × β)
  increasing : entries.Pairwise (fun x y => x.1 < y.1)
deriving DecidableEq

namespace NameMap

variable {β : Type}

def lookup (a : String) : List (String × β) → Option β
  | [] => none
  | (b, v) :: rest => if a = b then some v else lookup a rest

/-- Replaces what is stored under a name by a function of it, keeping the keys increasing. -/
def updateIn (a : String) (f : Option β → β) : List (String × β) → List (String × β)
  | [] => [(a, f none)]
  | (b, v) :: rest =>
    if a < b then (a, f none) :: (b, v) :: rest
    else if a = b then (b, f (some v)) :: rest
    else (b, v) :: updateIn a f rest

theorem key_mem_updateIn {a x : String} {f : Option β → β} {es : List (String × β)}
    (h : x ∈ (updateIn a f es).map (·.1)) : x = a ∨ x ∈ es.map (·.1) := by
  induction es with
  | nil => simpa [updateIn] using h
  | cons e es ih =>
    obtain ⟨b, v⟩ := e
    rw [updateIn] at h
    split at h
    · simpa using h
    · split at h
      · right; simpa using h
      · rw [List.map_cons, List.mem_cons] at h
        rcases h with h | h
        · right; simp [h]
        · rcases ih h with h | h
          · exact .inl h
          · right; rw [List.map_cons]; exact List.mem_cons_of_mem _ h

theorem pairwise_updateIn {a : String} {f : Option β → β} {es : List (String × β)}
    (h : es.Pairwise (fun x y => x.1 < y.1)) :
    (updateIn a f es).Pairwise (fun x y => x.1 < y.1) := by
  induction es with
  | nil => simp [updateIn]
  | cons e es ih =>
    obtain ⟨b, v⟩ := e
    obtain ⟨hb, hes⟩ := List.pairwise_cons.mp h
    rw [updateIn]
    split
    · next hab =>
      refine List.pairwise_cons.mpr ⟨fun x hx => ?_, h⟩
      rcases List.mem_cons.mp hx with rfl | hx
      · exact hab
      · exact String.lt_trans hab (hb x hx)
    · next hab =>
      split
      · exact List.pairwise_cons.mpr ⟨hb, hes⟩
      · next hne =>
        refine List.pairwise_cons.mpr ⟨fun x hx => ?_, ih hes⟩
        rcases key_mem_updateIn (List.mem_map_of_mem hx) with e | hx'
        · simpa [e] using NameSet.lt_of_not_lt_of_ne hab hne
        · obtain ⟨y, hy, e⟩ := List.mem_map.mp hx'
          simpa [← e] using hb y hy

theorem lookup_eq_none_of_lt {a : String} {es : List (String × β)} (h : ∀ e ∈ es, a < e.1) :
    lookup a es = none := by
  induction es with
  | nil => rfl
  | cons e es ih =>
    obtain ⟨b, v⟩ := e
    have hab : a < b := h (b, v) (by simp)
    have hne : a ≠ b := fun e => String.lt_irrefl b (e ▸ hab)
    rw [lookup, if_neg hne]
    exact ih fun e he => h e (by simp [he])

theorem lookup_eq_some_iff {a : String} {v : β} {es : List (String × β)}
    (h : es.Pairwise (fun x y => x.1 < y.1)) : lookup a es = some v ↔ (a, v) ∈ es := by
  induction es with
  | nil => simp [lookup]
  | cons e es ih =>
    obtain ⟨b, w⟩ := e
    obtain ⟨hb, hes⟩ := List.pairwise_cons.mp h
    by_cases hab : a = b
    · subst hab
      have hnot : (a, v) ∉ es := fun hm => String.lt_irrefl a (hb (a, v) hm)
      simp [lookup, hnot, eq_comm]
    · simp [lookup, hab, ih hes]

theorem lookup_updateIn {a x : String} {f : Option β → β} {es : List (String × β)}
    (h : es.Pairwise (fun x y => x.1 < y.1)) :
    lookup x (updateIn a f es) = if x = a then some (f (lookup a es)) else lookup x es := by
  induction es with
  | nil => simp [updateIn, lookup]
  | cons e es ih =>
    obtain ⟨b, v⟩ := e
    obtain ⟨hb, hes⟩ := List.pairwise_cons.mp h
    rw [updateIn]
    split
    · next hab =>
      have hl : lookup a ((b, v) :: es) = none := by
        refine lookup_eq_none_of_lt fun e he => ?_
        rcases List.mem_cons.mp he with rfl | he
        · exact hab
        · exact String.lt_trans hab (hb e he)
      rw [lookup, hl]
    · split
      · next hab =>
        subst hab
        by_cases hx : x = a <;> simp [lookup, hx]
      · next hab =>
        by_cases hxb : x = b
        · subst hxb
          simp [lookup, Ne.symm hab]
        · simp [lookup, hxb, hab, ih hes]

def empty : NameMap β := ⟨[], .nil⟩

def find? (m : NameMap β) (a : String) : Option β := lookup a m.entries

def update (m : NameMap β) (a : String) (f : Option β → β) : NameMap β :=
  ⟨updateIn a f m.entries, pairwise_updateIn m.increasing⟩

/-- The value given last under a name is the one that stays. -/
def insert (m : NameMap β) (a : String) (v : β) : NameMap β := m.update a fun _ => v

def contains (m : NameMap β) (a : String) : Bool := (m.find? a).isSome

def size (m : NameMap β) : Nat := m.entries.length

def keys (m : NameMap β) : List String := m.entries.map (·.1)

theorem find?_eq_some_iff {m : NameMap β} {a : String} {v : β} :
    m.find? a = some v ↔ (a, v) ∈ m.entries :=
  lookup_eq_some_iff m.increasing

theorem contains_iff_mem_keys {m : NameMap β} {a : String} :
    m.contains a = true ↔ a ∈ m.keys := by
  simp [contains, Option.isSome_iff_exists, find?_eq_some_iff, keys]

theorem nodup_keys (m : NameMap β) : m.keys.Nodup :=
  NameSet.nodup_of_increasing (List.pairwise_map.mpr m.increasing)

@[simp] theorem find?_empty (a : String) : (empty : NameMap β).find? a = none := rfl

theorem find?_update (m : NameMap β) (a x : String) (f : Option β → β) :
    (m.update a f).find? x = if x = a then some (f (m.find? a)) else m.find? x :=
  lookup_updateIn m.increasing

theorem find?_insert (m : NameMap β) (a x : String) (v : β) :
    (m.insert a v).find? x = if x = a then some v else m.find? x :=
  find?_update m a x _

theorem lookup_ext {es fs : List (String × β)} (he : es.Pairwise (fun x y => x.1 < y.1))
    (hf : fs.Pairwise (fun x y => x.1 < y.1)) (h : ∀ a, lookup a es = lookup a fs) : es = fs := by
  induction es generalizing fs with
  | nil =>
    cases fs with
    | nil => rfl
    | cons f fs => simpa [lookup] using h f.1
  | cons e es ih =>
    cases fs with
    | nil => simpa [lookup] using h e.1
    | cons f fs =>
      obtain ⟨a, v⟩ := e
      obtain ⟨b, w⟩ := f
      obtain ⟨hes, he'⟩ := List.pairwise_cons.mp he
      obtain ⟨hfs, hf'⟩ := List.pairwise_cons.mp hf
      have hab : a = b := by
        refine Decidable.byContradiction fun hne => ?_
        rcases Decidable.em (a < b) with hlt | hnlt
        · have : lookup a ((b, w) :: fs) = none := by
            refine lookup_eq_none_of_lt fun e he => ?_
            rcases List.mem_cons.mp he with rfl | he
            · exact hlt
            · exact String.lt_trans hlt (hfs e he)
          rw [← h a] at this
          simp [lookup] at this
        · have hlt := NameSet.lt_of_not_lt_of_ne hnlt hne
          have : lookup b ((a, v) :: es) = none := by
            refine lookup_eq_none_of_lt fun e he => ?_
            rcases List.mem_cons.mp he with rfl | he
            · exact hlt
            · exact String.lt_trans hlt (hes e he)
          rw [h b] at this
          simp [lookup] at this
      subst hab
      have hvw : v = w := by simpa [lookup] using h a
      subst hvw
      congr 1
      refine ih he' hf' fun x => ?_
      by_cases hx : x = a
      · subst hx
        rw [lookup_eq_none_of_lt hes, lookup_eq_none_of_lt hfs]
      · simpa [lookup, hx] using h x

@[ext] theorem ext {m n : NameMap β} (h : ∀ a, m.find? a = n.find? a) : m = n := by
  obtain ⟨es, he⟩ := m
  obtain ⟨fs, hf⟩ := n
  congr 1
  exact lookup_ext he hf h

end NameMap

end CodeReach
