import CodeReach.Proofs.MapRecords

namespace CodeReach.LinkMap

open Text

variable {ls : List (List Char)} {i j k : Nat} {r : Symbol}

/-- Line `k` opens a section of whatever kind: the first that is no blank is a point. -/
def SectionOpensAt (lines : List (List Char)) (k : Nat) : Prop :=
  MarkedAt (fun line => (skipBlanks line).head?) lines k '.'

instance (lines : List (List Char)) (k : Nat) : Decidable (SectionOpensAt lines k) :=
  inferInstanceAs (Decidable (_ = _))

/-- Line `i` is the nearest line above line `j` that names a function. -/
def NamedAbove (lines : List (List Char)) (i j : Nat) (f : String) : Prop :=
  i < j ∧ NamesAt lines i f ∧ ∀ k, i < k → k < j → ∀ f', ¬ NamesAt lines k f'

/-- Line `j` completes a symbol with the name that line `i` gave. -/
def CompletesFor (lines : List (List Char)) (i j : Nat) (r : Symbol) : Prop :=
  (scan lines)[j]? = some (some r) ∧ NamedAbove lines i j r.name

/-- A name given above line `k` has found no size before it. -/
def AwaitsAt (lines : List (List Char)) (k : Nat) : Prop :=
  ∃ i f, NamedAbove lines i k f ∧ ∀ m, i < m → m < k → ∀ p, ¬ PlacesAt lines m p

/-- A size comes below line `k` before the next name does. -/
def SizeBelow (lines : List (List Char)) (k : Nat) : Prop :=
  ∃ j p, k < j ∧ PlacesAt lines j p ∧ ∀ m, k < m → m < j → ∀ f, ¬ NamesAt lines m f

theorem skipBlanks_head?_of_sizeLine {line address size : List Char}
    (h : SizeLine line address size) : (skipBlanks line).head? = some '0' := by
  obtain ⟨blanks, gap, rest, hline, hblanks, -⟩ := h
  rw [hline, skipBlanks_of_hexStart hblanks]
  rfl

/-- A line that opens a section gives no size. -/
theorem SectionOpensAt.not_placesAt (h : SectionOpensAt ls k) (p : Placement) :
    ¬ PlacesAt ls k p := by
  intro hplaces
  obtain ⟨line, hline, address, size, hsize, -⟩ := hplaces
  obtain ⟨line', hline', hpoint⟩ := markedAt_iff.mp h
  rw [hline] at hline'
  cases hline'
  rw [skipBlanks_head?_of_sizeLine hsize] at hpoint
  cases hpoint

/-- The name that a symbol completes has had no size before. -/
theorem CompletesFor.no_size_between (h : CompletesFor ls i j r) :
    ∀ m, i < m → m < j → ∀ p, ¬ PlacesAt ls m p := by
  obtain ⟨hscan, hij, hname, hnearest⟩ := h
  obtain ⟨-, i', hij', hname', hbetween⟩ := scan_getElem?_eq_some_iff.mp hscan
  have hii' : i = i' := by
    rcases Nat.lt_trichotomy i i' with hlt | he | hlt
    · exact absurd hname' (hnearest i' hlt hij' _)
    · exact he
    · exact absurd hname ((hbetween i hlt hij).1 _)
  subst hii'
  intro m him hmj
  exact (hbetween m him hmj).2

/-- Where a name awaits its size and a size comes, the first such size completes the name, whatever
has been opened in between. -/
theorem exists_completesFor (hnone : ∀ f, ¬ NamesAt ls k f) (hplace : ∀ p, ¬ PlacesAt ls k p)
    (hawaits : AwaitsAt ls k) (hbelow : SizeBelow ls k) :
    ∃ i j r, i < k ∧ k < j ∧ CompletesFor ls i j r := by
  classical
  obtain ⟨i, f, ⟨hik, hname, hnearest⟩, hnosize⟩ := hawaits
  obtain ⟨j, p, hkj, hp, hnoname⟩ := hbelow
  have hexists : ∃ j, k < j ∧ ∃ p, PlacesAt ls j p := ⟨j, hkj, p, hp⟩
  obtain ⟨hkfirst, p', hp'⟩ := Nat.find_spec hexists
  have hle : Nat.find hexists ≤ j := Nat.find_min' hexists ⟨hkj, p, hp⟩
  -- Between the name and the first size below line `k` there is neither a name nor a size.
  have hquiet : ∀ m, i < m → m < Nat.find hexists →
      (∀ f, ¬ NamesAt ls m f) ∧ ∀ p, ¬ PlacesAt ls m p := by
    intro m him hm
    rcases Nat.lt_trichotomy m k with hmk | rfl | hkm
    · exact ⟨hnearest m him hmk, hnosize m him hmk⟩
    · exact ⟨hnone, hplace⟩
    · refine ⟨hnoname m hkm (by omega), fun q hq => ?_⟩
      exact Nat.find_min hexists hm ⟨hkm, q, hq⟩
  have hcompletes : CompletesAt ls (Nat.find hexists) ⟨f, p'.address, p'.size⟩ :=
    ⟨hp', i, by omega, hname, hquiet⟩
  exact ⟨i, Nat.find hexists, ⟨f, p'.address, p'.size⟩, hik, hkfirst,
    scan_getElem?_eq_some_iff.mpr hcompletes, by omega, hname,
    fun m him hm => (hquiet m him hm).1⟩

/-- No section opens between the line that names a function and the line that gives its size, for
any function of a map, exactly if wherever a section without a function opens, either no name awaits
its size or no size comes before the next name. -/
theorem no_section_opens_before_size_iff (text : String) :
    (∀ i j r, CompletesFor (lines text.toList) i j r →
      ∀ k, i < k → k < j → ¬ SectionOpensAt (lines text.toList) k) ↔
    ∀ k, SectionOpensAt (lines text.toList) k → (∀ f, ¬ NamesAt (lines text.toList) k f) →
      ¬ (AwaitsAt (lines text.toList) k ∧ SizeBelow (lines text.toList) k) := by
  constructor
  · intro h k hopens hnone hboth
    obtain ⟨i, j, r, hik, hkj, hr⟩ :=
      exists_completesFor hnone hopens.not_placesAt hboth.1 hboth.2
    exact h i j r hr k hik hkj hopens
  · intro h i j r hr k hik hkj hopens
    have hnosize := hr.no_size_between
    obtain ⟨hscan, -, hname, hnearest⟩ := hr
    obtain ⟨hplaces, -⟩ := scan_getElem?_eq_some_iff.mp hscan
    refine h k hopens (hnearest k hik hkj) ⟨?_, ?_⟩
    · exact ⟨i, r.name, ⟨hik, hname, fun m him hmk => hnearest m him (by omega)⟩,
        fun m him hmk => hnosize m him (by omega)⟩
    · exact ⟨j, _, hkj, hplaces, fun m hkm hmj => hnearest m (by omega) hmj⟩

/-- A table that stands between two functions with their sizes does no harm. -/
theorem table_between_sized_functions :
    ∃ text, text = " .text.f\n 0x10 0x8\n .rodata.t\n 0x20 0x40\n .text.g\n 0x60 0x9\n" ∧
      scan (lines text.toList) =
        [none, some ⟨"f", 0x10, 8⟩, none, none, none, some ⟨"g", 0x60, 9⟩] ∧
      ∀ i j r, CompletesFor (lines text.toList) i j r →
        ∀ k, i < k → k < j → ¬ SectionOpensAt (lines text.toList) k := by
  refine ⟨_, rfl, by decide +kernel, (no_section_opens_before_size_iff _).mpr ?_⟩
  have hlines : lines " .text.f\n 0x10 0x8\n .rodata.t\n 0x20 0x40\n .text.g\n 0x60 0x9\n".toList =
      [" .text.f".toList, " 0x10 0x8".toList, " .rodata.t".toList, " 0x20 0x40".toList,
        " .text.g".toList, " 0x60 0x9".toList] := by decide +kernel
  rw [hlines]
  intro k hopens hnone hboth
  have hk : k < 6 := hopens.lt_length
  interval_cases k
  · exact hnone "f" (namesAt_iff.mpr rfl)
  · exact absurd hopens (by decide)
  · -- Line 1 has placed `f`, so nobody awaits a size here.
    obtain ⟨i, f, ⟨hi, hname, -⟩, hnosize⟩ := hboth.1
    interval_cases i
    · exact hnosize 1 (by omega) (by omega) ⟨0x10, 8⟩ (placesAt_iff.mpr rfl)
    · have hmark := namesAt_iff.mp hname
      cases hmark
  · exact absurd hopens (by decide)
  · exact hnone "g" (namesAt_iff.mpr rfl)
  · exact absurd hopens (by decide)

/-- A short name has its size on the same line, where it is not looked for. The name still waits
when a table opens, and takes the size of the table. -/
theorem size_of_table_taken_for_function :
    ∃ text, text = " .text.main 0x100 0x2c m.o\n .rodata.sine_table\n 0x4000 0x100 m.o\n" ∧
      scan (lines text.toList) = [none, none, some ⟨"main", 0x4000, 0x100⟩] ∧
      SectionOpensAt (lines text.toList) 1 ∧
      ¬ ∀ i j r, CompletesFor (lines text.toList) i j r →
        ∀ k, i < k → k < j → ¬ SectionOpensAt (lines text.toList) k := by
  have hlines : lines " .text.main 0x100 0x2c m.o\n .rodata.sine_table\n 0x4000 0x100 m.o\n".toList =
      [" .text.main 0x100 0x2c m.o".toList, " .rodata.sine_table".toList,
        " 0x4000 0x100 m.o".toList] := by decide +kernel
  refine ⟨_, rfl, ?_⟩
  rw [hlines]
  have hscan : scan [" .text.main 0x100 0x2c m.o".toList, " .rodata.sine_table".toList,
      " 0x4000 0x100 m.o".toList] = [none, none, some ⟨"main", 0x4000, 0x100⟩] := by decide +kernel
  have hopens : SectionOpensAt [" .text.main 0x100 0x2c m.o".toList,
      " .rodata.sine_table".toList, " 0x4000 0x100 m.o".toList] 1 := by decide +kernel
  refine ⟨hscan, hopens, fun h => h 0 2 ⟨"main", 0x4000, 0x100⟩ ⟨by rw [hscan]; rfl, by omega,
    namesAt_iff.mpr rfl, ?_⟩ 1 (by omega) (by omega) hopens⟩
  intro k hk hk' f hname
  interval_cases k
  have hmark := namesAt_iff.mp hname
  cases hmark

end CodeReach.LinkMap
