import CodeReach.Proofs.ReachLocality

namespace CodeReach

namespace CallGraph

variable {g : CallGraph} {u v a b : String}

/-- A way through the new call any number of times is one way to its caller and one from its callee,
neither through the new call. -/
theorem reaches_addCall_iff :
    (g.addCall u v).Reaches a b ↔ g.Reaches a b ∨ (g.Reaches a u ∧ g.Reaches v b) := by
  have hmono : ∀ {x y}, g.Reaches x y → (g.addCall u v).Reaches x y := by
    intro x y hxy
    exact Relation.ReflTransGen.mono (fun _ _ hcall => mem_callees_addCall.mpr (.inr hcall)) x y hxy
  constructor
  · intro h
    induction h with
    | refl => exact .inl .refl
    | tail _ hcall ih =>
      rcases mem_callees_addCall.mp hcall with ⟨rfl, rfl⟩ | hcall
      · rcases ih with hau | ⟨hau, -⟩
        · exact .inr ⟨hau, .refl⟩
        · exact .inr ⟨hau, .refl⟩
      · rcases ih with hab | ⟨hau, hvb⟩
        · exact .inl (hab.tail hcall)
        · exact .inr ⟨hau, hvb.tail hcall⟩
  · intro h
    rcases h with hab | ⟨hau, hvb⟩
    · exact hmono hab
    · have hnew : (g.addCall u v).Calls u v := mem_callees_addCall.mpr (.inl ⟨rfl, rfl⟩)
      exact ((hmono hau).tail hnew).trans (hmono hvb)

/-- What a function reaches is finite: a search from it visits just that. -/
theorem exists_reached (g : CallGraph) (f : String) :
    ∃ reached : Finset String, ∀ x, x ∈ reached ↔ g.Reaches f x := by
  have hspread := Search.spread_run .empty g f (1 + g.callTotal)
  refine ⟨(Search.finish .empty g f).visited.toList.toFinset, fun x => ?_⟩
  rw [List.mem_toFinset, NameSet.mem_toList]
  exact hspread.mem_visited_iff (Search.finish_queue .empty g f) x

end CallGraph

variable {t : SymbolTable} {g : CallGraph} {root u v : String} {r r' : Reach}

theorem isKnown_addCall (h : isKnown t g root = true) (u v : String) :
    isKnown t (g.addCall u v) root = true := by
  rw [isKnown_iff] at h ⊢
  rcases h with h | h
  · exact .inl h
  · right
    rw [CallGraph.observes, NameSet.contains_iff] at h ⊢
    exact CallGraph.mem_observed_addCall.mpr (.inr (.inr h))

/-- Seen from a root that does not reach the caller, the new call is not there. -/
theorem sameFrom_addCall (hu : ¬ g.Reaches root u) : SameFrom root t t g (g.addCall u v) := by
  intro f hf
  refine ⟨rfl, NameSet.ext fun c => ?_⟩
  have hne : f ≠ u := fun he => hu (he ▸ hf)
  rw [CallGraph.mem_callees_addCall]
  simp [hne]

/-- A root that reaches the caller reaches what the callee reaches as well. -/
theorem Measured.functions_addCall (h : Measured t g root r)
    (h' : Measured t (g.addCall u v) root r') (hu : g.Reaches root u) {below : Finset String}
    (hbelow : ∀ f, f ∈ below ↔ g.Reaches v f) :
    functions r' = functions r ∪ below := by
  ext f
  rw [Finset.mem_union, h.mem_functions, h'.mem_functions, hbelow,
    CallGraph.reaches_addCall_iff]
  simp [hu]

/-- The effect of one more call on the reach of a root. If the root does not reach the caller, its
reach stays the same in every respect. Otherwise it gains the callee and all that the callee
reaches; the root's own size stays, and the total is again the sum up to the largest 64-bit number.
So it is never smaller than before and, where 64 bits hold the sum, larger by the sizes of what was
gained. -/
theorem new_call_gains_reach_of_callee (h : reach t g root = .ok r) (u v : String) :
    (u ∉ Measured.functions r → reach t (g.addCall u v) root = .ok r) ∧
    (u ∈ Measured.functions r →
      ∃ (r' : Reach) (below : Finset String),
        reach t (g.addCall u v) root = .ok r' ∧
        (∀ f, f ∈ below ↔ g.Reaches v f) ∧
        Measured.functions r' = Measured.functions r ∪ below ∧
        r'.own = r.own ∧
        r'.total.toNat = min (2 ^ 64 - 1) (t.exactBytes (Measured.functions r ∪ below)) ∧
        r.total ≤ r'.total ∧
        (t.exactBytes (Measured.functions r ∪ below) ≤ 2 ^ 64 - 1 →
          r'.total.toNat = r.total.toNat + t.exactBytes (below \ Measured.functions r))) := by
  obtain ⟨hknown, hm⟩ := measured_of_reach h
  have hknown' := isKnown_addCall hknown u v
  constructor
  · intro hu
    have hsame : SameFrom root t t g (g.addCall u v) :=
      sameFrom_addCall fun hreach => hu ((hm.mem_functions u).mpr hreach)
    rw [← reach_congr hsame hknown hknown', h]
  · intro hu
    obtain ⟨r', hr', hm'⟩ := reach_of_known hknown'
    obtain ⟨below, hbelow⟩ := g.exists_reached v
    have hunion := hm.functions_addCall hm' ((hm.mem_functions u).mp hu) hbelow
    have htotal := hm'.total_eq
    rw [hunion] at htotal
    have hsplit : t.exactBytes (Measured.functions r ∪ below) =
        t.exactBytes (Measured.functions r) + t.exactBytes (below \ Measured.functions r) := by
      rw [← Finset.union_sdiff_self_eq_union]
      exact Finset.sum_union Finset.disjoint_sdiff
    have hold := hm.total_eq
    refine ⟨r', below, hr', hbelow, hunion, by rw [hm'.owned, hm.owned], htotal, ?_, ?_⟩
    · rw [UInt64.le_iff_toNat_le]
      omega
    · intro hfits
      omega

/-- `B` begins to call `C`, which calls back to `A` and on to `D`: the reach of `A` gains `C` and
`D` and nothing twice. A call of `C` by `Z`, which `A` does not reach, changes nothing. -/
theorem call_back_to_root_gains_two :
    ∃ t g r, t = SymbolTable.ofList [⟨"A", 0, 10⟩, ⟨"B", 16, 20⟩, ⟨"C", 48, 5⟩] ∧
      g = ((CallGraph.empty.addCall "A" "B").addCall "C" "A").addCall "C" "D" ∧
      reach t g "A" = .ok r ∧ Measured.functions r = {"A", "B"} ∧ r.total = 30 ∧
      reach t (g.addCall "Z" "C") "A" = .ok r ∧
      ∃ r', reach t (g.addCall "B" "C") "A" = .ok r' ∧
        Measured.functions r' = {"A", "B", "C", "D"} ∧ r'.total = 35 ∧
        r'.own = r.own ∧ r.total ≤ r'.total := by
  have hr : reach (.ofList [⟨"A", 0, 10⟩, ⟨"B", 16, 20⟩, ⟨"C", 48, 5⟩])
      (((CallGraph.empty.addCall "A" "B").addCall "C" "A").addCall "C" "D") "A" =
      .ok ⟨"A", 10, 30, [⟨"A", 10⟩, ⟨"B", 20⟩]⟩ := rfl
  refine ⟨_, _, _, rfl, rfl, hr, by decide, rfl,
    (new_call_gains_reach_of_callee hr "Z" "C").1 (by decide), ?_⟩
  obtain ⟨r', -, hr', -, -, hown, -, hle, -⟩ :=
    (new_call_gains_reach_of_callee hr "B" "C").2 (by decide)
  have hsame : (Except.ok r' : Except Fault Reach) =
      .ok ⟨"A", 10, 35, [⟨"A", 10⟩, ⟨"B", 20⟩, ⟨"C", 5⟩, ⟨"D", 0⟩]⟩ := hr'.symm
  cases hsame
  exact ⟨_, rfl, by decide, rfl, hown, hle⟩

end CodeReach
