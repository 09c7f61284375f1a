import CodeReach.Proofs.Search

namespace CodeReach

/-- The sum of the sizes of some functions, however large. -/
def SymbolTable.exactBytes (t : SymbolTable) (functions : Finset String) : Nat :=
  ∑ f ∈ functions, (t.bytesOf f).toNat

theorem SymbolTable.exactBytes_mono (t : SymbolTable) {fs gs : Finset String} (h : fs ⊆ gs) :
    t.exactBytes fs ≤ t.exactBytes gs :=
  Finset.sum_le_sum_of_subset h

theorem SymbolTable.exactBytes_erase (t : SymbolTable) {fs : Finset String} {f : String}
    (h : f ∈ fs) : (t.bytesOf f).toNat + t.exactBytes (fs.erase f) = t.exactBytes fs :=
  Finset.add_sum_erase fs (fun f => (t.bytesOf f).toNat) h

/-- A reach that tells the truth about `root`. -/
structure Measured (t : SymbolTable) (g : CallGraph) (root : String) (r : Reach) : Prop where
  named : r.root = root
  owned : r.own = t.bytesOf root
  first : r.parts.head? = some ⟨root, r.own⟩
  once : (r.parts.map Part.name).Nodup
  listed : ∀ f, f ∈ r.parts.map Part.name ↔ g.Reaches root f
  sized : ∀ p ∈ r.parts, p.size = t.bytesOf p.name
  summed : r.total.toNat =
    min (2 ^ 64 - 1) ((r.parts.map Part.name).map fun f => (t.bytesOf f).toNat).sum

theorem isKnown_iff {t : SymbolTable} {g : CallGraph} {root : String} :
    isKnown t g root = true ↔ t.contains root = true ∨ g.observes root = true := by
  rw [isKnown, Bool.or_eq_true]

theorem reach_of_known {t : SymbolTable} {g : CallGraph} {root : String}
    (h : isKnown t g root = true) : ∃ r, reach t g root = .ok r ∧ Measured t g root r := by
  have spread := Search.spread_run t g root (1 + g.callTotal)
  have accounted := Search.accounted_run t g root (1 + g.callTotal)
  have starts := Search.startsAt_run t g root (1 + g.callTotal)
  have ended := Search.finish_queue t g root
  refine ⟨⟨root, t.bytesOf root, (Search.finish t g root).total,
    (Search.finish t g root).found.reverse⟩, by simp [reach, h], ?_⟩
  refine ⟨rfl, rfl, ?_, ?_, ?_, ?_, ?_⟩
  · rcases starts with hstart | hlast
    · -- A search that has not begun still has its root waiting, and this one has nobody.
      have hwaits : (Search.finish t g root).queue = [root] := congrArg Search.queue hstart
      rw [ended] at hwaits
      cases hwaits
    · rw [List.head?_reverse]
      exact hlast
  · rw [List.map_reverse, List.nodup_reverse]
    exact accounted.once
  · intro f
    rw [List.map_reverse, List.mem_reverse]
    exact (accounted.listed f).trans (spread.mem_visited_iff ended f)
  · intro p hp
    exact accounted.sized p (List.mem_reverse.mp hp)
  · rw [List.map_reverse, List.map_reverse, List.sum_reverse]
    exact accounted.summed

theorem reach_of_unknown {t : SymbolTable} {g : CallGraph} {root : String}
    (h : isKnown t g root = false) : reach t g root = .error (.unknownFunction root) := by
  simp [reach, h]

/-- A root that was measured is known, so what was measured is its one true reach. -/
theorem measured_of_reach {t : SymbolTable} {g : CallGraph} {root : String} {r : Reach}
    (h : reach t g root = .ok r) : isKnown t g root = true ∧ Measured t g root r := by
  cases hk : isKnown t g root with
  | false =>
    rw [reach_of_unknown hk] at h
    cases h
  | true =>
    obtain ⟨r', hr', hm⟩ := reach_of_known hk
    rw [h] at hr'
    cases hr'
    exact ⟨rfl, hm⟩

namespace Measured

variable {t : SymbolTable} {g : CallGraph} {root : String} {r : Reach}

/-- The functions that a reach lists, as a set. -/
def functions (r : Reach) : Finset String := (r.parts.map Part.name).toFinset

theorem mem_functions (h : Measured t g root r) (f : String) :
    f ∈ functions r ↔ g.Reaches root f := by
  rw [functions, List.mem_toFinset, h.listed f]

theorem root_mem (h : Measured t g root r) : root ∈ functions r :=
  (h.mem_functions root).mpr .refl

theorem total_eq (h : Measured t g root r) :
    r.total.toNat = min (2 ^ 64 - 1) (t.exactBytes (functions r)) := by
  rw [h.summed, SymbolTable.exactBytes, functions, List.sum_toFinset _ h.once]

/-- Whatever lists more functions has no smaller total, be it of another root or graph. -/
theorem total_le_of_names {g' : CallGraph} {root' : String} {r' : Reach} (h : Measured t g root r)
    (h' : Measured t g' root' r') (hnames : ∀ f ∈ r.parts.map Part.name, f ∈ r'.parts.map Part.name) :
    r.total ≤ r'.total := by
  have hsub : functions r ⊆ functions r' := by
    intro f hf
    exact List.mem_toFinset.mpr (hnames f (List.mem_toFinset.mp hf))
  have hbytes := t.exactBytes_mono hsub
  rw [UInt64.le_iff_toNat_le, h.total_eq, h'.total_eq]
  omega

theorem mem_parts_iff (h : Measured t g root r) {p : Part} :
    p ∈ r.parts ↔ g.Reaches root p.name ∧ p.size = t.bytesOf p.name := by
  constructor
  · intro hp
    exact ⟨(h.listed p.name).mp (List.mem_map_of_mem hp), h.sized p hp⟩
  · intro hp
    obtain ⟨hreach, hsize⟩ := hp
    -- A part is listed under that name, and its size is that of the name.
    obtain ⟨q, hq, hname⟩ := List.mem_map.mp ((h.listed p.name).mpr hreach)
    have hqsize : q.size = p.size := by rw [h.sized q hq, hname, hsize]
    have hqp : q = p := by
      cases q
      cases p
      exact congrArg₂ Part.mk hname hqsize
    rwa [← hqp]

theorem nodup_parts (h : Measured t g root r) : r.parts.Nodup := List.Nodup.of_map _ h.once

theorem own_le_total (h : Measured t g root r) : r.own ≤ r.total := by
  have hsum := t.exactBytes_erase h.root_mem
  have hword := (t.bytesOf root).toNat_lt
  rw [UInt64.le_iff_toNat_le, h.total_eq, h.owned]
  omega

/-- Below the limit nothing of the sum is lost, so what the root costs beyond itself is exact. -/
theorem beyondOwn_eq (h : Measured t g root r)
    (hfits : t.exactBytes (functions r) ≤ 2 ^ 64 - 1) :
    r.beyondOwn.toNat = t.exactBytes ((functions r).erase root) := by
  have hsum := t.exactBytes_erase h.root_mem
  have htotal := h.total_eq
  rw [Reach.beyondOwn, UInt64.toNat_ofNat', h.owned, htotal]
  omega

end Measured

/-- The search for the reach of a root always ends. A root that neither the map nor the listing
knows is refused; any other has a reach, which lists exactly the functions that the root reaches,
each once and at its size, the root first, and whose total is their exact sum up to the largest
64-bit number. -/
theorem reach_lists_reachable_once (t : SymbolTable) (g : CallGraph) (root : String) :
    (Search.finish t g root).queue = [] ∧
    (reach t g root = .error (.unknownFunction root) ↔
      t.contains root = false ∧ g.observes root = false) ∧
    (t.contains root = true ∨ g.observes root = true →
      ∃ (r : Reach) (reached : Finset String),
        reach t g root = .ok r ∧
        (∀ f, f ∈ reached ↔ Relation.ReflTransGen (fun a b => b ∈ g.callees a) root f) ∧
        (r.parts.map Part.name).Nodup ∧
        (∀ f, f ∈ r.parts.map Part.name ↔ f ∈ reached) ∧
        (∀ p ∈ r.parts, p.size = t.bytesOf p.name) ∧
        r.root = root ∧ r.own = t.bytesOf root ∧ r.parts.head? = some ⟨root, r.own⟩ ∧
        r.total.toNat = min (2 ^ 64 - 1) (∑ f ∈ reached, (t.bytesOf f).toNat) ∧
        r.own ≤ r.total ∧
        (∑ f ∈ reached, (t.bytesOf f).toNat ≤ 2 ^ 64 - 1 →
          r.beyondOwn.toNat = ∑ f ∈ reached.erase root, (t.bytesOf f).toNat)) := by
  have hknown : isKnown t g root = (t.contains root || g.observes root) := rfl
  refine ⟨Search.finish_queue t g root, ?_, ?_⟩
  · rw [← Bool.or_eq_false_iff, ← hknown]
    constructor
    · intro hr
      cases hk : isKnown t g root with
      | false => rfl
      | true =>
        obtain ⟨r, hok, -⟩ := reach_of_known hk
        rw [hok] at hr
        cases hr
    · exact reach_of_unknown
  · intro h
    rw [← Bool.or_eq_true, ← hknown] at h
    obtain ⟨r, hr, hm⟩ := reach_of_known h
    refine ⟨r, Measured.functions r, hr, hm.mem_functions, hm.once, ?_, hm.sized, hm.named,
      hm.owned, hm.first, hm.total_eq, hm.own_le_total, hm.beyondOwn_eq⟩
    intro f
    rw [hm.listed f, hm.mem_functions f]

/-- Calls that come back to where they started, a function that calls itself, and one that the map
does not list: each still counts once. -/
theorem reach_through_cycle :
    (SymbolTable.ofList [⟨"A", 0, 10⟩, ⟨"B", 16, 20⟩]).contains "A" = true ∧
    reach (.ofList [⟨"A", 0, 10⟩, ⟨"B", 16, 20⟩])
        ((((CallGraph.empty.addCall "A" "B").addCall "B" "A").addCall "B" "B").addCall "B" "W") "A" =
      .ok ⟨"A", 10, 30, [⟨"A", 10⟩, ⟨"B", 20⟩, ⟨"W", 0⟩]⟩ ∧
    ∀ f, f ∈ ["A", "B", "W"] ↔ Relation.ReflTransGen
      (fun a b => b ∈ CallGraph.callees
        ((((CallGraph.empty.addCall "A" "B").addCall "B" "A").addCall "B" "B").addCall "B" "W") a)
      "A" f := by
  obtain ⟨r, reached, hr, hreached, -, hlisted, -⟩ :=
    (reach_lists_reachable_once (.ofList [⟨"A", 0, 10⟩, ⟨"B", 16, 20⟩])
      ((((CallGraph.empty.addCall "A" "B").addCall "B" "A").addCall "B" "B").addCall "B" "W")
      "A").2.2 (.inl (by decide))
  refine ⟨by decide, rfl, fun f => ?_⟩
  have hsame : (Except.ok r : Except Fault Reach) =
      .ok ⟨"A", 10, 30, [⟨"A", 10⟩, ⟨"B", 20⟩, ⟨"W", 0⟩]⟩ := hr.symm
  cases hsame
  exact (hlisted f).trans (hreached f)

end CodeReach
