import CodeReach.Proofs.Marks
import CodeReach.Proofs.ReachMeasured

namespace CodeReach

/-- The function found at place `caller` calls `name`. A search follows leads by the place of the
caller and, for one caller, by name, and passes over those to functions found before. -/
structure Lead where
  caller : Nat
  name : String

def Lead.Before (a b : Lead) : Prop :=
  a.caller < b.caller ∨ (a.caller = b.caller ∧ a.name < b.name)

theorem Lead.Before.asymm {a b : Lead} (h : a.Before b) : ¬ b.Before a := by
  intro hba
  rcases h with hlt | ⟨he, hname⟩
  · rcases hba with hlt' | ⟨he', -⟩ <;> omega
  · rcases hba with hlt' | ⟨-, hname'⟩
    · omega
    · exact String.lt_irrefl _ (String.lt_trans hname hname')

theorem Lead.Before.caller_lt {a b : Lead} (h : a.Before b) (hname : a.name = b.name) :
    a.caller < b.caller := by
  rcases h with h | ⟨-, h⟩
  · exact h
  · rw [hname] at h
    exact absurd h (String.lt_irrefl _)

namespace Search

variable {t : SymbolTable} {g : CallGraph} {root : String} {s : Search}
  {followed waiting : List Lead}

/-- The functions found so far, the first one first. -/
def names (s : Search) : List String := (s.found.map Part.name).reverse

theorem mem_names (h : Accounted t s) {f : String} : f ∈ s.names ↔ f ∈ s.visited := by
  rw [names, List.mem_reverse, h.listed]

theorem names_visit (t : SymbolTable) (g : CallGraph) (s : Search) (name : String)
    (rest : List String) : (s.visit t g name rest).names = s.names ++ [name] := by
  simp [names, visit]

/-- The leads that visiting `name` adds. -/
def newLeads (g : CallGraph) (s : Search) (name : String) : List Lead :=
  ((g.callees name).toList.filter fun c => !(s.visited.insert name).contains c).map
    (Lead.mk s.names.length)

theorem mem_newLeads {name : String} {l : Lead} :
    l ∈ newLeads g s name ↔
      l.caller = s.names.length ∧ l.name ∈ g.callees name ∧ l.name ≠ name ∧ l.name ∉ s.visited := by
  obtain ⟨caller, callee⟩ := l
  simp only [newLeads, List.mem_map, List.mem_filter, NameSet.mem_toList, NameSet.contains,
    NameSet.mem_insert, Bool.not_eq_true', decide_eq_false_iff_not, not_or, Lead.mk.injEq]
  constructor
  · intro h
    obtain ⟨c, ⟨hc, hne, hv⟩, hplace, rfl⟩ := h
    exact ⟨hplace.symm, hc, hne, hv⟩
  · intro h
    obtain ⟨hplace, hc, hne, hv⟩ := h
    exact ⟨callee, ⟨hc, hne, hv⟩, hplace.symm, rfl⟩

theorem pairwise_newLeads (g : CallGraph) (s : Search) (name : String) :
    (newLeads g s name).Pairwise Lead.Before := by
  refine List.pairwise_map.mpr (List.Pairwise.filter _ ?_)
  exact (g.callees name).increasing.imp fun h => .inr ⟨rfl, h⟩

/-- How a search whose root has been visited came to where it is: the leads through which it found
the other functions, in their order, and those that still wait. -/
structure Course (g : CallGraph) (root : String) (s : Search) (followed waiting : List Lead) :
    Prop where
  names_eq : s.names = root :: followed.map Lead.name
  queue_eq : s.queue = waiting.map Lead.name
  sorted : (followed ++ waiting).Pairwise Lead.Before
  called : ∀ l ∈ followed ++ waiting,
    ∃ caller, s.names[l.caller]? = some caller ∧ l.name ∈ g.callees caller
  caller_le : ∀ (i : Nat) (l : Lead), followed[i]? = some l → l.caller ≤ i
  covered : ∀ i caller, s.names[i]? = some caller → ∀ c ∈ g.callees caller,
    c = root ∨ ∃ l ∈ followed ++ waiting, l.name = c ∧ l.caller ≤ i

theorem Course.caller_lt (h : Course g root s followed waiting) {l : Lead}
    (hl : l ∈ followed ++ waiting) : l.caller < s.names.length := by
  obtain ⟨caller, hcaller, -⟩ := h.called l hl
  exact (List.getElem?_eq_some_iff.mp hcaller).1

/-- A function found is the root or has been found through a lead. -/
theorem Course.exists_followed (h : Course g root s followed waiting) {f : String}
    (hf : f ∈ s.names) : f = root ∨ ∃ l ∈ followed, l.name = f := by
  rw [h.names_eq, List.mem_cons, List.mem_map] at hf
  exact hf

/-- The first step visits the root. -/
theorem course_first (t : SymbolTable) (g : CallGraph) (root : String) :
    Course g root ((start root).step t g) [] (newLeads g (start root) root) := by
  have hstep : (start root).step t g = (start root).visit t g root [] := by
    simp [step, start, NameSet.contains]
  have hnames : ((start root).step t g).names = [root] := by
    rw [hstep, names_visit]
    rfl
  have hroot : ∀ i caller, ((start root).step t g).names[i]? = some caller →
      i = 0 ∧ caller = root := by
    intro i caller hi
    rw [hnames] at hi
    cases i with
    | zero => exact ⟨rfl, by simpa using hi.symm⟩
    | succ i => simp at hi
  refine ⟨hnames, ?_, pairwise_newLeads g _ root, ?_, ?_, ?_⟩
  · rw [hstep]
    simp [visit, newLeads, Function.comp_def]
  · intro l hl
    obtain ⟨hplace, hcall, -, -⟩ := mem_newLeads.mp hl
    refine ⟨root, ?_, hcall⟩
    rw [hnames, hplace]
    rfl
  · intro i l hl
    simp at hl
  · intro i caller hi c hc
    obtain ⟨rfl, rfl⟩ := hroot i caller hi
    by_cases he : c = caller
    · exact .inl he
    · exact .inr ⟨⟨0, c⟩, mem_newLeads.mpr ⟨rfl, hc, he, NameSet.not_mem_empty c⟩, rfl,
        Nat.le_refl 0⟩

/-- A lead to a function found before is passed over: the one through which it was found is by an
earlier caller. -/
theorem Course.skip {l : Lead} (h : Course g root s followed (l :: waiting))
    (hl : l.name ∈ s.names) :
    Course g root { s with queue := waiting.map Lead.name } followed waiting := by
  have hsub : (followed ++ waiting).Sublist (followed ++ l :: waiting) :=
    (List.Sublist.refl _).append (List.sublist_cons_self _ _)
  refine ⟨h.names_eq, rfl, h.sorted.sublist hsub, ?_, h.caller_le, ?_⟩
  · intro k hk
    exact h.called k (hsub.subset hk)
  · intro i caller hi c hc
    rcases h.covered i caller hi c hc with hroot | ⟨k, hk, hname, hle⟩
    · exact .inl hroot
    · rcases List.mem_append.mp hk with hk | hk
      · exact .inr ⟨k, List.mem_append_left _ hk, hname, hle⟩
      · rcases List.mem_cons.mp hk with rfl | hk
        · rcases h.exists_followed hl with hroot | ⟨j, hj, hjname⟩
          · exact .inl (hname.symm.trans hroot)
          · have hbefore : j.Before k :=
              (List.pairwise_append.mp h.sorted).2.2 j hj k List.mem_cons_self
            have hlt := hbefore.caller_lt hjname
            exact .inr ⟨j, List.mem_append_left _ hj, hjname.trans hname, by omega⟩
        · exact .inr ⟨k, List.mem_append_right _ hk, hname, hle⟩

/-- A callee of the function that the first lead leads to is new, or there is a lead to it already.
-/
theorem Course.covered_callee {l : Lead} (ha : Accounted t s)
    (h : Course g root s followed (l :: waiting)) {c : String} (hc : c ∈ g.callees l.name) :
    c = root ∨ ∃ k ∈ followed ++ l :: waiting ++ newLeads g s l.name,
      k.name = c ∧ k.caller ≤ s.names.length := by
  have hknown : ∀ k ∈ followed ++ l :: waiting, k.name = c →
      ∃ k ∈ followed ++ l :: waiting ++ newLeads g s l.name,
        k.name = c ∧ k.caller ≤ s.names.length := by
    intro k hk hname
    exact ⟨k, List.mem_append_left _ hk, hname, Nat.le_of_lt (h.caller_lt hk)⟩
  by_cases hself : c = l.name
  · exact .inr (hknown l (by simp) hself.symm)
  by_cases hv : c ∈ s.visited
  · rcases h.exists_followed ((mem_names ha).mpr hv) with hroot | ⟨k, hk, hname⟩
    · exact .inl hroot
    · exact .inr (hknown k (List.mem_append_left _ hk) hname)
  · have hnew : ⟨s.names.length, c⟩ ∈ newLeads g s l.name := mem_newLeads.mpr ⟨rfl, hc, hself, hv⟩
    exact .inr ⟨_, List.mem_append_right _ hnew, rfl, Nat.le_refl _⟩

/-- A lead to a new function is followed, and the leads that this adds come after all others. -/
theorem Course.visit {l : Lead} (ha : Accounted t s) (h : Course g root s followed (l :: waiting)) :
    Course g root (s.visit t g l.name (waiting.map Lead.name)) (followed ++ [l])
      (waiting ++ newLeads g s l.name) := by
  have hall : followed ++ [l] ++ (waiting ++ newLeads g s l.name) =
      followed ++ l :: waiting ++ newLeads g s l.name := by simp
  have hlength : s.names.length = followed.length + 1 := by
    rw [h.names_eq, List.length_cons, List.length_map]
  refine ⟨?_, ?_, ?_, ?_, ?_, ?_⟩
  · rw [names_visit, h.names_eq]
    simp
  · simp [Search.visit, newLeads, Function.comp_def]
  · rw [hall]
    refine List.pairwise_append.mpr ⟨h.sorted, pairwise_newLeads g s l.name, ?_⟩
    intro a hmem b hb
    left
    rw [(mem_newLeads.mp hb).1]
    exact h.caller_lt hmem
  · intro k hk
    rw [hall] at hk
    simp only [names_visit, getElem?_concat_eq_some_iff]
    rcases List.mem_append.mp hk with hk | hk
    · obtain ⟨caller, hcaller, hcall⟩ := h.called k hk
      exact ⟨caller, .inl hcaller, hcall⟩
    · obtain ⟨hplace, hcall, -, -⟩ := mem_newLeads.mp hk
      exact ⟨l.name, .inr ⟨hplace, rfl⟩, hcall⟩
  · intro i k hk
    rcases getElem?_concat_eq_some_iff.mp hk with hk | ⟨rfl, rfl⟩
    · exact h.caller_le i k hk
    · have hlt := h.caller_lt (l := k) (by simp)
      omega
  · intro i caller hi c hc
    rw [hall]
    rw [names_visit, getElem?_concat_eq_some_iff] at hi
    rcases hi with hi | ⟨rfl, rfl⟩
    · rcases h.covered i caller hi c hc with hroot | ⟨k, hk, hname, hle⟩
      · exact .inl hroot
      · exact .inr ⟨k, List.mem_append_left _ hk, hname, hle⟩
    · exact h.covered_callee ha hc

/-- Each step continues the course. -/
theorem Course.step (ha : Accounted t s) (h : Course g root s followed waiting) :
    ∃ followed' waiting', Course g root (s.step t g) followed' waiting' := by
  rcases step_cases t g s with ⟨-, he⟩ | ⟨name, rest, hq, hv, he⟩ | ⟨name, rest, hq, -, he⟩
  · rw [he]
    exact ⟨followed, waiting, h⟩
  all_goals
    have hqueue := h.queue_eq
    rw [hq] at hqueue
    obtain ⟨l, waiting', rfl, rfl, rfl⟩ := List.map_eq_cons_iff.mp hqueue.symm
    rw [he]
  · exact ⟨followed, waiting', h.skip ((mem_names ha).mpr hv)⟩
  · exact ⟨followed ++ [l], waiting' ++ newLeads g s l.name, h.visit ha⟩

theorem exists_course_run (t : SymbolTable) (g : CallGraph) (root : String) (n : Nat) :
    ∃ followed waiting, Course g root (run t g (n + 1) (start root)) followed waiting := by
  have hkeeps : ∀ s, (Accounted t s ∧ ∃ followed waiting, Course g root s followed waiting) →
      Accounted t (s.step t g) ∧
        ∃ followed waiting, Course g root (s.step t g) followed waiting := by
    intro s hs
    obtain ⟨ha, followed, waiting, h⟩ := hs
    exact ⟨ha.step g, h.step ha⟩
  have hfirst : Accounted t ((start root).step t g) ∧
      ∃ followed waiting, Course g root ((start root).step t g) followed waiting :=
    ⟨(accounted_start t root).step g, [], _, course_first t g root⟩
  exact (run_keeps hkeeps n hfirst).2

/-- In the end every lead has been followed or passed over. -/
theorem exists_course_finish (t : SymbolTable) (g : CallGraph) (root : String) :
    ∃ followed, Course g root (finish t g root) followed [] := by
  obtain ⟨followed, waiting, h⟩ := exists_course_run t g root g.callTotal
  rw [Nat.add_comm, ← finish] at h
  have hwaiting : waiting = [] := by
    have hqueue := h.queue_eq
    rw [finish_queue] at hqueue
    exact List.map_eq_nil_iff.mp hqueue.symm
  subst hwaiting
  exact ⟨followed, h⟩

/-- Nobody waits any more, so each call of a function found later than the root is by a caller no
earlier than that of its lead. -/
theorem Course.caller_le_of_calls (h : Course g root s followed []) (honce : s.names.Nodup)
    {l : Lead} (hl : l ∈ followed) {i : Nat} {caller : String} (hi : s.names[i]? = some caller)
    (hcall : l.name ∈ g.callees caller) : l.caller ≤ i := by
  rw [h.names_eq, List.nodup_cons] at honce
  rcases h.covered i caller hi l.name hcall with hroot | ⟨k, hk, hname, hle⟩
  · exact absurd (List.mem_map.mpr ⟨l, hl, hroot⟩) honce.1
  · rw [List.append_nil] at hk
    have hkl : k = l := List.inj_on_of_nodup_map honce.2 hk hl hname
    rwa [hkl] at hle

end Search

namespace CallGraph

/-- From `root` to a function by `n` calls. -/
inductive ReachesIn (g : CallGraph) (root : String) : Nat → String → Prop where
  | start : ReachesIn g root 0 root
  | call {n : Nat} {f c : String} : ReachesIn g root n f → c ∈ g.callees f →
      ReachesIn g root (n + 1) c

theorem exists_reachesIn {g : CallGraph} {root f : String} (h : g.Reaches root f) :
    ∃ n, g.ReachesIn root n f := by
  induction h with
  | refl => exact ⟨0, .start⟩
  | tail _ hcall ih =>
    obtain ⟨n, hn⟩ := ih
    exact ⟨n + 1, .call hn hcall⟩

theorem ReachesIn.reaches {g : CallGraph} {root f : String} {n : Nat} (h : g.ReachesIn root n f) :
    g.Reaches root f := by
  induction h with
  | start => exact .refl
  | call _ hcall ih => exact ih.tail hcall

end CallGraph

namespace Reach

def names (r : Reach) : List String := r.parts.map Part.name

/-- The place of a function in the list of parts. -/
def place (r : Reach) (f : String) : Nat := r.names.idxOf f

/-- The place of the first part that calls a function. -/
def firstCaller (g : CallGraph) (r : Reach) (f : String) : Nat :=
  r.names.findIdx fun caller => (g.callees caller).contains f

variable {g : CallGraph} {r : Reach} {f c : String} {i : Nat}

theorem getElem?_place (hf : f ∈ r.names) : r.names[r.place f]? = some f :=
  List.getElem?_idxOf hf

theorem place_eq (honce : r.names.Nodup) (hi : r.names[i]? = some f) : r.place f = i := by
  obtain ⟨hlt, rfl⟩ := List.getElem?_eq_some_iff.mp hi
  exact honce.idxOf_getElem i hlt

theorem firstCaller_eq (hi : r.names[i]? = some c) (hcall : f ∈ g.callees c)
    (hfirst : ∀ j caller, r.names[j]? = some caller → f ∈ g.callees caller → i ≤ j) :
    r.firstCaller g f = i := by
  obtain ⟨hlt, rfl⟩ := List.getElem?_eq_some_iff.mp hi
  refine (List.findIdx_eq hlt).mpr ⟨NameSet.contains_iff.mpr hcall, fun j hj => ?_⟩
  have hjlt : j < r.names.length := by omega
  refine Bool.eq_false_iff.mpr fun hcalls => ?_
  have hle := hfirst j _ (List.getElem?_eq_getElem hjlt) (NameSet.contains_iff.mp hcalls)
  omega

/-- Nobody who calls a function comes before its first caller. -/
theorem firstCaller_le_place (hc : c ∈ r.names) (hcall : f ∈ g.callees c) :
    r.firstCaller g f ≤ r.place c := by
  obtain ⟨hlt, hget⟩ := List.getElem?_eq_some_iff.mp (getElem?_place hc)
  refine Nat.le_of_not_lt fun h => ?_
  have hnot := List.not_of_lt_findIdx h
  rw [hget] at hnot
  exact Bool.eq_false_iff.mp hnot (NameSet.contains_iff.mpr hcall)

/-- The lead of each part of a reach but the root: who calls it first, and who it is. -/
structure FoundBy (g : CallGraph) (root : String) (r : Reach) (leads : List Lead) : Prop where
  names_eq : r.names = root :: leads.map Lead.name
  sorted : leads.Pairwise Lead.Before
  place : ∀ (i : Nat) (l : Lead), leads[i]? = some l → r.place l.name = i + 1
  firstCaller : ∀ l ∈ leads, r.firstCaller g l.name = l.caller
  caller_le : ∀ (i : Nat) (l : Lead), leads[i]? = some l → l.caller ≤ i

end Reach

theorem names_of_reach {t : SymbolTable} {g : CallGraph} {root : String} {r : Reach}
    (h : reach t g root = .ok r) : r.names = (Search.finish t g root).names := by
  rw [reach, if_pos (measured_of_reach h).1] at h
  cases h
  rw [Reach.names, Search.names, List.map_reverse]

theorem exists_foundBy {t : SymbolTable} {g : CallGraph} {root : String} {r : Reach}
    (h : reach t g root = .ok r) : ∃ leads, r.FoundBy g root leads := by
  obtain ⟨leads, hcourse⟩ := Search.exists_course_finish t g root
  have hnames := names_of_reach h
  have honce : r.names.Nodup := (measured_of_reach h).2.once
  refine ⟨leads, hnames.trans hcourse.names_eq, ?_, ?_, ?_, hcourse.caller_le⟩
  · simpa using hcourse.sorted
  · intro i l hl
    refine Reach.place_eq honce ?_
    rw [hnames, hcourse.names_eq, List.getElem?_cons_succ, List.getElem?_map, hl]
    rfl
  · intro l hl
    obtain ⟨caller, hcaller, hcall⟩ := hcourse.called l (List.mem_append_left _ hl)
    rw [← hnames] at hcaller
    refine Reach.firstCaller_eq hcaller hcall fun j other hj hother => ?_
    rw [hnames] at honce hj
    exact hcourse.caller_le_of_calls honce hl hj hother

namespace Reach.FoundBy

variable {g : CallGraph} {root f f' : String} {r : Reach} {leads : List Lead}

theorem exists_lead (hr : r.FoundBy g root leads) (hf : f ∈ r.names) (hne : f ≠ root) :
    ∃ i : Nat, leads[i]? = some ⟨r.firstCaller g f, f⟩ := by
  rw [hr.names_eq, List.mem_cons, List.mem_map] at hf
  rcases hf with he | ⟨l, hl, rfl⟩
  · exact absurd he hne
  · obtain ⟨i, hi⟩ := List.getElem?_of_mem hl
    refine ⟨i, ?_⟩
    rw [hi, hr.firstCaller l hl]

theorem place_root (hr : r.FoundBy g root leads) : r.place root = 0 := by
  simp [Reach.place, hr.names_eq]

theorem firstCaller_lt_place (hr : r.FoundBy g root leads) (hf : f ∈ r.names) (hne : f ≠ root) :
    r.firstCaller g f < r.place f := by
  obtain ⟨i, hi⟩ := hr.exists_lead hf hne
  have hplace := hr.place i _ hi
  have hle := hr.caller_le i _ hi
  simp only at hplace hle
  omega

/-- Leads and places go in the same order. -/
theorem place_lt_place_iff (hr : r.FoundBy g root leads) (hf : f ∈ r.names) (hf' : f' ∈ r.names)
    (hne : f ≠ root) (hne' : f' ≠ root) :
    r.place f < r.place f' ↔ Lead.Before ⟨r.firstCaller g f, f⟩ ⟨r.firstCaller g f', f'⟩ := by
  obtain ⟨i, hi⟩ := hr.exists_lead hf hne
  obtain ⟨j, hj⟩ := hr.exists_lead hf' hne'
  have hplace : r.place f = i + 1 := hr.place i _ hi
  have hplace' : r.place f' = j + 1 := hr.place j _ hj
  obtain ⟨hilt, hi⟩ := List.getElem?_eq_some_iff.mp hi
  obtain ⟨hjlt, hj⟩ := List.getElem?_eq_some_iff.mp hj
  have hsorted := List.pairwise_iff_getElem.mp hr.sorted
  rw [hplace, hplace', ← hi, ← hj]
  constructor
  · intro hlt
    exact hsorted i j hilt hjlt (by omega)
  · intro hbefore
    rcases Nat.lt_trichotomy i j with hlt | rfl | hlt
    · omega
    · exact absurd hbefore hbefore.asymm
    · exact absurd hbefore (hsorted j i hjlt hilt hlt).asymm

theorem firstCaller_le_of_place_le (hr : r.FoundBy g root leads) (hf : f ∈ r.names)
    (hf' : f' ∈ r.names) (hne : f ≠ root) (hne' : f' ≠ root) (hle : r.place f ≤ r.place f') :
    r.firstCaller g f ≤ r.firstCaller g f' := by
  have hnot : ¬ r.place f' < r.place f := by omega
  rw [hr.place_lt_place_iff hf' hf hne' hne] at hnot
  exact Nat.le_of_not_lt fun hlt => hnot (.inl hlt)

/-- The first caller of a part is a part, and it does call it. -/
theorem exists_firstCaller (hr : r.FoundBy g root leads) (honce : r.names.Nodup)
    (hf : f ∈ r.names) (hne : f ≠ root) :
    ∃ c ∈ r.names, r.place c = r.firstCaller g f ∧ f ∈ g.callees c := by
  have hlt : r.firstCaller g f < r.names.length := by
    have hplace := List.idxOf_lt_length_iff.mpr hf
    have hcaller := hr.firstCaller_lt_place hf hne
    unfold Reach.place at hcaller
    omega
  have hget := List.getElem?_eq_getElem hlt
  refine ⟨_, List.mem_of_getElem? hget, Reach.place_eq honce hget, ?_⟩
  exact NameSet.contains_iff.mp (List.findIdx_getElem (w := hlt))

/-- Whoever stands no later than a function that `n` calls reach is reached by `n` calls or fewer.
The induction is on the calls: the first caller of the one stands no later than the last caller on
the way to the other. -/
theorem reachesIn_of_place_le (hr : r.FoundBy g root leads) (honce : r.names.Nodup)
    (hlisted : ∀ f, f ∈ r.names ↔ g.Reaches root f) {n : Nat} (hn : g.ReachesIn root n f') :
    ∀ f ∈ r.names, r.place f ≤ r.place f' → ∃ m ≤ n, g.ReachesIn root m f := by
  induction hn with
  | start =>
    intro f hf hle
    rw [hr.place_root] at hle
    by_cases hne : f = root
    · exact ⟨0, Nat.le_refl 0, hne ▸ .start⟩
    · have hlt := hr.firstCaller_lt_place hf hne
      omega
  | @call n q c hq hcall ih =>
    intro f hf hle
    by_cases hne : f = root
    · exact ⟨0, Nat.zero_le _, hne ▸ .start⟩
    · have hqmem : q ∈ r.names := (hlisted q).mpr hq.reaches
      have hcmem : c ∈ r.names := (hlisted c).mpr (hq.reaches.tail hcall)
      have hcne : c ≠ root := by
        intro he
        have hlt := hr.firstCaller_lt_place hf hne
        rw [he, hr.place_root] at hle
        omega
      obtain ⟨p, hp, hplace, hpf⟩ := hr.exists_firstCaller honce hf hne
      have hpq : r.place p ≤ r.place q :=
        calc r.place p = r.firstCaller g f := hplace
          _ ≤ r.firstCaller g c := hr.firstCaller_le_of_place_le hf hcmem hne hcne hle
          _ ≤ r.place q := Reach.firstCaller_le_place hqmem hcall
      obtain ⟨m, hm, hpm⟩ := ih p hp hpq
      exact ⟨m + 1, by omega, hpm.call hpf⟩

end Reach.FoundBy

/-- A reach is in breadth-first order. A known root has a reach, and stands first in it. Every other
part stands behind the first part that calls it; of two parts the one with the earlier first caller
comes first, and of two with the same one that with the smaller name. So no part stands before one
that fewer calls reach. -/
theorem reach_in_breadth_first_order {t : SymbolTable} {g : CallGraph} {root : String}
    (h : t.contains root = true ∨ g.observes root = true) :
    ∃ r, reach t g root = .ok r ∧ r.place root = 0 ∧
      (∀ f ∈ r.names, f ≠ root → r.firstCaller g f < r.place f) ∧
      (∀ f ∈ r.names, ∀ f' ∈ r.names, f ≠ root → f' ≠ root →
        (r.place f < r.place f' ↔ r.firstCaller g f < r.firstCaller g f' ∨
          (r.firstCaller g f = r.firstCaller g f' ∧ f < f'))) ∧
      ∃ distance : String → Nat,
        (∀ f ∈ r.names, IsLeast {n | g.ReachesIn root n f} (distance f)) ∧
        ∀ f ∈ r.names, ∀ f' ∈ r.names, r.place f ≤ r.place f' → distance f ≤ distance f' := by
  obtain ⟨r, hok, hm⟩ := reach_of_known (isKnown_iff.mpr h)
  obtain ⟨leads, hr⟩ := exists_foundBy hok
  have hleast : ∀ f ∈ r.names,
      IsLeast {n | g.ReachesIn root n f} (sInf {n | g.ReachesIn root n f}) := by
    intro f hf
    exact isLeast_csInf (CallGraph.exists_reachesIn ((hm.listed f).mp hf))
  refine ⟨r, hok, hr.place_root, fun f hf hne => hr.firstCaller_lt_place hf hne,
    fun f hf f' hf' hne hne' => hr.place_lt_place_iff hf hf' hne hne',
    fun f => sInf {n | g.ReachesIn root n f}, hleast, ?_⟩
  intro f hf f' hf' hle
  obtain ⟨m, hm', hfm⟩ := hr.reachesIn_of_place_le hm.once hm.listed (hleast f' hf').1 f hf hle
  exact ((hleast f hf).2 hfm).trans hm'

/-- Both `a` and `b` have `z` wait, and only `b`, the later of them, has `k` wait: so `z` comes
before `k`, although it is the greater name. -/
theorem earlier_caller_before_smaller_name :
    ∃ g, g = ((((CallGraph.empty.addCall "m" "b").addCall "m" "a").addCall "b" "k").addCall "b"
        "z").addCall "a" "z" ∧
      g.observes "m" = true ∧
      ∃ r, reach .empty g "m" = .ok r ∧ r.names = ["m", "a", "b", "z", "k"] ∧
        r.firstCaller g "z" = 1 ∧ r.firstCaller g "k" = 2 ∧ r.place "z" < r.place "k" ∧
        ∃ m n, IsLeast {d | g.ReachesIn "m" d "b"} m ∧ IsLeast {d | g.ReachesIn "m" d "z"} n ∧
          m ≤ n := by
  refine ⟨_, rfl, by decide, ?_⟩
  obtain ⟨r, hr, -, -, horder, distance, hleast, hmono⟩ :=
    @reach_in_breadth_first_order .empty
      (((((CallGraph.empty.addCall "m" "b").addCall "m" "a").addCall "b" "k").addCall "b"
        "z").addCall "a" "z") "m" (.inr (by decide))
  have hsame : (Except.ok r : Except Fault Reach) =
      .ok ⟨"m", 0, 0, [⟨"m", 0⟩, ⟨"a", 0⟩, ⟨"b", 0⟩, ⟨"z", 0⟩, ⟨"k", 0⟩]⟩ := hr.symm
  cases hsame
  exact ⟨_, rfl, rfl, by decide, by decide,
    (horder "z" (by decide) "k" (by decide) (by decide) (by decide)).mpr (.inl (by decide)),
    distance "b", distance "z", hleast "b" (by decide), hleast "z" (by decide),
    hmono "b" (by decide) "z" (by decide) (by decide)⟩

end CodeReach
