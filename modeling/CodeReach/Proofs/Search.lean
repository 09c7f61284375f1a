import CodeReach.Reach
import Mathlib

namespace CodeReach

namespace CallGraph

def Calls (g : CallGraph) (caller callee : String) : Prop := callee ∈ g.callees caller

/-- From one function to another by any number of calls, none included. -/
def Reaches (g : CallGraph) : String → String → Prop := Relation.ReflTransGen g.Calls

/-- The calls made by functions outside `visited`: those that may still join a queue. -/
def openCalls (g : CallGraph) (visited : NameSet) : Nat :=
  ((g.calls.entries.filter fun e => !visited.contains e.1).map fun e => e.2.size).sum

theorem openCalls_empty (g : CallGraph) : g.openCalls .empty = g.callTotal := by
  have hall : g.calls.entries.filter (fun e => !NameSet.empty.contains e.1) = g.calls.entries := by
    apply List.filter_eq_self.mpr
    intro e _
    simp [NameSet.contains]
  unfold openCalls callTotal
  rw [hall, List.sum_eq_foldr, List.foldr_map]

theorem openCalls_insert_entries {es : List (String × NameSet)} {visited : NameSet} {f : String}
    (hes : es.Pairwise (fun x y => x.1 < y.1)) (hf : f ∉ visited) :
    ((es.filter fun e => !(visited.insert f).contains e.1).map fun e => e.2.size).sum +
        ((NameMap.lookup f es).getD .empty).size =
      ((es.filter fun e => !visited.contains e.1).map fun e => e.2.size).sum := by
  induction es with
  | nil => rfl
  | cons e es ih =>
    obtain ⟨b, callees⟩ := e
    obtain ⟨hb, hes'⟩ := List.pairwise_cons.mp hes
    have ih := ih hes'
    by_cases hfb : f = b
    · -- The keys increase, so no later entry is the one that closes.
      subst hfb
      have hnone : NameMap.lookup f es = none := NameMap.lookup_eq_none_of_lt hb
      rw [hnone] at ih
      have hin : (visited.insert f).contains f = true := by simp
      have hout : visited.contains f = false := by simpa [NameSet.contains] using hf
      simp only [List.filter_cons, hin, hout, NameMap.lookup, Bool.not_true, Bool.not_false,
        Bool.false_eq_true, ↓reduceIte, List.map_cons, List.sum_cons, Option.getD_some]
      simp only [Option.getD_none, NameSet.size, NameSet.empty, List.length_nil] at ih
      simp only [NameSet.size]
      omega
    · have hsame : (visited.insert f).contains b = visited.contains b := by
        simp [NameSet.contains, Ne.symm hfb]
      simp only [List.filter_cons, hsame, NameMap.lookup, hfb, ↓reduceIte]
      cases visited.contains b with
      | true => simpa using ih
      | false =>
        simp only [Bool.not_false, ↓reduceIte, List.map_cons, List.sum_cons]
        omega

/-- Visiting a function closes exactly its own calls. -/
theorem openCalls_insert (g : CallGraph) {visited : NameSet} {f : String} (hf : f ∉ visited) :
    g.openCalls (visited.insert f) + (g.callees f).size = g.openCalls visited :=
  openCalls_insert_entries g.calls.increasing hf

end CallGraph

namespace Search

variable {t : SymbolTable} {g : CallGraph} {root : String} {s : Search}

/-- All that a step can do: nothing, pass over a function already visited, or visit one. -/
theorem step_cases (t : SymbolTable) (g : CallGraph) (s : Search) :
    (s.queue = [] ∧ s.step t g = s) ∨
    (∃ name rest, s.queue = name :: rest ∧ name ∈ s.visited ∧
      s.step t g = { s with queue := rest }) ∨
    (∃ name rest, s.queue = name :: rest ∧ name ∉ s.visited ∧
      s.step t g = s.visit t g name rest) := by
  unfold step
  cases hq : s.queue with
  | nil => simp
  | cons name rest =>
    by_cases hv : name ∈ s.visited
    · right; left
      exact ⟨name, rest, rfl, hv, by simp [hv]⟩
    · right; right
      exact ⟨name, rest, rfl, hv, by simp [NameSet.contains, hv]⟩

/-- What each step keeps, every run keeps. -/
theorem run_keeps {P : Search → Prop} (hstep : ∀ s, P s → P (s.step t g)) (n : Nat) (hs : P s) :
    P (run t g n s) := by
  induction n generalizing s with
  | zero => exact hs
  | succ n ih => exact ih (hstep s hs)

theorem run_of_queue_eq_nil (hq : s.queue = []) (n : Nat) : run t g n s = s := by
  induction n with
  | zero => rfl
  | succ n ih =>
    have hstep : s.step t g = s := by simp [step, hq]
    rw [run, hstep, ih]

theorem mem_visit_queue {name f : String} {rest : List String} :
    f ∈ (s.visit t g name rest).queue ↔
      f ∈ rest ∨ (f ∈ g.callees name ∧ f ≠ name ∧ f ∉ s.visited) := by
  simp [visit, NameSet.contains]

/-- Sorting any enumeration of the callees not yet visited gives what joins the queue. -/
theorem visit_queue_eq_sort {name : String} {rest pending : List String} (hnodup : pending.Nodup)
    (hmem : ∀ f, f ∈ pending ↔ f ∈ g.callees name ∧ f ≠ name ∧ f ∉ s.visited) :
    (s.visit t g name rest).queue = rest ++ pending.mergeSort (fun a b => decide (a ≤ b)) := by
  have hperm := List.mergeSort_perm pending fun a b => decide (a ≤ b)
  have htrans : ∀ a b c : String, decide (a ≤ b) = true → decide (b ≤ c) = true →
      decide (a ≤ c) = true := by
    simpa using fun a b c => String.le_trans
  have htotal : ∀ a b : String, (decide (a ≤ b) || decide (b ≤ a)) = true := by
    simpa using String.le_total
  have hle : (pending.mergeSort fun a b => decide (a ≤ b)).Pairwise (· ≤ ·) := by
    simpa using List.pairwise_mergeSort htrans htotal pending
  have hlt : (pending.mergeSort fun a b => decide (a ≤ b)).Pairwise (· < ·) :=
    (hle.and (hperm.nodup_iff.mpr hnodup)).imp fun ⟨hab, hne⟩ => lt_of_le_of_ne hab hne
  have hqueued : ((g.callees name).toList.filter fun c => !(s.visited.insert name).contains c) =
      pending.mergeSort fun a b => decide (a ≤ b) := by
    refine NameSet.list_ext ((g.callees name).increasing.filter _) hlt fun f => ?_
    rw [hperm.mem_iff, hmem]
    simp [NameSet.contains]
  rw [← hqueued]
  rfl

theorem mem_visit_visited {name f : String} {rest : List String} :
    f ∈ (s.visit t g name rest).visited ↔ f = name ∨ f ∈ s.visited := by
  simp [visit]

/-- How far a search from `root` has spread: nowhere but where the root reaches, and whatever a
visited function calls has been visited or waits for its turn. -/
structure Spread (g : CallGraph) (root : String) (s : Search) : Prop where
  queued : ∀ f ∈ s.queue, g.Reaches root f
  visited : ∀ f ∈ s.visited, g.Reaches root f
  closed : ∀ f ∈ s.visited, ∀ c ∈ g.callees f, c ∈ s.visited ∨ c ∈ s.queue
  rooted : root ∈ s.visited ∨ root ∈ s.queue

theorem spread_start (g : CallGraph) (root : String) : Spread g root (start root) := by
  refine ⟨?_, ?_, ?_, .inr (by simp [start])⟩
  · intro f hf
    have he : f = root := by simpa [start] using hf
    rw [he]
    exact .refl
  · intro f hf
    simp [start] at hf
  · intro f hf
    simp [start] at hf

theorem Spread.skip {name : String} {rest : List String} (h : Spread g root s)
    (hq : s.queue = name :: rest) (hv : name ∈ s.visited) :
    Spread g root { s with queue := rest } := by
  -- Whoever leaves the queue here is among the visited, so nothing is lost.
  have hkeep : ∀ f, f ∈ s.visited ∨ f ∈ s.queue → f ∈ s.visited ∨ f ∈ rest := by
    intro f hf
    rw [hq] at hf
    rcases hf with hf | hf
    · exact .inl hf
    · rcases List.mem_cons.mp hf with rfl | hf
      · exact .inl hv
      · exact .inr hf
  refine ⟨?_, h.visited, ?_, hkeep root h.rooted⟩
  · intro f hf
    exact h.queued f (by rw [hq]; exact List.mem_cons_of_mem _ hf)
  · intro f hf c hc
    exact hkeep c (h.closed f hf c hc)

theorem Spread.visit {name : String} {rest : List String} (h : Spread g root s)
    (hq : s.queue = name :: rest) : Spread g root (s.visit t g name rest) := by
  have hname : g.Reaches root name := h.queued name (by simp [hq])
  have hkeep : ∀ f, f ∈ s.visited ∨ f ∈ s.queue →
      f ∈ (s.visit t g name rest).visited ∨ f ∈ (s.visit t g name rest).queue := by
    intro f hf
    rw [mem_visit_visited, mem_visit_queue]
    rw [hq, List.mem_cons] at hf
    rcases hf with hf | hf | hf
    · exact .inl (.inr hf)
    · exact .inl (.inl hf)
    · exact .inr (.inl hf)
  refine ⟨?_, ?_, ?_, hkeep root h.rooted⟩
  · intro f hf
    rcases mem_visit_queue.mp hf with hf | ⟨hc, -, -⟩
    · exact h.queued f (by simp [hq, hf])
    · exact hname.tail hc
  · intro f hf
    rcases mem_visit_visited.mp hf with rfl | hf
    · exact hname
    · exact h.visited f hf
  · intro f hf c hc
    rcases mem_visit_visited.mp hf with rfl | hf
    · -- A callee of the function just visited is enqueued unless it was visited before.
      rw [mem_visit_visited, mem_visit_queue]
      by_cases hcv : c = f ∨ c ∈ s.visited
      · exact .inl hcv
      · exact .inr (.inr ⟨hc, fun he => hcv (.inl he), fun hm => hcv (.inr hm)⟩)
    · exact hkeep c (h.closed f hf c hc)

theorem Spread.step (t : SymbolTable) (h : Spread g root s) : Spread g root (s.step t g) := by
  rcases step_cases t g s with ⟨-, he⟩ | ⟨name, rest, hq, hv, he⟩ | ⟨name, rest, hq, -, he⟩
  · rwa [he]
  · rw [he]
    exact h.skip hq hv
  · rw [he]
    exact h.visit hq

theorem spread_run (t : SymbolTable) (g : CallGraph) (root : String) (n : Nat) :
    Spread g root (run t g n (start root)) :=
  run_keeps (fun _ h => h.step t) n (spread_start g root)

/-- Once nobody waits, the visited functions are exactly those that the root reaches. -/
theorem Spread.mem_visited_iff (h : Spread g root s) (hq : s.queue = []) (f : String) :
    f ∈ s.visited ↔ g.Reaches root f := by
  refine ⟨h.visited f, fun hr => ?_⟩
  induction hr with
  | refl => simpa [hq] using h.rooted
  | tail _ hc ih => simpa [hq] using h.closed _ ih _ hc

/-- What a search has added up: each visited function once, at its size, and the sum of the sizes up
to the largest number that a total can be. -/
structure Accounted (t : SymbolTable) (s : Search) : Prop where
  listed : ∀ f, f ∈ s.found.map Part.name ↔ f ∈ s.visited
  once : (s.found.map Part.name).Nodup
  sized : ∀ p ∈ s.found, p.size = t.bytesOf p.name
  summed : s.total.toNat =
    min (UInt64.size - 1) ((s.found.map Part.name).map fun f => (t.bytesOf f).toNat).sum

theorem accounted_start (t : SymbolTable) (root : String) : Accounted t (start root) := by
  refine ⟨?_, ?_, ?_, ?_⟩ <;> simp [start]

theorem Accounted.visit {name : String} {rest : List String} (h : Accounted t s)
    (hv : name ∉ s.visited) : Accounted t (s.visit t g name rest) := by
  refine ⟨?_, ?_, ?_, ?_⟩
  · intro f
    rw [mem_visit_visited, ← h.listed f]
    simp [Search.visit]
  · change (name :: s.found.map Part.name).Nodup
    rw [List.nodup_cons, h.listed name]
    exact ⟨hv, h.once⟩
  · intro p hp
    rcases List.mem_cons.mp hp with rfl | hp
    · rfl
    · exact h.sized p hp
  · change (addSizes s.total (t.bytesOf name)).toNat = _
    rw [toNat_addSizes, h.summed]
    simp only [Search.visit, List.map_cons, List.sum_cons]
    omega

theorem Accounted.step (g : CallGraph) (h : Accounted t s) : Accounted t (s.step t g) := by
  rcases step_cases t g s with ⟨-, he⟩ | ⟨name, rest, -, -, he⟩ | ⟨name, rest, -, hv, he⟩
  · rwa [he]
  · rw [he]
    exact ⟨h.listed, h.once, h.sized, h.summed⟩
  · rw [he]
    exact h.visit hv

theorem accounted_run (t : SymbolTable) (g : CallGraph) (root : String) (n : Nat) :
    Accounted t (run t g n (start root)) :=
  run_keeps (fun _ h => h.step g) n (accounted_start t root)

/-- The root is what a search has found first, unless it has not yet begun. -/
def StartsAt (t : SymbolTable) (root : String) (s : Search) : Prop :=
  s = start root ∨ s.found.getLast? = some ⟨root, t.bytesOf root⟩

theorem StartsAt.step (g : CallGraph) (h : StartsAt t root s) : StartsAt t root (s.step t g) := by
  right
  rcases h with rfl | h
  · simp [Search.step, start, Search.visit, NameSet.contains]
  · rcases step_cases t g s with ⟨-, he⟩ | ⟨name, rest, -, -, he⟩ | ⟨name, rest, -, -, he⟩
    · rwa [he]
    · rwa [he]
    · rw [he]
      simp [Search.visit, List.getLast?_cons, h]

theorem startsAt_run (t : SymbolTable) (g : CallGraph) (root : String) (n : Nat) :
    StartsAt t root (run t g n (start root)) :=
  run_keeps (fun _ h => h.step g) n (.inl rfl)

/-- The work that is left at most: who waits, and every call that may still make somebody wait. -/
def work (g : CallGraph) (s : Search) : Nat := s.queue.length + g.openCalls s.visited

theorem work_start (g : CallGraph) (root : String) : work g (start root) = 1 + g.callTotal := by
  simp [work, start, g.openCalls_empty]

theorem work_step (hq : s.queue ≠ []) : work g (s.step t g) + 1 ≤ work g s := by
  rcases step_cases t g s with ⟨he, -⟩ | ⟨name, rest, hq', -, he⟩ | ⟨name, rest, hq', hv, he⟩
  · exact absurd he hq
  · rw [he]
    simp only [work, hq', List.length_cons]
    omega
  · -- The callees that join the queue are no more than the calls that close.
    have hjoin := List.length_filter_le (fun c => !(s.visited.insert name).contains c)
      (g.callees name).toList
    have hclose := g.openCalls_insert hv
    rw [he]
    simp only [work, Search.visit, hq', List.length_append, List.length_cons]
    simp only [NameSet.size] at hclose
    omega

theorem run_queue_eq_nil (n : Nat) (hn : work g s ≤ n) : (run t g n s).queue = [] := by
  induction n generalizing s with
  | zero =>
    have hlen : s.queue.length = 0 := by
      unfold work at hn
      omega
    exact List.eq_nil_of_length_eq_zero hlen
  | succ n ih =>
    by_cases hq : s.queue = []
    · rw [run_of_queue_eq_nil hq, hq]
    · have hless := work_step (t := t) (g := g) hq
      exact ih (by omega)

/-- A search ends: nobody waits after one step more than there are calls. -/
theorem finish_queue (t : SymbolTable) (g : CallGraph) (root : String) :
    (finish t g root).queue = [] :=
  run_queue_eq_nil _ (Nat.le_of_eq (work_start g root))

end Search

end CodeReach
