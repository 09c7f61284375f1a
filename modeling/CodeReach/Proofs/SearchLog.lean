import CodeReach.Proofs.BreadthFirst
import CodeReach.Proofs.Mentions
import CodeReach.Proofs.ReachLocality

namespace CodeReach

namespace Search

variable {t : SymbolTable} {g : CallGraph} {root : String} {s : Search} {n : Nat}

/-- Whom the next step visits: the one who has waited longest, unless that one has been visited. -/
def next? (s : Search) : Option String := s.queue.head?.filter fun f => !s.visited.contains f

/-- The calls, as caller and callee, for which the next step lets the callee wait. -/
def newCalls (g : CallGraph) (s : Search) : List (String × String) :=
  s.next?.toList.flatMap fun f =>
    ((g.callees f).toList.filter fun c => !(s.visited.insert f).contains c).map fun c => (f, c)

/-- Whom the first `n` steps of a search visit. -/
def visitLog (t : SymbolTable) (g : CallGraph) (root : String) (n : Nat) : List String :=
  (List.range n).filterMap fun i => (run t g i (start root)).next?

/-- The calls for which the first `n` steps of a search let somebody wait. -/
def callLog (t : SymbolTable) (g : CallGraph) (root : String) (n : Nat) : List (String × String) :=
  (List.range n).flatMap fun i => newCalls g (run t g i (start root))

/-- A step drops the first of the queue, or it visits that one. -/
theorem step_next (t : SymbolTable) (g : CallGraph) (s : Search) :
    (s.next? = none ∧ s.step t g = { s with queue := s.queue.tail }) ∨
    (∃ name rest, s.queue = name :: rest ∧ name ∉ s.visited ∧ s.next? = some name ∧
      s.step t g = s.visit t g name rest) := by
  rcases step_cases t g s with ⟨hq, he⟩ | ⟨name, rest, hq, hv, he⟩ | ⟨name, rest, hq, hv, he⟩
  · left
    refine ⟨by simp [next?, hq], ?_⟩
    rw [he, hq, List.tail_nil, ← hq]
  · left
    exact ⟨by simp [next?, hq, hv], by rw [he, hq, List.tail_cons]⟩
  · right
    exact ⟨name, rest, hq, hv, by simp [next?, hq, hv, NameSet.contains], he⟩

theorem newCalls_of_none (h : s.next? = none) : newCalls g s = [] := by
  simp [newCalls, h]

theorem newCalls_of_some {name : String} (h : s.next? = some name) :
    newCalls g s = ((g.callees name).toList.filter fun c =>
      !(s.visited.insert name).contains c).map fun c => (name, c) := by
  simp [newCalls, h]

theorem mem_newCalls {f c : String} (h : (f, c) ∈ newCalls g s) :
    s.next? = some f ∧ c ∈ g.callees f := by
  cases hnext : s.next? with
  | none => simp [newCalls_of_none hnext] at h
  | some name =>
    rw [newCalls_of_some hnext, List.mem_map] at h
    obtain ⟨c', hc', heq⟩ := h
    cases heq
    exact ⟨rfl, (List.mem_filter.mp hc').1⟩

theorem nodup_newCalls (g : CallGraph) (s : Search) : (newCalls g s).Nodup := by
  cases hnext : s.next? with
  | none => simp [newCalls_of_none hnext]
  | some name =>
    rw [newCalls_of_some hnext]
    refine ((NameSet.nodup_of_increasing (g.callees name).increasing).filter _).map ?_
    intro a b hab
    exact (Prod.mk.inj hab).2

theorem queue_step (t : SymbolTable) (g : CallGraph) (s : Search) :
    (s.step t g).queue = s.queue.tail ++ (newCalls g s).map Prod.snd := by
  rcases step_next t g s with ⟨hnext, he⟩ | ⟨name, rest, hq, -, hnext, he⟩
  · rw [he, newCalls_of_none hnext, List.map_nil, List.append_nil]
  · rw [he, newCalls_of_some hnext, hq]
    simp [visit, Function.comp_def]

theorem names_step (t : SymbolTable) (g : CallGraph) (s : Search) :
    (s.step t g).names = s.names ++ s.next?.toList := by
  rcases step_next t g s with ⟨hnext, he⟩ | ⟨name, rest, -, -, hnext, he⟩
  · rw [he, hnext]
    simp [names]
  · rw [he, hnext, names_visit, Option.toList_some]

theorem mem_visited_step {f : String} :
    f ∈ (s.step t g).visited ↔ f ∈ s.visited ∨ s.next? = some f := by
  rcases step_next t g s with ⟨hnext, he⟩ | ⟨name, rest, -, -, hnext, he⟩
  · simp [he, hnext]
  · rw [he, hnext, mem_visit_visited, Option.some_inj, or_comm, eq_comm]

theorem not_mem_visited_of_next? {f : String} (h : s.next? = some f) : f ∉ s.visited := by
  obtain ⟨-, hnew⟩ := Option.filter_eq_some_iff.mp h
  simpa [NameSet.contains] using hnew

theorem run_succ (t : SymbolTable) (g : CallGraph) (n : Nat) (s : Search) :
    run t g (n + 1) s = (run t g n s).step t g :=
  run_add t g n 1 s

theorem visitLog_succ (t : SymbolTable) (g : CallGraph) (root : String) (n : Nat) :
    visitLog t g root (n + 1) = visitLog t g root n ++ (run t g n (start root)).next?.toList := by
  rw [visitLog, List.range_succ, List.filterMap_append]
  cases hnext : (run t g n (start root)).next? <;> simp [visitLog, hnext]

theorem callLog_succ (t : SymbolTable) (g : CallGraph) (root : String) (n : Nat) :
    callLog t g root (n + 1) = callLog t g root n ++ newCalls g (run t g n (start root)) := by
  simp [callLog, List.range_succ]

/-- The functions found so far are those of the log. -/
theorem names_run (t : SymbolTable) (g : CallGraph) (root : String) (n : Nat) :
    (run t g n (start root)).names = visitLog t g root n := by
  induction n with
  | zero => rfl
  | succ n ih => rw [run_succ, names_step, ih, visitLog_succ]

theorem nodup_visitLog (t : SymbolTable) (g : CallGraph) (root : String) (n : Nat) :
    (visitLog t g root n).Nodup := by
  rw [← names_run, names, List.nodup_reverse]
  exact (accounted_run t g root n).once

/-- A call is logged when its caller is visited. -/
theorem mem_callLog {f c : String} (h : (f, c) ∈ callLog t g root n) :
    f ∈ (run t g n (start root)).visited ∧ c ∈ g.callees f := by
  induction n with
  | zero => cases h
  | succ n ih =>
    rw [callLog_succ, List.mem_append] at h
    rw [run_succ, mem_visited_step]
    rcases h with h | h
    · exact ⟨.inl (ih h).1, (ih h).2⟩
    · exact ⟨.inr (mem_newCalls h).1, (mem_newCalls h).2⟩

theorem nodup_callLog (t : SymbolTable) (g : CallGraph) (root : String) (n : Nat) :
    (callLog t g root n).Nodup := by
  induction n with
  | zero => exact List.nodup_nil
  | succ n ih =>
    rw [callLog_succ]
    refine ih.append (nodup_newCalls g _) ?_
    -- The callers in the log have been visited, and the caller of new calls has not.
    rintro ⟨f, c⟩ hold hnew
    exact not_mem_visited_of_next? (mem_newCalls hnew).1 (mem_callLog hold).1

/-- The queue is what is left of the root and the logged callees after one turn for each step. -/
theorem queue_run (t : SymbolTable) (g : CallGraph) (root : String) (n : Nat) :
    (run t g n (start root)).queue = (root :: (callLog t g root n).map Prod.snd).drop n := by
  induction n with
  | zero => rfl
  | succ n ih =>
    rw [run_succ, queue_step, callLog_succ, List.map_append, ← List.cons_append]
    by_cases hq : (run t g n (start root)).queue = []
    · have hnext : (run t g n (start root)).next? = none := by simp [next?, hq]
      rw [newCalls_of_none hnext, List.map_nil, List.append_nil, List.append_nil, ih,
        List.tail_drop]
    · have hlt : n < (root :: (callLog t g root n).map Prod.snd).length := by
        rwa [ih, List.drop_eq_nil_iff, not_le] at hq
      rw [List.drop_append_of_le_length hlt, ih, List.tail_drop]

theorem queue_run_eq_nil_iff :
    (run t g n (start root)).queue = [] ↔ 1 + (callLog t g root n).length ≤ n := by
  rw [queue_run, List.drop_eq_nil_iff, List.length_cons, List.length_map, Nat.add_comm]

/-- A search ends once, after a turn for the root and one for each call logged by then. -/
theorem exists_end (t : SymbolTable) (g : CallGraph) (root : String) :
    ∃ k ≤ 1 + g.callTotal, k = 1 + (callLog t g root k).length ∧
      ∀ n, (run t g n (start root)).queue = [] ↔ k ≤ n := by
  have hends : ∃ k, (run t g k (start root)).queue = [] := ⟨_, finish_queue t g root⟩
  refine ⟨Nat.find hends, Nat.find_min' hends (finish_queue t g root), ?_, fun n => ?_⟩
  · have hlast := queue_run_eq_nil_iff.mp (Nat.find_spec hends)
    -- One step before the end somebody still waits, and the last step only adds to the log.
    obtain ⟨k, hk⟩ : ∃ k, Nat.find hends = k + 1 := Nat.exists_eq_add_of_le' (by omega)
    have hbefore := queue_run_eq_nil_iff.not.mp (Nat.find_min hends (m := k) (by omega))
    rw [hk, callLog_succ, List.length_append] at hlast ⊢
    omega
  · refine ⟨Nat.find_min' hends, fun hle => ?_⟩
    obtain ⟨m, rfl⟩ := Nat.exists_eq_add_of_le hle
    rw [run_add, run_of_queue_eq_nil (Nat.find_spec hends)]
    exact Nat.find_spec hends

/-- Every search ends, after no more turns than there are calls and one for the root. It visits
nobody twice and lets nobody wait twice for one call, although one function may wait for several
callers. All along, only functions that the root reaches wait or have been visited, and whoever a
visited function calls waits or has been visited. -/
theorem search_ends_within_calls (t : SymbolTable) (g : CallGraph) (root : String) :
    (∃ k ≤ 1 + g.callTotal,
      (∀ n, (run t g n (start root)).queue = [] ↔ k ≤ n) ∧
      k = 1 + (callLog t g root k).length ∧ finish t g root = run t g k (start root)) ∧
    ∀ n,
      (visitLog t g root n).Nodup ∧ (run t g n (start root)).names = visitLog t g root n ∧
      (callLog t g root n).Nodup ∧ (∀ e ∈ callLog t g root n, e ∈ g.edges) ∧
      (run t g n (start root)).queue = (root :: (callLog t g root n).map Prod.snd).drop n ∧
      (∀ f ∈ (run t g n (start root)).queue, g.Reaches root f) ∧
      (∀ f ∈ (run t g n (start root)).visited, g.Reaches root f) ∧
      ∀ f ∈ (run t g n (start root)).visited, ∀ c ∈ g.callees f,
        c ∈ (run t g n (start root)).visited ∨ c ∈ (run t g n (start root)).queue := by
  refine ⟨?_, fun n => ?_⟩
  · obtain ⟨k, hle, hcount, hend⟩ := exists_end t g root
    refine ⟨k, hle, hend, hcount, ?_⟩
    obtain ⟨m, hm⟩ := Nat.exists_eq_add_of_le hle
    rw [finish, hm, run_add]
    exact run_of_queue_eq_nil ((hend k).mpr le_rfl) m
  · have hspread := spread_run t g root n
    refine ⟨nodup_visitLog t g root n, names_run t g root n, nodup_callLog t g root n, ?_,
      queue_run t g root n, hspread.queued, hspread.visited, hspread.closed⟩
    rintro ⟨f, c⟩ h
    exact CallGraph.mem_edges.mpr (mem_callLog h).2

/-- Both `a` and `b` let `z` wait, so `z` has two turns and is visited at the first one; its call
back to `m` lets nobody wait. Of the six turns that five calls allow, five are taken. -/
theorem shared_callee_has_two_turns :
    ∃ g, g = ((((CallGraph.empty.addCall "m" "a").addCall "m" "b").addCall "a" "z").addCall "b"
        "z").addCall "z" "m" ∧
      g.callTotal = 5 ∧ (run .empty g 3 (start "m")).queue = ["z", "z"] ∧
      visitLog .empty g "m" 5 = ["m", "a", "b", "z"] ∧
      callLog .empty g "m" 5 = [("m", "a"), ("m", "b"), ("a", "z"), ("b", "z")] ∧
      (∀ n, (run .empty g n (start "m")).queue = [] ↔ 5 ≤ n) ∧ g.Reaches "m" "z" := by
  refine ⟨_, rfl, by decide, by decide, by decide, by decide, ?_⟩
  obtain ⟨⟨k, -, hend, -, -⟩, hturns⟩ := search_ends_within_calls .empty
    (((((CallGraph.empty.addCall "m" "a").addCall "m" "b").addCall "a" "z").addCall "b"
      "z").addCall "z" "m") "m"
  obtain ⟨-, -, -, -, -, hqueued, -, -⟩ := hturns 3
  have hle : k ≤ 5 := (hend 5).mp (by decide)
  have hlt : ¬ k ≤ 4 := (hend 4).not.mp (by decide)
  have hk : k = 5 := by omega
  rw [hk] at hend
  exact ⟨hend, hqueued "z" (by decide)⟩

end Search

end CodeReach
