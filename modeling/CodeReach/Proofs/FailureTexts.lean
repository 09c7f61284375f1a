import CodeReach.Failure
import CodeReach.Proofs.BreakdownRows

namespace CodeReach.Failure

open Text

/-- The failure with contexts put around it one after another, so that the last is the outermost. -/
def inContexts (contexts : List String) (f : Failure) : Failure :=
  contexts.foldl (fun f context => f.inContext context) f

theorem chain_inContexts (contexts : List String) (f : Failure) :
    (f.inContexts contexts).chain = contexts.reverse ++ f.chain := by
  induction contexts generalizing f with
  | nil => rfl
  | cons context contexts ih =>
    have hstep : f.inContexts (context :: contexts) =
        (f.inContext context).inContexts contexts := rfl
    have hchain : (f.inContext context).chain = context :: f.chain := rfl
    rw [hstep, ih, hchain, List.reverse_cons, List.append_assoc, List.singleton_append]

theorem cause_inContexts (contexts : List String) (f : Failure) :
    (f.inContexts contexts).cause = f.cause := by
  induction contexts generalizing f with
  | nil => rfl
  | cons context contexts ih => exact ih (f.inContext context)

theorem exists_chain_eq_cons (f : Failure) : ∃ text texts, f.chain = text :: texts := by
  refine List.exists_cons_of_ne_nil fun h => ?_
  have hcause : f.cause.texts = [] := (List.append_eq_nil_iff.mp h).2
  cases hc : f.cause <;> simp [hc, Cause.texts] at hcause

/-- The text at place `k` of a chain as it is written: the outermost as the error and each text
below it as a cause, two columns further in than the text around it. -/
def shownAt (k : Nat) (text : String) : String :=
  if k = 0 then "error: " ++ text ++ "\n"
  else String.ofList (List.replicate (2 * k) ' ') ++ "caused by: " ++ text ++ "\n"

theorem join_replicate (k : Nat) :
    String.join (List.replicate k "  ") = String.ofList (List.replicate (2 * k) ' ') := by
  induction k with
  | zero => rfl
  | succ k ih =>
    rw [List.replicate_succ, String.join_cons, ih, ← String.toList_inj, Nat.mul_succ, Nat.add_comm]
    simp [List.replicate_add]

theorem render_causeLines_cons (depth : Nat) (text : String) (texts : List String) :
    (causeLines (depth + 1) (text :: texts)).render false =
      shownAt (depth + 1) text ++ (causeLines (depth + 1 + 1) texts).render false := by
  have hline : StyledText.render false
      [plain (String.join (List.replicate (depth + 1) "  ")), colored .yellow "caused by:",
        plain (" " ++ text ++ "\n")] = shownAt (depth + 1) text := by
    rw [join_replicate, ← String.toList_inj]
    simp [StyledText.render, Span.render, plain, colored, shownAt]
  rw [← hline, ← StyledText.render_append]
  rfl

theorem render_causeLines (depth : Nat) (texts : List String) :
    (causeLines (depth + 1) texts).render false =
      String.join (texts.mapIdx fun k text => shownAt (depth + 1 + k) text) := by
  induction texts generalizing depth with
  | nil => rfl
  | cons text texts ih =>
    have hdepth : ∀ k, depth + 1 + 1 + k = depth + 1 + (k + 1) := by omega
    rw [render_causeLines_cons, ih, List.mapIdx_cons, String.join_cons]
    simp only [hdepth, Nat.add_zero]

theorem render_help (fault : Fault) :
    (help (some fault)).render false = "\nhelp: " ++ fault.advice ++ "\n" := by
  rw [← String.toList_inj]
  simp [help, StyledText.render, Span.render, plain, coloredBold]

/-- The texts in their order, and then the help. -/
theorem render_explain (f : Failure) :
    f.explain.render false =
      String.join (f.chain.mapIdx shownAt) ++ (help f.cause.fault?).render false := by
  obtain ⟨text, texts, hchain⟩ := f.exists_chain_eq_cons
  have hmessage : f.message = text := by rw [message, hchain, List.headD_cons]
  have hfirst : StyledText.render false [coloredBold .red "error:", plain (" " ++ text ++ "\n")] =
      shownAt 0 text := by
    rw [← String.toList_inj]
    simp [StyledText.render, Span.render, plain, coloredBold, shownAt]
  have hexplain : f.explain = [coloredBold .red "error:", plain (" " ++ text ++ "\n")] ++
      (causeLines 1 texts ++ help f.cause.fault?) := by
    rw [explain, hmessage, hchain]
    rfl
  rw [hexplain, StyledText.render_append, StyledText.render_append, hfirst, render_causeLines 0,
    hchain, List.mapIdx_cons, String.join_cons, String.append_assoc]
  simp only [Nat.zero_add, Nat.add_comm 1]

theorem reason?_eq_some_iff {e : Fault} {reason : String} :
    e.reason? = some reason ↔
      (∃ path, e = .unreadableInput path reason) ∨ ∃ context, e = .io context reason := by
  cases e <;> simp [Fault.reason?]

/-- Whatever contexts are put around a fault, the status is that of the fault. The text gives the
contexts from the outside in, then the message of the fault and its reason, which a fault has if it
comes from input or output, each two columns further in, and at the end the advice of the fault.
With a mere message below the contexts the status is 1 and no advice follows. -/
theorem contexts_hide_nothing (contexts : List String) :
    (∀ e : Fault,
      ((ofFault e).inContexts contexts).status = e.status ∧
      ((ofFault e).inContexts contexts).explain.render false =
        String.join ((contexts.reverse ++ e.message :: e.reason?.toList).mapIdx shownAt) ++
          ("\nhelp: " ++ e.advice ++ "\n")) ∧
    (∀ (e : Fault) (reason : String), e.reason? = some reason ↔
      (∃ path, e = .unreadableInput path reason) ∨ ∃ context, e = .io context reason) ∧
    ∀ text : String,
      ((ofMessage text).inContexts contexts).status = 1 ∧
      ((ofMessage text).inContexts contexts).explain.render false =
        String.join ((contexts.reverse ++ [text]).mapIdx shownAt) := by
  refine ⟨fun e => ?_, fun e reason => reason?_eq_some_iff, fun text => ?_⟩
  · constructor
    · rw [status, cause_inContexts]
      rfl
    · rw [render_explain, chain_inContexts, cause_inContexts]
      exact congrArg _ (render_help e)
  · constructor
    · rw [status, cause_inContexts]
      rfl
    · rw [render_explain, chain_inContexts, cause_inContexts]
      exact String.append_empty

/-- Two contexts around a fault with a reason: the reason is the fourth text, six columns in. -/
example :
    (explain ⟨["loading", "reading"], .fault (.io "a.map" "denied")⟩).render false =
      "error: loading\n  caused by: reading\n    caused by: I/O error: a.map\n" ++
        "      caused by: denied\n\n" ++
        "help: Check file permissions and that a.map is accessible\n" := by
  decide +kernel

end CodeReach.Failure
