import CodeReach.Proofs.ListingEdges

namespace CodeReach.Listing

open Text

/-- The block line nearest above line `i` opens a block of `f`. -/
def OpenAbove (lines : List (List Char)) (i : Nat) (f : String) : Prop :=
  ∃ h, h < i ∧ OpensAt lines h f ∧ ∀ k, h < k → k < i → ∀ f', ¬ OpensAt lines k f'

variable {s : MnemonicSet} {ls : List (List Char)} {noise : List Char} {i j : Nat} {f c : String}

theorem opensAt_set (hb : blockName? noise = none) :
    OpensAt (ls.set i noise) j f ↔ j ≠ i ∧ OpensAt ls j f :=
  markedAt_set (by simp [hb])

theorem callsAt_set (hc : s.callee? noise = none) :
    CallsAt s (ls.set i noise) j c ↔ j ≠ i ∧ CallsAt s ls j c :=
  markedAt_set hc

/-- A call that was there survives unless the damage struck it or its block line. -/
theorem shows_set_of_inBlock {h : Nat} (hb : blockName? noise = none) (hc : s.callee? noise = none)
    (hblock : InBlock ls h j f) (hcall : CallsAt s ls j c) (hh : h ≠ i) (hj : j ≠ i) :
    Shows s (ls.set i noise) f c := by
  obtain ⟨hopen, hlt, hno⟩ := hblock
  refine ⟨h, j, ⟨(opensAt_set hb).mpr ⟨hh, hopen⟩, hlt, fun k hhk hkj f' hk => ?_⟩,
    (callsAt_set hc).mpr ⟨hj, hcall⟩⟩
  exact hno k hhk hkj f' ((opensAt_set hb).mp hk).2

/-- A block that has lost its block line joins the block above. -/
theorem shows_set_of_openAbove {n : String} (hb : blockName? noise = none)
    (hc : s.callee? noise = none) (habove : OpenAbove ls i f) (hblock : InBlock ls i j n)
    (hcall : CallsAt s ls j c) : Shows s (ls.set i noise) f c := by
  obtain ⟨h, hhi, hopen, hno⟩ := habove
  obtain ⟨-, hij, hno'⟩ := hblock
  refine ⟨h, j, ⟨(opensAt_set hb).mpr ⟨by omega, hopen⟩, by omega, fun k hhk hkj f' hk => ?_⟩,
    (callsAt_set hc).mpr ⟨by omega, hcall⟩⟩
  obtain ⟨hki, hk⟩ := (opensAt_set hb).mp hk
  rcases Nat.lt_or_gt_of_ne hki with hki | hki
  · exact hno k hhk hki f' hk
  · exact hno' k hki hkj f' hk

/-- There are no other calls in a damaged listing than those. -/
theorem shows_set (hb : blockName? noise = none) (hc : s.callee? noise = none) :
    Shows s (ls.set i noise) f c ↔
      (∃ h j, InBlock ls h j f ∧ CallsAt s ls j c ∧ h ≠ i ∧ j ≠ i) ∨
      (∃ n j, OpenAbove ls i f ∧ InBlock ls i j n ∧ CallsAt s ls j c) := by
  constructor
  · intro hshows
    obtain ⟨h, j, ⟨hopen, hhj, hno⟩, hcall⟩ := hshows
    obtain ⟨hhi, hopen⟩ := (opensAt_set hb).mp hopen
    obtain ⟨hji, hcall⟩ := (callsAt_set hc).mp hcall
    have hother : ∀ k, h < k → k ≤ j → k ≠ i → ∀ f', ¬ OpensAt ls k f' :=
      fun k hhk hkj hki f' hk => hno k hhk hkj f' ((opensAt_set hb).mpr ⟨hki, hk⟩)
    -- Was the damaged line a block line between the call and the block it counts to now?
    by_cases hheader : h < i ∧ i < j ∧ ∃ n, OpensAt ls i n
    · obtain ⟨hhi, hij, n, hn⟩ := hheader
      right
      refine ⟨n, j, ⟨h, hhi, hopen, ?_⟩, ⟨hn, hij, ?_⟩, hcall⟩
      · intro k hhk hki
        exact hother k hhk (by omega) (by omega)
      · intro k hik hkj
        exact hother k (by omega) hkj (by omega)
    · left
      refine ⟨h, j, ⟨hopen, hhj, fun k hhk hkj f' hk => ?_⟩, hcall, hhi, hji⟩
      by_cases hki : k = i
      · subst hki
        exact hheader ⟨hhk, by omega, f', hk⟩
      · exact hother k hhk hkj hki f' hk
  · intro hcases
    rcases hcases with ⟨h, j, hblock, hcall, hh, hj⟩ | ⟨n, j, habove, hblock, hcall⟩
    · exact shows_set_of_inBlock hb hc hblock hcall hh hj
    · exact shows_set_of_openAbove hb hc habove hblock hcall

/-- Two listings differ in one line, which in the second one neither opens a block nor calls. Every
call of the second is then a call of the first if and only if each call in the block that the line
opened, if it opened one, is also a call of the function of the block above, if there is one. -/
theorem damaged_line_adds_no_call_iff {before after : String}
    (hset : lines after.toList = (lines before.toList).set i noise)
    (hb : blockName? noise = none) (hc : s.callee? noise = none) :
    (∀ f c, c ∈ (callGraph s after).callees f → c ∈ (callGraph s before).callees f) ↔
      ∀ n f j c, InBlock (lines before.toList) i j n → CallsAt s (lines before.toList) j c →
        OpenAbove (lines before.toList) i f → c ∈ (callGraph s before).callees f := by
  simp only [mem_callees_callGraph, hset]
  constructor
  · intro h n f j c hblock hcall habove
    exact h f c (shows_set_of_openAbove hb hc habove hblock hcall)
  · intro h f c hshows
    rcases (shows_set hb hc).mp hshows with ⟨g, j, hblock, hcall, -⟩ | ⟨n, j, habove, hblock, hcall⟩
    · exact ⟨g, j, hblock, hcall⟩
    · exact h n f j c hblock hcall habove

/-- A call line that is damaged only loses its call. -/
theorem damaged_call_line_adds_no_call :
    lines "00000010 <main>:\n 12: bl 40 <in\uFFFDt>\n 16: bl 60 <run>\n".toList =
      (lines "00000010 <main>:\n 12: bl 40 <init>\n 16: bl 60 <run>\n".toList).set 1
        " 12: bl 40 <in\uFFFDt>".toList ∧
    blockName? " 12: bl 40 <in\uFFFDt>".toList = none ∧
    MnemonicSet.standard.callee? " 12: bl 40 <in\uFFFDt>".toList = none ∧
    ∀ f c,
      c ∈ (callGraph .standard
        "00000010 <main>:\n 12: bl 40 <in\uFFFDt>\n 16: bl 60 <run>\n").callees f →
      c ∈ (callGraph .standard
        "00000010 <main>:\n 12: bl 40 <init>\n 16: bl 60 <run>\n").callees f := by
  have hset : lines "00000010 <main>:\n 12: bl 40 <in\uFFFDt>\n 16: bl 60 <run>\n".toList =
      (lines "00000010 <main>:\n 12: bl 40 <init>\n 16: bl 60 <run>\n".toList).set 1
        " 12: bl 40 <in\uFFFDt>".toList := by decide +kernel
  have hb : blockName? " 12: bl 40 <in\uFFFDt>".toList = none := by decide
  have hc : MnemonicSet.standard.callee? " 12: bl 40 <in\uFFFDt>".toList = none := by
    decide +kernel
  refine ⟨hset, hb, hc, (damaged_line_adds_no_call_iff hset hb hc).mpr ?_⟩
  intro n f j c hblock
  obtain ⟨hopen, -⟩ := hblock
  cases hopen

/-- A block line that is damaged gives the calls of its block away: here `main` comes to call
`init`, which only `run` called. -/
theorem damaged_block_line_adds_call :
    lines "00000010 <main>:\n00000020 <r\uFFFDn>:\n 22: bl 40 <init>\n".toList =
      (lines "00000010 <main>:\n00000020 <run>:\n 22: bl 40 <init>\n".toList).set 1
        "00000020 <r\uFFFDn>:".toList ∧
    blockName? "00000020 <r\uFFFDn>:".toList = none ∧
    MnemonicSet.standard.callee? "00000020 <r\uFFFDn>:".toList = none ∧
    ¬ ∀ f c,
      c ∈ (callGraph .standard
        "00000010 <main>:\n00000020 <r\uFFFDn>:\n 22: bl 40 <init>\n").callees f →
      c ∈ (callGraph .standard
        "00000010 <main>:\n00000020 <run>:\n 22: bl 40 <init>\n").callees f := by
  refine ⟨by decide +kernel, by decide +kernel, by decide +kernel, fun h => ?_⟩
  exact absurd (h "main" "init" (by decide +kernel)) (by decide +kernel)

end CodeReach.Listing
