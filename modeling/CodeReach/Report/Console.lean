import CodeReach.Reach
import CodeReach.Text.ByteSize
import CodeReach.Text.Column
import CodeReach.Text.Glyphs
import CodeReach.Text.Grouped
import CodeReach.Text.Style

namespace CodeReach.Report

open Text

def nameWidth : Nat := 40

def sizeWidth : Nat := 8

def totalWidth : Nat := 10

def row (p : Part) : StyledText :=
  let size := padLeft sizeWidth (grouped p.size.toNat)
  [plain ("      " ++ padRight nameWidth (cut nameWidth p.name) ++ " "),
    if p.size = 0 then dim size else colored .cyan size,
    plain " bytes\n"]

/-- The sum of the sizes in 64 bits; beyond them it starts again at zero. -/
def sumOfSizes (parts : List Part) : UInt64 := parts.foldl (fun n p => n + p.size) 0

/-- The line for the parts beyond the limit. -/
def remainder (rest : List Part) : StyledText :=
  if rest.isEmpty then []
  else
    [plain "      ", dim "...",
      plain (" " ++ toString rest.length ++ " more functions (" ++
        grouped (sumOfSizes rest).toNat ++ " bytes)\n")]

/-- How many of `count` rows a limit leaves. -/
def shown (limit : Option Nat) (count : Nat) : Nat := min (limit.getD count) count

def sizes (r : Reach) : StyledText :=
  [plain ("   Own size:   " ++ padLeft totalWidth (grouped r.own.toNat) ++ " bytes\n"),
    plain "   Total size: ",
    coloredBold .green (padLeft totalWidth (grouped r.total.toNat)),
    plain (" bytes (" ++ byteSize r.total.toNat ++ ", " ++ toString r.count ++
      " functions)\n\n")]

/-- The rows that the limit leaves, and one line for the rest. -/
def breakdown (limit : Option Nat) (parts : List Part) : StyledText :=
  (parts.take (shown limit parts.length)).flatMap row ++
    remainder (parts.drop (shown limit parts.length))

def reached (g : Glyphs) (limit : Option Nat) (r : Reach) : StyledText :=
  sizes r ++
    [plain ("   " ++ g.package ++ " "), bold "Breakdown (including dependencies):", plain "\n"] ++
    breakdown limit r.sortedParts ++ [plain "\n"]

def refused (g : Glyphs) (f : Fault) : StyledText :=
  [plain ("   " ++ g.cross ++ " "), colored .red f.message, plain "\n"]

def outcome (g : Glyphs) (limit : Option Nat) (o : Outcome) : StyledText :=
  [plain (g.lens ++ " "), bold "Function:", plain " ", coloredBold .cyan o.root, plain "\n"] ++
    match o.result with
    | .ok r => reached g limit r
    | .error f => refused g f

def rule : StyledText := [dim (String.ofList (List.replicate 60 '─')), plain "\n"]

/-- The outcomes with a rule between each two. -/
def console (g : Glyphs) (limit : Option Nat) : List Outcome → StyledText
  | [] => []
  | [o] => outcome g limit o
  | o :: rest => outcome g limit o ++ rule ++ console g limit rest

end CodeReach.Report
