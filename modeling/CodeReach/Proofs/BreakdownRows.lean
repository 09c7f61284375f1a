import CodeReach.Proofs.ColorSequences
import CodeReach.Proofs.ReachMeasured
import CodeReach.Text.Lines

namespace CodeReach

open Text

namespace Text

theorem StyledText.render_append (colors : Bool) (t u : StyledText) :
    StyledText.render colors (t ++ u) = t.render colors ++ u.render colors := by
  simp [StyledText.render, String.join_append]

end Text

namespace Reach

variable {r : Reach}

end Reach

namespace Report

/-- A name of at most 40 characters with blanks after it, or the first 37 of a longer one and three
dots: 40 characters in each case. -/
structure InColumn (name column : String) : Prop where
  length : column.length = 40
  whole : name.length ≤ 40 → column = name ++ blanks (40 - name.length)
  cut : 40 < name.length → column = String.ofList (name.toList.take 37) ++ "..."

/-- A line that shows a part: its name in a column, and its size, of at least 8 characters. -/
def Shows (line : String) (p : Part) : Prop :=
  ∃ column, line = "      " ++ column ++ " " ++ padLeft 8 (grouped p.size.toNat) ++ " bytes" ∧
    InColumn p.name column

end Report

end CodeReach
