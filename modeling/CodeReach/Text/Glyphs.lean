namespace CodeReach.Text

/-- The marks in front of headings, as pictures or, where the terminal has none, in ASCII. -/
structure Glyphs where
  chart : String
  lens : String
  package : String
  cross : String
deriving DecidableEq

def Glyphs.pictures : Glyphs := ⟨"📊", "🔍", "📦", "❌"⟩

def Glyphs.ascii : Glyphs := ⟨"~", ">>", "*", "[FAIL]"⟩

end CodeReach.Text
