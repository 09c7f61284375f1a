namespace CodeReach.Text

inductive Color where
  | red
  | green
  | yellow
  | cyan
deriving DecidableEq

inductive Weight where
  | bold
  | dim
deriving DecidableEq

structure Style where
  color : Option Color
  weight : Option Weight
deriving DecidableEq

def Style.plain : Style := ⟨none, none⟩

structure Span where
  style : Style
  text : String
deriving DecidableEq

abbrev StyledText := List Span

def plain (s : String) : Span := ⟨.plain, s⟩

def bold (s : String) : Span := ⟨⟨none, some .bold⟩, s⟩

def dim (s : String) : Span := ⟨⟨none, some .dim⟩, s⟩

def colored (c : Color) (s : String) : Span := ⟨⟨some c, none⟩, s⟩

def coloredBold (c : Color) (s : String) : Span := ⟨⟨some c, some .bold⟩, s⟩

/-- The parameter of the escape sequence that selects a colour. -/
def Color.code : Color → String
  | .red => "31"
  | .green => "32"
  | .yellow => "33"
  | .cyan => "36"

def Weight.code : Weight → String
  | .bold => "1"
  | .dim => "2"

def escape (code : String) : String := "\x1b[" ++ code ++ "m"

def Style.opening (s : Style) : String :=
  (s.color.map (escape ·.code)).getD "" ++ (s.weight.map (escape ·.code)).getD ""

def Style.closing (s : Style) : String := if s = .plain then "" else escape "0"

/-- A styled piece is its colour, its weight, the text and a reset; without colours only the text is
left. -/
def Span.render (colors : Bool) (s : Span) : String :=
  if colors then s.style.opening ++ s.text ++ s.style.closing else s.text

def StyledText.render (colors : Bool) (t : StyledText) : String :=
  String.join (t.map (Span.render colors))

end CodeReach.Text
