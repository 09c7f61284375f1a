import CodeReach.Fault
import CodeReach.Names.Set
import CodeReach.Text.Blank

namespace CodeReach

/-- Mnemonic sets that have a name. -/
inductive Preset where
  | linked
  | tailCalls
deriving DecidableEq

namespace Preset

def standard : Preset := linked

def name : Preset → String
  | linked => "linked"
  | tailCalls => "tail-calls"

def ofName? (s : String) : Option Preset :=
  if s = linked.name then some linked else if s = tailCalls.name then some tailCalls else none

/-- Instructions that come back, and for tail calls also the plain branches. -/
def mnemonics : Preset → List String
  | linked => ["call", "callq", "bl", "blx"]
  | tailCalls => ["call", "callq", "bl", "blx", "b", "b.w"]

end Preset

/-- A single token that cannot be mistaken for a bracketed name. -/
def isToken (cs : List Char) : Bool :=
  !cs.isEmpty && cs.all fun c => !Text.isBlank c && c != '<' && c != '>'

/-- The mnemonic that a text gives once the blanks around it are dropped. -/
def token? (text : String) : Option String :=
  if isToken (Text.trim text.toList) then some (String.ofList (Text.trim text.toList)) else none

/-- The tokens of a list, or the first text that gives none, as it was given. -/
def tokens : List String → Except Fault (List String)
  | [] => .ok []
  | text :: rest =>
    match token? text with
    | none => .error (.badMnemonic text)
    | some t => (tokens rest).map (t :: ·)

/-- The instructions that count as calls. -/
structure MnemonicSet where
  names : NameSet
deriving DecidableEq

namespace MnemonicSet

def ofPreset (p : Preset) : MnemonicSet := ⟨.ofList p.mnemonics⟩

def standard : MnemonicSet := ofPreset .standard

/-- There is no bound on a set. One that makes a pattern engine's expression for its mnemonics too
large stops a program that searches with such an engine; that is left out here. -/
def ofTexts (texts : List String) : Except Fault MnemonicSet :=
  (tokens texts).map fun ts => ⟨.ofList ts⟩

def extend (s : MnemonicSet) (texts : List String) : Except Fault MnemonicSet :=
  (tokens texts).map fun ts => ⟨s.names.insertAll ts⟩

end MnemonicSet

end CodeReach
