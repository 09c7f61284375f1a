namespace CodeReach

/-- What can go wrong in an analysis. A reason is the text of the input or output error below. -/
inductive Fault where
  | unreadableInput (path reason : String)
  | unknownFunction (name : String)
  | unresolvedNames (names : List String)
  | badMnemonic (text : String)
  | io (context reason : String)
deriving DecidableEq

namespace Fault

def message : Fault → String
  | unreadableInput path _ => "Input file not found or unreadable: " ++ path
  | unknownFunction name => "Function '" ++ name ++ "' not found in map or disassembly"
  | unresolvedNames names =>
    toString names.length ++ " root function(s) could not be resolved: " ++ ", ".intercalate names
  | badMnemonic text => "Invalid call mnemonic: '" ++ text ++ "'"
  | io context _ => "I/O error: " ++ context

def advice : Fault → String
  | unreadableInput path _ =>
    "Check that " ++ path ++ " exists and is readable. " ++
      "Generate the map with -Wl,-Map and the listing with objdump -d"
  | unknownFunction name =>
    "Check the spelling of '" ++ name ++ "' and that it was built with -ffunction-sections"
  | unresolvedNames _ => "Unresolved roots are listed above; the remaining roots were still analyzed"
  | badMnemonic _ =>
    "Mnemonics must be single non-empty tokens, e.g. --mnemonic bl --mnemonic blx"
  | io context _ => "Check file permissions and that " ++ context ++ " is accessible"

/-- The statuses are those of the usual table: usage, data, missing input, input and output. -/
def status : Fault → UInt8
  | badMnemonic _ => 64
  | unknownFunction _ => 65
  | unresolvedNames _ => 65
  | unreadableInput _ _ => 66
  | io _ _ => 74

def reason? : Fault → Option String
  | unreadableInput _ reason => some reason
  | io _ reason => some reason
  | _ => none

end Fault

end CodeReach
