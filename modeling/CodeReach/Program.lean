import CodeReach.Analysis
import CodeReach.Command.Arguments
import CodeReach.Report.Console
import CodeReach.Report.Document
import CodeReach.Settings

namespace CodeReach

open Text Command

/-- How the terminal shows things. -/
structure Display where
  colors : Bool
  glyphs : Glyphs

/-- Colours are on where they are forced, or on a terminal that does not refuse them; pictures are
shown where the language's encoding is UTF-8. -/
def Display.ofEnvironment (isTerminal : Bool) (force refuse language : Option String) : Display where
  colors := (force.any (· != "0")) || (isTerminal && refuse != some "0")
  glyphs := if (language.any (·.toUpper.endsWith "UTF-8")) then .pictures else .ascii

/-- The texts that the readers of arguments and of settings bring with them: the help and what is
said of misuse, for the arguments given, a completion script for each shell, and what is said of a
settings file that holds no settings. -/
structure Wording where
  help : List String → String
  misuse : List String → Misuse → String
  script : Shell → String
  malformed : Files → String

structure Transcript where
  out : String
  err : String
  code : UInt8
deriving DecidableEq

namespace Program

def title : String := "fn-footprint"

def version : String := "0.1.0"

def usage : String :=
  title ++ " v" ++ version ++ "\n" ++
  "Reachable code-size calculator\n\n" ++
  "Usage: fn-footprint <COMMAND>\n\n" ++
  "Commands:\n" ++
  "  analyze      Compute own and total size of one or more functions\n" ++
  "  completions  Generate shell completions\n" ++
  "\nRun 'fn-footprint <COMMAND> --help' for more information on a command.\n"

def heading (g : Glyphs) (r : Request) (s : MnemonicSet) : StyledText :=
  [plain (g.lens ++ " "), bold title, plain " Code Footprint Analysis\n",
    plain ("   Map:         " ++ r.mapFile ++ "\n"),
    plain ("   Disassembly: " ++ r.listingFile ++ "\n"),
    plain ("   Calls:       " ++ ", ".intercalate s.names.toList ++ "\n\n")]

def summary (g : Glyphs) (a : Analysis) : StyledText :=
  [plain (g.chart ++ " Parsed "), colored .cyan (toString a.symbols.size),
    plain " sized functions, ", colored .cyan (toString a.graph.callTotal),
    plain " call edges\n\n"]

def unresolved (outcomes : List Outcome) : List String :=
  (outcomes.filter fun o => !o.result.isOk).map Outcome.root

/-- What a run says, and the failure that ends it, if any. -/
structure Run where
  out : StyledText
  failure : Option Failure

def Run.failed (out : StyledText) (f : Failure) : Run := ⟨out, some f⟩

def body (g : Glyphs) (r : Request) (limit : Option Nat) (outcomes : List Outcome) : StyledText :=
  if r.json then [plain ((Report.Document.ofOutcomes outcomes).toJson.toPretty ++ "\n")]
  else Report.console g limit outcomes

def measure (g : Glyphs) (r : Request) (limit : Option Nat) (out : StyledText) (a : Analysis) : Run :=
  let outcomes := a.outcomes r.roots
  let out := out ++ (if r.json then [] else summary g a) ++ body g r limit outcomes
  match unresolved outcomes with
  | [] => ⟨out, none⟩
  | names => .failed out (.ofFault (.unresolvedNames names))

/-- The settings come first, then the mnemonics, then the map and the listing; the heading is out
before the files are read. -/
def analyze (w : Wording) (g : Glyphs) (files : Files) (r : Request) : Run :=
  match Settings.read files with
  | .error e => .failed [] (e.failure (w.malformed files))
  | .ok settings =>
    match settings.chooseMnemonics r.mnemonics r.tailCalls with
    | .error f => .failed [] (.ofFault f)
    | .ok mnemonics =>
      let out := if r.json then [] else heading g r mnemonics
      match Analysis.read files mnemonics r.mapFile r.listingFile with
      | .error f => .failed out (.ofFault f)
      | .ok a => measure g r (r.limit <|> settings.limit) out a

def Run.transcript (colors : Bool) (r : Run) : Transcript :=
  { out := r.out.render colors
    err := (r.failure.map fun f => f.explain.render colors ++ "\n").getD ""
    code := (r.failure.map Failure.status).getD 0 }

def levelTitle : Level → String
  | .top => title
  | .analyze => title ++ "-analyze"
  | .completions => title ++ "-completions"

def misuseText : Misuse → String
  | .missingArgument => "a required argument is missing"
  | .unknownArgument => "unexpected argument"
  | .unknownCommand => "unrecognized command"
  | .badValue => "invalid or missing value"
  | .notANumber => "the limit is no number"
  | .repeated => "an argument is given twice"
  | .unwantedValue => "a switch takes no value"

/-- Short words for a program that brings no readers with words of their own. -/
def briefWording : Wording where
  help _ := usage
  misuse _ m := "error: " ++ misuseText m ++ "\n"
  script _ := "analyze\ncompletions\nhelp\n"
  malformed _ := "no settings"

def halt (w : Wording) (args : List String) : Halt → Transcript
  | .help => ⟨w.help args, "", 0⟩
  | .version level => ⟨levelTitle level ++ " " ++ version ++ "\n", "", 0⟩
  | .misuse m => ⟨"", w.misuse args m, 2⟩

/-- The paths that a command line makes the program look at. -/
def paths (args : List String) : List String :=
  match Invocation.parse args with
  | .ok ⟨_, some (.analyze r)⟩ => [Settings.path, r.mapFile, r.listingFile]
  | _ => []

def run (d : Display) (files : Files) (args : List String) (w : Wording := briefWording) :
    Transcript :=
  match Invocation.parse args with
  | .error h => halt w args h
  | .ok i =>
    match i.action with
    | none => ⟨usage, "", 0⟩
    | some (.completions s) => ⟨w.script s, "", 0⟩
    | some (.analyze r) => (analyze w d.glyphs files r).transcript d.colors

end Program

end CodeReach
