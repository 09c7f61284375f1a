import CodeReach.Fault
import CodeReach.Text.Style

namespace CodeReach

open Text

inductive Cause where
  | fault (f : Fault)
  | message (text : String)
deriving DecidableEq

/-- A cause below any number of contexts, which stand from the outside in. A context says what was
being done; it never hides the help or the exit status of the cause. -/
structure Failure where
  contexts : List String
  cause : Cause
deriving DecidableEq

def Cause.texts : Cause → List String
  | fault f => f.message :: f.reason?.toList
  | message text => [text]

def Cause.fault? : Cause → Option Fault
  | fault f => some f
  | message _ => none

namespace Failure

def ofFault (f : Fault) : Failure := ⟨[], .fault f⟩

def ofMessage (text : String) : Failure := ⟨[], .message text⟩

/-- Adds a context outside all others. -/
def inContext (context : String) (f : Failure) : Failure := ⟨context :: f.contexts, f.cause⟩

/-- All texts from the outside in. -/
def chain (f : Failure) : List String := f.contexts ++ f.cause.texts

def message (f : Failure) : String := f.chain.headD ""

def status (f : Failure) : UInt8 := (f.cause.fault?.map Fault.status).getD 1

/-- One line per text below the outermost, each two columns further in. -/
def causeLines (depth : Nat) : List String → StyledText
  | [] => []
  | text :: rest =>
    plain (String.join (List.replicate depth "  ")) :: colored .yellow "caused by:" ::
      plain (" " ++ text ++ "\n") :: causeLines (depth + 1) rest

def help : Option Fault → StyledText
  | none => []
  | some f => [plain "\n", coloredBold .cyan "help:", plain (" " ++ f.advice ++ "\n")]

def explain (f : Failure) : StyledText :=
  coloredBold .red "error:" :: plain (" " ++ f.message ++ "\n") ::
    (causeLines 1 f.chain.tail ++ help f.cause.fault?)

end Failure

end CodeReach
