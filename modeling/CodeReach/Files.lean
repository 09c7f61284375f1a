import CodeReach.Fault
import CodeReach.Text.Utf8

namespace CodeReach

/-- A reason is the text of the error that reading gives. -/
inductive FileNode where
  | file (bytes : ByteArray)
  | unreadable (reason : String)
  | directory (reason : String)

/-- What stands at each path. -/
abbrev Files := String → Option FileNode

namespace Files

def isFile (files : Files) (path : String) : Bool :=
  match files path with
  | some (.file _) => true
  | some (.unreadable _) => true
  | _ => false

inductive ReadError where
  | notFound
  | failed (reason : String)
deriving DecidableEq

def readBytes (files : Files) (path : String) : Except ReadError ByteArray :=
  match files path with
  | none => .error .notFound
  | some (.file bytes) => .ok bytes
  | some (.unreadable reason) => .error (.failed reason)
  | some (.directory reason) => .error (.failed reason)

/-- A settings file has to be UTF-8. -/
def readText (files : Files) (path : String) : Except ReadError String :=
  match files.readBytes path with
  | .error e => .error e
  | .ok bytes =>
    match String.fromUTF8? bytes with
    | some text => .ok text
    | none => .error (.failed "stream did not contain valid UTF-8")

def ReadError.reason : ReadError → String
  | notFound => "file not found"
  | failed reason => reason

/-- An input file is read as text whatever its bytes are. -/
def readInput (files : Files) (path : String) : Except Fault String :=
  if files.isFile path then
    match files.readBytes path with
    | .ok bytes => .ok (Text.Utf8.decode bytes)
    | .error e => .error (.unreadableInput path e.reason)
  else .error (.unreadableInput path "not a file")

end Files

end CodeReach
