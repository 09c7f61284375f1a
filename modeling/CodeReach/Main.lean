import CodeReach.Program

namespace CodeReach

/-- An operating system's error, as its text and its number. -/
def systemReason (code : UInt32) (details : String) : String :=
  let number := if code.toInt32 < 0 then (-code.toInt32).toInt.toNat else code.toNat
  details.capitalize ++ " (os error " ++ toString number ++ ")"

def nodeOfError : IO.Error → Option FileNode
  | .noFileOrDirectory _ _ _ => none
  | .inappropriateType _ code details =>
    if code = 21 then some (.directory (systemReason code details)) else none
  | .permissionDenied _ code details => some (.unreadable (systemReason code details))
  | e => some (.unreadable (toString e))

def readNode (path : String) : IO (Option FileNode) := do
  try
    return some (.file (← IO.FS.readBinFile path))
  catch e =>
    return nodeOfError e

/-- The files at some paths, read once. -/
def readFiles (paths : List String) : IO Files := do
  let nodes ← paths.mapM fun path => do return (path, ← readNode path)
  return fun path => (nodes.lookup path).join

def display : IO Display := do
  return .ofEnvironment (← (← IO.getStdout).isTty) (← IO.getEnv "CLICOLOR_FORCE")
    (← IO.getEnv "CLICOLOR") (← IO.getEnv "LANG")

def runWith (args : List String) : IO UInt32 := do
  let transcript := Program.run (← display) (← readFiles (Program.paths args)) args
  IO.print transcript.out
  IO.eprint transcript.err
  return transcript.code.toUInt32

end CodeReach

def main (args : List String) : IO UInt32 := CodeReach.runWith args
