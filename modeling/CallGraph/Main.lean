import CallGraph.Command.Run

/-!
# The command
-/

namespace CallGraph.Command

/-- What a path leads to. -/
def readContent (path : String) : IO UnitFile.Content := do
  try
    return .bytes (← IO.FS.readBinFile path)
  catch e =>
    match e with
    | .noFileOrDirectory _ _ _ => return .absent
    | .inappropriateType none code details => return .unreadable s!"{details} (os error {code})"
    | e => return .unreadable (toString e)

def runMain (args : List String) : IO UInt32 := do
  let outcome ← match Invocation.ofArgs? args with
    | none => pure misuse
    | some i => i.run <$> readContent i.path
  (← IO.getStdout).putStr outcome.out
  (← IO.getStderr).putStr outcome.err
  return outcome.exit.toUInt32

end CallGraph.Command

def main (args : List String) : IO UInt32 :=
  CallGraph.Command.runMain args
