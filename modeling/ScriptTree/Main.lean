import ScriptTree.Command.Run

/-! The program: it gathers the world that a command line needs, runs it and reports. -/
namespace ScriptTree.Main

open ScriptTree.Command

def failureOf : IO.Error → ReadFailure
  | .noFileOrDirectory _ _ _ => .missing
  | .inappropriateType _ 20 _ => .notDirectory
  | .inappropriateType _ 21 _ => .isDirectory
  | .invalidArgument _ 36 _ => .nameTooLong
  | e => .other (toString e)

def readFile (path : String) : IO (Except ReadFailure ByteArray) := do
  try
    return .ok (← IO.FS.readBinFile path)
  catch e =>
    return .error (failureOf e)

partial def readAll (input : IO.FS.Stream) (read : ByteArray) : IO ByteArray := do
  let chunk ← input.read 65536
  if chunk.isEmpty then return read
  readAll input (read ++ chunk)

/-- Reads what a request will look at, before it is run. -/
def gather (configVariable : Option String) (words : List String) : IO World := do
  let (config, inputs) := match readArguments? configVariable words with
    | some (.run flags action) => (flags.config.toList, action.inputs)
    | _ => ([], [])
  let standardInput ←
    if inputs.any isStandardInput then readAll (← IO.getStdin) .empty else pure .empty
  let files ← (config ++ inputs.filter (!isStandardInput ·)).mapM fun path =>
    return (path, ← readFile path)
  return {
    standardInput, configVariable
    file := fun path => (files.lookup path).getD (.error .missing) }

end ScriptTree.Main

def main (words : List String) : IO UInt32 := do
  let w ← ScriptTree.Main.gather (← IO.getEnv "SPARSE_CONFIG") words
  let outcome := ScriptTree.Command.run w words
  let output ← IO.getStdout
  output.putStr outcome.output
  output.flush
  return outcome.status.toUInt32
