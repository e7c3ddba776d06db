import ScriptTree.Command.Arguments
import ScriptTree.Command.World
import ScriptTree.Json.Text
import ScriptTree.Transform
import ScriptTree.Tree.Shape

/-! Running a command line: its exit status and what it writes to standard output. -/
namespace ScriptTree

def Failure.toJson (f : Failure) : Json :=
  .object [("kind", .string f.cause.kind.text), ("message", .string f.message),
    ("offset", .nat f.offset), ("position", f.position.toJson)]

namespace Command

def programName : String := "sparse"
def programVersion : String := "0.2.0"

structure Outcome where
  status : Nat
  output : String
deriving DecidableEq, Repr

/-- Success, with one line or text that is already whole lines. -/
def succeed (output : String) : Outcome := ⟨0, output ++ "\n"⟩

def fail : Outcome := ⟨1, ""⟩

/-- A script that cannot be read as one. -/
def reject (json : Bool) (input : Input) (f : Failure) : Outcome :=
  if json then
    let report := Json.object
      [("ok", .bool false), ("file", .string input.name), ("error", f.toJson)]
    ⟨1, report.pretty ++ "\n"⟩
  else fail

def runVersion (json : Bool) : Outcome :=
  if json then
    succeed (Json.object [("name", .string programName), ("version", .string programVersion),
      ("max_depth", .nat defaultMaxDepth)]).compact
  else succeed (programName ++ " " ++ programVersion)

/-- Reads one input and handles its text. -/
def withInput (w : World) (path : String) (handle : Input → Outcome) : Outcome :=
  match (readInput w w.standardInput path).1 with
  | .ok input => handle input
  | .error _ => fail

def runParse (w : World) (settings : Settings) (json : Bool) (path : String) (compact : Bool) :
    Outcome :=
  withInput w path fun input =>
    match parse input.text settings.maxDepth with
    | .ok p => succeed (if compact then p.toJson.compact else p.toJson.pretty)
    | .error f => reject json input f

def tokenJson (t : Token) : Json :=
  .object [("kind", .string t.kind.label), ("value", .string t.kind.valueText),
    ("start", .nat t.span.start), ("end", .nat t.span.stop)]

def runTokens (w : World) (json : Bool) (path : String) : Outcome :=
  withInput w path fun input =>
    match Lexer.tokenize input.text with
    | .ok ts =>
      if json then succeed (Json.array (ts.map tokenJson)).pretty
      else ⟨0, String.join (ts.map fun t => t.display ++ "\n")⟩
    | .error f => reject json input f

def runPrint (w : World) (settings : Settings) (json : Bool) (path : String) (minified : Bool) :
    Outcome :=
  withInput w path fun input =>
    match transform input.text settings.maxDepth (settings.style minified) with
    | .ok text => if text.toList.getLast? = some '\n' then ⟨0, text⟩ else succeed text
    | .error f => reject json input f

/-- What became of one file. -/
inductive Verdict where
  | ok
  | rejected (f : Failure)
  | unreadable (message : String)
deriving DecidableEq, Repr

structure CheckResult where
  file : String
  verdict : Verdict
deriving DecidableEq, Repr

def CheckResult.isOk (r : CheckResult) : Bool := r.verdict == .ok

def CheckResult.toJson (r : CheckResult) : Json :=
  .object ([("file", .string r.file), ("ok", .bool r.isOk)] ++ match r.verdict with
    | .ok => []
    | .rejected f => [("error", f.toJson)]
    | .unreadable message => [("io_error", .string message)])

def checkInput (maxDepth : Nat) (path : String) : Except String Input → CheckResult
  | .ok input =>
    match parseSpans input.text maxDepth with
    | .ok _ => ⟨input.name, .ok⟩
    | .error f => ⟨input.name, .rejected f⟩
  | .error message => ⟨path, .unreadable message⟩

/-- One result for each path, in order. -/
def checkFiles (w : World) (maxDepth : Nat) :
    (standardInput : ByteArray) → List String → List CheckResult
  | _, [] => []
  | standardInput, path :: paths =>
    let (input, rest) := readInput w standardInput path
    checkInput maxDepth path input :: checkFiles w maxDepth rest paths

/-- How many results are not ok. -/
def failures (results : List CheckResult) : Nat := results.countP (!·.isOk)

def runCheck (w : World) (settings : Settings) (json : Bool) (paths : List String) : Outcome :=
  let results := checkFiles w settings.maxDepth w.standardInput paths
  let failed := failures results
  let report :=
    if json then
      (Json.object [("ok", .bool (failed == 0)), ("checked", .nat results.length),
        ("failed", .nat failed), ("results", .array (results.map CheckResult.toJson))]).pretty
    else
      "checked " ++ toString results.length ++ " file(s), " ++ toString failed ++ " failed"
  ⟨if failed = 0 then 0 else 1, report ++ "\n"⟩

def runAction (w : World) (settings : Settings) (json : Bool) : Action → Outcome
  | .version => runVersion json
  | .parse file compact => runParse w settings json file compact
  | .tokens file => runTokens w json file
  | .check files => runCheck w settings json files
  | .print file minified => runPrint w settings json file minified

/-- The settings under some flags: the flags over the file that they name, if any. -/
def settings (w : World) (flags : Flags) : Except SettingsFailure Settings :=
  match flags.config with
  | none => .ok flags.layer.settle
  | some path => (w.layer path).map fun file => (flags.layer.above file).settle

/-- Runs a command line. The settings are read first, whatever the command is. -/
def run (w : World) (words : List String) : Outcome :=
  match readArguments? w.configVariable words with
  | none => ⟨2, ""⟩
  | some .showVersion => succeed (programName ++ " " ++ programVersion)
  | some (.run flags action) =>
    match settings w flags with
    | .ok s => runAction w s flags.json action
    | .error _ => fail

end Command
end ScriptTree
