import ScriptTree.Settings

/-! What a command finds around it: files, standard input and one variable. Reading a file is a
function of its path, so a command is a pure function of its world. -/
namespace ScriptTree.Command

inductive ReadFailure where
  | missing
  | notDirectory
  | isDirectory
  | nameTooLong
  | notText
  | other (description : String)
deriving DecidableEq, Repr

def ReadFailure.message : ReadFailure → String
  | .missing => "No such file or directory (os error 2)"
  | .notDirectory => "Not a directory (os error 20)"
  | .isDirectory => "Is a directory (os error 21)"
  | .nameTooLong => "File name too long (os error 36)"
  | .notText => "stream did not contain valid UTF-8"
  | .other description => description

structure World where
  standardInput : ByteArray
  file : String → Except ReadFailure ByteArray
  /-- The path of the settings file when the command line names none. -/
  configVariable : Option String

def decodeText (bytes : ByteArray) : Except ReadFailure String :=
  match String.fromUTF8? bytes with
  | some s => .ok s
  | none => .error .notText

def World.text (w : World) (path : String) : Except ReadFailure String :=
  (w.file path).bind decodeText

/-- A source text and the name it is reported under. -/
structure Input where
  name : String
  text : String
deriving DecidableEq, Repr

/-- Whether a path stands for standard input: a lone dash, whatever slashes follow it. -/
def isStandardInput (path : String) : Bool :=
  path.toList.head? == some '-' &&
    (path.splitOn "/").filter (fun part => part != "" && part != ".") == ["-"]

/-- Reads an input, or says why not, and gives what is left of standard input: nothing once it has
been read. -/
def readInput (w : World) (standardInput : ByteArray) (path : String) :
    Except String Input × ByteArray :=
  if isStandardInput path then
    (match decodeText standardInput with
      | .ok text => .ok ⟨"<stdin>", text⟩
      | .error e => .error ("Failed to read standard input: " ++ e.message), .empty)
  else
    (match w.text path with
      | .ok text => .ok ⟨path, text⟩
      | .error e => .error ("Failed to read " ++ path ++ ": " ++ e.message), standardInput)

/-- Why a settings file is of no use. -/
inductive SettingsFailure where
  | unreadable
  | malformed
deriving DecidableEq, Repr

def World.layer (w : World) (path : String) : Except SettingsFailure Layer :=
  match w.text path with
  | .error _ => .error .unreadable
  | .ok text =>
    match Layer.ofText? text with
    | some l => .ok l
    | none => .error .malformed

end ScriptTree.Command
