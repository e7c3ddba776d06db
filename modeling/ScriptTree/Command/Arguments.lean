import ScriptTree.Settings

/-! The command line. Words are read from left to right, first those before the name of a command
and then its own; flags may stand on either side, and the inner ones win. None stands for a line
that is not understood. -/
namespace ScriptTree.Command

inductive Action where
  | version
  | parse (file : String) (compact : Bool)
  | tokens (file : String)
  | check (files : List String)
  | print (file : String) (minified : Bool)
deriving DecidableEq, Repr

/-- The inputs that an action reads. -/
def Action.inputs : Action → List String
  | .version => []
  | .parse file _ | .tokens file | .print file _ => [file]
  | .check files => files

/-- Flags that every command takes. -/
structure Flags where
  verbose : Nat
  json : Bool
  config : Option String
  maxDepth : Option Nat
deriving DecidableEq, Repr

/-- What a command line asks for. -/
inductive Request where
  | showVersion
  | run (flags : Flags) (action : Action)
deriving DecidableEq, Repr

/-- What the settings are told by the flags. -/
def Flags.layer (f : Flags) : Layer where
  jsonLogs := if f.json then some true else none
  verbosity := if 0 < f.verbose then some f.verbose else none
  maxDepth := f.maxDepth
  indent := none

/-- The form of one word. -/
inductive Word where
  | long (name : String) (value : Option String)
  | short (letters : List Char)
  /-- Two dashes: all later words are operands. -/
  | endOfFlags
  | operand (text : String)
deriving DecidableEq, Repr

def Word.ofChars : List Char → Word
  | '-' :: '-' :: [] => .endOfFlags
  | '-' :: '-' :: cs =>
    let name := cs.takeWhile (· != '=')
    .long (String.ofList name)
      (if name.length < cs.length then some (String.ofList (cs.drop (name.length + 1))) else none)
  | '-' :: c :: cs => .short (c :: cs)
  | cs => .operand (String.ofList cs)

/-- The commands, and the words before any of them. -/
inductive Level where
  | top
  | version
  | parse
  | tokens
  | check
  | print
deriving DecidableEq, Repr

namespace Level

def ofName? : String → Option Level
  | "version" => some .version
  | "parse" => some .parse
  | "tokens" => some .tokens
  | "check" => some .check
  | "print" => some .print
  | _ => none

/-- The flag that only this command takes. -/
def ownFlag? : Level → Option String
  | .parse => some "compact"
  | .print => some "minify"
  | _ => none

/-- Whether one more operand is taken after `n`. -/
def takesOperand : Level → (n : Nat) → Bool
  | .parse, n | .tokens, n | .print, n => n == 0
  | .check, _ => true
  | _, _ => false

end Level

/-- What has been read at one level. -/
structure Given where
  flags : Flags
  own : Bool
  operands : List String
deriving DecidableEq, Repr

namespace Given

def nothing : Given := ⟨⟨0, false, none, none⟩, false, []⟩

/-- A flag without a value; only verbosity may be repeated, and its count stays in a byte. -/
def flag? (level : Level) (g : Given) (name : String) : Option Given :=
  if name = "verbose" then some { g with flags.verbose := min (g.flags.verbose + 1) 255 }
  else if name = "json" then if g.flags.json then none else some { g with flags.json := true }
  else if level.ownFlag? = some name then if g.own then none else some { g with own := true }
  else none

def takesValue (name : String) : Bool := name == "config" || name == "max-depth"

/-- A flag with its value, at most once. -/
def value? (g : Given) (name value : String) : Option Given :=
  if name = "config" then
    if g.flags.config.isSome || value.isEmpty then none
    else some { g with flags.config := some value }
  else if name = "max-depth" then
    if g.flags.maxDepth.isSome then none
    else (Text.readWord? value.toList).map fun n => { g with flags.maxDepth := some n }
  else none

/-- An operand, which is the path of a file and not empty. -/
def operand? (level : Level) (g : Given) (text : String) : Option Given :=
  if level.takesOperand g.operands.length && !text.isEmpty then
    some { g with operands := g.operands ++ [text] }
  else none

end Given

/-- Where reading a level stops. -/
inductive Stop where
  | showVersion
  | finished (given : Given)
  | command (given : Given) (level : Level) (rest : List String)

/-- The letters of a cluster of short flags; none if one of them asks for the version. -/
def readLetters (level : Level) : Given → List Char → Option (Option Given)
  | g, [] => some (some g)
  | g, 'v' :: cs => (g.flag? level "verbose").bind fun g => readLetters level g cs
  | _, 'V' :: _ => if level = .top then some none else none
  | _, _ => none

/-- Whether a word can be the value of the flag before it. -/
def isValue (word : String) : Bool :=
  match Word.ofChars word.toList with
  | .operand _ => true
  | _ => false

def readOperands (level : Level) (g : Given) (words : List String) : Option Given :=
  words.foldlM (fun g word => g.operand? level word) g

/-- The words of one level. -/
def readLevel (level : Level) (g : Given) : List String → Option Stop
  | [] => some (.finished g)
  | word :: rest =>
    match Word.ofChars word.toList with
    | .endOfFlags => (readOperands level g rest).map .finished
    | .operand text =>
      if level = .top then (Level.ofName? text).map fun level => .command g level rest
      else (g.operand? level text).bind fun g => readLevel level g rest
    | .short letters =>
      match readLetters level g letters with
      | none => none
      | some none => some .showVersion
      | some (some g) => readLevel level g rest
    | .long name (some value) => (g.value? name value).bind fun g => readLevel level g rest
    | .long name none =>
      if Given.takesValue name then
        match rest with
        | [] => none
        | value :: rest =>
          if isValue value then (g.value? name value).bind fun g => readLevel level g rest else none
      else if name = "version" ∧ level = .top then some .showVersion
      else (g.flag? level name).bind fun g => readLevel level g rest

/-- The flags of two levels together. -/
def Flags.inside (outer inner : Flags) : Flags where
  verbose := if 0 < inner.verbose then inner.verbose else outer.verbose
  json := inner.json || outer.json
  config := inner.config.or outer.config
  maxDepth := inner.maxDepth.or outer.maxDepth

/-- What a level does once its words are read. A file that is not named is standard input. -/
def Given.action? (level : Level) (g : Given) : Option Action :=
  match level, g.operands with
  | .top, _ | .version, _ => some .version
  | .parse, files => some (.parse (files.headD "-") g.own)
  | .tokens, files => some (.tokens (files.headD "-"))
  | .print, files => some (.print (files.headD "-") g.own)
  | .check, [] => none
  | .check, files => some (.check files)

/-- The path of the settings file, taken from the variable where a level does not name one. An empty
path is refused wherever it would be taken. -/
def configPath? (environment : Option String) (levels : List Flags) : Option (Option String) :=
  let named := levels.filterMap (·.config)
  if environment = some "" ∧ named.length < levels.length then none
  else some (named.getLast?.or environment)

def request? (level : Level) (environment : Option String) (g : Given) (levels : List Flags) :
    Option Request := do
  let config ← configPath? environment levels
  let action ← g.action? level
  let flags := levels.foldl Flags.inside Given.nothing.flags
  return .run { flags with config } action

/-- Reads a command line. -/
def readArguments? (environment : Option String) (words : List String) : Option Request := do
  match ← readLevel .top .nothing words with
  | .showVersion => return .showVersion
  | .finished g => request? .top environment g [g.flags]
  | .command outer level rest =>
    match ← readLevel level .nothing rest with
    | .finished g => request? level environment g [outer.flags, g.flags]
    | _ => none

end ScriptTree.Command
