import ScriptTree.Json.Document
import ScriptTree.Parser
import ScriptTree.Printer.Piece

/-! Settings come in layers: the command line over a file over the defaults. A layer leaves open
what it does not say. A file is a JSON record: an object by names, or an array by places. -/
namespace ScriptTree

structure Settings where
  jsonLogs : Bool
  verbosity : Nat
  maxDepth : Nat
  indent : Option String
deriving DecidableEq, Repr

def Settings.style (s : Settings) (minified : Bool) : Style := ⟨minified, s.indent⟩

structure Layer where
  jsonLogs : Option Bool
  verbosity : Option Nat
  maxDepth : Option Nat
  indent : Option String
deriving DecidableEq, Repr

namespace Layer

/-- What `upper` says, and else what `lower` says. -/
def above (upper lower : Layer) : Layer where
  jsonLogs := upper.jsonLogs.or lower.jsonLogs
  verbosity := upper.verbosity.or lower.verbosity
  maxDepth := upper.maxDepth.or lower.maxDepth
  indent := upper.indent.or lower.indent

/-- The settings, with defaults for what is left open. -/
def settle (l : Layer) : Settings where
  jsonLogs := l.jsonLogs.getD false
  verbosity := l.verbosity.getD 0
  maxDepth := l.maxDepth.getD defaultMaxDepth
  indent := l.indent

end Layer

namespace Record

/-- The values given to the fields of a record. A field may be given once; an object may hold
others, which are passed over, and an array may stop early. -/
def members? (names : List String) : Document → Option (List (String × Document))
  | .object fields => do
    let named ← fields.mapM fun (name, value) => name.map fun name => (name, value)
    let known := named.filter fun (name, _) => names.contains name
    if (known.map (·.1)).Nodup then some known else none
  | .array items => if items.length ≤ names.length then some (names.zip items) else none
  | _ => none

/-- A field as its reader takes it, if it is given; none altogether if the reader refuses it. -/
def field? (members : List (String × Document)) (name : String) (reader : Document → Option α) :
    Option (Option α) :=
  match members.lookup name with
  | none => some none
  | some d => (reader d).map some

def bool? : Document → Option Bool
  | .bool b => some b
  | _ => none

/-- A natural number below a limit. -/
def natural? (limit : Nat) : Document → Option Nat
  | .number (some n) => if n < limit then some n else none
  | _ => none

/-- A string, or null for none. -/
def text? : Document → Option (Option String)
  | .null => some none
  | .string (some s) => some (some s)
  | _ => none

end Record

namespace Layer

def ofLimits? (d : Document) : Option (Option Nat) := do
  let members ← Record.members? ["max_depth"] d
  Record.field? members "max_depth" (Record.natural? Text.wordLimit)

/-- The layer that a document describes. -/
def ofDocument? (d : Document) : Option Layer := do
  let members ← Record.members? ["json_logs", "verbosity", "parser", "indent"] d
  let jsonLogs ← Record.field? members "json_logs" Record.bool?
  let verbosity ← Record.field? members "verbosity" (Record.natural? 256)
  let limits ← Record.field? members "parser" ofLimits?
  let indent ← Record.field? members "indent" Record.text?
  return ⟨jsonLogs, verbosity, limits.join, indent.join⟩

def ofText? (text : String) : Option Layer := (Document.read? text).bind ofDocument?

end Layer
end ScriptTree
