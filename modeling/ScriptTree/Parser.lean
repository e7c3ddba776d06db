import ScriptTree.Parser.Statement
import ScriptTree.Tree.Map

/-! Reading a whole script. Nesting is bounded: every statement or expression inside another is read
with one level less, and none is left at level 0. -/
namespace ScriptTree.Parser

/-- No level of nesting is left. -/
def tooDeep : Parse α := do faultHere (.nestingTooDeep (← read).limit)

/-- The readers that have a number of levels left. -/
def readers : Nat → Readers
  | 0 => { statement := tooDeep, expression := fun _ _ => tooDeep }
  | levels + 1 => {
      statement := fun c => statement (readers levels) c
      expression := fun floor forHead c => expression (readers levels) floor forHead c }

def program (inner : Readers) : Parse (Program Span) := do
  let start ← here
  let body ← upTo (· == .endOfInput) inner.statement
  return ⟨← finish start, body⟩

/-- The context of a whole script. -/
def Context.ofText (source : List Char) (limit : Nat) : Context :=
  { limit, budget := source.length + 2, checkLabels := true, scope := Scope.empty }

/-- How reading a script ends: with its tree or its first fault. The tokens obtained on the way are
kept, in order. -/
structure Ending where
  result : Except Fault (Program Span)
  tokens : List Token

/-- Reads a script in a context. -/
def run (c : Context) (source : List Char) : Ending :=
  let start := Cursor.ofText source
  match Lexer.next false start with
  | (.error f, _) => ⟨.error f, []⟩
  | (.ok token, cursor) =>
    match program (readers c.limit) c ⟨token, Lexer.gap start, [], cursor⟩ with
    | .ok p s => ⟨.ok p, s.tokens⟩
    | .error f s => ⟨.error f, s.tokens⟩

end ScriptTree.Parser

namespace ScriptTree

/-- How deep statements and expressions may be nested if nothing else is said. -/
def defaultMaxDepth : Nat := 128

/-- Reads a script with a bound on nesting. -/
def parseSpans (source : String) (maxDepth : Nat) : Except Failure (Program Span) :=
  let cs := source.toList
  (Parser.run (Parser.Context.ofText cs maxDepth) cs).result.mapError
    (Fault.resolve (LineTable.ofText cs))

/-- The tree with its spans looked up in the source. -/
def Program.locate (source : List Char) (p : Program Span) : Program Location :=
  let lines := LineTable.ofText source
  p.map (·.locate source lines)

/-- Reads a script with a bound on nesting, and locates its tree. -/
def parse (source : String) (maxDepth : Nat) : Except Failure (Program Location) :=
  (parseSpans source maxDepth).map (·.locate source.toList)

end ScriptTree
