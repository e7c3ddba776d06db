import ScriptTree.Text.Class
import ScriptTree.Text.Measure

/-! Places in a source text. Tokens and tree nodes carry byte spans, which can be resolved to
locations. The line table is built once per text and keeps, for each line, the text from its start
on, so a column is measured inside the line. -/
namespace ScriptTree

/-- A half-open range of byte offsets. -/
structure Span where
  start : Nat
  stop : Nat
deriving DecidableEq, Repr

/-- Lines count from 1, columns from 0 in UTF-16 code units. -/
structure Position where
  line : Nat
  column : Nat
deriving DecidableEq, Repr

/-- The text a node was read from, and where it stood. -/
structure Location where
  source : String
  start : Position
  stop : Position
deriving DecidableEq, Repr

/-- A line: its first byte and the text from there to the end of the source. -/
structure Line where
  start : Nat
  text : List Char
deriving DecidableEq

/-- The lines of a text. There is always a first one, at offset 0. -/
structure LineTable where
  first : Line
  later : List Line
deriving DecidableEq

namespace LineTable

/-- The lines that begin after a line break of `cs`, which stands at byte `offset`. -/
def linesAfter (offset : Nat) : List Char → List Line
  | [] => []
  | '\r' :: '\n' :: cs => ⟨offset + 2, cs⟩ :: linesAfter (offset + 2) cs
  | c :: cs =>
    let next := offset + c.utf8Size
    if Text.isLineBreak c then ⟨next, cs⟩ :: linesAfter next cs else linesAfter next cs

def ofText (cs : List Char) : LineTable := ⟨⟨0, cs⟩, linesAfter 0 cs⟩

def count (t : LineTable) : Nat := t.later.length + 1

/-- The last of some lines that begins at or before `offset`, with its number. The lines are `line`,
which has the given number, and the `later` ones. -/
def lineAt (offset : Nat) : (number : Nat) → (line : Line) → (later : List Line) → Nat × Line
  | number, line, [] => (number, line)
  | number, line, next :: later =>
    if next.start ≤ offset then lineAt offset (number + 1) next later else (number, line)

/-- The place of a byte offset. An offset inside a character or past the end still has a line; its
column is then the distance in bytes. -/
def position (t : LineTable) (offset : Nat) : Position :=
  let (number, line) := lineAt offset 1 t.first t.later
  let distance := offset - line.start
  { line := number
    column := (Text.unitsBefore 0 distance line.text).getD distance }

end LineTable

/-- The location of a span, in a source whose lines are known. -/
def Span.locate (source : List Char) (lines : LineTable) (s : Span) : Location where
  source := (Text.slice source s.start s.stop).getD ""
  start := lines.position s.start
  stop := lines.position s.stop

end ScriptTree
