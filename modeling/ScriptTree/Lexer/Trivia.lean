import ScriptTree.Lexer.Scan

/-! Blanks and comments between tokens. A line comment ends at a line break, which is itself
blank. -/
namespace ScriptTree.Trivia

/-- Where a walk over trivia stands; a block comment remembers how far in it began. -/
inductive Mode where
  | between
  | lineComment
  | blockComment (start : Nat)
deriving DecidableEq, Repr

/-- Walks on after `n` characters. The extent is valid unless a block comment stays open; it then
ends before that comment. -/
def skipFrom : Mode → (n : Nat) → List Char → Extent
  | .blockComment start, _, [] => ⟨start, false⟩
  | _, n, [] => ⟨n, true⟩
  | .between, n, '/' :: '/' :: cs => skipFrom .lineComment (n + 2) cs
  | .between, n, '/' :: '*' :: cs => skipFrom (.blockComment n) (n + 2) cs
  | .between, n, c :: cs => if Text.isBlank c then skipFrom .between (n + 1) cs else ⟨n, true⟩
  | .lineComment, n, c :: cs =>
    skipFrom (if Text.isLineBreak c then .between else .lineComment) (n + 1) cs
  | .blockComment _, n, '*' :: '/' :: cs => skipFrom .between (n + 2) cs
  | .blockComment start, n, _ :: cs => skipFrom (.blockComment start) (n + 1) cs

/-- The trivia at the front of a text. -/
def skip (cs : List Char) : Extent := skipFrom .between 0 cs

end ScriptTree.Trivia
